import Mathlib.Data.Finset.Card
import Mathlib.Logic.Function.Basic
import OntologicalDb.Ids
import OntologicalDb.RowDocuments
import OntologicalDb.Traverse

/-!
The SQL the compilers generate: expressions with their text and their value,
the relations of a `FROM` list, and the rows a `FROM` list and its `WHERE`
produce.
-/

namespace OntologicalDb.Sql

open OntologicalDb.GraphStorage
open OntologicalDb.Ids
open OntologicalDb.Labeling
open OntologicalDb.RowDocuments
open OntologicalDb.Traverse
open OntologicalDb.TypeCatalog
open OntologicalDb.TypedTables
open OntologicalDb.Values

/-- A generated alias: a prefix and the number that tells it from all others. -/
structure Alias where
  pfx : String
  num : Nat
deriving DecidableEq

def Alias.text (a : Alias) : String := a.pfx ++ toString a.num

/-- SQL string literal with proper escaping. -/
def sqlStr (s : String) : String :=
  "'" ++ String.ofList (s.toList.flatMap fun c => if c = '\'' then [c, c] else [c]) ++ "'"

/-- SQL identifier with proper quoting. -/
def quoteIdent (s : String) : String :=
  "\"" ++ String.ofList (s.toList.flatMap fun c => if c = '"' then [c, c] else [c]) ++ "\""

/-- What an operator or a function computes; `fn` stands for the functions only
PostgreSQL defines. -/
inductive SqlOp
  | and
  | or
  | not
  | eq
  | ne
  | distinctFrom
  | notDistinctFrom
  | isNull
  | isNotNull
  | inList
  | coalesce
  | caseWhen (operand : Bool) (whens : Nat)
  | cast (type : String)
  | castScalar (type : String)
  | get (key : String)
  | getText (key : String)
  | toJsonb
  | jsonArray
  | jsonObject (keys : List String)
  | document (keys : List String)
  | typeName
  | idType
  | isSubtype (sup : Int)
  | labels
  | nodeJson
  | edgeJson
  | requireCurrent
  | fn (name : String)
deriving DecidableEq

inductive Agg
  | count
  | sum
  | avg
  | min
  | max
  | collect
  | stdev
deriving DecidableEq

inductive Quantifier
  | any
  | all
  | none
  | single
deriving DecidableEq

/-- An expression.  An application carries the text around its arguments, so
its text is read off as the compiler writes it. -/
inductive SqlExpr
  | lit (v : Val) (text : String)
  | param (key : String)
  | col (name : Alias) (column : String)
  | app (op : SqlOp) (pieces : List String) (args : List SqlExpr)
  | listComp (name : Alias) (src body cond : SqlExpr) (filtered : Bool)
  | listPred (kind : Quantifier) (name : Alias) (src cond : SqlExpr)
  | agg (k : Agg) (distinct : Bool) (args : List SqlExpr)

section Text

def interleave : List String → List String → String
  | p :: ps, a :: as => p ++ (a ++ interleave ps as)
  | ps, [] => String.join ps
  | [], _ :: _ => ""

def Agg.text : Agg → String
  | .count => "count"
  | .sum => "sum"
  | .avg => "avg"
  | .min => "min"
  | .max => "max"
  | .collect => "jsonb_agg"
  | .stdev => "stddev_samp"

/-- `FROM` the elements of a list, under a condition. -/
def elementsText (src alias_ cond : String) : String :=
  "FROM jsonb_array_elements((" ++ (src ++ (")::jsonb) AS " ++ (alias_ ++
    ("(v) WHERE " ++ cond))))

mutual

def SqlExpr.text : SqlExpr → String
  | .lit _ text => text
  | .param key => "($1 ->> " ++ sqlStr key ++ ")"
  | .col a column => a.text ++ ("." ++ column)
  | .app _ pieces args => interleave pieces (SqlExpr.texts args)
  | .listComp a src body cond filtered =>
      "(SELECT coalesce(jsonb_agg(" ++ (body.text ++
        ("), '[]'::jsonb) FROM jsonb_array_elements((" ++ (src.text ++
          (")::jsonb) AS " ++ (a.text ++ ("(v)" ++
            (if filtered then " WHERE " ++ (cond.text ++ ")") else ")")))))))
  | .listPred .any a src cond =>
      "(EXISTS (SELECT 1 " ++ elementsText src.text a.text (cond.text ++ "))")
  | .listPred .none a src cond =>
      "(NOT EXISTS (SELECT 1 " ++ elementsText src.text a.text (cond.text ++ "))")
  | .listPred .single a src cond =>
      "((SELECT count(*) " ++ elementsText src.text a.text (cond.text ++ ") = 1)")
  | .listPred .all a src cond =>
      "(NOT EXISTS (SELECT 1 " ++ elementsText src.text a.text
        ("NOT coalesce(" ++ (cond.text ++ ", false)))"))
  | .agg .count _ [] => "count(*)"
  | .agg .stdev _ args => interleave ["stddev_samp((", ")::float8)"] (SqlExpr.texts args)
  | .agg k distinct args =>
      interleave [k.text ++ (if distinct then "(DISTINCT " else "("), ")"] (SqlExpr.texts args)

def SqlExpr.texts : List SqlExpr → List String
  | [] => []
  | e :: es => e.text :: SqlExpr.texts es

end

def isWordChar (c : Char) : Bool := c.isAlphanum || c = '_'

/-- Does `needle` occur with no word character before it? -/
def occursAsWord (needle : List Char) : Option Char → List Char → Bool
  | _, [] => false
  | prev, c :: cs =>
      (needle.isPrefixOf (c :: cs) && !prev.any isWordChar) ||
        occursAsWord needle (some c) cs

/-- Does this SQL mention the alias as a whole word? -/
def mentionsAlias (sql : String) (name : Alias) : Bool :=
  occursAsWord (name.text ++ ".").toList none sql.toList

end Text

section Values

/-- PostgreSQL's own operators, as far as no statement here depends on which
values they give.  `DISTINCT` aggregates and extrema see a set of inputs. -/
structure Postgres where
  equal : Val → Val → Bool
  equal_int : ∀ a b, equal (.int a) (.int b) = decide (a = b)
  cast : String → Val → Val
  fn : String → List Val → Val
  aggregate : Agg → List Val → Val
  aggregateSet : Agg → Finset Val → Val

/-- A server whose values are equal when they are the same, and that computes
none of the functions left open. -/
def Postgres.literal : Postgres where
  equal a b := a = b
  equal_int a b := by simp
  cast _ v := v
  fn _ _ := .null
  aggregate _ _ := .null
  aggregateSet _ _ := .null

/-- What a query runs against: the server, the store, what it sees of versioned
tables, its parameters, and the rows of the segment that a `WITH` closed. -/
structure Env where
  pg : Postgres
  db : Store
  asOf : AsOf
  params : Json
  segment : List Tuple

abbrev Scope := Alias → Tuple

def emptyScope : Scope := fun _ => nullTuple

/-- `WHERE` and `ON` keep a row whose predicate is true, not merely not false. -/
def accepts (v : Val) : Bool := v = .bool true

def and3 : Val → Val → Val
  | .bool a, .bool b => .bool (a && b)
  | .bool false, _ | _, .bool false => .bool false
  | _, _ => .null

def not3 : Val → Val
  | .bool b => .bool !b
  | _ => .null

def or3 (a b : Val) : Val := not3 (and3 (not3 a) (not3 b))

/-- A comparison is NULL when an operand is. -/
def strict (f : Val → Val → Bool) (a b : Val) : Val :=
  if a = .null ∨ b = .null then .null else .bool (f a b)

def sameValue (pg : Postgres) (a b : Val) : Bool :=
  if a = .null ∨ b = .null then a = .null && b = .null else pg.equal a b

def memberOf (pg : Postgres) (x : Val) : List Val → Val
  | [] => .bool false
  | y :: ys => or3 (strict pg.equal x y) (memberOf pg x ys)

def firstPresent : List Val → Val
  | [] => .null
  | x :: xs => if x = .null then firstPresent xs else x

/-- The branches of a `CASE`; `test` decides a `WHEN`. -/
def caseBranches (test : Val → Bool) : Nat → List Val → Val
  | n + 1, w :: v :: rest => if test w then v else caseBranches test n rest
  | _, e :: _ => e
  | _, [] => .null

def asInt : Val → Option Int
  | .int i => some i
  | _ => none

/-- `document #>> '{}'`. -/
def scalarText : Val → Val
  | .json .null => .null
  | .json (.str s) => .text s
  | .json j => .text j.text
  | _ => .null

def jsonbOf : Val → Val
  | .null => .null
  | v => .json (toJson v)

def member (key : String) : Val → Val
  | .json j => ((j.get? key).map Val.json).getD .null
  | _ => .null

def memberText (key : String) : Val → Val
  | .json j => j.getText key
  | _ => .null

/-- The document of an element from its identity, its declared properties
without the missing ones, and its extension payload. -/
def elementDocument (keys : List String) : List Val → Val
  | .null :: _ => .null
  | _ :: vals =>
      let fields := (keys.zip vals).filter fun kv => kv.2 ≠ .null
      let ext := match vals.drop keys.length with
        | [.json j] => j
        | _ => .obj []
      .json (concatJson (.obj (fields.map fun kv => (kv.1, toJson kv.2))) ext)
  | [] => .null

def labelsOf (c : Catalog) : Val → Val
  | .int tid => .json (.arr ((ogSupertypes c tid).map fun t => toJson (ogTypeName c t)))
  | _ => .null

def SqlOp.apply (env : Env) : SqlOp → List Val → Val
  | .and, [a, b] => and3 a b
  | .or, [a, b] => or3 a b
  | .not, [a] => not3 a
  | .eq, [a, b] => strict env.pg.equal a b
  | .ne, [a, b] => strict (fun x y => !env.pg.equal x y) a b
  | .distinctFrom, [a, b] => .bool !sameValue env.pg a b
  | .notDistinctFrom, [a, b] => .bool (sameValue env.pg a b)
  | .isNull, [a] => .bool (a = .null)
  | .isNotNull, [a] => .bool (a ≠ .null)
  | .inList, x :: xs => memberOf env.pg x xs
  | .coalesce, xs => firstPresent xs
  | .caseWhen false n, xs => caseBranches accepts n xs
  | .caseWhen true n, o :: xs => caseBranches (fun w => accepts (strict env.pg.equal o w)) n xs
  | .cast type, [a] => if a = .null then .null else env.pg.cast type a
  | .castScalar type, [a] =>
      if scalarText a = .null then .null else env.pg.cast type (scalarText a)
  | .get key, [a] => member key a
  | .getText key, [a] => memberText key a
  | .toJsonb, [a] => jsonbOf a
  | .jsonArray, xs => .json (.arr (xs.map toJson))
  | .jsonObject keys, xs => .json (.obj (keys.zip (xs.map toJson)))
  | .document keys, xs => elementDocument keys xs
  | .typeName, [.int t] => ogTypeName env.db.schema.catalog t
  | .idType, [.int i] => .int (Ids.idType i)
  | .isSubtype sup, [.int t] => .bool (ogIsSubtype env.db.schema.catalog t sup)
  | .labels, [t] => labelsOf env.db.schema.catalog t
  | .nodeJson, [.int i] => ogNodeJson env.db i
  | .edgeJson, [.int i] => ogEdgeJson env.db i
  | .requireCurrent, _ => .bool true
  | .fn name, xs => env.pg.fn name xs
  | _, _ => .null

/-- `jsonb_array_elements`; a NULL list has none. -/
def elements : Val → List Json
  | .json (.arr xs) => xs
  | _ => []

def elementTuple (j : Json) : Tuple := fun column =>
  if column = "v" then .json j else .null

/-- An aggregate over the values its argument takes in a group. -/
def Agg.apply (pg : Postgres) (k : Agg) (distinct : Bool) (vals : List Val) : Val :=
  let present := vals.filter fun v => v ≠ .null
  match k, distinct with
  | .count, false => .int present.length
  | .count, true => .int present.toFinset.card
  | .min, _ | .max, _ => pg.aggregateSet k present.toFinset
  | .collect, true => pg.aggregateSet k vals.toFinset
  | .sum, true | .avg, true => pg.aggregateSet k present.toFinset
  | .collect, false => pg.aggregate k vals
  | _, _ => pg.aggregate k present

def Quantifier.apply : Quantifier → List Val → Val
  | .any, conds => .bool (conds.any accepts)
  | .none, conds => .bool !conds.any accepts
  | .single, conds => .bool ((conds.filter accepts).length = 1)
  | .all, conds => .bool (conds.all accepts)

mutual

/-- The value of an expression in a row; aggregates range over `group`. -/
def SqlExpr.eval (env : Env) (group : List Scope) : Scope → SqlExpr → Val
  | _, .lit v _ => v
  | _, .param name => env.params.getText name
  | s, .col a column => s a column
  | s, .app op _ args => op.apply env (SqlExpr.evals env group s args)
  | s, .listComp a src body cond _ =>
      .json (.arr ((((elements (env.pg.cast "jsonb" (src.eval env group s))).map fun j =>
        Function.update s a (elementTuple j)).filter fun s' =>
          accepts (cond.eval env group s')).map fun s' => toJson (body.eval env group s')))
  | s, .listPred kind a src cond =>
      kind.apply ((elements (env.pg.cast "jsonb" (src.eval env group s))).map fun j =>
        cond.eval env group (Function.update s a (elementTuple j)))
  | _, .agg .count _ [] => .int group.length
  | _, .agg k distinct args =>
      k.apply env.pg distinct (group.map fun s =>
        (SqlExpr.evals env [] s args).headD .null)

def SqlExpr.evals (env : Env) (group : List Scope) : Scope → List SqlExpr → List Val
  | _, [] => []
  | s, e :: es => e.eval env group s :: SqlExpr.evals env group s es

end

/-- A predicate holds in a row. -/
def Holds (env : Env) (s : Scope) (p : SqlExpr) : Prop := accepts (p.eval env [] s) = true

instance (env : Env) (s : Scope) (p : SqlExpr) : Decidable (Holds env s p) :=
  inferInstanceAs (Decidable (_ = _))

end Values

section Relations

/-- What an entry of a `FROM` list scans. -/
inductive Rel
  | node
  | view (tid : Int) (isEdge : Bool)
  | hop (src : Alias) (dir : HopDir) (etypes : Option (List Int)) (temporal : List Int)
  | vlp (src : Alias) (etypes : Option (List Int)) (dir : HopDir) (min max : Nat)
  | reach (src : Alias) (etypes : Option (List Int)) (dir : HopDir) (min max : Nat)
  | unwind (src : SqlExpr)
  | segment

/-- The far end and the edge of every versioned relationship at a node. -/
def temporalPairs (env : Env) (v : Int) (dir : HopDir) (tid : Int) : List (Int × Int) :=
  match storageTable env.db.schema.catalog tid with
  | none => []
  | some table =>
      let rows := (env.asOf table).filterMap fun r => r.ends.map fun e => (r.id, e)
      (if dir = .i then [] else
        (rows.filter fun r => r.2.1 = v).map fun r => (r.2.2, r.1)) ++
      (if dir = .o then [] else
        (rows.filter fun r => r.2.2 = v).map fun r => (r.2.1, r.1))

/-- The neighbour and the edge of every relationship a hop may cross. -/
def hopPairs (env : Env) (v : Int) (dir : HopDir) (etypes : Option (List Int))
    (temporal : List Int) : List (Int × Int) :=
  (env.db.ogAdj.filter fun a =>
    a.src = v ∧ AdjWhere dir etypes a ∧ a.etype ∉ temporal).flatMap (fun a =>
      a.nbr.zip a.eid) ++ temporal.flatMap (temporalPairs env v dir)

def hopTuple (u : Int × Int) : Tuple := fun column =>
  if column = "nbr" then .int u.1 else if column = "eid" then .int u.2 else .null

def vlpTuple (w : WalkRow) : Tuple := fun column =>
  if column = "node" then .int w.node
  else if column = "depth" then .int w.depth
  else if column = "path" then .array (w.path.map Val.int)
  else .null

def reachTuple (x : Int × Int) : Tuple := fun column =>
  if column = "node" then .int x.1 else if column = "depth" then .int x.2 else .null

/-- The rows of a relation; a lateral one reads the row to its left. -/
def Rel.rows (env : Env) (s : Scope) : Rel → List Tuple
  | .node => env.db.ogNode.map registryTuple
  | .view tid isEdge => viewRows env.db.schema env.asOf tid isEdge
  | .hop src dir etypes temporal =>
      match asInt (s src "id") with
      | none => []
      | some v => (hopPairs env v dir etypes temporal).map hopTuple
  | .vlp src etypes dir min max =>
      match asInt (s src "id") with
      | none => []
      | some v => (ogVlp env.db.ogAdj etypes dir v min max).map vlpTuple
  | .reach src etypes dir min max =>
      match asInt (s src "id") with
      | none => []
      | some v => (ogReach env.db.ogAdj etypes dir v min max).map reachTuple
  | .unwind src => (elements (env.pg.cast "jsonb" (src.eval env [] s))).map elementTuple
  | .segment => env.segment

/-- How an entry is joined to what stands before it; the first one is not. -/
inductive JoinKind
  | first
  | cross
  | inner
  | left
deriving DecidableEq

/-- An entry of a `FROM` list; no condition is `ON true`. -/
structure FromItem where
  join : JoinKind
  rel : Rel
  name : Alias
  on : List SqlExpr

/-- Only an inner or a left join has an `ON` to put conditions in. -/
def FromItem.WellFormed (it : FromItem) : Prop :=
  it.join = .first ∨ it.join = .cross → it.on = []

instance (it : FromItem) : Decidable it.WellFormed :=
  match it with
  | ⟨join, _, _, []⟩ => isTrue fun _ => rfl
  | ⟨.first, _, _, _ :: _⟩ => isFalse fun h => nomatch h (.inl rfl)
  | ⟨.cross, _, _, _ :: _⟩ => isFalse fun h => nomatch h (.inr rfl)
  | ⟨.inner, _, _, _ :: _⟩ => isTrue fun h => by simp at h
  | ⟨.left, _, _, _ :: _⟩ => isTrue fun h => by simp at h

/-- The rows an entry matches a row with. -/
def FromItem.candidates (env : Env) (it : FromItem) (s : Scope) : List Scope :=
  ((it.rel.rows env s).map fun x => Function.update s it.name x).filter fun s' =>
    it.on.all fun p => Holds env s' p

/-- The rows an entry extends a row to: an outer join keeps a row without a
match, with NULL in every new column. -/
def FromItem.extend (env : Env) (it : FromItem) (s : Scope) : List Scope :=
  let found := it.candidates env s
  if it.join = .left ∧ found = [] then [Function.update s it.name nullTuple] else found

/-- The rows a list of entries extends a row to, entry by entry. -/
def extendAll (env : Env) : List FromItem → Scope → List Scope
  | [], s => [s]
  | it :: items, s => (it.extend env s).flatMap (extendAll env items)

def Satisfies (env : Env) (s : Scope) (preds : List SqlExpr) : Prop :=
  ∀ p ∈ preds, Holds env s p

instance (env : Env) (s : Scope) (preds : List SqlExpr) : Decidable (Satisfies env s preds) :=
  inferInstanceAs (Decidable (∀ p ∈ preds, Holds env s p))

/-- The rows of a `FROM` list under a `WHERE`. -/
def selectRows (env : Env) (items : List FromItem) (wheres : List SqlExpr) :
    Except String (List Scope) :=
  if ∀ it ∈ items, it.WellFormed then
    .ok ((extendAll env items emptyScope).filter fun s => Satisfies env s wheres)
  else .error "syntax error at or near \"AND\""

end Relations

end OntologicalDb.Sql
