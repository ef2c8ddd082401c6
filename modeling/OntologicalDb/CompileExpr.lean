import OntologicalDb.CypherSyntax
import OntologicalDb.Sql

/-!
Compilation of Cypher expressions to SQL.
-/

namespace OntologicalDb.CompileExpr

open OntologicalDb.CypherSyntax
open OntologicalDb.RowDocuments
open OntologicalDb.Sql
open OntologicalDb.TypeCatalog
open OntologicalDb.TypedTables
open OntologicalDb.Values

/-- What a variable stands for in the SQL compiled so far. -/
inductive Bind
  | node (name : Alias) (tid : Option Int)
  | rel (name : Option Alias) (tid : Option Int) (idExpr : SqlExpr)
  | path (hopsExpr : SqlExpr)
  | scalar (sql : SqlExpr)

abbrev Binds := List (String × Bind)

def lookupBind (binds : Binds) (v : String) : Option Bind :=
  (binds.find? fun b => b.1 = v).map (·.2)

def insertBind (v : String) (b : Bind) (binds : Binds) : Binds :=
  (v, b) :: binds.filter fun x => x.1 ≠ v

theorem lookupBind_insertBind {v w : String} {b : Bind} {binds : Binds} :
    lookupBind (insertBind v b binds) w = if w = v then some b else lookupBind binds w := by
  unfold lookupBind insertBind
  by_cases hw : w = v
  · simp [hw]
  · have hvw : ¬ v = w := fun h => hw h.symm
    rw [if_neg hw, List.find?_cons_of_neg (by simpa using hvw), List.find?_filter]
    congr 2
    funext x
    by_cases hx : x.1 = w <;> simp [hx, hw]

section Pieces

def boolLit (b : Bool) : SqlExpr := .lit (.bool b) (toString b)
def strLit (s : String) : SqlExpr := .lit (.text s) (sqlStr s)

/-- The text around the arguments of a list. -/
def listPieces (first sep last : String) : Nat → List String
  | 0 => [first ++ last]
  | n + 1 => first :: (List.replicate n sep ++ [last])

/-- The text around the values of `jsonb_build_object`. -/
def objectPieces (first last : String) : List String → List String
  | [] => [first ++ last]
  | k :: ks =>
      (first ++ sqlStr k ++ ", ") :: (ks.map fun k => ", " ++ sqlStr k ++ ", ") ++ [last]

def casePieces (operand : Bool) (whens : Nat) (otherwise : Bool) : List String :=
  let rest := (List.replicate whens [" WHEN ", " THEN "]).flatten ++
    (if otherwise then [" ELSE "] else []) ++ [" END)"]
  match operand, rest with
  | false, p :: ps => ("(CASE" ++ p) :: ps
  | _, ps => "(CASE " :: ps

/-- A function PostgreSQL computes, from the text around its arguments. -/
def call (name : String) (pieces : List String) (args : List SqlExpr) : SqlExpr :=
  .app (.fn name) pieces args

def castText (type : String) (e : SqlExpr) : SqlExpr :=
  .app (.cast type) ["(", ")::" ++ type] [e]

def equals (l r : SqlExpr) : SqlExpr := .app .eq ["", " = ", ""] [l, r]

def idOf (a : Alias) : SqlExpr := .col a "id"

end Pieces

section Properties

variable (c : Catalog) (a : Alias) (tid : Option Int) (prop : String)

/-- A property access, with the column's type when it is a column. -/
def propSql : SqlExpr × Option String :=
  if prop = "id" ∨ prop = "_id" then (idOf a, some "int8")
  else match tid with
    | some t =>
        match viewProperty? c t prop with
        | some (column, dtype) => (.col a column, some dtype)
        | none => (.app (.getText prop) ["(", "->>" ++ sqlStr prop ++ ")"] [.col a "__ext"], none)
    | none =>
        (.app (.getText prop) ["(", "->>" ++ sqlStr prop ++ ")"]
          [.app .nodeJson ["og_node_json(", ")"] [idOf a]], none)

/-- A property access that keeps its JSON type. -/
def propSqlJson : SqlExpr :=
  if prop = "id" ∨ prop = "_id" then .app .toJsonb ["to_jsonb(", ")"] [idOf a]
  else match tid with
    | some t =>
        match viewProperty? c t prop with
        | some (column, _) => .app .toJsonb ["to_jsonb(", ")"] [.col a column]
        | none => .app (.get prop) ["(", " -> " ++ sqlStr prop ++ ")"] [.col a "__ext"]
    | none =>
        .app (.get prop) ["(", " -> " ++ sqlStr prop ++ ")"]
          [.app .nodeJson ["og_node_json(", ")"] [idOf a]]

/-- The document of an element with the given identity columns. -/
def elementSql (fixed : List (String × SqlExpr)) (tid : Int) : SqlExpr :=
  let props := viewProperties c tid
  let keys := fixed.map (·.1) ++ props.map (·.1)
  let columns := fixed.map (·.2) ++
    props.map fun p => SqlExpr.app .toJsonb ["to_jsonb(", ")"] [.col a p.2.1]
  .app (.document keys)
    ("(CASE WHEN " :: objectPieces " IS NULL THEN NULL ELSE jsonb_strip_nulls(jsonb_build_object("
      ")) || COALESCE(" keys ++ [",'\x7b\x7d'::jsonb) END)"])
    (idOf a :: columns ++ [SqlExpr.col a "__ext"])

def typeNameSql : SqlExpr := .app .typeName ["og_type_name(", ")"] [.col a "type_id"]

def nodeJson : SqlExpr :=
  match tid with
  | some t => elementSql c a [("_id", idOf a), ("_type", typeNameSql a)] t
  | none => .app .nodeJson ["og_node_json(", ")"] [idOf a]

def relJson (t : Int) : SqlExpr :=
  elementSql c a [("_id", idOf a), ("_type", typeNameSql a),
    ("_src", .col a "src"), ("_dst", .col a "dst")] t

end Properties

section Variables

variable (c : Catalog) (binds : Binds)

def undefinedVar (v : String) : String := s!"variable '{v}' is not defined in this query"

def varValue (v : String) : Except String SqlExpr :=
  match lookupBind binds v with
  | some (.node a tid) => .ok (nodeJson c a tid)
  | some (.rel (some a) (some t) _) => .ok (relJson c a t)
  | some (.rel _ _ idExpr) => .ok (.app .edgeJson ["og_edge_json(", ")"] [idExpr])
  | some (.path hops) => .ok hops
  | some (.scalar sql) => .ok sql
  | none => .error (undefinedVar v)

/-- `v.p` as an operand. -/
def propOperand (v p : String) : Except String SqlExpr :=
  match lookupBind binds v with
  | some (.node a tid) => .ok (propSql c a tid p).1
  | some (.rel (some a) tid _) => .ok (propSql c a tid p).1
  | some (.rel none _ idExpr) =>
      .ok (.app (.getText p) ["(", " ->> " ++ sqlStr p ++ ")"]
        [.app .edgeJson ["og_edge_json(", ")"] [idExpr]])
  | some (.scalar sql) => .ok (.app (.getText p) ["(", " ->> " ++ sqlStr p ++ ")"] [sql])
  | some (.path _) => .error s!"'{v}' is a path; use length({v}) or nodes({v})"
  | none => .error (undefinedVar v)

/-- `v.p` as it appears in a result. -/
def propOutput (v p : String) : Except String SqlExpr :=
  match lookupBind binds v with
  | some (.node a tid) => .ok (propSqlJson c a tid p)
  | some (.rel (some a) tid _) => .ok (propSqlJson c a tid p)
  | some (.scalar sql) => .ok (.app (.get p) ["((", ") -> " ++ sqlStr p ++ ")"] [sql])
  | _ => propOperand c binds v p

/-- The SQL type of an expression, when it can be determined. -/
def typeOf : Expr → Option String
  | .prop (.var v) p =>
      match lookupBind binds v with
      | some (.node a tid) => (propSql c a tid p).2
      | some (.rel (some a) tid _) => (propSql c a tid p).2
      | _ => none
  | .lit (.int _) => some "int8"
  | .lit (.float _) => some "float8"
  | .lit (.bool _) => some "bool"
  | .lit (.str _) => some "text"
  | _ => none

/-- `(document ->> '_id')::int8`. -/
def scalarId (sql : SqlExpr) : SqlExpr :=
  .app (.cast "int8") ["(", ")::int8"]
    [.app (.getText "_id") ["(", ") ->> '_id'"] [sql]]

def elementIdSql (v fname : String) : Except String SqlExpr :=
  match lookupBind binds v with
  | some (.node a _) => .ok (idOf a)
  | some (.rel (some a) _ _) => .ok (idOf a)
  | some (.rel none _ idExpr) => .ok idExpr
  | some (.scalar sql) => .ok (scalarId sql)
  | _ => .error s!"{fname}() cannot be applied to '{v}'"

def typeIdSql (v fname : String) : Except String SqlExpr :=
  match lookupBind binds v with
  | some (.node a _) => .ok (.col a "type_id")
  | some (.rel (some a) _ _) => .ok (.col a "type_id")
  | some (.rel none _ idExpr) => .ok (.app .idType ["og_id_type(", ")"] [idExpr])
  | some (.scalar sql) => .ok (.app .idType ["og_id_type(", ")"] [scalarId sql])
  | _ => .error s!"{fname}() cannot be applied to '{v}'"

end Variables

section Operators

/-- A literal that is not NULL, or a parameter. -/
def isConstant : Expr → Bool
  | .param _ => true
  | .lit .null => false
  | .lit _ => true
  | _ => false

def isLiteral : Expr → Bool
  | .lit .null => false
  | .lit _ => true
  | _ => false

def isProp : Expr → Bool
  | .prop _ _ => true
  | _ => false

/-- Read an undeclared property at the type of the other operand. -/
def readAt (e : Expr) (own other : Option String) (sql : SqlExpr) : SqlExpr :=
  match own, other with
  | none, some t => if isProp e ∧ t ≠ "text" then castText t sql else sql
  | _, _ => sql

/-- A binary operator between two compiled operands; with a constant operand
`=` is plain. -/
def binarySql (op : BinOp) (plain : Bool) (l r : SqlExpr) : SqlExpr :=
  let between (name : String) (pieces : List String) := call name pieces [l, r]
  match op with
  | .eq =>
      if plain then .app .eq ["(", " = ", ")"] [l, r]
      else .app .notDistinctFrom ["(", " IS NOT DISTINCT FROM ", ")"] [l, r]
  | .ne =>
      if plain then .app .ne ["(", " <> ", ")"] [l, r]
      else .app .distinctFrom ["(", " IS DISTINCT FROM ", ")"] [l, r]
  | .and => .app .and ["(", " AND ", ")"] [l, r]
  | .or => .app .or ["(", " OR ", ")"] [l, r]
  | .xor => .app .ne ["((", ") <> (", "))"] [l, r]
  | .add => between "+" ["(", " + ", ")"]
  | .sub => between "-" ["(", " - ", ")"]
  | .mul => between "*" ["(", " * ", ")"]
  | .div => between "/" ["(", " / NULLIF(", ", 0))"]
  | .mod => between "%" ["((", ")::numeric % NULLIF((", ")::numeric, 0))"]
  | .pow => between "^" ["((", ")::float8 ^ (", ")::float8)"]
  | .lt => between "<" ["(", " < ", ")"]
  | .le => between "<=" ["(", " <= ", ")"]
  | .gt => between ">" ["(", " > ", ")"]
  | .ge => between ">=" ["(", " >= ", ")"]
  | .concat => between "||" ["((", ")::text || (", ")::text)"]
  | .startsWith => between "starts with" ["((", ")::text LIKE (", ")::text || '%')"]
  | .endsWith => between "ends with" ["((", ")::text LIKE '%' || (", ")::text)"]
  | .contains => between "contains" ["(strpos((", ")::text, (", ")::text) > 0)"]
  | .regex => between "~" ["((", ")::text ~ (", ")::text)"]
  | .in_ => call "@>" ["((", ") @> to_jsonb(", "))"] [r, l]

def argAt (a : List SqlExpr) (i : Nat) : Except String SqlExpr :=
  match a[i]? with
  | some x => .ok x
  | none => .error s!"index out of bounds: the len is {a.length} but the index is {i}"

def varArg (args : List Expr) (fname : String) : Except String String :=
  match args with
  | .var v :: _ => .ok v
  | _ => .error s!"{fname}() expects a pattern variable"

def supportedFunctions : String :=
  "count, sum, avg, min, max, collect, " ++
    "id, elementId, labels, type, length, size, toUpper, toLower, trim, substring, " ++
    "replace, split, coalesce, abs, ceil, floor, round, sqrt, rand, toString, " ++
    "toInteger, toFloat, timestamp, datetime, exists, keys, vector.similarity, " ++
    "vector.distance, genai.vector.encode"

/-- The functions that are one SQL operation over their first arguments, with
the text around these. -/
def plainFunctions : List (String × SqlOp × List String) :=
  [("length", .fn "jsonb_array_length", ["jsonb_array_length(", ")"]),
    ("size", .fn "jsonb_array_length", ["jsonb_array_length(", ")"]),
    ("toupper", .fn "upper", ["upper((", ")::text)"]),
    ("upper", .fn "upper", ["upper((", ")::text)"]),
    ("tolower", .fn "lower", ["lower((", ")::text)"]),
    ("lower", .fn "lower", ["lower((", ")::text)"]),
    ("trim", .fn "btrim", ["btrim((", ")::text)"]),
    ("replace", .fn "replace", ["replace((", ")::text, (", ")::text, (", ")::text)"]),
    ("split", .fn "split", ["to_jsonb(string_to_array((", ")::text, (", ")::text))"]),
    ("abs", .fn "abs", ["abs(", ")"]),
    ("ceil", .fn "ceil", ["ceil((", ")::float8)"]),
    ("floor", .fn "floor", ["floor((", ")::float8)"]),
    ("round", .fn "round", ["round((", ")::numeric)"]),
    ("sqrt", .fn "sqrt", ["sqrt((", ")::float8)"]),
    ("rand", .fn "random", ["random()"]),
    ("tostring", .cast "text", ["(", ")::text"]),
    ("tointeger", .cast "int8", ["(", ")::int8"]),
    ("tofloat", .cast "float8", ["(", ")::float8"]),
    ("timestamp", .fn "epoch", ["extract(epoch from now())::int8"]),
    ("datetime", .fn "now", ["now()"]),
    ("exists", .isNotNull, ["(", " IS NOT NULL)"]),
    ("keys", .fn "keys", ["to_jsonb(ARRAY(SELECT jsonb_object_keys(", ")))"]),
    ("element_at", .fn "element_at", ["(", " -> (", ")::int)"]),
    ("vector.similarity", .fn "similarity", ["(1 - ((", ")::vector <=> (", ")::vector))"]),
    ("similarity", .fn "similarity", ["(1 - ((", ")::vector <=> (", ")::vector))"]),
    ("vector.distance", .fn "<=>", ["((", ")::vector <=> (", ")::vector)"]),
    ("vector.l2", .fn "<->", ["((", ")::vector <-> (", ")::vector)"])]

def plainFunction (name : String) : Option (SqlOp × List String) :=
  (plainFunctions.find? fun f => f.1 = name).map (·.2)

def plainCall (op : SqlOp) (pieces : List String) (a : List SqlExpr) : Except String SqlExpr :=
  if a.length < pieces.length - 1 then
    .error s!"index out of bounds: the len is {a.length} but the index is {a.length}"
  else .ok (.app op pieces (a.take (pieces.length - 1)))

/-- The branches of a `coalesce`, the untyped ones read at the first known
type. -/
def coalesceBranches (c : Catalog) (binds : Binds) (args : List Expr) (a : List SqlExpr) :
    List SqlExpr :=
  match args.findSome? (typeOf c binds) with
  | some t =>
      if t = "text" then a
      else (args.zip a).map fun x =>
        if (typeOf c binds x.1).isNone then castText t x.2 else x.2
  | none => a

/-- An operation over a list of arguments. -/
def listCall (op : SqlOp) (first sep last : String) (es : List SqlExpr) : SqlExpr :=
  .app op (listPieces first sep last es.length) es

def jsonArraySql (es : List SqlExpr) : SqlExpr :=
  listCall .jsonArray "jsonb_build_array(" ", " ")" es

def genaiSql : List SqlExpr → Except String SqlExpr
  | [] => .error ("genai.vector.encode(resource, provider, configuration) needs " ++
      "the text to encode")
  | x :: rest =>
      .ok (call "og_genai_encode"
        ["og_genai_encode((", ")::text, (", ")::text, (", ")::jsonb)"]
        [x, rest.getD 0 (.lit .null "NULL"),
          rest.getD 1 (.lit (.text "\x7b\x7d") "'\x7b\x7d'")])

def unknownFunction (name : String) : String :=
  s!"unknown function '{name}'. supported: {supportedFunctions}"

def substringSql (a : List SqlExpr) : Except String SqlExpr :=
  if a.length = 3 then
    plainCall (.fn "substring")
      ["substring((", ")::text from (", ")::int + 1 for (", ")::int)"] a
  else plainCall (.fn "substring") ["substring((", ")::text from (", ")::int + 1)"] a

/-- The functions that are more than one operation, or read a variable's
binding. -/
def otherFunction (c : Catalog) (binds : Binds) (name : String) (args : List Expr)
    (a : List SqlExpr) : Except String SqlExpr :=
  match name with
  | "id" => do elementIdSql binds (← varArg args "id") "id"
  | "elementid" => do
      let inner ← elementIdSql binds (← varArg args "elementId") "elementId"
      return castText "text" inner
  | "labels" => do
      let tid ← typeIdSql binds (← varArg args "labels") "labels"
      return .app .labels ["to_jsonb(ARRAY(SELECT og_type_name(t) FROM unnest(og_supertypes(",
        ")) AS t))"] [tid]
  | "type" => do
      let tid ← typeIdSql binds (← varArg args "type") "type"
      return .app .typeName ["og_type_name(", ")"] [tid]
  | "substring" => substringSql a
  | "coalesce" => .ok (listCall .coalesce "coalesce(" ", " ")" (coalesceBranches c binds args a))
  | "nodes" | "relationships" => argAt a 0
  | "genai.vector.encode" => genaiSql a
  | _ => .error (unknownFunction name)

/-- A function applied to its compiled arguments. -/
def funcSql (c : Catalog) (binds : Binds) (name : String) (args : List Expr)
    (a : List SqlExpr) : Except String SqlExpr :=
  match plainFunction name with
  | some (op, pieces) => plainCall op pieces a
  | none => otherFunction c binds name args a

end Operators

section Expressions

def litSql (hint : Option String) : Lit → SqlExpr
  | .int i => .lit (.int i) (toString i)
  | .float f => .lit (.float f) (f.text ++ "::float8")
  | .bool b => boolLit b
  | .null => .lit .null "NULL"
  | .str s =>
      match hint with
      | some t => if t = "text" then strLit s else .app (.cast t) ["", "::" ++ t] [strLit s]
      | none => strLit s

def paramSql (hint : Option String) (p : String) : SqlExpr :=
  match hint with
  | some t => if t = "text" then .param p else .app (.cast t) ["", "::" ++ t] [.param p]
  | none => .param p

/-- A scalar binding holds jsonb, and is read out at the type it is compared
with. -/
def varSql (c : Catalog) (binds : Binds) (hint : Option String) (v : String) :
    Except String SqlExpr := do
  let sql ← varValue c binds v
  match hint, lookupBind binds v with
  | some t, some (.scalar _) =>
      if t = "jsonb" then return sql
      else return .app (.castScalar t) ["((", ") #>> '\x7b\x7d')::" ++ t] [sql]
  | _, _ => return sql

/-- The parts of a map projection: its entries, and the whole element when
`.*` asks for it. -/
structure MapParts where
  keys : List String
  vals : List SqlExpr
  base : Option SqlExpr

def mapProjectionSql (parts : MapParts) : SqlExpr :=
  let built :=
    if parts.keys = [] then .lit (.json (.obj [])) "'\x7b\x7d'::jsonb"
    else .app (.jsonObject parts.keys) (objectPieces "jsonb_build_object(" ")" parts.keys)
      parts.vals
  match parts.base with
  | some whole =>
      call "||" ["(", " || ", ")"]
        [call "element properties" ["((", ") - '_id' - '_type' - '_src' - '_dst')"] [whole], built]
  | none => built

/-- An element of a list or map literal, wrapped for `to_jsonb()`. -/
def jsonbArg (e : Expr) (sql : SqlExpr) : SqlExpr :=
  match e with
  | .lit .null => .lit (.json .null) "'null'::jsonb"
  | .lit (.str s) => .app .toJsonb ["to_jsonb(", "::text)"] [strLit s]
  | _ => .app .toJsonb ["to_jsonb(", ")"] [sql]

mutual

/-- The SQL of an expression; a hint is the type it is compared with, and the
number counts the aliases generated so far. -/
def expr (c : Catalog) (binds : Binds) (hint : Option String) (n : Nat) :
    Expr → Except String (SqlExpr × Nat)
  | .lit l => .ok (litSql hint l, n)
  | .param p => .ok (paramSql hint p, n)
  | .var v => do return (← varSql c binds hint v, n)
  | .prop base p =>
      match base with
      | .var v => do return (← propOperand c binds v p, n)
      | _ => .error "property access is only supported on pattern variables"
  | .not a => do
      let (s, n) ← expr c binds (some "bool") n a
      return (.app .not ["(NOT ", ")"] [s], n)
  | .neg a => do
      let (s, n) ← expr c binds none n a
      return (call "negate" ["(- ", ")"] [s], n)
  | .isNull a wantNull => do
      let (s, n) ← expr c binds none n a
      return (if wantNull then .app .isNull ["(", " IS NULL)"] [s]
        else .app .isNotNull ["(", " IS NOT NULL)"] [s], n)
  | .binary op l r =>
      match op, r with
      | .in_, .list items =>
          match typeOf c binds l with
          | some t =>
              if items.isEmpty = false ∧ items.all isLiteral then do
                let (ls, n) ← expr c binds (some t) n l
                let (vs, n) ← exprs c binds (some t) n items
                return (.app .inList ("(" :: listPieces " IN (" ", " "))" vs.length) (ls :: vs), n)
              else do
                let (ls, n) ← expr c binds none n l
                let (rs, n) ← jsonbArgs c binds n items
                return (binarySql .in_ false ls (jsonArraySql rs), n)
          | none => do
              let (ls, n) ← expr c binds none n l
              let (rs, n) ← jsonbArgs c binds n items
              return (binarySql .in_ false ls (jsonArraySql rs), n)
      | .in_, r => do
          let (ls, n) ← expr c binds none n l
          let (rs, n) ← expr c binds (some "jsonb") n r
          return (binarySql .in_ false ls rs, n)
      | op, r => do
          let lhint := typeOf c binds r
          let rhint := typeOf c binds l
          let (ls, n) ← expr c binds lhint n l
          let (rs, n) ← expr c binds rhint n r
          return (binarySql op (isConstant l || isConstant r) (readAt l rhint lhint ls)
            (readAt r lhint rhint rs), n)
  | .list xs =>
      match hint.bind fun t => (stripArray t).map fun elem => (t, elem) with
      | some (t, elem) => do
          let (items, n) ← exprs c binds (some elem) n xs
          return (listCall (.fn "array") "ARRAY[" ", " ("]::" ++ t) items, n)
      | none => do
          let (items, n) ← jsonbArgs c binds n xs
          return (jsonArraySql items, n)
  | .map kvs => do
      let (vals, n) ← jsonbValues c binds n kvs
      let keys := kvs.map (·.1)
      return (.app (.jsonObject keys) (objectPieces "jsonb_build_object(" ")" keys) vals, n)
  | .listComp var source filter project => do
      let (src, n) ← expr c binds none n source
      let a : Alias := ⟨"lc", n + 1⟩
      let binds' := insertBind var (.scalar (.col a "v")) binds
      let (body, n) ← (match project with
        | some p => do
            let (s, n) ← expr c binds' none (n + 1) p
            return (jsonbArg p s, n)
        | none => .ok (.col a "v", n + 1))
      let (cond, n) ← (match filter with
        | some f => expr c binds' (some "bool") n f
        | none => .ok (boolLit true, n))
      return (.listComp a src body cond filter.isSome, n)
  | .listPred kind var source filter => do
      let (src, n) ← expr c binds none n source
      let a : Alias := ⟨"lp", n + 1⟩
      let binds' := insertBind var (.scalar (.col a "v")) binds
      let (cond, n) ← expr c binds' (some "bool") (n + 1) filter
      let quantifier := match kind with
        | .any => Quantifier.any
        | .all => .all
        | .none => .none
        | .single => .single
      return (.listPred quantifier a src cond, n)
  | .mapProjection var items => do
      let (parts, n) ← mapItems c binds var n items
      return (mapProjectionSql parts, n)
  | .case operand whens otherwise => do
      let (o, n) ← (match operand with
        | some o => do
            let (s, n) ← expr c binds none n o
            return ([s], n)
        | none => .ok ([], n))
      let (ws, n) ← caseWhens c binds n whens
      let (e, n) ← (match otherwise with
        | some e => do
            let (s, n) ← expr c binds none n e
            return ([s], n)
        | none => .ok ([], n))
      return (.app (.caseWhen operand.isSome whens.length)
        (casePieces operand.isSome whens.length otherwise.isSome) (o ++ ws ++ e), n)
  | .func name args distinct =>
      match name.toLower, args with
      | "count", [] => .ok (.agg .count false [], n)
      | "count", .star :: _ => .ok (.agg .count false [], n)
      | "count", x :: _ => do
          let (a, n) ← expr c binds none n x
          return (.agg .count distinct [a], n)
      | "sum", x :: _ => do
          let (a, n) ← expr c binds none n x
          return (.agg .sum distinct [a], n)
      | "avg", x :: _ => do
          let (a, n) ← expr c binds none n x
          return (.agg .avg distinct [a], n)
      | "min", x :: _ => do
          let (a, n) ← expr c binds none n x
          return (.agg .min distinct [a], n)
      | "max", x :: _ => do
          let (a, n) ← expr c binds none n x
          return (.agg .max distinct [a], n)
      | "collect", x :: _ => do
          let (a, n) ← expr c binds none n x
          return (.agg .collect distinct [a], n)
      | "stdev", x :: _ => do
          let (a, n) ← expr c binds none n x
          return (.agg .stdev false [a], n)
      | lname, rest =>
          if lname ∈ ["sum", "avg", "min", "max", "collect", "stdev"] then
            .error "index out of bounds: the len is 0 but the index is 0"
          else do
            let (a, n) ← exprs c binds none n rest
            return (← funcSql c binds lname args a, n)
  | .star => .ok (.lit .null "*", n)

def exprs (c : Catalog) (binds : Binds) (hint : Option String) (n : Nat) :
    List Expr → Except String (List SqlExpr × Nat)
  | [] => .ok ([], n)
  | e :: es => do
      let (s, n) ← expr c binds hint n e
      let (ss, n) ← exprs c binds hint n es
      return (s :: ss, n)

def jsonbArgs (c : Catalog) (binds : Binds) (n : Nat) :
    List Expr → Except String (List SqlExpr × Nat)
  | [] => .ok ([], n)
  | e :: es => do
      let (s, n) ← expr c binds none n e
      let (ss, n) ← jsonbArgs c binds n es
      return (jsonbArg e s :: ss, n)

def jsonbValues (c : Catalog) (binds : Binds) (n : Nat) :
    List (String × Expr) → Except String (List SqlExpr × Nat)
  | [] => .ok ([], n)
  | (_, e) :: kvs => do
      let (s, n) ← expr c binds none n e
      let (ss, n) ← jsonbValues c binds n kvs
      return (jsonbArg e s :: ss, n)

def caseWhens (c : Catalog) (binds : Binds) (n : Nat) :
    List (Expr × Expr) → Except String (List SqlExpr × Nat)
  | [] => .ok ([], n)
  | (w, v) :: whens => do
      let (ws, n) ← expr c binds none n w
      let (vs, n) ← expr c binds none n v
      let (rest, n) ← caseWhens c binds n whens
      return (ws :: vs :: rest, n)

def mapItems (c : Catalog) (binds : Binds) (var : String) (n : Nat) :
    List MapProjItem → Except String (MapParts × Nat)
  | [] => .ok (⟨[], [], none⟩, n)
  | .all :: items => do
      let whole ← varValue c binds var
      let (parts, n) ← mapItems c binds var n items
      return ({ parts with base := some whole }, n)
  | .prop p :: items => do
      let s ← propOutput c binds var p
      let (parts, n) ← mapItems c binds var n items
      return ({ parts with keys := p :: parts.keys, vals := s :: parts.vals }, n)
  | .entry k e :: items => do
      let (s, n) ← expr c binds none n e
      let (parts, n) ← mapItems c binds var n items
      return ({ parts with keys := k :: parts.keys, vals := jsonbArg e s :: parts.vals }, n)

end

theorem expr_var {c : Catalog} {binds : Binds} {hint : Option String} {n : Nat} {v : String} :
    expr c binds hint n (.var v) = do return (← varSql c binds hint v, n) := by
  rw [expr]

/-- Each operand is compiled under the type of the other one. -/
theorem expr_binary {c : Catalog} {binds : Binds} {hint : Option String} {n : Nat} {op : BinOp}
    {l r : Expr} (hop : op ≠ .in_) :
    expr c binds hint n (.binary op l r) = do
      let (ls, n) ← expr c binds (typeOf c binds r) n l
      let (rs, n) ← expr c binds (typeOf c binds l) n r
      return (binarySql op (isConstant l || isConstant r)
        (readAt l (typeOf c binds l) (typeOf c binds r) ls)
        (readAt r (typeOf c binds r) (typeOf c binds l) rs), n) := by
  rw [expr]
  · exact hop
  · exact fun _ h => absurd h hop

/-- An expression as it appears in a result. -/
def exprForOutput (c : Catalog) (binds : Binds) (n : Nat) :
    Expr → Except String (SqlExpr × Nat)
  | .prop (.var v) p => do return (← propOutput c binds v p, n)
  | e => expr c binds none n e

end Expressions

section

-- Generates the equations of these functions once, before the proofs that use them.
attribute [local simp] expr exprs funcSql varValue propOperand propOutput elementIdSql typeIdSql
  litSql paramSql varSql castText readAt binarySql

end

end OntologicalDb.CompileExpr
