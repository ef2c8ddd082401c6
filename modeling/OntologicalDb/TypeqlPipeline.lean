import OntologicalDb.TypeqlSyntax

/-!
The pipeline of a TypeQL query: the statement a read compiles to, and the row by row
execution of a write.
-/

namespace OntologicalDb.TypeqlPipeline

open OntologicalDb.TypeqlSyntax

structure Reduction where
  var : String
  agg : String
  arg : Option String

inductive DeleteItem
  | thing (var : String)
  | has (owner attr : String)
  | links (rel : String) (role : Option String) (player : String)

/-- The stages that reshape the rows there are. -/
inductive Shaping
  | select (vars : List String)
  | sort (keys : List (String × Bool))
  | limit (n : Nat)
  | offset (n : Nat)
  | distinct
  | reduce (assigns : List Reduction) (groupby : List String)

inductive Writing
  | insert (pats : List Pat)
  | put (pats : List Pat)
  | update (pats : List Pat)
  | delete (items : List DeleteItem)

mutual

inductive Stage
  | matching (pats : List Pat)
  | shaping (s : Shaping)
  | writing (w : Writing)
  | fetch (doc : List (String × FetchVal))

inductive FetchVal
  | expr (e : Expr)
  | subFetch (q : List Stage)
  | doc (entries : List (String × FetchVal))
  | attrList (var attr : String)

end

abbrev Query := List Stage

def Stage.isMatching : Stage → Bool
  | .matching _ => true
  | _ => false

def Stage.isWriting : Stage → Bool
  | .writing _ => true
  | _ => false

def Stage.patterns : Stage → List Pat
  | .matching pats => pats
  | _ => []

def isWrite (q : Query) : Bool := q.any Stage.isWriting

/-! The SQL of a read -/

/-- A query that returns rows, around the one it wraps. -/
inductive Sql
  /-- The groups of a `match`, cross joined. -/
  | groups (gs : List (List Pat))
  | shaped (s : Shaping) (rows : Sql)

/-- What is built of one row. -/
inductive Item
  | expr (e : Expr)
  | attrList (var attr : String)
  | object (entries : List (String × Item))
  /-- A correlated aggregate over the rows of a nested `match`. -/
  | array (pats : List (List Pat)) (item : Item)

inductive Statement
  | documents (item : Item) (rows : Sql)
  /-- Each row as an object of its variables. -/
  | objects (rows : Sql)

/-- The compiler of patterns and expressions, up to the SQL it writes: its scopes, and what it
accepts in them. -/
structure Compilation (S : Type) where
  components : List Pat → List (List Pat)
  start : S
  nested : S → S
  compilePatterns : S → List Pat → Except String S
  /-- The bound variables, and whether they have an identity. -/
  boundVars : S → List (String × Bool)
  /-- The scope of a `fetch`: the columns there are, and what the groups declare of them. -/
  seed : List S → List (String × Bool) → S
  expr : S → Expr → Except String S
  attrList : S → String → String → Except String S

section Compile

variable {S : Type} (C : Compilation S)

structure Projected (S : Type) where
  sql : Sql
  cols : List (String × Bool)
  scopes : List S

/-- The groups that bind variables, with their scopes. -/
def compileGroups : List (List Pat) → Except String (List (List Pat × S))
  | [] => return []
  | g :: gs => do
      let c ← C.compilePatterns C.start g
      let rest ← compileGroups gs
      return if C.boundVars c = [] then rest else (g, c) :: rest

def compileMatch (q : Query) : Except String (Projected S) := do
  let pats := q.flatMap Stage.patterns
  if pats = [] then throw "a read query needs a 'match' stage"
  else do
    let parts ← compileGroups C (C.components pats)
    let cols := parts.flatMap fun p => C.boundVars p.2
    if cols = [] then throw "the 'match' stage binds no variables"
    else return { sql := .groups (parts.map Prod.fst), cols := cols, scopes := parts.map Prod.snd }

def aggregates : List String :=
  ["count", "sum", "max", "min", "mean", "median", "std", "list"]

def aggSql (r : Reduction) : Except String Unit :=
  match r.arg with
  | none =>
      if r.agg = "count" then return () else throw s!"aggregate '{r.agg}' needs an argument"
  | some _ =>
      if r.agg ∈ aggregates then return ()
      else throw (s!"unknown aggregate '{r.agg}'. supported: count, sum, max, min, mean, " ++
        "median, std, list")

/-- The first variable that is not among the columns. -/
def unbound (cols : List (String × Bool)) (vars : List String) : Option String :=
  vars.find? fun v => !cols.any fun c => c.1 = v

/-- The columns behind a stage. -/
def shapingCols (cols : List (String × Bool)) : Shaping → Except String (List (String × Bool))
  | .select vars =>
      match unbound cols vars with
      | some v => throw s!"'select ${v}': that variable is not bound"
      | none => return cols.filter fun c => c.1 ∈ vars
  | .sort keys =>
      match unbound cols (keys.map Prod.fst) with
      | some v => throw s!"'sort ${v}': that variable is not bound"
      | none => return cols
  | .limit _ | .offset _ | .distinct => return cols
  | .reduce assigns groupby =>
      match unbound cols groupby with
      | some v => throw s!"'groupby ${v}': that variable is not bound"
      | none => do
          let _ ← assigns.mapM aggSql
          return groupby.filterMap (fun v => cols.find? fun c => c.1 = v) ++
            assigns.map fun r => (r.var, false)

mutual

def fetchObject (c : S) : List (String × FetchVal) → Except String (S × List (String × Item))
  | [] => return (c, [])
  | (k, v) :: doc => do
      let (c, item) ← fetchVal c v
      let (c, items) ← fetchObject c doc
      return (c, (k, item) :: items)

def fetchVal (c : S) : FetchVal → Except String (S × Item)
  | .expr e => do
      let c ← C.expr c e
      return (c, .expr e)
  | .attrList v a => do
      let c ← C.attrList c v a
      return (c, .attrList v a)
  | .doc entries => do
      let (c, items) ← fetchObject c entries
      return (c, .object items)
  | .subFetch q => do
      let matches_ := q.filter Stage.isMatching
      let inner ← (matches_.map Stage.patterns).foldlM C.compilePatterns (C.nested c)
      if matches_ = [] then throw "a sub-fetch needs a 'match' stage"
      else do
        let item ← firstFetch inner q
        return (c, .array (matches_.map Stage.patterns) item)

/-- The document of the first `fetch`. -/
def firstFetch (c : S) : List Stage → Except String Item
  | [] => throw "a sub-fetch needs a 'fetch' stage"
  | .fetch doc :: _ => do
      let (_, items) ← fetchObject c doc
      return .object items
  | .matching _ :: q => firstFetch c q
  | .shaping _ :: q => firstFetch c q
  | .writing _ :: q => firstFetch c q

end

/-- The loop of `compile_read` over the stages. -/
def compileStages : Query → Projected S → Except String Statement
  | [], p => return .objects p.sql
  | .matching _ :: q, p => compileStages q p
  | .shaping s :: q, p => do
      let cols ← shapingCols p.cols s
      compileStages q { p with sql := .shaped s p.sql, cols := cols }
  | .fetch doc :: _, p => do
      let (_, items) ← fetchObject C (C.seed p.scopes p.cols) doc
      return .documents (.object items) p.sql
  | .writing _ :: _, _ => throw "write stages do not compile to a read query"

def compileRead (q : Query) : Except String Statement := do
  let p ← compileMatch C q
  compileStages C q p

end Compile

/-! Execution -/

/-- What the database makes of the stages: the rows of the patterns, what a stage makes of the
rows it is given, and the writes. -/
structure Meaning where
  State : Type
  Row : Type
  Doc : Type
  /-- The row that binds nothing. -/
  start : Row
  join : Row → Row → Row
  group : State → List Pat → List Row
  /-- The rows that extend a row by answers to patterns. -/
  extend : State → List Pat → Row → List Row
  shape : Shaping → List Row → List Row
  expr : State → Expr → Row → Doc
  attrList : State → String → String → Row → Doc
  /-- `jsonb_build_object` in a row. -/
  object : Row → List (String × Doc) → Doc
  array : List Doc → Doc
  /-- A row as an object of its variables. -/
  whole : Row → Doc
  write : Writing → State × Row → Except String (State × Row)

section Execute

variable (D : Meaning)

def Meaning.product : List (List D.Row) → List D.Row
  | [] => [D.start]
  | g :: gs => g.flatMap fun r => (product gs).map (D.join r)

/-- One match after the other. -/
def Meaning.extendAll (σ : D.State) (pats : List (List Pat)) (rows : List D.Row) : List D.Row :=
  pats.foldl (fun rows ps => rows.flatMap (D.extend σ ps)) rows

def Meaning.rows (σ : D.State) : Sql → List D.Row
  | .groups gs => D.product (gs.map (D.group σ))
  | .shaped s sql => D.shape s (Meaning.rows σ sql)

mutual

def Meaning.item (σ : D.State) (r : D.Row) : Item → D.Doc
  | .expr e => D.expr σ e r
  | .attrList v a => D.attrList σ v a r
  | .object entries => D.object r (Meaning.entries σ r entries)
  | .array pats item =>
      D.array ((D.extendAll σ pats [r]).map fun r' => Meaning.item σ r' item)

def Meaning.entries (σ : D.State) (r : D.Row) : List (String × Item) → List (String × D.Doc)
  | [] => []
  | (k, item) :: entries => (k, Meaning.item σ r item) :: Meaning.entries σ r entries

end

def Meaning.exec (σ : D.State) : Statement → List D.Doc
  | .documents item rows => (D.rows σ rows).map fun r => D.item σ r item
  | .objects rows => (D.rows σ rows).map D.whole

inductive Outcome
  | documents (docs : List D.Doc)
  | written (σ : D.State) (rows operations : Nat)

def stageName : Stage → String
  | .matching _ => "match"
  | .shaping (.select _) => "select"
  | .shaping (.sort _) => "sort"
  | .shaping (.limit _) => "limit"
  | .shaping (.offset _) => "offset"
  | .shaping .distinct => "distinct"
  | .shaping (.reduce _ _) => "reduce"
  | .writing (.insert _) => "insert"
  | .writing (.put _) => "put"
  | .writing (.update _) => "update"
  | .writing (.delete _) => "delete"
  | .fetch _ => "fetch"

/-- The stages of a write, for one row. -/
def writeRow : Query → D.State × D.Row → Nat → Except String (D.State × Nat)
  | [], (σ, _), n => return (σ, n)
  | .matching _ :: q, env, n => writeRow q env n
  | .writing w :: q, env, n => do
      let env ← D.write w env
      writeRow q env (n + 1)
  | stage :: _, _, _ =>
      let name := stageName stage
      throw (s!"'{name}' after a write stage is not supported yet: run it as a " ++
        "separate query")

def writeRows (q : Query) : List D.Row → D.State → Nat → Except String (D.State × Nat)
  | [], σ, n => return (σ, n)
  | r :: rows, σ, n => do
      let (σ, n) ← writeRow D q (σ, r) n
      writeRows q rows σ n

variable {S : Type} (C : Compilation S)

/-- The bindings a write starts with: those of its matches, if any. -/
def writeStart (σ : D.State) (q : Query) : Except String (List D.Row) :=
  if q.any Stage.isMatching then do
    let p ← compileMatch C (q.filter Stage.isMatching)
    return D.rows σ p.sql
  else return [D.start]

def runWritePipeline (σ : D.State) (q : Query) : Except String (Outcome D) := do
  let rows ← writeStart D C σ q
  let (σ, n) ← writeRows D q rows σ 0
  return .written σ rows.length n

def runQuery (σ : D.State) (q : Query) : Except String (Outcome D) :=
  if isWrite q then runWritePipeline D C σ q
  else do
    let st ← compileRead C q
    return .documents (D.exec σ st)

end Execute

end OntologicalDb.TypeqlPipeline
