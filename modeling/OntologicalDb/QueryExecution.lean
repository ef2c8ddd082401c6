import OntologicalDb.CypherSyntax
import OntologicalDb.ExceptRules

/-!
How a query is executed clause by clause: the dispatch between the read and the
write path, the prefix a write query binds its rows with, and the order in which
clauses take effect.  What a clause does to rows and to the store is a parameter.
-/

namespace OntologicalDb.QueryExecution

open OntologicalDb.CypherSyntax
open OntologicalDb.ExceptRules

/-- The meaning of the single clauses. -/
structure Meaning where
  Store : Type
  Row : Type
  Result : Type
  /-- The row of a write query that binds nothing. -/
  start : Row
  bind : Clause → Store → List Row → List Row
  act : Clause → Store → Row → Store × Row
  project : Projection → Store → List Row → List Result
  yieldRow : Projection → Store → Row → Result
  fold : Projection → List Result → Result
  columns : Projection → List String
  union : Bool → List Result → List Result → List Result
  ddl : String → Store → Store × List Result
  /-- Renaming the type of a label, where it is one. -/
  rename : String → String → Store → Option Store

section Kinds

def isWriteClause : Clause → Bool
  | .create _ | .merge _ _ _ | .set _ | .remove _ | .delete _ _ | .ddl _ => true
  | _ => false

def isWrite : Query → Bool
  | .mk clauses none => clauses.any isWriteClause
  | .mk clauses (some (_, tail)) => isWrite tail || clauses.any isWriteClause

/-- The clauses a write query may begin with to bind its rows. -/
def isPrefixClause : Clause → Bool
  | .match_ _ _ _ | .unwind _ _ | .with_ _ _ => true
  | _ => false

def isWith : Clause → Bool
  | .with_ _ _ => true
  | _ => false

def returnOf : Clause → Option Projection
  | .return_ p => some p
  | _ => none

/-- The write loop acts on these clauses; every other one falls through. -/
def isRowClause : Clause → Bool
  | .create _ | .merge _ _ _ | .set _ | .remove _ | .delete _ _ => true
  | _ => false

def patternVars (p : Pattern) : List String :=
  p.pathVar.toList ++ p.elems.flatMap fun e =>
    match e with
    | .node np => np.var.toList
    | .rel rp => rp.var.toList

/-- The variables a prefix clause binds in the compiler. -/
def clauseVars : Clause → List String
  | .match_ patterns _ _ => patterns.flatMap patternVars
  | .unwind _ asName => [asName]
  | _ => []

def SetOp.labelOnly : SetOp → Bool
  | .label _ _ => true
  | _ => false

/-- The single-label operations of a list of `SET` or `REMOVE` items, when
every label operation has one label. -/
def labelOps (ops : List SetOp) : Option (List (String × String)) :=
  (ops.filter SetOp.labelOnly).mapM fun op =>
    match op with
    | .label v [l] => some (v, l)
    | _ => none

/-- `REMOVE n:Old SET n:New`: one label removed and one added, on one variable. -/
def renamePair (clauses : List Clause) : Option (String × String) := do
  let removed ← clauses.mapM fun c =>
    match c with
    | .remove ops => labelOps ops
    | _ => some []
  let added ← clauses.mapM fun c =>
    match c with
    | .set ops => labelOps ops
    | _ => some []
  match removed.flatten, added.flatten with
  | [(rv, old)], [(av, new)] => if rv = av then some (old, new) else none
  | _, _ => none

def isLabelOnly : Clause → Bool
  | .set ops | .remove ops => ops.all SetOp.labelOnly
  | _ => false

end Kinds

section Prefix

def isPlainItem (item : ReturnItem) : Bool :=
  match item.expr with
  | .var v => item.asName.getD v = v
  | _ => false

/-- What the write path refuses in a `WITH`. -/
def checkPrefix : Bool → List Clause → Except String Unit
  | _, [] => .ok ()
  | seen, .with_ proj _ :: rest => do
      require (seen = false) "only one WITH is supported before a write clause"
      require (proj.items.all isPlainItem)
        ("WITH before a write clause may only carry plain variables — " ++
          "                             expressions, aliases and aggregates are not supported here")
      checkPrefix true rest
  | seen, _ :: rest => checkPrefix seen rest

def readPrefix (clauses : List Clause) : List Clause := clauses.takeWhile isPrefixClause

def writeTail (clauses : List Clause) : List Clause := clauses.dropWhile isPrefixClause

/-- A prefix that exports no variable leaves one row, whatever it matches. -/
def bindsRows (pre : List Clause) : Bool :=
  pre.any isWith || !(pre.flatMap clauseVars).isEmpty

end Prefix

variable (M : Meaning)

def bindPrefix (pre : List Clause) (st : M.Store) : List M.Row :=
  if bindsRows pre then pre.foldl (fun rows c => M.bind c st rows) [M.start] else [M.start]

/-- One row through the write clauses. -/
def runRow : List Clause → M.Store × M.Row × List M.Result → M.Store × M.Row × List M.Result
  | [], s => s
  | .return_ p :: rest, (st, row, out) => runRow rest (st, row, out ++ [M.yieldRow p st row])
  | c :: rest, (st, row, out) =>
      if isRowClause c then
        let (st, row) := M.act c st row
        runRow rest (st, row, out)
      else runRow rest (st, row, out)

def runRows (clauses : List Clause) (st : M.Store) (rows : List M.Row) :
    M.Store × List M.Result :=
  rows.foldl (fun s row =>
    let (st, _, out) := runRow M clauses (s.1, row, s.2)
    (st, out)) (st, [])

/-- An aggregate in the first `RETURN` folds the rows into one. -/
def finish (clauses : List Clause) (out : List M.Result) : List M.Result :=
  match clauses.findSome? returnOf with
  | some p => if p.items.any fun i => i.expr.isAggregate then [M.fold p out] else out
  | none => out

def runWrite (clauses : List Clause) (st : M.Store) :
    Except String (M.Store × List M.Result) :=
  match clauses with
  | [.ddl statement] => .ok (M.ddl statement st)
  | .ddl _ :: _ => .error "a schema command cannot be combined with other clauses"
  | _ => do
      let pre := readPrefix clauses
      let tail := writeTail clauses
      checkPrefix false pre
      require (pre.any isWith → pre.getLast?.any isWith)
        "WITH must be the last read clause before a write clause"
      let rows := bindPrefix M pre st
      let renamed := (renamePair tail).bind fun r => M.rename r.1 r.2 st
      let (st, out) := match renamed with
        | some st => runRows M (tail.filter fun c => ¬ isLabelOnly c) st rows
        | none => runRows M tail st rows
      return (st, finish M tail out)

/-- One branch of a read query: the clauses bind rows, the last `RETURN` shapes
them. -/
def compileBranch (clauses : List Clause) (st : M.Store) :
    Except String (List String × List M.Result) := do
  require (∀ c ∈ clauses, isWriteClause c = false)
    "this clause is only valid in a write query"
  match (clauses.filterMap returnOf).getLast? with
  | none => .error "a read query must end with RETURN"
  | some p =>
      let binding := clauses.filter fun c => (returnOf c).isNone
      let rows := binding.foldl (fun rows c => M.bind c st rows) [M.start]
      return (M.columns p, M.project p st rows)

def compileRead : Query → M.Store → Except String (List String × List M.Result)
  | .mk clauses none, st => compileBranch M clauses st
  | .mk clauses (some (all, tail)), st => do
      let head ← compileBranch M clauses st
      let rest ← compileRead tail st
      if head.1 ≠ rest.1 then
        .error ("all branches of a UNION must return the same columns in the same order — " ++
          "                 left returns (" ++ String.intercalate ", " head.1 ++
          "), right returns (" ++ String.intercalate ", " rest.1 ++ ")")
      else return (head.1, M.union all head.2 rest.2)

def runQuery (q : Query) (st : M.Store) : Except String (M.Store × List M.Result) :=
  if isWrite q then
    match q with
    | .mk clauses none => runWrite M clauses st
    | .mk (.ddl _ :: _) (some _) =>
        .error "a schema command cannot be combined with other clauses"
    | .mk _ (some _) => .error "UNION cannot be combined with a write clause"
  else do
    let r ← compileRead M q st
    return (st, r.2)

end OntologicalDb.QueryExecution
