import Mathlib
import OntologicalDb.ExceptAgreement
import OntologicalDb.TypeqlCompiler

/-!
What patterns ask of variables, without aliases: a row holds the value and the identity of
every variable, and a pattern takes each row to those it extends to.
-/

namespace OntologicalDb.TypeqlRows

open OntologicalDb.ExceptAgreement
open OntologicalDb.GraphStorage
open OntologicalDb.TypeCatalog
open OntologicalDb.TypeqlCompiler
open OntologicalDb.TypeqlSyntax

section Rows

/-- A variable in a row: its value, its identity, and the players it has as a relation. -/
structure Cell (α : Type) where
  val : α
  id : α
  players : List (α × α)

abbrev Row (α : Type) := String → Cell α

abbrev Trans (α : Type) := Row α → List (Row α)

inductive VarSort
  | thing
  | type
deriving DecidableEq

/-- What is known of the variables before any row is read. -/
structure Shape where
  sorts : String → Option VarSort
  isaTypes : String → Option Int

variable {α : Type}

def Shape.bind (s : Shape) (v : String) (k : VarSort) : Shape :=
  { s with sorts := Function.update s.sorts v (some k) }

def Shape.setType (s : Shape) (v : String) (tid : Int) : Shape :=
  { s with isaTypes := Function.update s.isaTypes v (some tid) }

def Row.set (r : Row α) (v : String) (val id : α) : Row α :=
  Function.update r v { r v with val := val, id := id }

def Row.addPlayer (r : Row α) (rel : String) (role player : α) : Row α :=
  Function.update r rel { r rel with players := (r rel).players ++ [(role, player)] }

/-- The row a nested query starts from. -/
def Row.clear (r : Row α) : Row α := fun v => { r v with players := [] }

def skip : Trans α := fun r => [r]

def keep (cond : Row α → Bool) : Trans α := fun r => if cond r then [r] else []

def andThen (f h : Trans α) : Trans α := fun r => (f r).flatMap h

@[simp] theorem skip_andThen (f : Trans α) : andThen skip f = f := by
  funext r
  simp [andThen, skip]

@[simp] theorem andThen_skip (f : Trans α) : andThen f skip = f := by
  funext r
  exact List.flatMap_singleton' (f r)

end Rows

section Expressions

variable {α : Type} (g : Graph α)

def ensure (s : Shape) (var : String) : Except String (Shape × Trans α) :=
  match s.sorts var with
  | some .type => .error s!"'${var}' is a type variable, not an instance"
  | some .thing => .ok (s, skip)
  | none => .ok (s.bind var .thing, fun r => g.st.ogNode.map fun n =>
      r.set var (g.sql.int n.id) (g.sql.int n.id))

/-- The tables an attribute type is read from. -/
def attrSource (attr : String) : Except String (List Int × List (Int × α)) := do
  let tids ← typeSet g attr false
  let src ← concreteAttrTables g tids
  return (tids, src)

def ownedScalar (attr : String) (owner : α) : α :=
  match attrSource g attr with
  | .ok (tids, src) => ((ownedRows g tids src owner).head?.map (·.2)).getD g.sql.null
  | .error _ => g.sql.null

mutual

def evalExpr (r : Row α) : Expr → α
  | .lit l => g.sql.lit l
  | .var v => (r v).val
  | .attr v a => ownedScalar g a (r v).id
  | .bin l op e => g.sql.arith op (evalExpr r l) (evalExpr r e)
  | .neg e => g.sql.neg (evalExpr r e)
  | .call name args =>
      g.sql.call ((builtin name).toOption.getD "") (((evalArgs r args).head?).getD g.sql.null)

def evalArgs (r : Row α) : List Expr → List α
  | [] => []
  | e :: es => evalExpr r e :: evalArgs r es

end

mutual

/-- What an expression needs of its variables, and the rows in which it can be evaluated. -/
def ensureExpr (s : Shape) : Expr → Except String (Shape × Trans α)
  | .lit _ => .ok (s, skip)
  | .var v =>
      match s.sorts v with
      | some _ => .ok (s, skip)
      | none => .error s!"'${v}' is not bound by any pattern"
  | .attr v a => do
      let (s, f) ← ensure g s v
      let _ ← attrSource g a
      return (s, f)
  | .bin l _ e => do
      let (s, f) ← ensureExpr s l
      let (s, h) ← ensureExpr s e
      return (s, andThen f h)
  | .neg e => ensureExpr s e
  | .call name args => do
      let (s, f) ← ensureArgs s args
      let _ ← builtin name
      return (s, f)

def ensureArgs (s : Shape) : List Expr → Except String (Shape × Trans α)
  | [] => .ok (s, skip)
  | e :: es => do
      let (s, f) ← ensureExpr s e
      let (s, h) ← ensureArgs s es
      return (s, andThen f h)

end

end Expressions

section Patterns

variable {α : Type} (g : Graph α)

def isaStep (s : Shape) (var ty : String) (exact : Bool) : Except String (Shape × Trans α) := do
  let tid ← resolve g ty
  let kind ← typeKind g.catalog tid
  let ids ← typeSet g ty exact
  let s := s.setType var tid
  match s.sorts var with
  | some .type => .error s!"'${var}' is a type variable and cannot also be an instance"
  | some .thing => return (s, keep fun r => g.sql.any ids (g.sql.typeOfId (r var).id))
  | none =>
      if kind = .attribute then do
        let src ← concreteAttrTables g ids
        return (s.bind var .thing, fun r => src.map fun o => r.set var o.2 (g.sql.int o.1))
      else
        return (s.bind var .thing, fun r =>
          (g.st.ogNode.filter fun n => g.sql.any ids (g.sql.int n.typeId)).map fun n =>
            r.set var (g.sql.int n.id) (g.sql.int n.id))

/-- The condition on an owned attribute, and the variable that is bound to it. -/
def valueStep (s : Shape) : HasVal →
    Except String (Shape × Trans α × (Row α → Int × α → Bool) × Option String)
  | .any => .ok (s, skip, fun _ _ => true, none)
  | .var v =>
      match s.sorts v with
      | some .type => .error s!"'${v}' is a type variable"
      | some .thing => .ok (s, skip, fun r owned => g.sql.cmp .eq (g.sql.int owned.1) (r v).id, none)
      | none => .ok (s, skip, fun _ _ => true, some v)
  | .cmp op e => do
      let (s, f) ← ensureExpr g s e
      return (s, f, fun r owned => g.sql.cmp op owned.2 (evalExpr g r e), none)

def hasStep (s : Shape) (owner : String) (attr : Option String) (val : HasVal) :
    Except String (Shape × Trans α) := do
  let (s, f) ← ensure g s owner
  match attr with
  | none => .error "'has $a' without an attribute type is not supported: name the attribute type"
  | some attrName => do
      let attrTids ← typeSet g attrName false
      let kind ← typeKind g.catalog (← resolve g attrName)
      if kind ≠ .attribute then .error s!"'{attrName}' is not an attribute type"
      else do
        let src ← concreteAttrTables g attrTids
        let (s, h, cond, bindVar) ← valueStep g s val
        return match bindVar with
          | some v => (s.bind v .thing, andThen f (andThen h fun r =>
              ((ownedRows g attrTids src (r owner).id).filter (cond r)).map fun o =>
                r.set v o.2 (g.sql.int o.1)))
          | none => (s, andThen f (andThen h fun r =>
              ((ownedRows g attrTids src (r owner).id).filter (cond r)).map fun _ => r))

/-- A role player that matches, and differs from the players a positional one may not repeat. -/
def playerFits (r : Row α) (ids : List Int) (rel : String) (role : Option String) (player : String)
    (p : RolePlayer) : Bool :=
  g.sql.cmp .eq (g.sql.int p.edgeId) (r rel).id && g.sql.cmp .eq (g.sql.int p.playerId) (r player).id &&
    g.sql.any ids (g.sql.int p.roleId) && (role.isSome || (r rel).players.all fun q =>
      !(g.sql.cmp .eq (g.sql.int p.roleId) q.1 && g.sql.cmp .eq (g.sql.int p.playerId) q.2))

def roleStep (s : Shape) (rel : String) (role : Option String) (player : String) :
    Except String (Shape × Trans α) := do
  let (s, f) ← ensure g s rel
  let (s, h) ← ensure g s player
  let ids ← roleIds g (s.isaTypes rel) rel role
  if ids = [] then .error s!"relation variable '${rel}' has no roles to match"
  else return (s, andThen f (andThen h fun r =>
    (g.st.ogRolePlayer.filter fun p => playerFits g r ids rel role player p).map fun p =>
      r.addPlayer rel (g.sql.int p.roleId) (g.sql.int p.playerId)))

mutual

def step (s : Shape) : Pat → Except String (Shape × Trans α)
  | .isa var ty exact => isaStep g s var ty exact
  | .isaAnon var ty => isaStep g s var ty false
  | .has owner attr val => hasStep g s owner attr val
  | .role rel role player => roleStep g s rel role player
  | .cmp lhs op rhs => do
      let (s, f) ← ensureExpr g s lhs
      let (s, h) ← ensureExpr g s rhs
      return (s, andThen f (andThen h (keep fun r => g.sql.cmp op (evalExpr g r lhs) (evalExpr g r rhs))))
  | .letVar var expr => do
      let (s, f) ← ensureExpr g s expr
      return (s.bind var .thing, andThen f fun r => [r.set var (evalExpr g r expr) (evalExpr g r expr)])
  | .not inner => do
      let (_, f) ← steps ⟨s.sorts, scanTypes g s.isaTypes inner⟩ inner
      return (s, keep fun r => (f r.clear).isEmpty)
  | .or branches => do
      let fs ← branchSteps s branches
      return (s, keep fun r => fs.any fun f => !(f r.clear).isEmpty)
  | .sub var ty exact => do
      let ids ← typeSet g ty exact
      return (s.bind var .type, fun r =>
        (g.catalog.types.filter fun t => g.sql.any ids (g.sql.int t.typeId)).map fun t =>
          r.set var (g.sql.name t.name) (g.sql.int t.typeId))
  | .label var name =>
      match s.sorts var with
      | some .type => .ok (s, keep fun r => g.sql.cmp .eq (r var).val (g.sql.name name))
      | _ => .error (s!"'${var} label {name}' needs ${var} to be a type variable " ++
          "(bind it with 'sub' first)")

def steps (s : Shape) : List Pat → Except String (Shape × Trans α)
  | [] => .ok (s, skip)
  | p :: ps => do
      let (s, f) ← step s p
      let (s, h) ← steps s ps
      return (s, andThen f h)

def branchSteps (s : Shape) : List (List Pat) → Except String (List (Trans α))
  | [] => .ok []
  | b :: bs => do
      let (_, f) ← steps ⟨s.sorts, scanTypes g s.isaTypes b⟩ b
      let fs ← branchSteps s bs
      return f :: fs

end

end Patterns

end OntologicalDb.TypeqlRows
