import Mathlib
import OntologicalDb.ExceptRules
import OntologicalDb.GraphStorage
import OntologicalDb.TypeqlSyntax

/-!
The TypeQL compiler.  A fragment of SQL is what it computes on the rows in scope: an
expression a value, a condition a truth value, an entry of the `FROM` list the rows it
joins.
-/

namespace OntologicalDb.TypeqlCompiler

open OntologicalDb.Adjacency
open OntologicalDb.ExceptRules
open OntologicalDb.GraphStorage
open OntologicalDb.Labeling
open OntologicalDb.TypeCatalog
open OntologicalDb.TypeqlSyntax

section Graphs

/-- The SQL values and the operators on them. -/
structure Scalars (α : Type) where
  null : α
  lit : Lit → α
  int : Int → α
  name : String → α
  arith : String → α → α → α
  neg : α → α
  call : String → α → α
  /-- Whether a comparison is true; on `NULL` it is not. -/
  cmp : CmpOp → α → α → Bool
  /-- `((id >> 36) & 262143)::int4` -/
  typeOfId : α → α
  /-- `= ANY(ARRAY[..])` -/
  any : List Int → α → Bool

/-- A row of `og_catalog.role`. -/
structure RoleRow where
  roleId : Int
  relTypeId : Int
  name : String
  parentRoleId : Option Int
deriving DecidableEq

/-- A graph as a query reads it: the store, the roles, the rows of the attribute tables and
the internal `$has` type. -/
structure Graph (α : Type) where
  gid : Int
  st : Store
  roles : List RoleRow
  hasTid : Int
  attrRows : StorageTable → List (Int × α)
  nearest : String → List String
  sql : Scalars α

variable {α : Type} (g : Graph α)

def Graph.catalog : Catalog := g.st.schema.catalog

def resolve (name : String) : Except String Int :=
  match tryTypeId g.catalog g.gid name with
  | some tid => .ok tid
  | none =>
      let hint := g.nearest name
      let names := ", ".intercalate hint
      if hint = [] then .error s!"type '{name}' is not defined in this graph"
      else .error s!"type '{name}' is not defined. did you mean: {names}"

def typeSet (name : String) (exact : Bool) : Except String (List Int) := do
  let tid ← resolve g name
  return if exact then [tid] else ogSubtypes g.catalog tid

/-- The rows of `concrete_attr_tables`: identifiers and values. -/
def concreteAttrTables (tids : List Int) : Except String (List (Int × α)) := do
  let parts ← tids.filterMapM fun t => do
    let kind ← typeKind g.catalog t
    return if kind = .attribute then storageTable g.catalog t else none
  if parts = [] then .error "this attribute type has no instantiable subtype"
  else return parts.flatMap g.attrRows

/-- `find_role`: the role of the lowest relation type that declares the name. -/
def findRole (tid : Int) (role : String) : Option Int :=
  ((g.roles.filter fun r => r.relTypeId ∈ ogSupertypes g.catalog tid ∧ r.name = role).insertionSort
    fun r r' => r'.relTypeId ≤ r.relTypeId).head?.map (·.roleId)

def specialise (roles : List RoleRow) : Nat → List Int → List Int
  | 0, found => found
  | fuel + 1, found =>
      let more := roles.filter fun r => r.parentRoleId.any (· ∈ found) ∧ r.roleId ∉ found
      specialise roles fuel (found ++ more.map (·.roleId))

/-- A role and every role that specialises it; no chain is longer than the table. -/
def roleWithSpecialisations (roleId : Int) : List Int :=
  specialise g.roles g.roles.length ((g.roles.filter fun r => r.roleId = roleId).map (·.roleId))

def allRolesOf (relTid : Int) : List Int :=
  let line := ogSupertypes g.catalog relTid ++ ogSubtypes g.catalog relTid
  (g.roles.filter fun r => r.relTypeId ∈ line).map (·.roleId)

end Graphs

section State

/-- The row every alias stands for, by the names of its columns. -/
abbrev Scope (α : Type) := Nat → String → α

abbrev SqlExpr (α : Type) := Scope α → α

structure FromItem (α : Type) where
  alias_ : Nat
  rows : Scope α → List (String → α)

/-- What a variable is bound to. -/
inductive Bind (α : Type)
  | inst (alias_ : Nat)
  | attr (alias_ : Nat) (tids : List Int)
  | value (expr : SqlExpr α)
  | type (alias_ : Nat)
  | column (val : SqlExpr α) (id : Option (SqlExpr α))

structure Compiler (α : Type) where
  binds : AList fun _ : String => Bind α
  external : List String
  fromItems : List (FromItem α)
  wheres : List (Scope α → Bool)
  n : Nat
  isaTypes : String → Option Int
  roleAliases : List (String × Nat)

variable {α : Type}

def Compiler.new : Compiler α := ⟨∅, [], [], [], 0, fun _ => none, []⟩

/-- A compiler whose free variables resolve against an enclosing query. -/
def Compiler.nested (parent : Compiler α) : Compiler α where
  binds := parent.binds
  external := parent.binds.keys
  fromItems := []
  wheres := []
  n := parent.n + 1000
  isaTypes := parent.isaTypes
  roleAliases := []

def Compiler.boundVars (c : Compiler α) : List String :=
  (c.binds.keys.filter fun v => v ∉ c.external).insertionSort (· ≤ ·)

def Compiler.fresh (c : Compiler α) : Compiler α := { c with n := c.n + 1 }

def Compiler.pushFrom (c : Compiler α) (a : Nat) (rows : Scope α → List (String → α)) : Compiler α :=
  { c with fromItems := c.fromItems ++ [⟨a, rows⟩] }

def Compiler.pushWhere (c : Compiler α) (cond : Scope α → Bool) : Compiler α :=
  { c with wheres := c.wheres ++ [cond] }

def Compiler.bind (c : Compiler α) (v : String) (b : Bind α) : Compiler α :=
  { c with binds := c.binds.insert v b }

def Compiler.setType (c : Compiler α) (v : String) (tid : Int) : Compiler α :=
  { c with isaTypes := Function.update c.isaTypes v (some tid) }

/-- `var_value`. -/
def Bind.val : Bind α → SqlExpr α
  | .attr a _ => fun ρ => ρ a "val"
  | .inst a => fun ρ => ρ a "id"
  | .value expr => expr
  | .type a => fun ρ => ρ a "name"
  | .column val _ => val

/-- `var_id`. -/
def Bind.id : Bind α → SqlExpr α
  | .attr a _ | .inst a => fun ρ => ρ a "id"
  | .value expr => expr
  | .type a => fun ρ => ρ a "type_id"
  | .column val id => id.getD val

/-- A type variable is no instance. -/
def Bind.isType : Bind α → Bool
  | .type _ => true
  | _ => false

/-- The rows of a `FROM` list under its `WHERE`, in a scope. -/
def Compiler.rows (c : Compiler α) (ρ : Scope α) : List (Scope α) :=
  (c.fromItems.foldl (fun rows item => rows.flatMap fun ρ =>
    (item.rows ρ).map (Function.update ρ item.alias_)) [ρ]).filter fun ρ => c.wheres.all (· ρ)

end State

section Rows

variable {α : Type} (g : Graph α)

/-- A row from its columns. -/
def columns (cols : List (String × α)) : String → α := fun col =>
  ((cols.find? fun c => c.1 = col).map (·.2)).getD g.sql.null

def nodeRows : List (String → α) :=
  g.st.ogNode.map fun r => columns g [("id", g.sql.int r.id), ("type_id", g.sql.int r.typeId)]

def attrTableRows (src : List (Int × α)) : List (String → α) :=
  src.map fun r => columns g [("id", g.sql.int r.1), ("val", r.2)]

def typeRows : List (String → α) :=
  g.catalog.types.map fun t => columns g [("type_id", g.sql.int t.typeId), ("name", g.sql.name t.name)]

def playerRows : List (String → α) :=
  g.st.ogRolePlayer.map fun r => columns g
    [("edge_id", g.sql.int r.edgeId), ("role_id", g.sql.int r.roleId), ("player_id", g.sql.int r.playerId)]

/-- `JOIN src v ON v.id = u.nbr` over the `$has` segments of an owner, of these types. -/
def ownedRows (tids : List Int) (src : List (Int × α)) (owner : α) : List (Int × α) :=
  (g.st.ogAdj.filter fun a => g.sql.cmp .eq (g.sql.int a.src) owner ∧ a.dir = .o ∧ a.etype = g.hasTid).flatMap
    fun a => (a.nbr.filter fun nbr => g.sql.any tids (g.sql.typeOfId (g.sql.int nbr))).flatMap fun nbr =>
      src.filter fun v => v.1 = nbr

end Rows

section Expressions

variable {α : Type} (g : Graph α)

/-- Bind a variable that has been referenced before its `isa` was seen. -/
def ensureInstance (c : Compiler α) (var : String) : Except String (Compiler α × SqlExpr α) :=
  match c.binds.lookup var with
  | some b =>
      if b.isType then .error s!"'${var}' is a type variable, not an instance"
      else .ok (c, b.id)
  | none =>
      let c := c.fresh
      .ok ((c.pushFrom c.n fun _ => nodeRows g).bind var (.inst c.n), fun ρ => ρ c.n "id")

/-- `$book.title`: the single value of an owned attribute. -/
def attrScalar (c : Compiler α) (var attr : String) : Except String (Compiler α × SqlExpr α) := do
  let (c, ownerId) ← ensureInstance g c var
  let tids ← typeSet g attr false
  let src ← concreteAttrTables g tids
  return (c.fresh, fun ρ => (((ownedRows g tids src (ownerId ρ)).head?.map (·.2)).getD g.sql.null))

/-- The functions of expressions, under one name each. -/
def builtin (name : String) : Except String String :=
  match name.map Char.toLower with
  | "round" => .ok "round"
  | "abs" => .ok "abs"
  | "floor" => .ok "floor"
  | "ceil" | "ceiling" => .ok "ceil"
  | "length" => .ok "length"
  | other => .error (s!"function '{other}' is not available in expressions. " ++
      "built-ins: round, abs, floor, ceil, length. user-defined functions are spec 010 phase 6")

mutual

def compileExpr (c : Compiler α) : Expr → Except String (Compiler α × SqlExpr α)
  | .lit l => .ok (c, fun _ => g.sql.lit l)
  | .var v =>
      match c.binds.lookup v with
      | some b => .ok (c, b.val)
      | none => .error s!"'${v}' is not bound by any pattern"
  | .attr v a => attrScalar g c v a
  | .bin l op r => do
      let (c, ls) ← compileExpr c l
      let (c, rs) ← compileExpr c r
      return (c, fun ρ => g.sql.arith op (ls ρ) (rs ρ))
  | .neg e => do
      let (c, s) ← compileExpr c e
      return (c, fun ρ => g.sql.neg (s ρ))
  | .call name args => do
      let (c, ss) ← compileArgs c args
      let f ← builtin name
      return (c, fun ρ => g.sql.call f ((ss.head?.map (· ρ)).getD g.sql.null))

def compileArgs (c : Compiler α) : List Expr → Except String (Compiler α × List (SqlExpr α))
  | [] => .ok (c, [])
  | e :: es => do
      let (c, s) ← compileExpr c e
      let (c, ss) ← compileArgs c es
      return (c, s :: ss)

end

end Expressions

section Patterns

variable {α : Type} (g : Graph α)

mutual

/-- Learn the declared type of every variable first. -/
def scanType (types : String → Option Int) : Pat → String → Option Int
  | .isa var ty _ | .isaAnon var ty =>
      match tryTypeId g.catalog g.gid ty with
      | some tid => Function.update types var (some tid)
      | none => types
  | .not inner => scanTypes types inner
  | .or branches => scanBranches types branches
  | _ => types

def scanTypes (types : String → Option Int) : List Pat → String → Option Int
  | [] => types
  | p :: ps => scanTypes (scanType types p) ps

def scanBranches (types : String → Option Int) : List (List Pat) → String → Option Int
  | [] => types
  | b :: bs => scanBranches (scanTypes types b) bs

end

def patIsa (c : Compiler α) (var ty : String) (exact : Bool) : Except String (Compiler α) := do
  let tid ← resolve g ty
  let kind ← typeKind g.catalog tid
  let ids ← typeSet g ty exact
  let c := c.setType var tid
  match c.binds.lookup var with
  | some existing =>
      -- already bound: narrow it instead of joining a second time
      if existing.isType then .error s!"'${var}' is a type variable and cannot also be an instance"
      else return c.pushWhere fun ρ => g.sql.any ids (g.sql.typeOfId (existing.id ρ))
  | none =>
      if kind = .attribute then do
        let src ← concreteAttrTables g ids
        let c := c.fresh
        return (c.pushFrom c.n fun _ => attrTableRows g src).bind var (.attr c.n ids)
      else
        let c := c.fresh
        return ((c.pushFrom c.n fun _ => nodeRows g).pushWhere fun ρ => g.sql.any ids (ρ c.n "type_id")).bind
          var (.inst c.n)

/-- What the value of a `has` asks of the owned attribute, and the variable it binds. -/
def hasValue (c : Compiler α) : HasVal →
    Except String (Compiler α × (Scope α → Int × α → Bool) × Option String)
  | .any => .ok (c, fun _ _ => true, none)
  | .var v =>
      match c.binds.lookup v with
      | some existing =>
          if existing.isType then .error s!"'${v}' is a type variable"
          else .ok (c, fun ρ owned => g.sql.cmp .eq (g.sql.int owned.1) (existing.id ρ), none)
      | none => .ok (c, fun _ _ => true, some v)
  | .cmp op e => do
      let (c, rhs) ← compileExpr g c e
      return (c, fun ρ owned => g.sql.cmp op owned.2 (rhs ρ), none)

def patHas (c : Compiler α) (owner : String) (attr : Option String) (val : HasVal) :
    Except String (Compiler α) := do
  let (c, ownerId) ← ensureInstance g c owner
  match attr with
  | none => .error "'has $a' without an attribute type is not supported: name the attribute type"
  | some attrName => do
      let attrTids ← typeSet g attrName false
      let kind ← typeKind g.catalog (← resolve g attrName)
      if kind ≠ .attribute then .error s!"'{attrName}' is not an attribute type"
      else do
        let c := c.fresh
        let h := c.n
        let src ← concreteAttrTables g attrTids
        let (c, cond, bindVar) ← hasValue g c val
        let c := c.pushFrom h fun ρ =>
          attrTableRows g ((ownedRows g attrTids src (ownerId ρ)).filter (cond ρ))
        return match bindVar with
          | some v => c.bind v (.attr h attrTids)
          | none => c

/-- The roles a role player is looked up under. -/
def roleIds (relTid : Option Int) (rel : String) (role : Option String) : Except String (List Int) :=
  match role with
  | some name =>
      match relTid.bind fun t => findRole g t name with
      | some base => .ok (roleWithSpecialisations g base)
      | none => .error (match relTid with
          | some t => s!"relation '{typeNameOf g.catalog t}' declares no role '{name}'"
          | none => s!"cannot resolve role '{name}': the relation variable '${rel}' has no " ++
              "'isa' constraint, so its type is unknown")
  | none =>
      match relTid with
      | some t => .ok (allRolesOf g t)
      | none => .error s!"a positional role player needs the relation type: add 'isa' to '${rel}'"

def patRole (c : Compiler α) (rel : String) (role : Option String) (player : String) :
    Except String (Compiler α) := do
  let (c, relId) ← ensureInstance g c rel
  let (c, playerId) ← ensureInstance g c player
  let ids ← roleIds g (c.isaTypes rel) rel role
  if ids = [] then .error s!"relation variable '${rel}' has no roles to match"
  else
    let c := c.fresh
    let rp := c.n
    let c := ((((c.pushFrom rp fun _ => playerRows g).pushWhere
      fun ρ => g.sql.cmp .eq (ρ rp "edge_id") (relId ρ)).pushWhere
      fun ρ => g.sql.cmp .eq (ρ rp "player_id") (playerId ρ)).pushWhere
      fun ρ => g.sql.any ids (ρ rp "role_id"))
    -- positional players of one relation are distinct assignments
    let prior := if role = none then (c.roleAliases.filter fun r => r.1 = rel).map (·.2) else []
    let c := prior.foldl (fun c p => c.pushWhere fun ρ =>
      ! (g.sql.cmp .eq (ρ rp "role_id") (ρ p "role_id") && g.sql.cmp .eq (ρ rp "player_id") (ρ p "player_id"))) c
    return { c with roleAliases := c.roleAliases ++ [(rel, rp)] }

mutual

def compilePat (c : Compiler α) : Pat → Except String (Compiler α)
  | .isa var ty exact => patIsa g c var ty exact
  | .isaAnon var ty => patIsa g c var ty false
  | .has owner attr val => patHas g c owner attr val
  | .role rel role player => patRole g c rel role player
  | .cmp lhs op rhs => do
      let (c, l) ← compileExpr g c lhs
      let (c, r) ← compileExpr g c rhs
      return c.pushWhere fun ρ => g.sql.cmp op (l ρ) (r ρ)
  | .letVar var expr => do
      let (c, e) ← compileExpr g c expr
      return c.bind var (.value e)
  | .not inner => do
      let sub ← compileAll { c.nested with isaTypes := scanTypes g c.isaTypes inner } inner
      return c.pushWhere fun ρ => (sub.rows ρ).isEmpty
  | .or branches => do
      let parts ← compileBranches c branches
      return c.pushWhere fun ρ => parts.any (· ρ)
  | .sub var ty exact => do
      let ids ← typeSet g ty exact
      let c := c.fresh
      return ((c.pushFrom c.n fun _ => typeRows g).pushWhere fun ρ => g.sql.any ids (ρ c.n "type_id")).bind
        var (.type c.n)
  | .label var name =>
      match c.binds.lookup var with
      | some (.type a) => .ok (c.pushWhere fun ρ => g.sql.cmp .eq (ρ a "name") (g.sql.name name))
      | _ => .error (s!"'${var} label {name}' needs ${var} to be a type variable " ++
          "(bind it with 'sub' first)")

/-- The loop of `compile_patterns`, after the types were learnt. -/
def compileAll (c : Compiler α) : List Pat → Except String (Compiler α)
  | [] => .ok c
  | p :: ps => do
      let c ← compilePat c p
      compileAll c ps

/-- `EXISTS` for every branch of a disjunction. -/
def compileBranches (c : Compiler α) : List (List Pat) → Except String (List (Scope α → Bool))
  | [] => .ok []
  | b :: bs => do
      let sub ← compileAll { c.nested with isaTypes := scanTypes g c.isaTypes b } b
      let rest ← compileBranches c bs
      return (fun ρ => !(sub.rows ρ).isEmpty) :: rest

end

def compilePatterns (c : Compiler α) (pats : List Pat) : Except String (Compiler α) :=
  compileAll g { c with isaTypes := scanTypes g c.isaTypes pats } pats

end Patterns

end OntologicalDb.TypeqlCompiler
