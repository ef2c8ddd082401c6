import OntologicalDb.Binary64
import OntologicalDb.ExceptRules
import OntologicalDb.TypeqlPipeline

/-!
The write stages of TypeQL: what each of them does to the store, for one row of bindings.
-/

namespace OntologicalDb.TypeqlWrites

open OntologicalDb.ExceptRules
open OntologicalDb.TypeqlSyntax
open OntologicalDb.TypeqlPipeline

/-! Values -/

/-- A JSON value that is no array and no object. A double is kept by its bits. -/
inductive Value
  | null
  | bool (b : Bool)
  | int (i : Int)
  | float (bits : UInt64)
  | str (s : String)
deriving DecidableEq

/-- Equality of JSON values: an integer is never a double. -/
def Value.same : Value → Value → Bool
  | .float a, .float b => Binary64.value a = Binary64.value b
  | a, b => a = b

def Value.asF64 : Value → Option ℚ
  | .int i => some (Binary64.nearest i)
  | .float bits => some (Binary64.value bits)
  | _ => none

def Value.asI64 : Value → Option Int
  | .int i => if -2 ^ 63 ≤ i ∧ i < 2 ^ 63 then some i else none
  | _ => none

def litJson : Lit → Value
  | .str s => .str s
  | .int i => .int i
  | .float bits => .float bits
  | .bool b => .bool b
  | .dateTime s => .str s

inductive SqlType
  | text
  | int8
  | float8
  | numeric
  | bool
  | date
  | timestamp
  | timestamptz
  | interval
deriving DecidableEq

def valueTypeSql (v : String) : Except String SqlType :=
  match String.ofList (v.toList.map Char.toLower) with
  | "string" => return .text
  | "integer" => return .int8
  | "long" => return .int8
  | "double" => return .float8
  | "decimal" => return .numeric
  | "boolean" => return .bool
  | "date" => return .date
  | "datetime" => return .timestamp
  | "datetime-tz" => return .timestamptz
  | "datetime_tz" => return .timestamptz
  | "duration" => return .interval
  | other => throw (s!"unknown value type '{other}'. supported: string, integer, double, decimal, " ++
      "boolean, date, datetime, datetime-tz, duration")

/-- What is computed outside: dates and times, the order of texts, the text of a JSON value and
the arithmetic of doubles. -/
structure Host where
  Time : Type
  timeEq : DecidableEq Time
  /-- The cast of a text to a date or time. -/
  readTime : SqlType → String → Option Time
  timeLe : Time → Time → Prop
  textLe : String → String → Prop
  print : Value → String
  negate : Value → Value
  arith : String → Value → Value → Value

instance (H : Host) : DecidableEq H.Time := H.timeEq

/-- A value in an attribute table. A decimal is kept as the double it was written from. -/
inductive Cell (T : Type)
  | text (s : String)
  | int8 (i : Int)
  | double (x : ℚ)
  | bool (b : Bool)
  | time (t : T)
deriving DecidableEq

section Literals

variable (H : Host)

def typedTime (v : Value) (sqlTy : SqlType) (attr : String) : Except String (Cell H.Time) :=
  match v with
  | .str s =>
      match H.readTime sqlTy (s.map fun c => if c = 'T' then ' ' else c) with
      | some t => return .time t
      | none => throw s!"invalid input syntax: {s}"
  | _ => throw (s!"'{attr}' expects a date or time, got " ++ H.print v)

/-- A literal of the attribute's declared type. -/
def typedLiteral (v : Value) (sqlTy : SqlType) (attr : String) : Except String (Cell H.Time) :=
  match sqlTy with
  | .text =>
      match v with
      | .str s => return .text s
      | other => return .text (H.print other)
  | .int8 =>
      match v.asI64 with
      | some i => return .int8 i
      | none => throw (s!"'{attr}' expects an integer, got " ++ H.print v)
  | .float8 | .numeric =>
      match v.asF64 with
      | some f => return .double f
      | none => throw (s!"'{attr}' expects a number, got " ++ H.print v)
  | .bool =>
      match v with
      | .bool b => return .bool b
      | _ => throw (s!"'{attr}' expects a boolean, got " ++ H.print v)
  | .date => typedTime H v .date attr
  | .timestamp => typedTime H v .timestamp attr
  | .timestamptz => typedTime H v .timestamptz attr
  | .interval => typedTime H v .interval attr

end Literals

/-! The schema -/

inductive TypeKind
  | e
  | r
  | a
deriving DecidableEq

structure TypeRow where
  typeId : Nat
  name : String
  kind : TypeKind
  /-- Whether the type has a `storage_table`. -/
  stored : Bool

/-- A row of `type_label`. -/
structure Label where
  typeId : Nat
  lft : Nat
  rgt : Nat
  depth : Nat

/-- The annotations of a constraint row; a bound that is not given is null. -/
structure Params where
  key : Bool
  unique : Bool
  card : Option (Nat × Option Nat)
  values : List Value
  range : Option (Value × Value)

structure Constraint where
  typeId : Nat
  kind : String
  target : Option String
  params : Params

structure Role where
  roleId : Nat
  relTypeId : Nat
  name : String

/-- The catalog of a graph. -/
structure Schema where
  types : List TypeRow
  labels : List Label
  constraints : List Constraint
  roles : List Role
  /-- The virtual node types. -/
  virtual : List Nat
  /-- The relation type of ownerships. -/
  hasType : Nat

namespace Schema

variable (S : Schema)

def tryTypeId (name : String) : Option Nat :=
  (S.types.find? fun t => t.name = name).map TypeRow.typeId

def typeRow (tid : Nat) : Option TypeRow := S.types.find? fun t => t.typeId = tid

def typeNameOf (tid : Nat) : String :=
  match S.typeRow tid with
  | some t => t.name
  | none => ""

def storageTable (tid : Nat) : Option Nat :=
  match S.typeRow tid with
  | some t => if t.stored then some tid else none
  | none => none

def ogSubtypes (tid : Nat) : List Nat :=
  ((S.labels.filter fun a => a.typeId = tid).flatMap fun a =>
    (S.labels.filter fun d => a.lft ≤ d.lft ∧ d.rgt ≤ a.rgt).map Label.typeId).dedup

def ogSupertypes (tid : Nat) : List Nat :=
  ((S.labels.filter fun d => d.typeId = tid).flatMap fun d =>
    (S.labels.filter fun a => a.lft ≤ d.lft ∧ d.rgt ≤ a.rgt).map Label.typeId).dedup

/-- The topmost supertype. -/
def rootOf (tid : Nat) : Nat :=
  let line := S.ogSupertypes tid
  match (S.labels.filter fun l => l.typeId ∈ line ∧ (S.typeRow l.typeId).isSome).argmin
      Label.depth with
  | some l => l.typeId
  | none => tid

def valueTypeOf (tid : Nat) : Option String :=
  match S.constraints.find? fun c => c.typeId = tid ∧ c.kind = "value" with
  | some c => c.target
  | none => none

/-- The declarations by which a type owns an attribute: those of its supertypes, for a supertype
of the attribute. -/
def owning (ownerTid attrTid : Nat) : List Constraint :=
  S.constraints.filter fun c =>
    c.typeId ∈ S.ogSupertypes ownerTid ∧ c.kind = "owns" ∧
      S.types.any fun t => some t.name = c.target ∧ t.typeId ∈ S.ogSupertypes attrTid

def ownedAttribute (ownerTid : Nat) (attr : String) : Option (Nat × Params) :=
  match S.tryTypeId attr with
  | none => none
  | some attrTid =>
      match (S.owning ownerTid attrTid).head? with
      | none => none
      | some c => some (attrTid, c.params)

/-- The rows of value constraints that apply to an attribute type. -/
def valueRows (attrTid : Nat) : List Constraint :=
  S.constraints.filter fun c => c.typeId ∈ S.ogSupertypes attrTid ∧ c.kind = "values"

/-- A role by name, on the type or any of its supertypes: the one of the highest type id. -/
def findRole (tid : Nat) (role : String) : Option Nat :=
  ((S.roles.filter fun r => r.relTypeId ∈ S.ogSupertypes tid ∧ r.name = role).argmax
    Role.relTypeId).map Role.roleId

def allRolesOf (relTid : Nat) : List Nat :=
  (S.roles.filter fun r =>
    r.relTypeId ∈ S.ogSupertypes relTid ∨ r.relTypeId ∈ S.ogSubtypes relTid).map Role.roleId

end Schema

/-! The store -/

def idType (id : Nat) : Nat := id / 2 ^ 36 % 2 ^ 18

def makeId (typeId loc : Nat) : Except String Nat := do
  require (typeId < 2 ^ 18) s!"type id {typeId} out of range (0..262143)"
  require (loc < 2 ^ 36) s!"local id {loc} exhausted the 36-bit space for this type"
  return typeId * 2 ^ 36 + loc

structure AttrRow (T : Type) where
  typeId : Nat
  id : Nat
  val : Cell T

/-- An ownership edge. -/
structure HasRow where
  id : Nat
  src : Nat
  dst : Nat
deriving DecidableEq

structure Player where
  edgeId : Nat
  roleId : Nat
  playerId : Nat
deriving DecidableEq

structure Store (H : Host) where
  /-- `og_node`: the instances and their types. -/
  nodes : List (Nat × Nat)
  /-- The rows of the tables of entity and relation types: type and instance. -/
  things : List (Nat × Nat)
  /-- The rows of the attribute tables. -/
  attrs : List (AttrRow H.Time)
  has : List HasRow
  players : List Player
  /-- `og_id_alloc`. -/
  nextId : Nat → Nat

/-- The store before any write. -/
def Store.empty (H : Host) : Store H where
  nodes := []
  things := []
  attrs := []
  has := []
  players := []
  nextId _ := 1

inductive EnvVal
  | inst (id : Nat)
  | attr (id : Nat) (v : Value)
  | value (v : Value)

def EnvVal.id : EnvVal → Option Nat
  | .inst i => some i
  | .attr i _ => some i
  | .value _ => none

def EnvVal.toValue : EnvVal → Value
  | .inst i => .int i
  | .attr _ v => v
  | .value v => v

abbrev Env := String → Option EnvVal

def requireId (env : Env) (var : String) : Except String Nat :=
  match env var with
  | none => throw s!"refers to unbound variable '${var}'"
  | some b =>
      match b.id with
      | some i => return i
      | none => throw s!"'${var}' is a value, not an instance"

section Execute

variable {H : Host} (S : Schema)

def eval (H : Host) (env : Env) : Expr → Except String Value
  | .lit l => return litJson l
  | .var v =>
      match env v with
      | some b => return b.toValue
      | none => throw s!"refers to unbound variable '${v}'"
  | .neg x => do
      let v ← eval H env x
      return H.negate v
  | .bin l op r => do
      let a ← eval H env l
      let b ← eval H env r
      return H.arith op a b
  | .attr _ _ => throw "expressions of this shape are not available in a write stage"
  | .call _ _ => throw "expressions of this shape are not available in a write stage"

def allocId (typeId : Nat) (σ : Store H) : Except String (Nat × Store H) := do
  let loc := σ.nextId typeId
  let id ← makeId typeId loc
  return (id, { σ with nextId := Function.update σ.nextId typeId (loc + 1) })

def refuseVirtualWrite (tid : Nat) : Except String Unit :=
  require (tid ∉ S.virtual) (s!"'" ++ S.typeNameOf tid ++ s!"' is a virtual node type and read-only")

def createInstance (ty : String) (σ : Store H) : Except String (Nat × Store H) :=
  match S.tryTypeId ty with
  | none => throw s!"type '{ty}' is not defined in this graph"
  | some tid => do
      require ((S.typeRow tid).map TypeRow.kind ≠ some .a) (s!"'{ty}' is an attribute type; create " ++
        s!"it by owning a value ('has {ty} <value>'), not with 'isa'")
      require ((S.storageTable tid).isSome) s!"'{ty}' is abstract and cannot be instantiated"
      refuseVirtualWrite S tid
      let (id, σ) ← allocId tid σ
      return (id, { σ with nodes := (id, tid) :: σ.nodes, things := (tid, id) :: σ.things })

/-! Attributes -/

/-- A bound of a range, where the value and the bound are numbers. -/
def checkBounds (value : Value) (attr : String) (range : Value × Value) : Except String Unit := do
  require (∀ v ∈ value.asF64, ∀ lo ∈ range.1.asF64, ¬ v < lo)
    s!"the value is below the declared range of '{attr}'"
  require (∀ v ∈ value.asF64, ∀ hi ∈ range.2.asF64, ¬ hi < v)
    s!"the value is above the declared range of '{attr}'"

def checkParams (value : Value) (attr : String) (p : Params) : Except String Unit := do
  require (p.values = [] ∨ p.values.any fun a => a.same value)
    s!"the value is not an allowed value for '{attr}'"
  match p.range with
  | none => return ()
  | some r => checkBounds value attr r

def checkValueConstraints (attrTid : Nat) (attr : String) (value : Value) : Except String Unit :=
  match (S.valueRows attrTid).head? with
  | none => return ()
  | some c => checkParams value attr c.params

/-- The same value may not be owned twice across the owner's type line. -/
def checkUnique (σ : Store H) (ownerId ownerTid attrTid : Nat) (attr : String) (anns : Params)
    (lit : Cell H.Time) : Except String Unit :=
  if anns.key || anns.unique then
    let owners := S.ogSubtypes (S.rootOf ownerTid)
    let name := if anns.key then "key" else "unique"
    require (∀ e ∈ σ.has, ∀ a ∈ σ.attrs, a.id = e.dst → a.typeId = attrTid → a.val = lit →
        e.src ≠ ownerId → idType e.src ∉ owners)
      s!"'{attr}' is declared @{name} but that value is already owned"
  else return ()

/-- The values of an attribute type and its subtypes that an instance owns. -/
def ownedCount (σ : Store H) (ownerId attrTid : Nat) : Nat :=
  (σ.has.filter fun e => e.src = ownerId ∧ idType e.dst ∈ S.ogSubtypes attrTid).length

def checkCard (σ : Store H) (ownerId attrTid : Nat) (attr : String)
    (card : Option (Nat × Option Nat)) : Except String Unit :=
  match card with
  | some (_, some max) =>
      require (ownedCount S σ ownerId attrTid < max)
        s!"'{attr}' is declared @card(..{max}) and the instance already owns as many"
  | _ => return ()

def checkOwnershipConstraints (σ : Store H) (ownerId ownerTid attrTid : Nat) (attr : String)
    (anns : Params) (lit : Cell H.Time) : Except String Unit := do
  checkUnique S σ ownerId ownerTid attrTid attr anns lit
  checkCard S σ ownerId attrTid attr anns.card

/-- The instance of an attribute type that has a value, created if there is none. -/
def lookupOrCreate (attrTid : Nat) (lit : Cell H.Time) (σ : Store H) :
    Except String (Nat × Store H) :=
  match σ.attrs.find? fun a => a.typeId = attrTid ∧ a.val = lit with
  | some a => return (a.id, σ)
  | none => do
      let (id, σ) ← allocId attrTid σ
      return (id, { σ with
        nodes := (id, attrTid) :: σ.nodes
        attrs := ⟨attrTid, id, lit⟩ :: σ.attrs })

/-- Find or create the attribute instance for a type and value, enforcing the annotations of the
type and of the ownership on the way in. -/
def internAttribute (ownerId : Nat) (attr : String) (value : Value) (σ : Store H) :
    Except String (Nat × Store H) :=
  match S.tryTypeId attr with
  | none => throw s!"attribute type '{attr}' is not defined"
  | some attrTid => do
      require ((S.typeRow attrTid).map TypeRow.kind = some .a) s!"'{attr}' is not an attribute type"
      match S.ownedAttribute (idType ownerId) attr with
      | none => throw (s!"'" ++ S.typeNameOf (idType ownerId) ++
          s!"' does not own '{attr}'. declare 'owns {attr}' on it first")
      | some (_, anns) =>
          require ((S.storageTable attrTid).isSome)
            s!"attribute type '{attr}' is abstract and has no instances"
          match S.valueTypeOf attrTid with
          | none => throw s!"attribute type '{attr}' has no value type"
          | some vt => do
              let sqlTy ← valueTypeSql vt
              let lit ← typedLiteral H value sqlTy attr
              checkValueConstraints S attrTid attr value
              checkOwnershipConstraints S σ ownerId (idType ownerId) attrTid attr anns lit
              lookupOrCreate attrTid lit σ

def linkHas (owner attr : Nat) (σ : Store H) : Except String (Store H) :=
  if σ.has.any fun e => e.src = owner ∧ e.dst = attr then return σ
  else do
    let (eid, σ) ← allocId S.hasType σ
    return { σ with has := ⟨eid, owner, attr⟩ :: σ.has }

def unlinkHas (owner attr : Nat) (σ : Store H) : Store H :=
  match σ.has.find? fun e => e.src = owner ∧ e.dst = attr with
  | none => σ
  | some e => { σ with has := σ.has.filter fun e' => e'.id ≠ e.id }

/-! Role players -/

/-- The first declared role that is not taken on the instance. -/
def freeRole (relId : Nat) (σ : Store H) : Option Nat :=
  (S.allRolesOf (idType relId)).find? fun c =>
    !σ.players.any fun p => p.edgeId = relId ∧ p.roleId = c

def chooseRole (relId : Nat) (role : Option String) (σ : Store H) : Except String Nat :=
  match role with
  | some r =>
      match S.findRole (idType relId) r with
      | some roleId => return roleId
      | none => throw (s!"relation '" ++ S.typeNameOf (idType relId) ++ s!"' declares no role '{r}'")
  | none =>
      match freeRole S relId σ with
      | some roleId => return roleId
      | none => throw (s!"relation '" ++ S.typeNameOf (idType relId) ++
          s!"' has no free role for a positional player; name the role explicitly")

def addRolePlayer (relId : Nat) (role : Option String) (player : Nat) (σ : Store H) :
    Except String (Store H) := do
  let roleId ← chooseRole S relId role σ
  -- ON CONFLICT DO NOTHING
  if ⟨relId, roleId, player⟩ ∈ σ.players then return σ
  else return { σ with players := ⟨relId, roleId, player⟩ :: σ.players }

/-! The stages -/

def insertIsa (var ty : String) (env : Env) (σ : Store H) : Except String (Env × Store H) :=
  match env var with
  | some _ => return (env, σ)
  | none => do
      let (id, σ) ← createInstance S ty σ
      return (Function.update env var (some (.inst id)), σ)

def insertThing (s : Env × Store H) : Pat → Except String (Env × Store H)
  | .isa var ty _ => insertIsa S var ty s.1 s.2
  | .isaAnon var ty => insertIsa S var ty s.1 s.2
  | _ => return s

def insertRole (s : Env × Store H) : Pat → Except String (Env × Store H)
  | .role rel role player => do
      let relId ← requireId s.1 rel
      let playerId ← requireId s.1 player
      let σ ← addRolePlayer S relId role playerId s.2
      return (s.1, σ)
  | _ => return s

/-- The attribute type and the value of a `has`. -/
def hasValue (H : Host) (env : Env) (attr : Option String) (val : HasVal) :
    Except String (String × Value) :=
  match attr, val with
  | some a, .cmp .eq e => do
      let v ← eval H env e
      return (a, v)
  | some a, .var v =>
      match env v with
      | some b => return (a, b.toValue)
      | none => throw s!"insert refers to unbound variable '${v}'"
  | some a, _ => throw s!"'has {a}' in an insert needs a value"
  | none, _ => throw "'has' in an insert needs an attribute type"

/-- A variable of a `has` is bound to the attribute instance, where it is not bound yet. -/
def bindAttribute (env : Env) (val : HasVal) (attrId : Nat) (stored : Value) : Env :=
  match val with
  | .var v =>
      match env v with
      | some _ => env
      | none => Function.update env v (some (.attr attrId stored))
  | _ => env

def insertHas (s : Env × Store H) : Pat → Except String (Env × Store H)
  | .has owner attr val => do
      let ownerId ← requireId s.1 owner
      let (attrName, value) ← hasValue H s.1 attr val
      let (attrId, σ) ← internAttribute S ownerId attrName value s.2
      let σ ← linkHas S ownerId attrId σ
      return (bindAttribute s.1 val attrId value, σ)
  | _ => return s

def insertLet (H : Host) : Env → Pat → Except String Env
  | env, .letVar var expr => do
      let v ← eval H env expr
      return Function.update env var (some (.value v))
  | env, _ => return env

def runInsert (pats : List Pat) (env : Env) (σ : Store H) : Except String (Env × Store H) := do
  let (env, σ) ← pats.foldlM (insertThing S) (env, σ)
  let (env, σ) ← pats.foldlM (insertRole S) (env, σ)
  let (env, σ) ← pats.foldlM (insertHas S) (env, σ)
  let env ← pats.foldlM (insertLet H) env
  return (env, σ)

/-- The first row of a match against the current bindings, if there is one. -/
abbrev FindOne (H : Host) :=
  Schema → Store H → List Pat → Env → Except String (Option (List (String × EnvVal)))

def runPut (findOne : FindOne H) (pats : List Pat) (env : Env) (σ : Store H) :
    Except String (Env × Store H) := do
  match ← findOne S σ pats env with
  | some found =>
      return (found.foldl (fun env kv => Function.update env kv.1 (some kv.2)) env, σ)
  | none => runInsert S pats env σ

/-- The values of an attribute type that an instance owns. -/
def ownedValues (ownerId attrTid : Nat) (σ : Store H) : List Nat :=
  (σ.has.filter fun e => e.src = ownerId ∧ idType e.dst ∈ S.ogSubtypes attrTid).map HasRow.dst

def updateUnlink (env : Env) (σ : Store H) : Pat → Except String (Store H)
  | .has owner (some attr) _ => do
      let ownerId ← requireId env owner
      match S.tryTypeId attr with
      | none => throw s!"attribute type '{attr}' is not defined"
      | some attrTid =>
          return (ownedValues S ownerId attrTid σ).foldl (fun σ a => unlinkHas ownerId a σ) σ
  | _ => throw "'update' only supports 'has' replacements"

def runUpdate (pats : List Pat) (env : Env) (σ : Store H) : Except String (Env × Store H) := do
  let σ ← pats.foldlM (updateUnlink S env) σ
  runInsert S pats env σ

/-- The rows of an instance itself. -/
def dropInstance (id : Nat) (σ : Store H) : Except String (Store H) := do
  refuseVirtualWrite S (idType id)
  let stored := (S.storageTable (idType id)).isSome
  return { σ with
    players := σ.players.filter fun p => p.edgeId ≠ id
    things := σ.things.filter fun t => ¬ (stored ∧ t = (idType id, id))
    attrs := σ.attrs.filter fun a => ¬ (stored ∧ a.typeId = idType id ∧ a.id = id)
    nodes := σ.nodes.filter fun n => n.1 ≠ id }

/-- The ownerships an instance is part of, on either side. -/
def unlinkAll (id : Nat) (σ : Store H) : Store H :=
  (σ.has.filter fun e => e.src = id ∨ e.dst = id).foldl (fun σ e => unlinkHas e.src e.dst σ) σ

/-- The relations an instance plays a role in are removed with it; the recursion has a budget. -/
def deleteInstance : Nat → Store H → Nat → Except String (Store H)
  | 0, _, _ => throw "stack depth limit exceeded"
  | fuel + 1, σ, id => do
      let σ := unlinkAll id σ
      let rels := ((σ.players.filter fun p => p.playerId = id).map Player.edgeId).dedup
      let σ ← rels.foldlM (deleteInstance fuel) σ
      dropInstance S id σ

def removedRoles (relId : Nat) (role : Option String) : Except String (List Nat) :=
  match role with
  | some r =>
      match S.findRole (idType relId) r with
      | some roleId => return [roleId]
      | none => throw s!"no role '{r}' on this relation"
  | none => return S.allRolesOf (idType relId)

def deleteItem (fuel : Nat) (env : Env) (σ : Store H) : DeleteItem → Except String (Store H)
  | .thing v => do
      let id ← requireId env v
      deleteInstance S fuel σ id
  | .has owner attr => do
      let ownerId ← requireId env owner
      match env attr with
      | none => throw s!"delete refers to unbound variable '${attr}'"
      | some b =>
          match b.id with
          | none => throw s!"'${attr}' is not an attribute instance"
          | some attrId => return unlinkHas ownerId attrId σ
  | .links rel role player => do
      let relId ← requireId env rel
      let playerId ← requireId env player
      let roleIds ← removedRoles S relId role
      return { σ with players := σ.players.filter fun p =>
        ¬ (p.edgeId = relId ∧ p.playerId = playerId ∧ p.roleId ∈ roleIds) }

def runDelete (fuel : Nat) (items : List DeleteItem) (env : Env) (σ : Store H) :
    Except String (Store H) :=
  items.foldlM (deleteItem S fuel env) σ

/-- A write stage, on one row of bindings. -/
def runWriting (findOne : FindOne H) (fuel : Nat) (w : Writing) (env : Env) (σ : Store H) :
    Except String (Env × Store H) :=
  match w with
  | .insert pats => runInsert S pats env σ
  | .put pats => runPut S findOne pats env σ
  | .update pats => runUpdate S pats env σ
  | .delete items => do
      let σ ← runDelete S fuel items env σ
      return (env, σ)

/-- The stores that successful write stages lead to, with these stages. -/
inductive Reached (findOne : FindOne H) : List Writing → Store H → Prop
  | empty : Reached findOne [] (Store.empty H)
  | step (ws : List Writing) (w : Writing) (σ σ' : Store H) (env env' : Env) (fuel : Nat) :
      Reached findOne ws σ → runWriting S findOne fuel w env σ = .ok (env', σ') →
        Reached findOne (ws ++ [w]) σ'

end Execute

end OntologicalDb.TypeqlWrites
