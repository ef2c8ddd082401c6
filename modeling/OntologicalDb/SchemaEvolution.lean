import Mathlib
import OntologicalDb.GuardedRuns
import OntologicalDb.RowDocuments
import OntologicalDb.SchemaChanges
import OntologicalDb.TypedTables

/-!
Changes of a schema that holds data: the catalog of types and properties, the
columns of the tables behind them, and the changes that are under way.
-/

namespace OntologicalDb.SchemaEvolution

open OntologicalDb.ExceptRules
open OntologicalDb.Labeling
open OntologicalDb.RowDocuments
open OntologicalDb.SchemaChanges
open OntologicalDb.TypeCatalog
open OntologicalDb.TypedTables

section Columns

/-- The characters that fit into so many bytes. -/
def clip : Nat → List Char → List Char
  | _, [] => []
  | room, c :: cs => if c.utf8Size ≤ room then c :: clip (room - c.utf8Size) cs else []

/-- The name a column gets: identifiers are cut to 63 bytes. -/
def physical (column : String) : String := String.ofList (clip 63 column.toList)

/-- The table of a type, or the history table beside it. -/
abbrev Relation := Int × Bool

def current (tid : Int) : Relation := (tid, false)

def history (tid : Int) : Relation := (tid, true)

/-- The types of the columns of the tables, under their physical names. -/
abbrev Columns := Relation → String → Option String

/-- `ADD COLUMN IF NOT EXISTS`. -/
def addColumn (rel : Relation) (column dtype : String) (cols : Columns) : Columns := fun r n =>
  if r = rel ∧ n = physical column then some ((cols r n).getD dtype) else cols r n

def dropColumn (rel : Relation) (column : String) (cols : Columns) : Columns := fun r n =>
  if r = rel ∧ n = physical column then none else cols r n

/-- `DROP COLUMN old` and `RENAME COLUMN new TO old`. -/
def swapColumn (rel : Relation) (old new : String) (cols : Columns) : Columns := fun r n =>
  if r = rel ∧ n = physical old then cols rel (physical new)
  else if r = rel ∧ n = physical new then none
  else cols r n

def retypeColumn (rel : Relation) (column dtype : String) (cols : Columns) : Columns := fun r n =>
  if r = rel ∧ n = physical column then some dtype else cols r n

/-- A new table has no property columns. -/
def createTable (tid : Int) (cols : Columns) : Columns := fun r n =>
  if r = current tid then none else cols r n

/-- `sync_history`: add what is missing and follow type changes; columns the storage
table dropped are kept. -/
def syncHistory (histories : List Int) (tid : Int) (cols : Columns) : Columns := fun r n =>
  if r = history tid ∧ tid ∈ histories then (cols (current tid) n).or (cols r n) else cols r n

end Columns

section Changes

inductive Spec
  | addProperty (type property dataType : String)
  | dropProperty (type property : String)
  | renameProperty (type property newName : String)
  | alterPropertyType (type property dataType : String)
  | setRequired (type property : String)
  | addUnique (type property : String)
  | renameType (type newName : String)
  | addParent (type parent : String)
  | removeParent (type parent : String)
deriving DecidableEq

def Spec.type : Spec → String
  | .addProperty type _ _ | .dropProperty type _ | .renameProperty type _ _
  | .alterPropertyType type _ _ | .setRequired type _ | .addUnique type _
  | .renameType type _ | .addParent type _ | .removeParent type _ => type

inductive Phase
  | planned
  | expanded
  | migrating
  | validated
  | contracted
  | aborted
deriving DecidableEq

/-- What the analysis has found out, as far as later phases read it. -/
structure Report where
  typeId : Int
  parentId : Int
  column : String
  shadow : String
  toSql : String
deriving DecidableEq

structure Change where
  id : Nat
  gid : Int
  spec : Spec
  phase : Phase
  report : Report
deriving DecidableEq

/-- `og_c_shadow_N`, a trigger for writes of one column. -/
structure Trigger where
  table : Int
  change : Nat
  column : String
deriving DecidableEq

/-- `og_req_N`, a constraint on one column; it goes with the column. -/
structure Check where
  table : Int
  change : Nat
  column : String
deriving DecidableEq

structure State where
  o : Ontology
  columns : Columns
  histories : List Int
  triggers : List Trigger
  checks : List Check
  changes : List Change
  nextChange : Nat

end Changes

section Inheritance

def ancestorsOf (links : List (Int × Int)) : Nat → List Int → List Int
  | 0, ids => ids
  | fuel + 1, ids =>
      ancestorsOf links fuel (ids ++ (links.filter fun l => l.1 ∈ ids).map (·.2)).dedup

/-- The properties of a type and its ancestors along the parent links. -/
def inheritedProperties (c : Catalog) (parent : Int) : List Property :=
  let ancestors := ancestorsOf c.typeParent c.typeParent.length [parent]
  c.properties.filter fun p => p.typeId ∈ ancestors

/-- `ON CONFLICT (type_id, name) DO NOTHING`. -/
def insertProperty (ps : List Property) (p : Property) : List Property :=
  if ps.any fun q => q.typeId = p.typeId ∧ q.name = p.name then ps else ps ++ [p]

/-- The rows of a type that stand for properties of other types. -/
def copies (child : Int) (inherited : List Property) : List Property :=
  inherited.map fun p => { p with typeId := child }

def copyColumns (child : Int) (inherited : List Property) (cols : Columns) : Columns :=
  inherited.foldl (fun cols p => addColumn (current child) p.columnName p.dataType cols) cols

/-- What an operation does besides, when it is to the properties. -/
def propertiesRest (f : List Property → List Property) : Rest :=
  ⟨fun c => .ok { c with properties := f c.properties }, fun c c' h => by cases h; exact ⟨rfl, rfl, rfl⟩⟩

end Inheritance

section Helpers

/-- The type and its subtypes, as far as they have tables. -/
def tables (c : Catalog) (tid : Int) : List Int :=
  (ogSubtypes c tid).filter fun sub => (storageTable c sub).isSome

/-- Attribute tables have no history. -/
def keepsHistory (c : Catalog) (sub : Int) : Bool :=
  (storageTable c sub).any fun t => t.shape ≠ .attr

def property (c : Catalog) (tid : Int) (prop : String) : Except String Property :=
  match c.properties.find? fun p => p.typeId = tid ∧ p.name = prop with
  | some p => .ok p
  | none =>
      let name := (tryTypeName c tid).getD ""
      .error s!"property '{prop}' is not declared on '{name}'"

def declaredHere (c : Catalog) (tid : Int) (prop : String) : Except String Unit :=
  require (∀ p ∈ c.properties, p.typeId ∈ ogSupertypes c tid → p.typeId ≠ tid → p.name ≠ prop)
    s!"'{prop}' is inherited; change it there"

variable (s : State)

def State.withCatalog (c : Catalog) : State := { s with o := { s.o with catalog := c } }

def State.withProperties (ps : List Property) : State :=
  s.withCatalog { s.o.catalog with properties := ps }

/-- `enable_table`: a new history table is made like the storage table. -/
def enableTable (sub : Int) : State :=
  if keepsHistory s.o.catalog sub then
    let histories := if sub ∈ s.histories then s.histories else s.histories ++ [sub]
    { s with histories := histories, columns := syncHistory histories sub s.columns }
  else s

def enableTemporalTable (sub : Int) : State :=
  if isTemporal s.o.catalog sub then enableTable s sub else s

/-- What a table below a new parent gets. -/
def inheritTable (inherited : List Property) (s : State) (sub : Int) : State :=
  let s := enableTemporalTable { s with columns := copyColumns sub inherited s.columns } sub
  { s with columns := syncHistory s.histories sub s.columns }

/-- A column that a trigger is made for cannot be dropped or retyped. -/
def State.free (table : Int) (column : String) : Prop :=
  ∀ t ∈ s.triggers, ¬ (t.table = table ∧ physical t.column = physical column)

instance (table : Int) (column : String) : Decidable (s.free table column) :=
  inferInstanceAs (Decidable (∀ t ∈ s.triggers, ¬ _))

def State.hasCheck (table : Int) (change : Nat) : Prop :=
  ∃ t ∈ s.checks, t.table = table ∧ t.change = change

instance (table : Int) (change : Nat) : Decidable (s.hasCheck table change) :=
  inferInstanceAs (Decidable (∃ t ∈ s.checks, _))

/-- The constraints that are left when a column goes. -/
def checksWithout (tables : List Int) (column : String) : List Check :=
  s.checks.filter fun t => ¬ (t.table ∈ tables ∧ physical t.column = physical column)

/-- The constraints that are left when those of one change go. -/
def dropChecks (tables : List Int) (change : Nat) : List Check :=
  s.checks.filter fun t => ¬ (t.table ∈ tables ∧ t.change = change)

def State.change (id : Nat) : Except String Change :=
  match s.changes.find? fun ch => ch.id = id with
  | some ch => .ok ch
  | none => .error s!"schema change {id} does not exist"

def State.save (id : Nat) (phase : Phase) : State :=
  { s with changes := s.changes.map fun ch => if ch.id = id then { ch with phase := phase } else ch }

def typeOf (ch : Change) : Except String Int := typeId s.o.catalog ch.gid ch.spec.type

end Helpers

section Types

/-- `create_type_inner`. -/
def createType (s : State) (graph name : String) (kind : Kind) (parents : List String)
    (isAbstract : Bool) : Except String State := do
  let c := s.o.catalog
  let tid := s.o.nextTypeId
  let gid ← graphId c graph
  let parentIds ← parents.mapM (parentId c gid kind)
  let inherited := parentIds.flatMap (inheritedProperties c)
  if (instanceTable kind isAbstract tid).isSome then
    let rest := propertiesRest fun ps => (copies tid inherited).foldl insertProperty ps
    let o ← SchemaChanges.createType s.o gid name kind parents isAbstract rest
    let columns := copyColumns tid inherited (createTable tid s.columns)
    return enableTemporalTable { s with o := o, columns := columns } tid
  else
    let o ← SchemaChanges.createType s.o gid name kind parents isAbstract Rest.none
    return { s with o := o }

/-- `og_drop_type`. -/
def dropType (s : State) (graph name : String) (cascade : Bool) (instances : List Int → Nat) :
    Except String State := do
  let c := s.o.catalog
  let gid ← graphId c graph
  let tid ← typeId c gid name
  let dropped := tables c tid
  let o ← SchemaChanges.dropType s.o gid name cascade instances
  return { s with
    o := o
    triggers := s.triggers.filter fun t => t.table ∉ dropped
    checks := s.checks.filter fun t => t.table ∉ dropped }

/-- `og_drop_graph`; its schema changes go with it. -/
def dropGraph (s : State) (graph : String) : Except String State := do
  let c := s.o.catalog
  let gid ← graphId c graph
  let tids := graphTypes c gid
  require (¬ c.roles.any fun r => r.playerTypeId.any (· ∈ tids) ∧ r.relTypeId ∉ tids)
    "graph delete failed: violates foreign key constraint"
  return { s.withCatalog { c with
      graphs := c.graphs.filter fun g => g.1 ≠ gid
      types := c.types.filter fun t => t.graphId ≠ gid
      typeParent := c.typeParent.filter fun l => l.1 ∉ tids ∧ l.2 ∉ tids
      labels := c.labels.filter fun l => l.typeId ∉ tids
      properties := c.properties.filter fun p => p.typeId ∉ tids
      roles := c.roles.filter fun r => r.relTypeId ∉ tids
      virtualRels := c.virtualRels.filter fun v =>
        v.typeId ∉ tids ∧ v.srcType ∉ tids ∧ v.dstType ∉ tids
      virtualSources := c.virtualSources.filter fun v => v.1 ∉ tids
      temporal := c.temporal.filter fun t => t ∉ tids } with
    triggers := s.triggers.filter fun t => t.table ∉ tids
    checks := s.checks.filter fun t => t.table ∉ tids
    changes := s.changes.filter fun ch => ch.gid ≠ gid }

/-- What a TypeQL definition says of the storage of its type; the value type is its
own or one of a type above it. -/
structure Definition where
  type : TypeDef
  isAbstract : Bool
  valueType : Option String

/-- Give a type its table, without columns for properties. -/
def giveTable (s : State) (tid : Int) (table : StorageTable) : State :=
  { s.withCatalog { s.o.catalog with
      types := s.o.catalog.types.map fun t =>
        if t.typeId = tid then { t with storageTable := some table } else t } with
    columns := createTable tid s.columns }

/-- Pass 3 of `run_define`: `ensure_attr_storage` and `ensure_instance_storage`. -/
def ensureStorage (gid : Int) (s : State) (d : Definition) : Except String State := do
  let c := s.o.catalog
  let tid ← typeId c gid d.type.name
  match d.type.kind, d.valueType with
  | .attribute, .none => do
      require (d.isAbstract = true) s!"attribute '{d.type.name}' needs a value type"
      return s
  | .attribute, some sqlType =>
      if d.isAbstract = true ∨ (storageTable c tid).isSome then return s
      else
        let s := giveTable s tid ⟨.attr, tid⟩
        -- the value is a property for the other language
        let properties := insertProperty s.o.catalog.properties ⟨tid, "val", sqlType, "val", true, false⟩
        return { s.withProperties properties with columns := addColumn (current tid) "val" sqlType s.columns }
  | _, _ =>
      if d.isAbstract = true ∨ (storageTable c tid).isSome then return s
      else return giveTable s tid (nodeTable tid)

/-- `run_define`, as far as types and their storage. -/
def define (s : State) (graph : String) (defs : List Definition) : Except String State := do
  let gid ← graphId s.o.catalog graph
  let o ← runDefine s.o gid (defs.map (·.type)) Rest.none
  defs.foldlM (ensureStorage gid) { s with o := o }

/-- The classes of a document and their hierarchy; its properties are declared by
`og_add_property`. -/
def loadRdf (s : State) (graph : String) (triples : List Triple) : Except String State := do
  let gid ← graphId s.o.catalog graph
  let o ← SchemaChanges.loadRdf s.o gid triples Rest.none
  let columns : Columns := fun r n => if s.o.nextTypeId ≤ r.1 then none else s.columns r n
  return { s with o := o, columns := columns }

/-- `og_add_property`. -/
def addProperty (session : Session) (s : State) (gid : Int) (typeName prop dtype : String) :
    Except String State := do
  let c := s.o.catalog
  let tid ← typeId c gid typeName
  require (∀ p ∈ c.properties, ¬ (p.typeId = tid ∧ p.name = prop)) "duplicate key value"
  let column := columnName session prop
  let p : Property := ⟨tid, prop, dtype, column, false, false⟩
  let columns := (tables c tid).foldl (fun cols sub =>
    syncHistory s.histories sub (addColumn (current sub) column dtype cols)) s.columns
  let rows := (tables c tid).map fun sub => { p with typeId := sub }
  let properties := rows.foldl insertProperty (c.properties ++ [p])
  return { s.withProperties properties with columns := columns }

/-- A write turns the column of a declared property into text. -/
def widenProperty (s : State) (tid : Int) (prop : String) : Except String State := do
  let c := s.o.catalog
  let p ← property c tid prop
  require (p.dataType ∈ widenable) "not inferred"
  let column := p.columnName
  require (∀ sub ∈ tables c tid, s.free sub column ∧ (s.columns (current sub) (physical column)).isSome)
    "cannot alter type of a column"
  let columns := (tables c tid).foldl (fun cols sub =>
    syncHistory s.histories sub (retypeColumn (current sub) column "text" cols)) s.columns
  let properties := KeyedRows.update
    (fun p : Property => p.typeId ∈ ogSubtypes c tid ∧ p.name = prop)
    (fun p => { p with dataType := "text" }) c.properties
  return { s.withProperties properties with columns := columns }

/-- `og_enable_temporal`. -/
def enableTemporal (s : State) (graph name : String) : Except String State := do
  let c := s.o.catalog
  let gid ← graphId c graph
  let tid ← typeId c gid name
  let kind ← typeKind c tid
  require (kind ≠ .attribute) "only entity and relation types can be temporal"
  let s := s.withCatalog { c with temporal := if tid ∈ c.temporal then c.temporal else tid :: c.temporal }
  return (tables c tid).foldl enableTable s

end Types

section Phases

variable (session : Session)

/-- `analyse`: what a change is about, and whether it can be made. -/
def analyse (c : Catalog) (gid : Int) (id : Nat) (spec : Spec) : Except String Report := do
  let tid ← typeId c gid spec.type
  let found (p : Property) : Report := ⟨tid, 0, p.columnName, "", ""⟩
  match spec with
  | .addProperty _ _ _ => return ⟨tid, 0, "", "", ""⟩
  | .dropProperty _ prop => do
      let p ← property c tid prop
      declaredHere c tid prop
      return found p
  | .renameProperty _ prop new => do
      require (isReservedKey new = false) s!"'{new}' is a reserved name"
      let p ← property c tid prop
      declaredHere c tid prop
      require (∀ p ∈ c.properties, ¬ (p.typeId ∈ ogSubtypes c tid ∧ p.name = new))
        s!"'{new}' is already a property"
      return found p
  | .alterPropertyType _ prop toSql => do
      let p ← property c tid prop
      declaredHere c tid prop
      require (toSql ≠ p.dataType) s!"'{prop}' is already {toSql}"
      return { found p with shadow := p.columnName ++ "__s" ++ toString id, toSql := toSql }
  | .setRequired _ prop => do return found (← property c tid prop)
  | .addUnique _ prop => do return found (← property c tid prop)
  | .renameType _ new => do
      require (tryTypeId c gid new = none) s!"type '{new}' already exists"
      return ⟨tid, 0, "", "", ""⟩
  | .addParent _ parent => do
      let pid ← typeId c gid parent
      require (typeKind c tid = typeKind c pid) "different kinds of type"
      require (∀ l ∈ c.typeParent, l ≠ (tid, pid)) "already inherits"
      require (ogIsSubtype c pid tid = false) "that would be a cycle"
      require (∀ p ∈ c.properties, p.typeId ∈ ogSupertypes c pid → ∀ q ∈ c.properties,
        q.typeId = tid → q.name = p.name → q.dataType = p.dataType) "declared on both with different types"
      return ⟨tid, pid, "", "", ""⟩
  | .removeParent _ parent => do
      let pid ← typeId c gid parent
      require (typeKind c tid = typeKind c pid) "different kinds of type"
      require (∃ l ∈ c.typeParent, l = (tid, pid)) "does not inherit"
      return ⟨tid, pid, "", "", ""⟩

/-- `og_schema_plan`. -/
def plan (s : State) (graph : String) (spec : Spec) : Except String State := do
  let gid ← graphId s.o.catalog graph
  let report ← analyse s.o.catalog gid s.nextChange spec
  return { s with
    changes := s.changes ++ [⟨s.nextChange, gid, spec, .planned, report⟩]
    nextChange := s.nextChange + 1 }

/-- The rows of a property under a second name. -/
def secondNames (c : Catalog) (subs : List Int) (prop new : String) : List Property :=
  (c.properties.filter fun p => p.typeId ∈ subs ∧ p.name = prop).map fun p => { p with name := new }

def expand (s : State) (ch : Change) : Except String State := do
  let c := s.o.catalog
  match ch.spec with
  | .addProperty type prop dtype => addProperty session s ch.gid type prop dtype
  | .renameProperty _ prop new => do
      let tid ← typeOf s ch
      let subs := ogSubtypes c tid
      let added := secondNames c subs prop new
      require (∀ p ∈ added, ∀ q ∈ c.properties, ¬ (q.typeId = p.typeId ∧ q.name = p.name))
        "could not add the new name"
      return s.withProperties (c.properties ++ added)
  | .alterPropertyType _ _ _ => do
      let tid ← typeOf s ch
      let columns := (tables c tid).foldl (fun cols sub => syncHistory s.histories sub
        (addColumn (current sub) ch.report.shadow ch.report.toSql cols)) s.columns
      require (∀ sub ∈ tables c tid, (s.columns (current sub) (physical ch.report.column)).isSome)
        "column does not exist"
      let triggers := (tables c tid).map fun sub => ⟨sub, ch.id, ch.report.column⟩
      return { s with columns := columns, triggers := s.triggers ++ triggers }
  | .setRequired _ _ => do
      let tid ← typeOf s ch
      require (∀ sub ∈ tables c tid, (s.columns (current sub) (physical ch.report.column)).isSome)
        "column does not exist"
      return { s with
        checks := s.checks ++ (tables c tid).map fun sub => ⟨sub, ch.id, ch.report.column⟩ }
  | _ => return s

/-- Work that belongs to a successful validation. -/
def finishValidation (s : State) (ch : Change) : Except String State := do
  match ch.spec with
  | .setRequired _ _ => do
      let tid ← typeOf s ch
      require (∀ sub ∈ tables s.o.catalog tid, s.hasCheck sub ch.id) "constraint does not exist"
      return s
  | _ => return s

/-- The tables a change of columns goes over: storage and history. -/
def relationsOf (s : State) (sub : Int) : List Relation :=
  if sub ∈ s.histories then [current sub, history sub] else [current sub]

/-- Delete the rows a type and its subtypes have under a name. -/
def deleteName (c : Catalog) (subs : List Int) (name : String) : List Property :=
  c.properties.filter fun p => ¬ (p.typeId ∈ subs ∧ p.name = name)

/-- Update the rows a type and its subtypes have on a column. -/
def updateColumnRows (c : Catalog) (subs : List Int) (column : String) (f : Property → Property) :
    List Property :=
  KeyedRows.update (fun p : Property => p.typeId ∈ subs ∧ p.columnName = column) f c.properties

def contractAlter (s : State) (ch : Change) (tid : Int) : Except String State := do
  let c := s.o.catalog
  let column := ch.report.column
  let shadow := ch.report.shadow
  let triggers := s.triggers.filter fun t => ¬ (t.table ∈ tables c tid ∧ t.change = ch.id)
  let rels := (tables c tid).flatMap (relationsOf s)
  require (∀ sub ∈ tables c tid, State.free { s with triggers := triggers } sub column)
    "cannot drop column because other objects depend on it"
  require (∀ rel ∈ rels, (s.columns rel (physical column)).isSome ∧
    physical shadow ≠ physical column ∧ (s.columns rel (physical shadow)).isSome) "column does not exist"
  let columns := rels.foldl (fun cols rel => swapColumn rel column shadow cols) s.columns
  let properties := updateColumnRows c (ogSubtypes c tid) column
    fun p => { p with dataType := ch.report.toSql }
  return { s.withProperties properties with
    columns := columns
    triggers := triggers
    checks := checksWithout s (tables c tid) column }

def contract (s : State) (ch : Change) : Except String State := do
  let c := s.o.catalog
  match ch.spec with
  | .addProperty _ _ _ => return s
  | .dropProperty _ prop => do
      let tid ← typeOf s ch
      require (∀ sub ∈ tables c tid, s.free sub ch.report.column)
        "cannot drop column because other objects depend on it"
      let columns := (tables c tid).foldl (fun cols sub =>
        dropColumn (current sub) ch.report.column cols) s.columns
      return { s.withProperties (deleteName c (ogSubtypes c tid) prop) with
        columns := columns
        checks := checksWithout s (tables c tid) ch.report.column }
  | .renameProperty _ prop _ => do
      let tid ← typeOf s ch
      return s.withProperties (deleteName c (ogSubtypes c tid) prop)
  | .alterPropertyType _ _ _ => do
      let tid ← typeOf s ch
      contractAlter s ch tid
  | .setRequired _ _ => do
      let tid ← typeOf s ch
      require (∀ sub ∈ tables c tid, s.hasCheck sub ch.id ∧
        (s.columns (current sub) (physical ch.report.column)).isSome) "could not tighten"
      let properties := updateColumnRows c (ogSubtypes c tid) ch.report.column
        fun p => { p with required := true }
      return { s.withProperties properties with checks := dropChecks s (tables c tid) ch.id }
  | .addUnique _ _ => do
      let tid ← typeOf s ch
      require (∀ sub ∈ tables c tid, (s.columns (current sub) (physical ch.report.column)).isSome)
        "could not build the unique index"
      return s.withProperties (updateColumnRows c (ogSubtypes c tid) ch.report.column
        fun p => { p with isKey := true })
  | .renameType _ new => do
      let tid ← typeOf s ch
      require (tryTypeId c ch.gid new = none) "duplicate key value"
      return s.withCatalog { c with
        types := c.types.map fun t => if t.typeId = tid then { t with name := new } else t }
  | .addParent _ _ => do
      let tid := ch.report.typeId
      let pid := ch.report.parentId
      -- the foreign keys of `type_parent`
      require (tid ∈ graphTypes c ch.gid ∧ pid ∈ graphTypes c ch.gid) "violates foreign key constraint"
      let c ← insertParent tid c pid
      let c ← relabelGraph c ch.gid
      let inherited := inheritedProperties c pid
      let rows := (tables c tid).flatMap fun sub => copies sub inherited
      let s := s.withCatalog { c with properties := rows.foldl insertProperty c.properties }
      return (tables c tid).foldl (inheritTable inherited) s
  | .removeParent _ _ => do
      let links := c.typeParent.filter fun l => l ≠ (ch.report.typeId, ch.report.parentId)
      return s.withCatalog (← relabelGraph { c with typeParent := links } ch.gid)

def abort (s : State) (ch : Change) : Except String State := do
  let c := s.o.catalog
  match ch.spec with
  | .renameProperty _ _ new => do
      let tid ← typeOf s ch
      return s.withProperties (deleteName c (ogSubtypes c tid) new)
  | .alterPropertyType _ _ _ => do
      let tid ← typeOf s ch
      let rels := (tables c tid).flatMap (relationsOf s)
      let triggers := s.triggers.filter fun t => ¬ (t.table ∈ tables c tid ∧ t.change = ch.id)
      require (∀ sub ∈ tables c tid, State.free { s with triggers := triggers } sub ch.report.shadow)
        "cannot drop column because other objects depend on it"
      let columns := rels.foldl (fun cols rel => dropColumn rel ch.report.shadow cols) s.columns
      return { s with
        columns := columns
        triggers := triggers
        checks := checksWithout s (tables c tid) ch.report.shadow }
  | .setRequired _ _ => do
      let tid ← typeOf s ch
      return { s with checks := dropChecks s (tables c tid) ch.id }
  | _ => return s

end Phases

/-- The operations on a schema. Whether a validation finds violations depends on the
data; what a failed one leaves is the phase there was. -/
inductive Op
  | createType (graph name : String) (kind : Kind) (parents : List String) (isAbstract : Bool)
  | dropType (graph name : String) (cascade : Bool) (instances : List Int → Nat)
  | addProperty (session : Session) (gid : Int) (typeName prop dtype : String)
  | widen (tid : Int) (prop : String)
  | dropGraph (graph : String)
  | define (graph : String) (defs : List Definition)
  | loadRdf (graph : String) (triples : List Triple)
  | enableTemporal (graph name : String)
  | plan (graph : String) (spec : Spec)
  | expand (session : Session) (id : Nat)
  | migrate (id : Nat)
  | validate (id : Nat) (violations : Nat)
  | contract (id : Nat)
  | abort (id : Nat)

def requirePhase (ch : Change) (allowed : List Phase) : Except String Unit :=
  require (ch.phase ∈ allowed) s!"OG_SCHEMA_PHASE: change {ch.id} is in another phase"

def step (s : State) : Op → Except String State
  | .createType graph name kind parents isAbstract => createType s graph name kind parents isAbstract
  | .dropType graph name cascade instances => dropType s graph name cascade instances
  | .addProperty session gid typeName prop dtype => addProperty session s gid typeName prop dtype
  | .widen tid prop => widenProperty s tid prop
  | .dropGraph graph => dropGraph s graph
  | .define graph defs => define s graph defs
  | .loadRdf graph triples => loadRdf s graph triples
  | .enableTemporal graph name => enableTemporal s graph name
  | .plan graph spec => plan s graph spec
  | .expand session id => do
      let ch ← s.change id
      requirePhase ch [.planned]
      return (← expand session s ch).save id .expanded
  | .migrate id => do
      let ch ← s.change id
      requirePhase ch [.expanded, .migrating]
      return s.save id .migrating
  | .validate id violations => do
      let ch ← s.change id
      requirePhase ch [.expanded, .migrating, .validated]
      if violations = 0 then return (← finishValidation s ch).save id .validated else return s
  | .contract id => do
      let ch ← s.change id
      requirePhase ch [.validated]
      return (← contract s ch).save id .contracted
  | .abort id => do
      let ch ← s.change id
      requirePhase ch [.planned, .expanded, .migrating, .validated]
      if ch.phase = .planned then return s.save id .aborted
      else return (← abort s ch).save id .aborted

end OntologicalDb.SchemaEvolution
