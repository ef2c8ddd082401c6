import Mathlib
import OntologicalDb.GraphFrames
import OntologicalDb.GuardedRuns
import OntologicalDb.PropertyColumns

/-!
The versions of the schema of a graph: a document of its catalog is recorded beside
each change, and is meant to be the schema as it is.
-/

namespace OntologicalDb.SchemaVersions

open OntologicalDb.EvolutionFrames
open OntologicalDb.ExceptRules
open OntologicalDb.GraphFrames
open OntologicalDb.GuardedRuns
open OntologicalDb.LabelCurrency
open OntologicalDb.Labeling
open OntologicalDb.PropertyColumns (ascii)
open OntologicalDb.SchemaChanges
open OntologicalDb.SchemaEvolution
open OntologicalDb.TypeCatalog
open OntologicalDb.Values
open OntologicalDb.TypedTables (Session columnName inferColumnType widenable typeAccepts)

section Snapshots

structure PropertyDoc where
  name : String
  type : String
  column : String
  required : Bool
  key : Bool
deriving DecidableEq

structure RoleDoc where
  name : String
  ordinal : Int
  player : Option String
deriving DecidableEq

/-- A type in the document of a graph; members of objects are in the order of their keys. -/
structure TypeDoc where
  name : String
  kind : Kind
  isAbstract : Bool
  parents : List String
  properties : List PropertyDoc
  roles : List RoleDoc
  temporal : Bool
  stamped : Bool
deriving DecidableEq

/-- What the catalog says of types beside the model of it: `is_abstract`, and the rows of
`og_catalog.stamped`. What it says of dropped types is not read again. -/
structure Marks where
  isAbstract : List Int
  stamped : List Int

def parentNames (c : Catalog) (tid : Int) : List String :=
  ((c.typeParent.filter fun l => l.1 = tid).filterMap fun l => tryTypeName c l.2).insertionSort (· ≤ ·)

def propertyDocs (c : Catalog) (tid : Int) : List PropertyDoc :=
  ((propertiesOf c tid).map fun p =>
    (⟨p.name, p.dataType, p.columnName, p.required, p.isKey⟩ : PropertyDoc)).insertionSort
      fun a b => a.name ≤ b.name

def roleDocs (c : Catalog) (tid : Int) : List RoleDoc :=
  ((c.roles.filter fun r => r.relTypeId = tid).map fun r =>
    (⟨r.name, r.ordinal, r.playerTypeId.bind (tryTypeName c)⟩ : RoleDoc)).insertionSort
      fun a b => a.name ≤ b.name

def typeDoc (c : Catalog) (m : Marks) (t : TypeRow) : TypeDoc where
  name := t.name
  kind := t.kind
  isAbstract := t.typeId ∈ m.isAbstract
  parents := parentNames c t.typeId
  properties := propertyDocs c t.typeId
  roles := roleDocs c t.typeId
  temporal := t.typeId ∈ c.temporal
  stamped := t.typeId ∈ m.stamped

/-- `og__schema_snapshot`. -/
def schemaSnapshot (c : Catalog) (m : Marks) (gid : Int) : List TypeDoc :=
  ((c.types.filter fun t => t.graphId = gid).insertionSort fun a b => a.typeId ≤ b.typeId).map
    (typeDoc c m)

end Snapshots

section Versions

/-- A schema change `alter_role`; the row of a role is found by its type and name. -/
structure RoleChange where
  id : Nat
  gid : Int
  relType : Int
  role : String
  player : Int
  phase : Phase
deriving DecidableEq

structure Database where
  schema : State
  marks : Marks
  roleChanges : List RoleChange
  nextRoleChange : Nat
  versions : Int → List TypeDoc

variable (d : Database)

def Database.catalog : Catalog := d.schema.o.catalog

def Database.snapshot (gid : Int) : List TypeDoc := schemaSnapshot d.catalog d.marks gid

/-- The latest version of a graph is the document of its catalog. -/
def Database.bumpSchemaVersion (gid : Int) : Database :=
  { d with versions := fun g => if g = gid then d.snapshot gid else d.versions g }

/-- How `relabel_graph` ends; it returns early where a graph has no types. -/
def Database.relabelled (gid : Int) : Database :=
  if loadDag d.catalog gid = [] then d else d.bumpSchemaVersion gid

def Database.withRoles (roles : List Role) : Database :=
  { d with schema := d.schema.withCatalog { d.catalog with roles := roles } }

/-- `ON CONFLICT (rel_type_id, name) DO UPDATE`. -/
def upsertRole (r : Role) (update : Role → Role) (roles : List Role) : List Role :=
  if roles.any fun q => q.relTypeId = r.relTypeId ∧ q.name = r.name then
    roles.map fun q => if q.relTypeId = r.relTypeId ∧ q.name = r.name then update q else q
  else roles ++ [r]

end Versions

section Types

def createType (d : Database) (graph name : String) (kind : Kind) (parents : List String)
    (isAbstract : Bool) : Except String Database := do
  let gid ← graphId d.catalog graph
  let s ← SchemaEvolution.createType d.schema graph name kind parents isAbstract
  let marked := if isAbstract then d.schema.o.nextTypeId :: d.marks.isAbstract else d.marks.isAbstract
  return Database.relabelled { d with schema := s, marks := { d.marks with isAbstract := marked } } gid

def dropType (d : Database) (graph name : String) (cascade : Bool) (instances : List Int → Nat) :
    Except String Database := do
  let gid ← graphId d.catalog graph
  let s ← SchemaEvolution.dropType d.schema graph name cascade instances
  return Database.relabelled { d with schema := s } gid

def dropGraph (d : Database) (graph : String) : Except String Database := do
  let s ← SchemaEvolution.dropGraph d.schema graph
  return { d with schema := s }

def addProperty (session : Session) (d : Database) (gid : Int) (typeName prop dtype : String) :
    Except String Database := do
  let s ← SchemaEvolution.addProperty session d.schema gid typeName prop dtype
  return Database.bumpSchemaVersion { d with schema := s } gid

/-- `og_add_role`. -/
def addRole (d : Database) (graph relType role : String) (player : Option String) (ordinal : Int) :
    Except String Database := do
  let gid ← graphId d.catalog graph
  let rid ← typeId d.catalog gid relType
  let kind ← typeKind d.catalog rid
  require (kind = .relation) s!"'{relType}' is not a relation type; roles only exist on relations"
  let playerId ← player.mapM (typeId d.catalog gid)
  let roles := upsertRole ⟨rid, role, playerId, ordinal⟩
    (fun q => { q with playerTypeId := playerId, ordinal := ordinal }) d.catalog.roles
  return (d.withRoles roles).bumpSchemaVersion gid

/-- What records a version and changes nothing that is in it: rules, indexes, mappings. -/
def changeBeside (d : Database) (graph : String) : Except String Database := do
  let gid ← graphId d.catalog graph
  return d.bumpSchemaVersion gid

def stamp (tid : Int) (m : Marks) : Marks :=
  { m with stamped := if tid ∈ m.stamped then m.stamped else tid :: m.stamped }

/-- `og_enable_stamping`. -/
def enableStamping (d : Database) (graph typeName : String) : Except String Database := do
  let gid ← graphId d.catalog graph
  let tid ← typeId d.catalog gid typeName
  return Database.bumpSchemaVersion { d with marks := stamp tid d.marks } gid

/-- `og_enable_temporal`. -/
def enableTemporal (d : Database) (graph typeName : String) : Except String Database := do
  let gid ← graphId d.catalog graph
  let tid ← typeId d.catalog gid typeName
  let s ← SchemaEvolution.enableTemporal d.schema graph typeName
  return Database.bumpSchemaVersion { d with schema := s, marks := stamp tid d.marks } gid

/-- A statement that takes one label off every node and puts another on. -/
def renameLabel (d : Database) (graph old new : String) : Except String Database := do
  let c := d.catalog
  let gid ← graphId c graph
  match tryTypeId c gid old with
  | none => return d
  | some tid =>
      if (tryTypeId c gid new).isSome then return d
      else
        let types := c.types.map fun t => if t.typeId = tid then { t with name := new } else t
        return Database.bumpSchemaVersion
          { d with schema := d.schema.withCatalog { c with types := types } } gid

end Types

section Phases

/-- The phases of a schema change; those that change the catalog record a version. -/
def changePhase (d : Database) (op : Op) (id : Nat) : Except String Database := do
  let ch ← d.schema.change id
  let s ← SchemaEvolution.step d.schema op
  return Database.bumpSchemaVersion { d with schema := s } ch.gid

def abortChange (d : Database) (id : Nat) : Except String Database := do
  let ch ← d.schema.change id
  let s ← SchemaEvolution.step d.schema (.abort id)
  if ch.phase = .planned then return { d with schema := s }
  else return Database.bumpSchemaVersion { d with schema := s } ch.gid

/-- `og_schema_plan`, `og_schema_migrate` and `og_schema_validate`. -/
def phaseBeside (d : Database) (op : Op) : Except String Database := do
  let s ← SchemaEvolution.step d.schema op
  return { d with schema := s }

/-- `role_of`: the role of a relation type or of one above it. -/
def roleOf (c : Catalog) (rid : Int) (role : String) : Except String Role :=
  match c.roles.find? fun r => r.relTypeId ∈ ogSupertypes c rid ∧ r.name = role with
  | some r => .ok r
  | none => .error s!"relation has no role named '{role}'"

def planRole (d : Database) (graph relation role player : String) : Except String Database := do
  let gid ← graphId d.catalog graph
  let rid ← typeId d.catalog gid relation
  let pid ← typeId d.catalog gid player
  let r ← roleOf d.catalog rid role
  return { d with
    roleChanges := d.roleChanges ++ [⟨d.nextRoleChange, gid, r.relTypeId, role, pid, .planned⟩]
    nextRoleChange := d.nextRoleChange + 1 }

def roleChange (d : Database) (id : Nat) : Except String RoleChange :=
  match d.roleChanges.find? fun rc => rc.id = id with
  | some rc => .ok rc
  | none => .error s!"schema change {id} does not exist"

def saveRole (d : Database) (id : Nat) (phase : Phase) : Database :=
  { d with roleChanges := d.roleChanges.map fun rc => if rc.id = id then { rc with phase := phase } else rc }

def requireRolePhase (rc : RoleChange) (allowed : List Phase) : Except String Unit :=
  require (rc.phase ∈ allowed) s!"OG_SCHEMA_PHASE: change {rc.id} is in another phase"

def expandRole (d : Database) (id : Nat) : Except String Database := do
  let rc ← roleChange d id
  requireRolePhase rc [.planned]
  return (saveRole d id .expanded).bumpSchemaVersion rc.gid

def migrateRole (d : Database) (id : Nat) : Except String Database := do
  let rc ← roleChange d id
  requireRolePhase rc [.expanded, .migrating]
  return saveRole d id .migrating

def validateRole (d : Database) (id : Nat) (violations : Nat) : Except String Database := do
  let rc ← roleChange d id
  requireRolePhase rc [.expanded, .migrating, .validated]
  return if violations = 0 then saveRole d id .validated else d

def contractRole (d : Database) (id : Nat) : Except String Database := do
  let rc ← roleChange d id
  requireRolePhase rc [.validated]
  -- the foreign key of `player_type_id`
  require (rc.player ∈ graphTypes d.catalog rc.gid) "violates foreign key constraint"
  let roles := d.catalog.roles.map fun r =>
    if r.relTypeId = rc.relType ∧ r.name = rc.role then { r with playerTypeId := some rc.player } else r
  return saveRole ((d.withRoles roles).bumpSchemaVersion rc.gid) id .contracted

def abortRole (d : Database) (id : Nat) : Except String Database := do
  let rc ← roleChange d id
  requireRolePhase rc [.planned, .expanded, .migrating, .validated]
  if rc.phase = .planned then return saveRole d id .aborted
  else return saveRole (d.bumpSchemaVersion rc.gid) id .aborted

end Phases

section Define

/-- `relates role as specialises`. -/
structure Relates where
  role : String
  specialises : Option String

def declareRole (gid : Int) (relation : String) (d : Database) (r : Relates) :
    Except String Database := do
  let c := d.catalog
  let tid ← typeId c gid relation
  require (∀ p ∈ r.specialises, ∃ q ∈ c.roles, q.relTypeId ∈ ogSupertypes c tid ∧ q.name = p)
    s!"no supertype of '{relation}' declares the role"
  if c.roles.any fun q => q.relTypeId = tid ∧ q.name = r.role then return d
  else
    let ordinal := (c.roles.filter fun q => q.relTypeId = tid).length
    return d.withRoles (c.roles ++ [⟨tid, r.role, none, ordinal⟩])

/-- The types that a definition declares are abstract when it says so. -/
def newlyAbstract (before after : Catalog) (defs : List Definition) : List Int :=
  (after.types.filter fun t => t.typeId ∉ before.types.map (·.typeId) ∧
    (defs.find? fun defined => defined.type.name = t.name).any (·.isAbstract)).map (·.typeId)

/-- `run_define`; roles that specialise others come after those they specialise. -/
def define (d : Database) (graph : String) (defs : List (Definition × List Relates)) :
    Except String Database := do
  let gid ← graphId d.catalog graph
  let s ← SchemaEvolution.define d.schema graph (defs.map (·.1))
  let marked := newlyAbstract d.catalog s.o.catalog (defs.map (·.1)) ++ d.marks.isAbstract
  let d : Database := { d with schema := s, marks := { d.marks with isAbstract := marked } }
  let declare (pass : Relates → Bool) (d : Database) (e : Definition × List Relates) :=
    (e.2.filter pass).foldlM (declareRole gid e.1.type.name) d
  let d ← defs.foldlM (declare fun r => r.specialises.isNone) d
  let d ← defs.foldlM (declare fun r => r.specialises.isSome) d
  return d.bumpSchemaVersion gid

/-- What reads and writes of the other language create first. -/
def ensureHasType (d : Database) (graph : String) : Except String Database := do
  let gid ← graphId d.catalog graph
  let o ← SchemaChanges.ensureHasType d.schema.o gid
  let columns := createTable d.schema.o.nextTypeId d.schema.columns
  if (tryTypeId d.catalog gid hasType).isSome then return d
  else return Database.relabelled { d with schema := { d.schema with o := o, columns := columns } } gid

end Define

section Writes

/-- The row of a property before the write. -/
def known (c : Catalog) (tid : Int) (key : String) : Option Property :=
  (propertiesOf c tid).find? fun p => p.name = key

/-- A member for which a property is declared or widened. -/
def needsWork (c : Catalog) (tid : Int) (kv : String × Json) : Bool :=
  match inferColumnType kv.2, known c tid kv.1 with
  | none, _ => false
  | some _, none => true
  | some want, some p => p.dataType ∈ widenable && !typeAccepts p.dataType want

/-- One member of a payload: declaring records a version, widening does not. -/
def declareMember (session : Session) (c : Catalog) (t : TypeRow) (d : Database) (kv : String × Json) :
    Except String Database :=
  match inferColumnType kv.2, known c t.typeId kv.1 with
  | some want, none => addProperty session d t.graphId t.name kv.1 want
  | some _, some _ => do
      let s ← widenProperty d.schema t.typeId kv.1
      return { d with schema := s }
  | none, _ => return d

/-- What a write of an instance does to the schema of its type. -/
def declareNewProps (session : Session) (d : Database) (tid : Int) (members : List (String × Json)) :
    Except String Database :=
  let c := d.catalog
  let work := members.filter (needsWork c tid)
  match typeRow? c tid with
  | none => .ok d
  | some t =>
      if work = [] ∨ session.canChangeSchema = false then .ok d
      else work.foldlM (declareMember session c t) d

end Writes

section Rdf

structure Literal where
  value : String
  datatype : Option String
  lang : Option String

inductive Object
  | iri (iri : String)
  | literal (l : Literal)
  | blank

structure Statement where
  s : Option String
  p : Option String
  o : Object

/-- The statement, as far as its terms are IRIs. -/
def Statement.triple (st : Statement) : Triple :=
  ⟨st.s, st.p, match st.o with | .iri iri => some iri | .literal _ | .blank => none⟩

/-- A type that a statement asks for is created, and a version recorded with it. -/
def follow (gid : Int) (d : Database) (o : Ontology) : Database :=
  let columns := createTable d.schema.o.nextTypeId d.schema.columns
  let d' : Database := { d with schema := { d.schema with o := o, columns := columns } }
  if o.nextTypeId = d.schema.o.nextTypeId then { d with schema := { d.schema with o := o } }
  else d'.relabelled gid

/-- Passes 1 and 2, which end with the labels of the graph. -/
def loadClasses (gid : Int) (d : Database) (triples : List Triple) : Except String Database := do
  let o ← triples.foldlM (SchemaChanges.declareTerm gid Rest.none) d.schema.o
  let o ← triples.foldlM (SchemaChanges.linkClasses gid Rest.none) o
  let c ← relabelGraph o.catalog gid
  let columns : Columns := fun r n => if d.schema.o.nextTypeId ≤ r.1 then none else d.schema.columns r n
  let s : State := { d.schema with o := { o with catalog := c }, columns := columns }
  return Database.relabelled { d with schema := s } gid

/-- What a domain or range says of a relation: its role, the ordinal and the player. -/
def roleOfStatement (o : Ontology) (gid : Int) (t : Triple) : Option Role :=
  match t.s, t.p, t.o with
  | some s, some p, some obj =>
      if p = rdfsDomain ∨ p = rdfsRange then
        match iriType o gid s, iriType o gid obj with
        | some rel, some player =>
            if (typeKind o.catalog rel).toOption = some .relation then
              if p = rdfsDomain then some ⟨rel, "subject", some player, 0⟩
              else some ⟨rel, "object", some player, 1⟩
            else none
        | _, _ => none
      else none
  | _, _, _ => none

/-- Pass 3; no version is recorded with a role. -/
def declarePlayer (gid : Int) (d : Database) (t : Triple) : Except String Database := do
  let o ← SchemaChanges.declarePlayer gid Rest.none d.schema.o t
  let d := follow gid d o
  match roleOfStatement o gid t with
  | some r => return d.withRoles (upsertRole r (fun q => { q with playerTypeId := r.playerTypeId }) d.catalog.roles)
  | none => return d

/-- Pass 4: an instance has its IRI as a property. -/
def declareInstance (session : Session) (gid : Int) (acc : Database × List (String × Int)) (t : Triple) :
    Except String (Database × List (String × Int)) := do
  let o ← SchemaChanges.declareInstance gid Rest.none acc.1.schema.o t
  let d := follow gid acc.1 o
  match t.s, t.p, t.o with
  | some s, some p, some obj =>
      if p = rdfType ∧ obj ∉ builtin then
        match iriType o gid obj with
        | some tid => do
            let d ← declareNewProps session d tid [("iri", .str s)]
            return (d, (s, tid) :: acc.2)
        | none => return (d, acc.2)
      else return (d, acc.2)
  | _, _, _ => return (d, acc.2)

/-- `xsd_to_property_type`, as the type of a column. -/
def xsdToPropertyType (datatype : Option String) : String :=
  match datatype.map localName with
  | some "integer" | some "int" | some "long" => "int8"
  | some "decimal" | some "double" | some "float" => "float8"
  | some "boolean" => "bool"
  | some "date" => "date"
  | some "dateTime" => "timestamptz"
  | _ => "text"

/-- `ensure_property`. -/
def ensureProperty (session : Session) (gid : Int) (d : Database) (tid : Int) (prop dtype : String) :
    Except String Database :=
  match typeRow? d.catalog tid with
  | none => .ok d
  | some t =>
      if d.catalog.properties.any fun p => p.typeId = tid ∧ p.name = prop then .ok d
      else addProperty session d gid t.name prop dtype

/-- What a literal is written as. -/
def literalMembers (prop : String) (l : Literal) : List (String × Json) :=
  (prop, .str l.value) :: ((l.lang.toList.map fun lang => (s!"{prop}@lang", Json.str lang)) ++
    l.datatype.toList.map fun datatype => (s!"{prop}^^", Json.str datatype))

/-- Pass 5: facts between instances, and literals. -/
def declareFact (session : Session) (gid : Int) (nodes : List (String × Int)) (d : Database)
    (st : Statement) : Except String Database := do
  let o ← SchemaChanges.declareFact gid Rest.none (nodes.map (·.1)) d.schema.o st.triple
  let d := follow gid d o
  match st.s, st.p, st.o with
  | some s, some p, .literal l =>
      match nodes.find? fun n => n.1 = s with
      | some n =>
          if p ∈ [rdfType, rdfsSubclass, rdfsDomain, rdfsRange] then return d
          else do
            let prop := localName p
            let d ← ensureProperty session gid d n.2 prop (xsdToPropertyType l.datatype)
            declareNewProps session d n.2 (literalMembers prop l)
      | none => return d
  | _, _, _ => return d

def loadRdf (session : Session) (d : Database) (graph : String) (doc : List Statement) :
    Except String Database := do
  let gid ← graphId d.catalog graph
  let triples := doc.map (·.triple)
  let d ← loadClasses gid d triples
  let d ← triples.foldlM (declarePlayer gid) d
  let (d, nodes) ← triples.foldlM (declareInstance session gid) (d, [])
  doc.foldlM (declareFact session gid nodes) d

end Rdf

/-- The operations that change the schema of a graph. -/
inductive Event
  | createType (graph name : String) (kind : Kind) (parents : List String) (isAbstract : Bool)
  | dropType (graph name : String) (cascade : Bool) (instances : List Int → Nat)
  | dropGraph (graph : String)
  | addProperty (session : Session) (gid : Int) (typeName prop dtype : String)
  | addRole (graph relType role : String) (player : Option String) (ordinal : Int)
  | changeBeside (graph : String)
  | enableStamping (graph typeName : String)
  | enableTemporal (graph typeName : String)
  | renameLabel (graph old new : String)
  | plan (graph : String) (spec : Spec)
  | expand (session : Session) (id : Nat)
  | migrate (id : Nat)
  | validate (id : Nat) (violations : Nat)
  | contract (id : Nat)
  | abort (id : Nat)
  | planRole (graph relation role player : String)
  | expandRole (id : Nat)
  | migrateRole (id : Nat)
  | validateRole (id : Nat) (violations : Nat)
  | contractRole (id : Nat)
  | abortRole (id : Nat)
  | define (graph : String) (defs : List (Definition × List Relates))
  | ensureHasType (graph : String)
  | write (session : Session) (tid : Int) (members : List (String × Json))
  | loadRdf (session : Session) (graph : String) (doc : List Statement)

def step (d : Database) : Event → Except String Database
  | .createType graph name kind parents isAbstract => createType d graph name kind parents isAbstract
  | .dropType graph name cascade instances => dropType d graph name cascade instances
  | .dropGraph graph => dropGraph d graph
  | .addProperty session gid typeName prop dtype => addProperty session d gid typeName prop dtype
  | .addRole graph relType role player ordinal => addRole d graph relType role player ordinal
  | .changeBeside graph => changeBeside d graph
  | .enableStamping graph typeName => enableStamping d graph typeName
  | .enableTemporal graph typeName => enableTemporal d graph typeName
  | .renameLabel graph old new => renameLabel d graph old new
  | .plan graph spec => phaseBeside d (.plan graph spec)
  | .expand session id => changePhase d (.expand session id) id
  | .migrate id => phaseBeside d (.migrate id)
  | .validate id violations => phaseBeside d (.validate id violations)
  | .contract id => changePhase d (.contract id) id
  | .abort id => abortChange d id
  | .planRole graph relation role player => planRole d graph relation role player
  | .expandRole id => expandRole d id
  | .migrateRole id => migrateRole d id
  | .validateRole id violations => validateRole d id violations
  | .contractRole id => contractRole d id
  | .abortRole id => abortRole d id
  | .define graph defs => define d graph defs
  | .ensureHasType graph => ensureHasType d graph
  | .write session tid members => declareNewProps session d tid members
  | .loadRdf session graph doc => loadRdf session d graph doc

section Frames

variable {c c' : Catalog} {o o' : Ontology} {m m' : Marks} {g gid : Int} {d d' d₁ d₂ : Database}

theorem typeRow?_of_share (h : Tidy o) (h' : Tidy o') (hshare : share o'.catalog g = share o.catalog g)
    {tid : Int} (htid : tid ∈ graphTypes o.catalog g) :
    typeRow? o'.catalog tid = typeRow? o.catalog tid := by
  have hfilter {o : Ontology} (h : Tidy o) (htid : tid ∈ graphTypes o.catalog g) :
      typeRow? o.catalog tid = (o.catalog.types.filter fun t => t.graphId = g).find? fun t =>
        t.typeId = tid := by
    unfold typeRow?
    rw [List.find?_filter]
    refine List.find?_congr fun t ht => ?_
    by_cases hid : t.typeId = tid
    · have hgraph : t.graphId = g := h.graph_unique (hid ▸ graphTypes_of_mem ht) htid
      simp [hid, hgraph]
    · simp [hid]
  have htypes : (o'.catalog.types.filter fun t => t.graphId = g) =
      o.catalog.types.filter fun t => t.graphId = g := congrArg Share.types hshare
  rw [hfilter h htid, hfilter h' (graphTypes_of_share hshare ▸ htid), htypes]

/-- The document of a graph says what the catalog says of it. -/
theorem schemaSnapshot_of_share (h : Tidy o) (h' : Tidy o')
    (hshare : share o'.catalog g = share o.catalog g)
    (hmarks : ∀ t ∈ graphTypes o.catalog g,
      (t ∈ m'.isAbstract ↔ t ∈ m.isAbstract) ∧ (t ∈ m'.stamped ↔ t ∈ m.stamped)) :
    schemaSnapshot o'.catalog m' g = schemaSnapshot o.catalog m g := by
  have hids := graphTypes_of_share hshare
  have htypes : (o'.catalog.types.filter fun t => t.graphId = g) =
      o.catalog.types.filter fun t => t.graphId = g := congrArg Share.types hshare
  have hlinks : (o'.catalog.typeParent.filter fun l => l.1 ∈ graphTypes o'.catalog g) =
      o.catalog.typeParent.filter fun l => l.1 ∈ graphTypes o.catalog g := congrArg Share.links hshare
  have hprops : (o'.catalog.properties.filter fun p => p.typeId ∈ graphTypes o'.catalog g) =
      o.catalog.properties.filter fun p => p.typeId ∈ graphTypes o.catalog g :=
    congrArg Share.properties hshare
  have hroles : (o'.catalog.roles.filter fun r => r.relTypeId ∈ graphTypes o'.catalog g) =
      o.catalog.roles.filter fun r => r.relTypeId ∈ graphTypes o.catalog g := congrArg Share.roles hshare
  have htemporal : (o'.catalog.temporal.filter fun t => t ∈ graphTypes o'.catalog g) =
      o.catalog.temporal.filter fun t => t ∈ graphTypes o.catalog g := congrArg Share.temporal hshare
  rw [hids] at hlinks hprops hroles htemporal
  unfold schemaSnapshot
  rw [htypes]
  refine List.map_congr_left fun t ht => ?_
  have ht : t ∈ o.catalog.types.filter fun t => t.graphId = g := by
    simpa only [List.mem_insertionSort] using ht
  have htid : t.typeId ∈ graphTypes o.catalog g := List.mem_map_of_mem ht
  have hname (pid : Int) (hpid : pid ∈ graphTypes o.catalog g) :
      tryTypeName o'.catalog pid = tryTypeName o.catalog pid := by
    simp only [tryTypeName, typeRow?_of_share h h' hshare hpid]
  have hof {α : Type} {xs ys : List α} {key : α → Int}
      (heq : (xs.filter fun x => key x ∈ graphTypes o.catalog g) =
        ys.filter fun x => key x ∈ graphTypes o.catalog g) :
      (xs.filter fun x => key x = t.typeId) = ys.filter fun x => key x = t.typeId := by
    have hsub (zs : List α) : (zs.filter fun x => key x = t.typeId) =
        (zs.filter fun x => key x ∈ graphTypes o.catalog g).filter fun x => key x = t.typeId := by
      rw [List.filter_filter]
      refine List.filter_congr fun x _ => ?_
      by_cases hx : key x = t.typeId
      · simp [hx, htid]
      · simp [hx]
    rw [hsub xs, hsub ys, heq]
  have hparents : parentNames o'.catalog t.typeId = parentNames o.catalog t.typeId := by
    unfold parentNames
    rw [hof hlinks]
    refine congrArg (List.insertionSort _) (List.filterMap_congr fun l hl => hname _ ?_)
    obtain ⟨hl, hid⟩ := List.mem_filter.mp hl
    obtain ⟨g', h₁, h₂⟩ := h.parents l hl
    obtain rfl := h.graph_unique h₁ (of_decide_eq_true hid ▸ htid)
    exact h₂
  have hroledocs : roleDocs o'.catalog t.typeId = roleDocs o.catalog t.typeId := by
    unfold roleDocs
    rw [hof hroles]
    refine congrArg (List.insertionSort _) (List.map_congr_left fun r hr => ?_)
    obtain ⟨hr, hid⟩ := List.mem_filter.mp hr
    cases hplayer : r.playerTypeId with
    | none => rfl
    | some p =>
        obtain ⟨g', h₁, h₂⟩ := h.roles r hr
        obtain rfl := h.graph_unique h₁ (of_decide_eq_true hid ▸ htid)
        simp [hname p (h₂ p hplayer)]
  have hpropdocs : propertyDocs o'.catalog t.typeId = propertyDocs o.catalog t.typeId := by
    unfold propertyDocs propertiesOf
    rw [hof hprops]
  have htemp : t.typeId ∈ o'.catalog.temporal ↔ t.typeId ∈ o.catalog.temporal := by
    have hmem (zs : List Int) : t.typeId ∈ zs ↔
        t.typeId ∈ zs.filter fun x => x ∈ graphTypes o.catalog g := by
      simp [htid]
    rw [hmem, hmem o.catalog.temporal, htemporal]
  obtain ⟨habstract, hstamped⟩ := hmarks t.typeId htid
  simp only [typeDoc, hparents, hroledocs, hpropdocs, htemp, habstract, hstamped]

theorem schemaSnapshot_eq_nil (h : graphTypes c g = []) : schemaSnapshot c m g = [] := by
  have hnil : (c.types.filter fun t => t.graphId = g) = [] := List.map_eq_nil_iff.mp h
  simp only [schemaSnapshot, hnil, List.insertionSort_nil, List.map_nil]

/-- What an operation on one graph leaves: the other graphs with their versions, and the
changes that are under way. -/
structure Kept (gid : Int) (d d' : Database) : Prop where
  within : Within gid d.schema.o d'.schema.o
  marks : Tidy d.schema.o → ∀ g, g ≠ gid → ∀ t ∈ graphTypes d.catalog g,
    (t ∈ d'.marks.isAbstract ↔ t ∈ d.marks.isAbstract) ∧ (t ∈ d'.marks.stamped ↔ t ∈ d.marks.stamped)
  versions : ∀ g, g ≠ gid → d'.versions g = d.versions g
  changes : ∀ ch' ∈ d'.schema.changes, ∃ ch ∈ d.schema.changes, ch.gid = ch'.gid ∧ ch.report = ch'.report
  roleChanges : ∀ rc' ∈ d'.roleChanges, ∃ rc ∈ d.roleChanges, rc.gid = rc'.gid ∧ rc.relType = rc'.relType

theorem Kept.refl (gid : Int) (d : Database) : Kept gid d d :=
  ⟨.refl gid _, fun _ _ _ _ _ => ⟨.rfl, .rfl⟩, fun _ _ => rfl, fun ch hch => ⟨ch, hch, rfl, rfl⟩,
    fun rc hrc => ⟨rc, hrc, rfl, rfl⟩⟩

theorem Kept.trans (h : Kept gid d d₁) (h' : Kept gid d₁ d₂) : Kept gid d d₂ where
  within := h.within.trans h'.within
  marks := fun htidy g hg t ht => by
    have hframe := h.within htidy
    have ht' : t ∈ graphTypes d₁.catalog g := graphTypes_of_share (hframe.others g hg) ▸ ht
    obtain ⟨ha, hs⟩ := h.marks htidy g hg t ht
    obtain ⟨ha', hs'⟩ := h'.marks hframe.tidy g hg t ht'
    exact ⟨ha'.trans ha, hs'.trans hs⟩
  versions := fun g hg => (h'.versions g hg).trans (h.versions g hg)
  changes := fun ch₂ hch₂ => by
    obtain ⟨ch₁, hch₁, hgid₁, hreport₁⟩ := h'.changes ch₂ hch₂
    obtain ⟨ch, hch, hgid, hreport⟩ := h.changes ch₁ hch₁
    exact ⟨ch, hch, hgid.trans hgid₁, hreport.trans hreport₁⟩
  roleChanges := fun rc₂ hrc₂ => by
    obtain ⟨rc₁, hrc₁, hgid₁, hrel₁⟩ := h'.roleChanges rc₂ hrc₂
    obtain ⟨rc, hrc, hgid, hrel⟩ := h.roleChanges rc₁ hrc₁
    exact ⟨rc, hrc, hgid.trans hgid₁, hrel.trans hrel₁⟩

/-- An operation on the schema alone. -/
theorem Kept.schema {s' : State} (h : Leaves gid d.schema s') : Kept gid d { d with schema := s' } :=
  ⟨h.1, fun _ _ _ _ _ => ⟨.rfl, .rfl⟩, fun _ _ => rfl, fun ch hch => ⟨ch, h.2 hch, rfl, rfl⟩,
    fun rc hrc => ⟨rc, hrc, rfl, rfl⟩⟩

theorem Kept.marked {m' : Marks} (h : Kept gid d d₁) (hmarks : Tidy d.schema.o → ∀ g, g ≠ gid →
      ∀ t ∈ graphTypes d.catalog g, (t ∈ m'.isAbstract ↔ t ∈ d₁.marks.isAbstract) ∧
        (t ∈ m'.stamped ↔ t ∈ d₁.marks.stamped)) : Kept gid d { d₁ with marks := m' } :=
  { h with
    marks := fun htidy g hg t ht => by
      obtain ⟨ha, hs⟩ := h.marks htidy g hg t ht
      obtain ⟨ha', hs'⟩ := hmarks htidy g hg t ht
      exact ⟨ha'.trans ha, hs'.trans hs⟩ }

theorem Kept.roles {roles : List Role} (h : Kept gid d d₁)
    (hroles : Within gid d₁.schema.o (d₁.withRoles roles).schema.o) :
    Kept gid d (d₁.withRoles roles) :=
  h.trans (.schema ⟨hroles, List.Subset.refl _⟩)

theorem Kept.bump (h : Kept gid d d₁) : Kept gid d (d₁.bumpSchemaVersion gid) :=
  { h with versions := fun g hg => (if_neg hg).trans (h.versions g hg) }

theorem Kept.relabelled (h : Kept gid d d₁) : Kept gid d (d₁.relabelled gid) := by
  unfold Database.relabelled
  split
  · exact h
  · exact h.bump

/-- The latest version of a graph is its schema. -/
def UpToDate (d : Database) (g : Int) : Prop := d.versions g = d.snapshot g

theorem upToDate_bump : UpToDate (d.bumpSchemaVersion gid) gid := if_pos rfl

theorem loadDag_eq_nil : loadDag c gid = [] ↔ graphTypes c gid = [] := by
  rw [← loadDag_ids, List.map_eq_nil_iff]

theorem upToDate_relabelled (h : graphTypes d.catalog gid ≠ []) : UpToDate (d.relabelled gid) gid := by
  unfold Database.relabelled
  rw [if_neg (mt loadDag_eq_nil.mp h)]
  exact upToDate_bump

theorem relabelled_of_nil (h : graphTypes d.catalog gid = []) : d.relabelled gid = d :=
  if_pos (loadDag_eq_nil.mpr h)

/-- What is recorded of the schemas of graphs, through a run. -/
structure Inv (d : Database) : Prop where
  tidy : Tidy d.schema.o
  changes : ∀ ch ∈ d.schema.changes, Belongs ch.gid d.schema.o ch.report.typeId
  roleChanges : ∀ rc ∈ d.roleChanges, Belongs rc.gid d.schema.o rc.relType
  upToDate : ∀ g ∈ d.catalog.graphs.map (·.1), UpToDate d g

theorem Inv.kept (h : Inv d) (hkept : Kept gid d d')
    (hcur : gid ∈ d'.catalog.graphs.map (·.1) → UpToDate d' gid) : Inv d' := by
  have hframe := hkept.within h.tidy
  refine ⟨hframe.tidy, fun ch' hch' => ?_, fun rc' hrc' => ?_, fun g hmem => ?_⟩
  · obtain ⟨ch, hch, hgid, hreport⟩ := hkept.changes ch' hch'
    rw [← hgid, ← hreport]
    exact (h.changes ch hch).frame hframe
  · obtain ⟨rc, hrc, hgid, hrel⟩ := hkept.roleChanges rc' hrc'
    rw [← hgid, ← hrel]
    exact (h.roleChanges rc hrc).frame hframe
  · by_cases hg : g = gid
    · exact hg ▸ hcur (hg ▸ hmem)
    · obtain ⟨row, hrow, hid⟩ := List.mem_map.mp hmem
      have hold : UpToDate d g := h.upToDate g (List.mem_map.mpr ⟨row, hframe.graphs hrow, hid⟩)
      have hsame : d'.snapshot g = d.snapshot g :=
        schemaSnapshot_of_share h.tidy hframe.tidy (hframe.others g hg) (hkept.marks h.tidy g hg)
      exact (hkept.versions g hg).trans (hold.trans hsame.symm)

end Frames

section Operations

variable {d d' d₁ : Database} {gid : Int}

/-- A new type is there when its labels are computed. -/
theorem createRest_mem {o o' : Ontology} {name : String} {kind : Kind} {parents : List String}
    {isAbstract : Bool} {rest : Rest}
    (h : SchemaChanges.createType o gid name kind parents isAbstract rest = .ok o') :
    o.nextTypeId ∈ graphTypes o'.catalog gid := by
  obtain ⟨pids, c₁, -, hrun, hrel, -⟩ := createType_eq_ok h
  have htypes : o'.catalog.types = c₁.types := by rw [relabelGraph_eq hrel]
  have hsame := graphTypes_of_same (rest.keeps _ _ hrun) gid
  have hids : graphTypes o'.catalog gid = graphTypes c₁ gid := by simp only [graphTypes, htypes]
  rw [hids, hsame]
  exact mem_graphTypes.mpr ⟨_, List.mem_append_right _ (List.mem_singleton_self _), rfl, rfl⟩

theorem createType_mem {s s' : State} {graph name : String} {kind : Kind} {parents : List String}
    {isAbstract : Bool} (hgid : graphId s.o.catalog graph = .ok gid)
    (hop : SchemaEvolution.createType s graph name kind parents isAbstract = .ok s') :
    s.o.nextTypeId ∈ graphTypes s'.o.catalog gid := by
  simp only [SchemaEvolution.createType] at hop
  obtain ⟨gid', hgid', hop⟩ := bind_eq_ok.mp hop
  obtain rfl := Except.ok.inj (hgid.symm.trans hgid')
  obtain ⟨pids, -, hop⟩ := bind_eq_ok.mp hop
  split at hop
  · obtain ⟨o₁, ho₁, hop⟩ := bind_eq_ok.mp hop
    obtain rfl := pure_eq_ok.mp hop
    rw [enableTemporalTable_o]
    exact createRest_mem ho₁
  · obtain ⟨o₁, ho₁, hop⟩ := bind_eq_ok.mp hop
    obtain rfl := pure_eq_ok.mp hop
    exact createRest_mem ho₁

theorem kept_createType {graph name : String} {kind : Kind} {parents : List String} {isAbstract : Bool}
    (hop : createType d graph name kind parents isAbstract = .ok d') :
    ∃ gid, graphId d.catalog graph = .ok gid ∧ Kept gid d d' ∧ UpToDate d' gid := by
  obtain ⟨gid, hgid, hop⟩ := bind_eq_ok.mp hop
  obtain ⟨s, hs, hop⟩ := bind_eq_ok.mp hop
  obtain rfl := pure_eq_ok.mp hop
  refine ⟨gid, hgid, Kept.relabelled (Kept.marked (.schema (Leaves.createType hgid hs)) ?_),
    upToDate_relabelled (List.ne_nil_of_mem (createType_mem hgid hs))⟩
  intro htidy g hg t ht
  refine ⟨?_, .rfl⟩
  obtain ⟨r, hr, -, rfl⟩ := mem_graphTypes.mp ht
  have hne : r.typeId ≠ d.schema.o.nextTypeId := (htidy.fresh r hr).ne
  dsimp only
  split
  · simp [hne]
  · rfl

theorem dropType_mem {s s' : State} {graph name : String} {cascade : Bool} {instances : List Int → Nat}
    {tid t : Int} (hgid : graphId s.o.catalog graph = .ok gid)
    (hop : SchemaEvolution.dropType s graph name cascade instances = .ok s')
    (htid : typeId s.o.catalog gid name = .ok tid) (ht : t ∈ graphTypes s.o.catalog gid)
    (hleft : t ∉ ogSubtypes s.o.catalog tid) : t ∈ graphTypes s'.o.catalog gid := by
  simp only [SchemaEvolution.dropType] at hop
  obtain ⟨gid', hgid', hop⟩ := bind_eq_ok.mp hop
  obtain rfl := Except.ok.inj (hgid.symm.trans hgid')
  obtain ⟨dropped, -, hop⟩ := bind_eq_ok.mp hop
  obtain ⟨o₁, ho₁, hop⟩ := bind_eq_ok.mp hop
  obtain rfl := pure_eq_ok.mp hop
  obtain ⟨tid', c₁, htid', hdel, hrel, -⟩ := dropType_eq_ok ho₁
  obtain rfl := Except.ok.inj (htid.symm.trans htid')
  have htypes : o₁.catalog.types = c₁.types := by rw [relabelGraph_eq hrel]
  obtain ⟨r, hr, hgraph, rfl⟩ := mem_graphTypes.mp ht
  refine mem_graphTypes.mpr ⟨r, ?_, hgraph, rfl⟩
  change r ∈ o₁.catalog.types
  rw [htypes, (deleteTypes_eq hdel).1]
  exact List.mem_filter.mpr ⟨hr, decide_eq_true hleft⟩

/-- A type of the graph is left. -/
def LeavesTypes (c : Catalog) (graph name : String) : Prop :=
  ∀ gid tid, graphId c graph = .ok gid → typeId c gid name = .ok tid →
    ∃ t ∈ graphTypes c gid, t ∉ ogSubtypes c tid

theorem kept_dropType {graph name : String} {cascade : Bool} {instances : List Int → Nat}
    (hleft : LeavesTypes d.catalog graph name)
    (hop : dropType d graph name cascade instances = .ok d') :
    ∃ gid, Kept gid d d' ∧ UpToDate d' gid := by
  obtain ⟨gid, hgid, hop⟩ := bind_eq_ok.mp hop
  obtain ⟨s, hs, hop⟩ := bind_eq_ok.mp hop
  obtain rfl := pure_eq_ok.mp hop
  refine ⟨gid, Kept.relabelled (.schema (Leaves.dropType hgid hs)), upToDate_relabelled ?_⟩
  have hfound : ∃ tid, typeId d.catalog gid name = .ok tid := by
    have hs := hs
    simp only [SchemaEvolution.dropType] at hs
    obtain ⟨gid', hgid', hs⟩ := bind_eq_ok.mp hs
    obtain rfl := Except.ok.inj (hgid.symm.trans hgid')
    obtain ⟨tid, htid, -⟩ := bind_eq_ok.mp hs
    exact ⟨tid, htid⟩
  obtain ⟨tid, htid⟩ := hfound
  obtain ⟨t, ht, hnot⟩ := hleft gid tid hgid htid
  exact List.ne_nil_of_mem (dropType_mem hgid hs htid ht hnot)

/-- A graph that is dropped takes its versions with it. -/
theorem kept_dropGraph {graph : String} (hop : dropGraph d graph = .ok d') :
    ∃ gid, Kept gid d d' ∧ gid ∉ d'.catalog.graphs.map (·.1) := by
  obtain ⟨s, hs, hop⟩ := bind_eq_ok.mp hop
  obtain rfl := pure_eq_ok.mp hop
  have hdrop := hs
  simp only [SchemaEvolution.dropGraph] at hdrop
  obtain ⟨gid, hgid, hdrop⟩ := bind_eq_ok.mp hdrop
  obtain ⟨-, -, hdrop⟩ := bind_eq_ok.mp hdrop
  refine ⟨gid, .schema (Leaves.dropGraph hgid hs), fun hmem => ?_⟩
  obtain rfl := pure_eq_ok.mp hdrop
  obtain ⟨g, hg, hid⟩ := List.mem_map.mp hmem
  exact of_decide_eq_true (List.mem_filter.mp hg).2 hid

theorem kept_addProperty {session : Session} {typeName prop dtype : String}
    (hop : addProperty session d gid typeName prop dtype = .ok d') : Kept gid d d' ∧ UpToDate d' gid := by
  obtain ⟨s, hs, hop⟩ := bind_eq_ok.mp hop
  obtain rfl := pure_eq_ok.mp hop
  exact ⟨Kept.bump (.schema (Leaves.addProperty hs)), upToDate_bump⟩

theorem within_upsertRole {r : Role} {update : Role → Role} (hrel : r.relTypeId ∈ graphTypes d.catalog gid)
    (hplayer : ∀ p ∈ r.playerTypeId, p ∈ graphTypes d.catalog gid)
    (hupdate : ∀ q, (update q).relTypeId = q.relTypeId ∧ (update q).playerTypeId = r.playerTypeId) :
    Within gid d.schema.o (d.withRoles (upsertRole r update d.catalog.roles)).schema.o := by
  intro htidy
  unfold upsertRole
  split
  · refine Within.mapRoles (fun q => (hupdate q).1) (fun q hq g hg => ?_) (fun q hq p hp => ?_) htidy
    · exact htidy.graph_unique (hq.1 ▸ hg) hrel
    · rw [(hupdate q).2] at hp
      exact hplayer p hp
  · exact Within.appendRole hrel hplayer htidy

theorem kept_addRole {graph relType role : String} {player : Option String} {ordinal : Int}
    (hop : addRole d graph relType role player ordinal = .ok d') :
    ∃ gid, Kept gid d d' ∧ UpToDate d' gid := by
  obtain ⟨gid, -, hop⟩ := bind_eq_ok.mp hop
  obtain ⟨rid, hrid, hop⟩ := bind_eq_ok.mp hop
  obtain ⟨kind, -, hop⟩ := bind_eq_ok.mp hop
  obtain ⟨-, -, hop⟩ := bind_eq_ok.mp hop
  obtain ⟨playerId, hplayer, hop⟩ := bind_eq_ok.mp hop
  obtain rfl := pure_eq_ok.mp hop
  refine ⟨gid, Kept.bump ((Kept.refl gid d).roles (within_upsertRole (typeId_graph hrid) ?_
    fun q => ⟨rfl, rfl⟩)), upToDate_bump⟩
  intro p hp
  cases player with
  | none =>
      obtain rfl := pure_eq_ok.mp hplayer
      cases hp
  | some name =>
      obtain ⟨pid, hpid, rfl⟩ := map_eq_ok.mp hplayer
      obtain rfl := Option.some.inj hp
      exact typeId_graph hpid

theorem stamp_other (htidy : Tidy d.schema.o) {tid g t : Int} (htid : tid ∈ graphTypes d.catalog gid)
    (hg : g ≠ gid) (ht : t ∈ graphTypes d.catalog g) (m : Marks) :
    (t ∈ (stamp tid m).isAbstract ↔ t ∈ m.isAbstract) ∧ (t ∈ (stamp tid m).stamped ↔ t ∈ m.stamped) := by
  have hne : t ≠ tid := by
    rintro rfl
    exact not_mem_other htidy htid hg ht
  refine ⟨.rfl, ?_⟩
  dsimp only [stamp]
  split
  · rfl
  · simp [hne]

theorem kept_enableStamping {graph typeName : String} (hop : enableStamping d graph typeName = .ok d') :
    ∃ gid, Kept gid d d' ∧ UpToDate d' gid := by
  obtain ⟨gid, -, hop⟩ := bind_eq_ok.mp hop
  obtain ⟨tid, htid, hop⟩ := bind_eq_ok.mp hop
  obtain rfl := pure_eq_ok.mp hop
  refine ⟨gid, Kept.bump (Kept.marked (.refl gid d) ?_), upToDate_bump⟩
  exact fun htidy g hg t ht => stamp_other htidy (typeId_graph htid) hg ht d.marks

theorem kept_enableTemporal {graph typeName : String} (hop : enableTemporal d graph typeName = .ok d') :
    ∃ gid, Kept gid d d' ∧ UpToDate d' gid := by
  obtain ⟨gid, hgid, hop⟩ := bind_eq_ok.mp hop
  obtain ⟨tid, htid, hop⟩ := bind_eq_ok.mp hop
  obtain ⟨s, hs, hop⟩ := bind_eq_ok.mp hop
  obtain rfl := pure_eq_ok.mp hop
  refine ⟨gid, Kept.bump (Kept.marked (.schema (Leaves.enableTemporal hgid hs)) ?_), upToDate_bump⟩
  exact fun htidy g hg t ht => stamp_other htidy (typeId_graph htid) hg ht d.marks

theorem kept_renameLabel {graph old new : String} (hop : renameLabel d graph old new = .ok d') :
    d' = d ∨ ∃ gid, Kept gid d d' ∧ UpToDate d' gid := by
  obtain ⟨gid, -, hop⟩ := bind_eq_ok.mp hop
  split at hop
  · exact .inl (pure_eq_ok.mp hop).symm
  · next tid htid =>
    split at hop
    · exact .inl (pure_eq_ok.mp hop).symm
    · obtain rfl := pure_eq_ok.mp hop
      exact .inr ⟨gid, Kept.bump (.schema ⟨.renameType (tryTypeId_mem htid), List.Subset.refl _⟩),
        upToDate_bump⟩

theorem Kept.save {id : Nat} {phase : Phase} {s : State} (h : Kept gid d { d₁ with schema := s }) :
    Kept gid d { d₁ with schema := s.save id phase } :=
  { h with
    changes := fun ch' hch' => by
      obtain ⟨ch₁, hch₁, rfl⟩ := List.mem_map.mp hch'
      obtain ⟨ch, hch, hgid, hreport⟩ := h.changes ch₁ hch₁
      refine ⟨ch, hch, ?_⟩
      split <;> exact ⟨hgid, hreport⟩ }

theorem kept_expand {session : Session} {id : Nat}
    (hop : changePhase d (.expand session id) id = .ok d') : ∃ gid, Kept gid d d' ∧ UpToDate d' gid := by
  obtain ⟨ch, hch, hop⟩ := bind_eq_ok.mp hop
  obtain ⟨s, hs, hop⟩ := bind_eq_ok.mp hop
  obtain rfl := pure_eq_ok.mp hop
  obtain ⟨ch', s₁, hch', -, hexpand, rfl⟩ := step_expand hs
  obtain rfl := Except.ok.inj (hch.symm.trans hch')
  exact ⟨ch.gid, Kept.bump (Kept.save (.schema (Leaves.expand hexpand))), upToDate_bump⟩

theorem kept_contract {id : Nat} (h : Inv d) (hop : changePhase d (.contract id) id = .ok d') :
    ∃ gid, Kept gid d d' ∧ UpToDate d' gid := by
  obtain ⟨ch, hch, hop⟩ := bind_eq_ok.mp hop
  obtain ⟨s, hs, hop⟩ := bind_eq_ok.mp hop
  obtain rfl := pure_eq_ok.mp hop
  obtain ⟨ch', s₁, hch', -, hcontract, rfl⟩ := step_contract hs
  obtain rfl := Except.ok.inj (hch.symm.trans hch')
  have hbelongs := h.changes ch (change_eq_ok hch).1
  exact ⟨ch.gid, Kept.bump (Kept.save (.schema (Leaves.contract hbelongs hcontract))), upToDate_bump⟩

/-- The phase of a change is in no document. -/
theorem Inv.save {s : State} (h : Inv { d with schema := s }) (id : Nat) (phase : Phase) :
    Inv { d with schema := s.save id phase } := by
  refine ⟨h.tidy, fun ch' hch' => ?_, h.roleChanges, h.upToDate⟩
  obtain ⟨ch, hch, rfl⟩ := List.mem_map.mp hch'
  have hbelongs := h.changes ch hch
  split <;> exact hbelongs

theorem Inv.abortChange {id : Nat} (h : Inv d) (hop : abortChange d id = .ok d') : Inv d' := by
  obtain ⟨ch, hch, hop⟩ := bind_eq_ok.mp hop
  obtain ⟨s, hs, hop⟩ := bind_eq_ok.mp hop
  obtain ⟨ch', hch', hcases⟩ := step_abort hs
  obtain rfl := Except.ok.inj (hch.symm.trans hch')
  rcases hcases with ⟨hphase, rfl⟩ | ⟨hphase, s₁, habort, rfl⟩
  · rw [if_pos hphase] at hop
    obtain rfl := pure_eq_ok.mp hop
    exact Inv.save (s := d.schema) h id .aborted
  · rw [if_neg hphase] at hop
    obtain rfl := pure_eq_ok.mp hop
    exact h.kept (Kept.bump (Kept.save (.schema (Leaves.abort habort)))) fun _ => upToDate_bump

theorem Inv.phaseBeside {op : Op} (h : Inv d) (hop : phaseBeside d op = .ok d')
    (hbeside : (∃ graph spec, op = .plan graph spec) ∨ (∃ id, op = .migrate id) ∨
      ∃ id violations, op = .validate id violations) : Inv d' := by
  obtain ⟨s, hs, hop⟩ := bind_eq_ok.mp hop
  obtain rfl := pure_eq_ok.mp hop
  rcases hbeside with ⟨graph, spec, rfl⟩ | ⟨id, rfl⟩ | ⟨id, violations, rfl⟩
  · obtain ⟨gid, -, hs⟩ := bind_eq_ok.mp hs
    obtain ⟨report, hreport, hs⟩ := bind_eq_ok.mp hs
    obtain rfl := pure_eq_ok.mp hs
    refine ⟨h.tidy, fun ch hch => ?_, h.roleChanges, h.upToDate⟩
    rcases List.mem_append.mp hch with hch | hch
    · exact h.changes ch hch
    · obtain rfl := List.mem_singleton.mp hch
      exact .of_mem h.tidy (typeId_graph (analyse_typeId hreport))
  · obtain ⟨ch, -, -, rfl⟩ := step_migrate hs
    exact Inv.save (s := d.schema) h id .migrating
  · obtain ⟨ch, -, -, ⟨-, rfl⟩ | rfl⟩ := step_validate hs
    · exact Inv.save (s := d.schema) h id .validated
    · exact h

section RoleChanges

variable {id : Nat} {rc : RoleChange}

theorem roleChange_mem (h : roleChange d id = .ok rc) : rc ∈ d.roleChanges := by
  unfold roleChange at h
  split at h
  · next found hfound =>
    obtain rfl := Except.ok.inj h
    exact List.mem_of_find?_eq_some hfound
  · cases h

theorem Inv.saveRole (h : Inv d) (id : Nat) (phase : Phase) : Inv (saveRole d id phase) := by
  refine ⟨h.tidy, h.changes, fun rc' hrc' => ?_, h.upToDate⟩
  obtain ⟨rc, hrc, rfl⟩ := List.mem_map.mp hrc'
  have hbelongs := h.roleChanges rc hrc
  split <;> exact hbelongs

theorem Inv.bump (h : Inv d) (gid : Int) : Inv (d.bumpSchemaVersion gid) :=
  h.kept (Kept.bump (.refl gid d)) fun _ => upToDate_bump

theorem roleOf_eq_ok {c : Catalog} {rid : Int} {role : String} {r : Role} (h : roleOf c rid role = .ok r) :
    (c.roles.find? fun r => r.relTypeId ∈ ogSupertypes c rid ∧ r.name = role) = some r := by
  unfold roleOf at h
  split at h
  · next hfound => exact Except.ok.inj h ▸ hfound
  · cases h

theorem Inv.planRole {graph relation role player : String} (h : Inv d)
    (hop : planRole d graph relation role player = .ok d') : Inv d' := by
  obtain ⟨gid, -, hop⟩ := bind_eq_ok.mp hop
  obtain ⟨rid, hrid, hop⟩ := bind_eq_ok.mp hop
  obtain ⟨pid, -, hop⟩ := bind_eq_ok.mp hop
  obtain ⟨r, hr, hop⟩ := bind_eq_ok.mp hop
  obtain rfl := pure_eq_ok.mp hop
  refine ⟨h.tidy, h.changes, fun rc hrc => ?_, h.upToDate⟩
  rcases List.mem_append.mp hrc with hrc | hrc
  · exact h.roleChanges rc hrc
  · obtain rfl := List.mem_singleton.mp hrc
    have hfound := List.find?_some (roleOf_eq_ok hr)
    simp only [decide_eq_true_eq] at hfound
    exact .of_mem h.tidy (h.tidy.ogSupertypes_graph (typeId_graph hrid) hfound.1)

theorem Inv.expandRole (h : Inv d) (hop : expandRole d id = .ok d') : Inv d' := by
  obtain ⟨rc, -, hop⟩ := bind_eq_ok.mp hop
  obtain ⟨-, -, hop⟩ := bind_eq_ok.mp hop
  obtain rfl := pure_eq_ok.mp hop
  exact (h.saveRole id .expanded).bump rc.gid

theorem Inv.migrateRole (h : Inv d) (hop : migrateRole d id = .ok d') : Inv d' := by
  obtain ⟨rc, -, hop⟩ := bind_eq_ok.mp hop
  obtain ⟨-, -, hop⟩ := bind_eq_ok.mp hop
  obtain rfl := pure_eq_ok.mp hop
  exact h.saveRole id .migrating

theorem Inv.validateRole {violations : Nat} (h : Inv d) (hop : validateRole d id violations = .ok d') :
    Inv d' := by
  obtain ⟨rc, -, hop⟩ := bind_eq_ok.mp hop
  obtain ⟨-, -, hop⟩ := bind_eq_ok.mp hop
  obtain rfl := pure_eq_ok.mp hop
  split
  · exact h.saveRole id .validated
  · exact h

theorem Inv.contractRole (h : Inv d) (hop : contractRole d id = .ok d') : Inv d' := by
  obtain ⟨rc, hrc, hop⟩ := bind_eq_ok.mp hop
  obtain ⟨-, -, hop⟩ := bind_eq_ok.mp hop
  obtain ⟨_, hplayer, hop⟩ := bind_eq_ok.mp hop
  have hplayer := require_eq_ok.mp hplayer
  obtain rfl := pure_eq_ok.mp hop
  have hbelongs := h.roleChanges rc (roleChange_mem hrc)
  refine Inv.saveRole (h.kept (Kept.bump ((Kept.refl rc.gid d).roles ?_)) fun _ => upToDate_bump) id
    .contracted
  refine .mapRoles (fun _ => rfl) (fun r hr g hg => hbelongs.2 g (hr.1 ▸ hg)) fun r _ p hp => ?_
  exact Option.some.inj hp ▸ hplayer

theorem Inv.abortRole (h : Inv d) (hop : abortRole d id = .ok d') : Inv d' := by
  obtain ⟨rc, -, hop⟩ := bind_eq_ok.mp hop
  obtain ⟨-, -, hop⟩ := bind_eq_ok.mp hop
  split at hop
  · obtain rfl := pure_eq_ok.mp hop
    exact h.saveRole id .aborted
  · obtain rfl := pure_eq_ok.mp hop
    exact (h.bump rc.gid).saveRole id .aborted

end RoleChanges

section Define

theorem Kept.declareRole {relation : String} {r : Relates} (h : Kept gid d d₁)
    (hop : declareRole gid relation d₁ r = .ok d') : Kept gid d d' := by
  obtain ⟨tid, htid, hop⟩ := bind_eq_ok.mp hop
  obtain ⟨-, -, hop⟩ := bind_eq_ok.mp hop
  split at hop
  · obtain rfl := pure_eq_ok.mp hop
    exact h
  · obtain rfl := pure_eq_ok.mp hop
    exact h.roles (.appendRole (typeId_graph htid) (by simp))

theorem Kept.declareRoles {defs : List (Definition × List Relates)} {pass : Relates → Bool}
    (h : Kept gid d d₁) (hop : defs.foldlM (fun (d : Database) (e : Definition × List Relates) =>
      (e.2.filter pass).foldlM (SchemaVersions.declareRole gid e.1.type.name) d) d₁ = .ok d') :
    Kept gid d d' := by
  refine foldlM_preserves (P := fun m => Kept gid d m) (fun m e m' hm he => ?_) hop h
  exact foldlM_preserves (P := fun m => Kept gid d m) (fun _ _ _ hm hr => hm.declareRole hr) he hm

theorem kept_define {graph : String} {defs : List (Definition × List Relates)}
    (hop : define d graph defs = .ok d') : ∃ gid, Kept gid d d' ∧ UpToDate d' gid := by
  obtain ⟨gid, hgid, hop⟩ := bind_eq_ok.mp hop
  obtain ⟨s, hs, hop⟩ := bind_eq_ok.mp hop
  obtain ⟨d₁, h₁, hop⟩ := bind_eq_ok.mp hop
  obtain ⟨d₂, h₂, hop⟩ := bind_eq_ok.mp hop
  obtain rfl := pure_eq_ok.mp hop
  refine ⟨gid, Kept.bump (Kept.declareRoles (Kept.declareRoles
    (Kept.marked (.schema (Leaves.define hgid hs)) ?_) h₁) h₂), upToDate_bump⟩
  intro _ g _ t ht
  refine ⟨?_, .rfl⟩
  obtain ⟨r, hr, -, rfl⟩ := mem_graphTypes.mp ht
  have hold : r.typeId ∉ newlyAbstract d.catalog s.o.catalog (defs.map (·.1)) := by
    intro hmem
    obtain ⟨r', hr', hid⟩ := List.mem_map.mp hmem
    have hnew := (of_decide_eq_true (List.mem_filter.mp hr').2).1
    exact hnew (hid ▸ List.mem_map_of_mem hr)
  simp [List.mem_append, hold]

theorem Inv.ensureHasType {graph : String} (h : Inv d) (hop : ensureHasType d graph = .ok d') : Inv d' := by
  obtain ⟨gid, -, hop⟩ := bind_eq_ok.mp hop
  obtain ⟨o, ho, hop⟩ := bind_eq_ok.mp hop
  split at hop
  · obtain rfl := pure_eq_ok.mp hop
    exact h
  · next hnone =>
    obtain rfl := pure_eq_ok.mp hop
    refine h.kept (Kept.relabelled (.schema ⟨.ensureHasType ho, List.Subset.refl _⟩)) fun _ =>
      upToDate_relabelled ?_
    simp only [SchemaChanges.ensureHasType] at ho
    split at ho
    · next hsome =>
      exact absurd (Option.isSome_iff_exists.mpr ⟨_, hsome⟩) hnone
    · obtain ⟨⟨o₁, tid⟩, hins, ho⟩ := bind_eq_ok.mp ho
      obtain ⟨c₁, hrel, ho⟩ := bind_eq_ok.mp ho
      obtain rfl := pure_eq_ok.mp ho
      obtain ⟨rfl, rfl⟩ := insertType_eq_ok hins
      have htypes : c₁.types = _ := congrArg Catalog.types (relabelGraph_eq hrel)
      refine List.ne_nil_of_mem (mem_graphTypes.mpr ⟨⟨d.schema.o.nextTypeId, gid, hasType, .relation,
        some (edgeTable d.schema.o.nextTypeId)⟩, ?_, rfl, rfl⟩)
      change _ ∈ c₁.types
      rw [htypes]
      exact List.mem_append_right _ (List.mem_singleton_self _)

end Define

section Writes

variable {session : Session} {tid : Int} {members : List (String × Json)}

theorem Kept.addProperty {typeName prop dtype : String} (h : Kept gid d d₁)
    (hop : addProperty session d₁ gid typeName prop dtype = .ok d') : Kept gid d d' :=
  h.trans (kept_addProperty hop).1

/-- A member is declared with a version, or widened without; the types stay. -/
theorem declareMember_eq_ok {t : TypeRow} {kv : String × Json} {c : Catalog}
    (hop : declareMember session c t d kv = .ok d') :
    addProperty session d t.graphId t.name kv.1 ((inferColumnType kv.2).getD "") = .ok d' ∧
        known c t.typeId kv.1 = none ∨
      (∃ s, widenProperty d.schema t.typeId kv.1 = .ok s ∧ d' = { d with schema := s }) ∨ d' = d := by
  unfold declareMember at hop
  split at hop
  · next hwant hnone =>
    rw [hwant]
    exact .inl ⟨hop, hnone⟩
  · obtain ⟨s, hs, hop⟩ := bind_eq_ok.mp hop
    exact .inr (.inl ⟨s, hs, (pure_eq_ok.mp hop).symm⟩)
  · exact .inr (.inr (pure_eq_ok.mp hop).symm)

theorem addProperty_types {typeName prop dtype : String}
    (hop : addProperty session d gid typeName prop dtype = .ok d') :
    d'.catalog.types = d.catalog.types := by
  obtain ⟨s, hs, hop⟩ := bind_eq_ok.mp hop
  obtain rfl := pure_eq_ok.mp hop
  obtain ⟨tid, -, -, rfl⟩ := addProperty_eq_ok hs
  rfl

theorem widenProperty_types {s s' : State} {prop : String} (hop : widenProperty s tid prop = .ok s') :
    s'.o.catalog.types = s.o.catalog.types := by
  simp only [widenProperty] at hop
  obtain ⟨p, -, hop⟩ := bind_eq_ok.mp hop
  obtain ⟨-, -, hop⟩ := bind_eq_ok.mp hop
  obtain ⟨-, -, hop⟩ := bind_eq_ok.mp hop
  obtain rfl := pure_eq_ok.mp hop
  rfl

theorem Kept.declareMembers {t : TypeRow} {c : Catalog} {work : List (String × Json)}
    (ht : t ∈ d.catalog.types) (hop : work.foldlM (declareMember session c t) d = .ok d') :
    Kept t.graphId d d' ∧ d'.catalog.types = d.catalog.types := by
  refine foldlM_preserves (P := fun m => Kept t.graphId d m ∧ m.catalog.types = d.catalog.types)
    (fun m kv m' hm hkv => ?_) hop ⟨.refl _ d, rfl⟩
  obtain ⟨hkept, htypes⟩ := hm
  rcases declareMember_eq_ok hkv with ⟨hadd, -⟩ | ⟨s, hs, rfl⟩ | rfl
  · exact ⟨hkept.addProperty hadd, (addProperty_types hadd).trans htypes⟩
  · have hmem : t.typeId ∈ graphTypes m.catalog t.graphId := graphTypes_of_mem (htypes ▸ ht)
    exact ⟨hkept.trans (.schema (Leaves.widen hmem hs)), (widenProperty_types hs).trans htypes⟩
  · exact ⟨hkept, htypes⟩

/-- The last property that the members declare is declared after all that they widen. -/
def DeclaresLast (session : Session) (c : Catalog) (tid : Int) (members : List (String × Json)) : Prop :=
  session.canChangeSchema = true →
    ∀ kv ∈ (members.filter (needsWork c tid)).getLast?, known c tid kv.1 = none

theorem declareNewProps_eq_ok (hop : declareNewProps session d tid members = .ok d') :
    d' = d ∨ ∃ t ∈ d.catalog.types, t.typeId = tid ∧ members.filter (needsWork d.catalog tid) ≠ [] ∧
      session.canChangeSchema = true ∧
      (members.filter (needsWork d.catalog tid)).foldlM (declareMember session d.catalog t) d = .ok d' := by
  simp only [declareNewProps] at hop
  split at hop
  · exact .inl (Except.ok.inj hop).symm
  · next t ht =>
    obtain ⟨hmem, hid⟩ := typeRow?_mem ht
    split at hop
    · exact .inl (Except.ok.inj hop).symm
    · next hwork =>
      push Not at hwork
      exact .inr ⟨t, hmem, hid, hwork.1, by simpa using hwork.2, hop⟩

theorem Inv.write (h : Inv d) (hlast : DeclaresLast session d.catalog tid members)
    (hop : declareNewProps session d tid members = .ok d') : Inv d' := by
  rcases declareNewProps_eq_ok hop with rfl | ⟨t, ht, rfl, hne, hmay, hwork⟩
  · exact h
  refine h.kept (Kept.declareMembers ht hwork).1 fun _ => ?_
  -- the last member of the work is declared, and a version recorded with it
  obtain ⟨work, last, hsplit⟩ := (List.eq_nil_or_concat _).resolve_left hne
  rw [List.concat_eq_append] at hsplit
  have hnew : known d.catalog t.typeId last.1 = none := by
    refine hlast hmay last ?_
    rw [hsplit, List.getLast?_concat]
    rfl
  rw [hsplit, List.foldlM_append] at hwork
  obtain ⟨mid, -, hwork⟩ := bind_eq_ok.mp hwork
  obtain ⟨d₁, hmember, hnil⟩ := foldlM_cons_eq_ok.mp hwork
  obtain rfl := pure_eq_ok.mp hnil
  have hneeds : needsWork d.catalog t.typeId last = true := by
    have hlast : last ∈ members.filter (needsWork d.catalog t.typeId) := by
      rw [hsplit]
      exact List.mem_append_right _ (List.mem_singleton_self _)
    exact (List.mem_filter.mp hlast).2
  unfold needsWork at hneeds
  unfold declareMember at hmember
  rw [hnew] at hneeds hmember
  split at hmember
  · exact (kept_addProperty hmember).2
  · next hsome => cases hsome
  · next hnone =>
    rw [hnone] at hneeds
    cases hneeds

end Writes

section Rdf

variable {o o' : Ontology} {session : Session} {tid : Int}

/-- At most one type is new, and it is of the graph. -/
def Creates (gid : Int) (o o' : Ontology) : Prop :=
  o' = o ∨ Within gid o o' ∧ o.nextTypeId < o'.nextTypeId ∧ o.nextTypeId ∈ graphTypes o'.catalog gid ∧
    o.catalog.types ⊆ o'.catalog.types ∧ o'.catalog.properties = o.catalog.properties

theorem Creates.types_subset (h : Creates gid o o') : o.catalog.types ⊆ o'.catalog.types := by
  rcases h with rfl | ⟨-, -, -, hsub, -⟩
  · exact List.Subset.refl _
  · exact hsub

theorem Creates.within (h : Creates gid o o') : Within gid o o' := by
  rcases h with rfl | ⟨hwithin, -⟩
  · exact .refl gid _
  · exact hwithin

theorem Creates.ensureType {iri : String} {kind : Kind}
    (hop : ensureType gid Rest.none o iri kind = .ok o') : Creates gid o o' := by
  have hwithin := Within.ensureType hop
  have hgrows := Grows.ensureType hop
  simp only [SchemaChanges.ensureType] at hop
  split at hop
  · exact .inl (Except.ok.inj hop).symm
  · obtain ⟨o₁, hcreate, hop⟩ := bind_eq_ok.mp hop
    obtain ⟨tid, -, hop⟩ := bind_eq_ok.mp hop
    obtain rfl := pure_eq_ok.mp hop
    obtain ⟨pids, c₁, -, hrun, hrel, hnext⟩ := createType_eq_ok hcreate
    obtain rfl := Except.ok.inj hrun
    have htypes : o₁.catalog.types = _ := congrArg Catalog.types (relabelGraph_eq hrel)
    have hsub : o.catalog.types ⊆ o₁.catalog.types := htypes ▸ List.subset_append_left _ _
    have hlt : o.nextTypeId < o₁.nextTypeId := by omega
    have hmem : o.nextTypeId ∈ graphTypes o₁.catalog gid := createRest_mem hcreate
    exact .inr ⟨hwithin, hlt, hmem, hsub, hgrows.properties⟩

theorem Creates.declarePlayer {t : Triple}
    (hop : SchemaChanges.declarePlayer gid Rest.none o t = .ok o') : Creates gid o o' := by
  simp only [SchemaChanges.declarePlayer] at hop
  split at hop
  · split at hop
    · exact .ensureType hop
    · exact .inl (Except.ok.inj hop).symm
  · exact .inl (Except.ok.inj hop).symm

theorem Creates.declareInstance {t : Triple}
    (hop : SchemaChanges.declareInstance gid Rest.none o t = .ok o') : Creates gid o o' := by
  simp only [SchemaChanges.declareInstance] at hop
  split at hop
  · split at hop
    · exact .ensureType hop
    · exact .inl (Except.ok.inj hop).symm
  · exact .inl (Except.ok.inj hop).symm

theorem Creates.declareFact {nodes : List String} {t : Triple}
    (hop : SchemaChanges.declareFact gid Rest.none nodes o t = .ok o') : Creates gid o o' := by
  simp only [SchemaChanges.declareFact] at hop
  split at hop
  · split at hop
    · exact .ensureType hop
    · exact .inl (Except.ok.inj hop).symm
  · exact .inl (Except.ok.inj hop).symm

theorem Creates.declareTerm {t : Triple}
    (hop : SchemaChanges.declareTerm gid Rest.none o t = .ok o') : Creates gid o o' := by
  simp only [SchemaChanges.declareTerm] at hop
  split at hop
  · split at hop
    · split at hop
      · exact .ensureType hop
      · split at hop
        · exact .ensureType hop
        · exact .inl (Except.ok.inj hop).symm
    · exact .inl (Except.ok.inj hop).symm
  · exact .inl (Except.ok.inj hop).symm

theorem linkClasses_types {t : Triple} (hop : SchemaChanges.linkClasses gid Rest.none o t = .ok o') :
    o.catalog.types ⊆ o'.catalog.types := by
  simp only [SchemaChanges.linkClasses] at hop
  split at hop
  · split at hop
    · obtain ⟨o₁, hs, hop⟩ := bind_eq_ok.mp hop
      obtain ⟨o₂, ho, hop⟩ := bind_eq_ok.mp hop
      have h₂ := List.Subset.trans (Creates.ensureType hs).types_subset (Creates.ensureType ho).types_subset
      split at hop
      · split at hop
        · exact pure_eq_ok.mp hop ▸ h₂
        · exact pure_eq_ok.mp hop ▸ h₂
      · exact pure_eq_ok.mp hop ▸ h₂
    · exact Except.ok.inj hop ▸ List.Subset.refl _
  · exact Except.ok.inj hop ▸ List.Subset.refl _

/-- The literals that a document says of instances, with the names they are written under. -/
def literalFacts (doc : List Statement) : List (String × Literal) :=
  doc.filterMap fun st =>
    match st.s, st.p, st.o with
    | some s, some p, .literal l =>
        if s ∈ instancesOf (doc.map (·.triple)) ∧ p ∉ [rdfType, rdfsSubclass, rdfsDomain, rdfsRange] then
          some (localName p, l)
        else none
    | _, _, _ => none

/-- The names under which a document writes properties of instances. -/
def writtenNames (doc : List Statement) : List String :=
  "iri" :: (literalFacts doc).flatMap fun f => (literalMembers f.1 f.2).map (·.1)

/-- No property is on a column that a text makes wider. -/
def Narrow (gid : Int) (names : List String) (c : Catalog) : Prop :=
  ∀ p ∈ c.properties, p.typeId ∈ graphTypes c gid → p.name ∈ names → p.dataType ∉ widenable

/-- What holds of a database while a document is loaded. -/
structure Loading (session : Session) (gid : Int) (names : List String) (d₀ d : Database) : Prop where
  kept : Kept gid d₀ d
  upToDate : UpToDate d gid
  narrow : session.canChangeSchema = true → Narrow gid names d.catalog

variable {names : List String} {d₀ d₁ : Database}

@[simp] theorem relabelled_schema : (d.relabelled gid).schema = d.schema := by
  unfold Database.relabelled
  split <;> rfl

theorem Narrow.frame (h : Narrow gid names o.catalog) (htidy : Tidy o) (hframe : Frame gid o o')
    (hprops : o'.catalog.properties = o.catalog.properties) : Narrow gid names o'.catalog := by
  intro p hp hgraph hname
  rw [hprops] at hp
  obtain ⟨g, hg⟩ := htidy.properties p hp
  obtain ⟨r, hr, -, hid⟩ := mem_graphTypes.mp hg
  have hold := hframe.old p.typeId gid (hid ▸ htidy.fresh r hr) hgraph
  exact h p hp hold hname

theorem Loading.follow (h : Loading session gid names d₀ d) (hd₀ : Tidy d₀.schema.o)
    (ho : Creates gid d.schema.o o) : Loading session gid names d₀ (follow gid d o) := by
  unfold SchemaVersions.follow
  rcases ho with rfl | ⟨hwithin, hlt, hmem, -, hprops⟩
  · rw [if_pos rfl]
    exact h
  · rw [if_neg hlt.ne']
    have htidy := (h.kept.within hd₀).tidy
    refine ⟨h.kept.trans (Kept.relabelled (.schema ⟨hwithin, List.Subset.refl _⟩)),
      upToDate_relabelled (List.ne_nil_of_mem hmem), fun hmay => ?_⟩
    unfold Database.catalog
    rw [relabelled_schema]
    exact (h.narrow hmay).frame htidy (hwithin htidy) hprops

theorem Loading.classes {triples : List Triple} (h : Inv d) (hgid : gid ∈ d.catalog.graphs.map (·.1))
    (hnarrow : session.canChangeSchema = true → Narrow gid names d.catalog)
    (hop : loadClasses gid d triples = .ok d') : Loading session gid names d d' := by
  obtain ⟨o₁, h₁, hop⟩ := bind_eq_ok.mp hop
  obtain ⟨o₂, h₂, hop⟩ := bind_eq_ok.mp hop
  obtain ⟨c₃, h₃, hop⟩ := bind_eq_ok.mp hop
  obtain rfl := pure_eq_ok.mp hop
  have hclasses : Within gid d.schema.o { o₂ with catalog := c₃ } :=
    ((Within.foldlM (fun _ _ _ ht => (Creates.declareTerm ht).within) h₁).trans
      (.foldlM (fun _ _ _ => .linkClasses) h₂)).trans (.relabel h₃)
  have hgrows : Grows d.schema.o o₂ :=
    (Grows.foldlM (fun _ _ _ => .declareTerm) h₁).trans (.foldlM (fun _ _ _ => .linkClasses) h₂)
  have htypes : d.catalog.types ⊆ c₃.types := by
    have hterms : d.catalog.types ⊆ o₁.catalog.types :=
      foldlM_preserves (P := fun o => d.catalog.types ⊆ o.catalog.types) (fun _ _ _ ho ht =>
        List.Subset.trans ho (Creates.declareTerm ht).types_subset) h₁ (List.Subset.refl _)
    have hlinks : d.catalog.types ⊆ o₂.catalog.types :=
      foldlM_preserves (P := fun o => d.catalog.types ⊆ o.catalog.types) (fun _ _ _ ho ht =>
        List.Subset.trans ho (linkClasses_types ht)) h₂ hterms
    rw [relabelGraph_eq h₃]
    exact hlinks
  refine ⟨Kept.relabelled (.schema ⟨hclasses, List.Subset.refl _⟩), ?_, fun hmay => ?_⟩
  · by_cases hnil : graphTypes c₃ gid = []
    · -- a graph without types had none before
      have hnone : graphTypes d.catalog gid = [] := by
        refine List.eq_nil_iff_forall_not_mem.mpr fun t ht => ?_
        obtain ⟨r, hr, hg, hid⟩ := mem_graphTypes.mp ht
        have hmem : t ∈ graphTypes c₃ gid := mem_graphTypes.mpr ⟨r, htypes hr, hg, hid⟩
        rw [hnil] at hmem
        cases hmem
      have hold : d.versions gid = [] := (h.upToDate gid hgid).trans (schemaSnapshot_eq_nil hnone)
      refine Eq.mpr (congrArg (fun d' => UpToDate d' gid) (relabelled_of_nil hnil)) ?_
      exact hold.trans (schemaSnapshot_eq_nil hnil).symm
    · exact upToDate_relabelled hnil
  · unfold Database.catalog
    rw [relabelled_schema]
    refine (hnarrow hmay).frame h.tidy (hclasses h.tidy) ?_
    change c₃.properties = _
    rw [relabelGraph_eq h₃]
    exact hgrows.properties

theorem Loading.addProperty {typeName prop dtype : String} (h : Loading session gid names d₀ d)
    (hdtype : session.canChangeSchema = true → dtype ∉ widenable)
    (hop : addProperty session d gid typeName prop dtype = .ok d') :
    Loading session gid names d₀ d' := by
  obtain ⟨hkept, hcur⟩ := kept_addProperty hop
  have htypes := addProperty_types hop
  refine ⟨h.kept.trans hkept, hcur, fun hmay p hp hgraph hname => ?_⟩
  simp only [graphTypes, htypes] at hgraph
  obtain ⟨s, hs, hop⟩ := bind_eq_ok.mp hop
  obtain rfl := pure_eq_ok.mp hop
  obtain ⟨tid, -, -, rfl⟩ := addProperty_eq_ok hs
  rcases mem_insertProperties hp with hp | ⟨hp, -⟩
  · exact h.narrow hmay p hp hgraph hname
  · obtain ⟨sub, -, rfl⟩ := List.mem_map.mp hp
    exact hdtype hmay

theorem known_mem {c : Catalog} {key : String} {p : Property} (h : known c tid key = some p) :
    p ∈ c.properties ∧ p.typeId = tid ∧ p.name = key := by
  have hmem := List.mem_filter.mp (List.mem_of_find?_eq_some h)
  exact ⟨hmem.1, of_decide_eq_true hmem.2, by simpa using List.find?_some h⟩

/-- Texts under the names of a document widen nothing. -/
theorem Loading.write {members : List (String × Json)} (h : Loading session gid names d₀ d)
    (htid : ∀ g, tid ∈ graphTypes d.catalog g → g = gid)
    (hmembers : ∀ kv ∈ members, kv.1 ∈ names ∧ inferColumnType kv.2 = some "text")
    (hop : declareNewProps session d tid members = .ok d') : Loading session gid names d₀ d' := by
  rcases declareNewProps_eq_ok hop with rfl | ⟨t, ht, rfl, -, hmay, hwork⟩
  · exact h
  have hgraph : t.graphId = gid := htid _ (graphTypes_of_mem ht)
  have hnone (kv : String × Json) (hkv : kv ∈ members.filter (needsWork d.catalog t.typeId)) :
      known d.catalog t.typeId kv.1 = none := by
    obtain ⟨hkv, hneeds⟩ := List.mem_filter.mp hkv
    obtain ⟨hname, hinfer⟩ := hmembers kv hkv
    cases hknown : known d.catalog t.typeId kv.1 with
    | none => rfl
    | some p =>
        obtain ⟨hp, hid, hpname⟩ := known_mem hknown
        have hmem : p.typeId ∈ graphTypes d.catalog gid := hgraph ▸ hid ▸ graphTypes_of_mem ht
        have hnarrow := h.narrow hmay p hp hmem (hpname ▸ hname)
        simp [needsWork, hinfer, hknown, hnarrow] at hneeds
  have hwork' : ∀ (work : List (String × Json)) (d₁ : Database),
      (∀ kv ∈ work, known d.catalog t.typeId kv.1 = none ∧ inferColumnType kv.2 = some "text") →
      Loading session gid names d₀ d₁ → work.foldlM (declareMember session d.catalog t) d₁ = .ok d' →
      Loading session gid names d₀ d' := by
    intro work
    induction work with
    | nil =>
        intro d₁ _ h₁ hop
        obtain rfl := pure_eq_ok.mp hop
        exact h₁
    | cons kv work ih =>
        intro d₁ hall h₁ hop
        obtain ⟨mid, hmid, hrest⟩ := foldlM_cons_eq_ok.mp hop
        obtain ⟨hknown, hinfer⟩ := hall kv (List.mem_cons_self ..)
        refine ih mid (fun kv' hkv' => hall kv' (List.mem_cons_of_mem _ hkv')) ?_ hrest
        unfold declareMember at hmid
        rw [hknown, hinfer, hgraph] at hmid
        exact h₁.addProperty (fun _ => by decide) hmid
  refine hwork' _ d (fun kv hkv => ⟨hnone kv hkv, ?_⟩) h hwork
  exact (hmembers kv (List.mem_filter.mp hkv).1).2

/-- No statement gives a relation a domain or a range. -/
def NoRoles (doc : List Statement) : Prop :=
  ∀ st ∈ doc, ∀ s p obj, st.triple.s = some s → st.triple.p = some p → st.triple.o = some obj →
    p ≠ rdfsDomain ∧ p ≠ rdfsRange

theorem roleOfStatement_eq_none {doc : List Statement} (hdoc : NoRoles doc) {t : Triple}
    (ht : t ∈ doc.map (·.triple)) : roleOfStatement o gid t = none := by
  obtain ⟨st, hst, rfl⟩ := List.mem_map.mp ht
  unfold roleOfStatement
  split
  · next s p obj hs hp hobj =>
    have hroles := hdoc st hst s p obj hs hp hobj
    exact if_neg (not_or.mpr hroles)
  · rfl

theorem Loading.players {doc : List Statement} (h : Loading session gid names d₀ d)
    (hd₀ : Tidy d₀.schema.o) (hdoc : NoRoles doc)
    (hop : (doc.map (·.triple)).foldlM (declarePlayer gid) d = .ok d') :
    Loading session gid names d₀ d' := by
  have hall : ∀ (ts : List Triple) (d : Database), ts ⊆ doc.map (·.triple) →
      Loading session gid names d₀ d → ts.foldlM (declarePlayer gid) d = .ok d' →
      Loading session gid names d₀ d' := by
    intro ts
    induction ts with
    | nil =>
        intro d _ h hop
        obtain rfl := pure_eq_ok.mp hop
        exact h
    | cons t ts ih =>
        intro d hsub h hop
        obtain ⟨mid, hmid, hrest⟩ := foldlM_cons_eq_ok.mp hop
        refine ih mid (fun t' ht' => hsub (List.mem_cons_of_mem _ ht')) ?_ hrest
        obtain ⟨o, ho, hmid⟩ := bind_eq_ok.mp hmid
        rw [roleOfStatement_eq_none hdoc (hsub (List.mem_cons_self ..))] at hmid
        obtain rfl := pure_eq_ok.mp hmid
        exact h.follow hd₀ (.declarePlayer ho)
  exact hall _ d (List.Subset.refl _) h hop

/-- The instances that were made are of types of the graph. -/
def Placed (gid : Int) (ts : List Triple) (o : Ontology) (nodes : List (String × Int)) : Prop :=
  ∀ n ∈ nodes, Belongs gid o n.2 ∧ n.1 ∈ instancesOf ts

variable {ts : List Triple} {nodes : List (String × Int)}

theorem Placed.kept (h : Placed gid ts d.schema.o nodes) (htidy : Tidy d.schema.o)
    (hkept : Kept gid d d') : Placed gid ts d'.schema.o nodes :=
  fun n hn => ⟨(h n hn).1.frame (hkept.within htidy), (h n hn).2⟩

@[simp] theorem follow_o : (follow gid d o).schema.o = o := by
  unfold follow
  split <;> simp

theorem Kept.follow (ho : Creates gid d.schema.o o) : Kept gid d (follow gid d o) := by
  unfold SchemaVersions.follow
  split
  · exact .schema ⟨ho.within, List.Subset.refl _⟩
  · exact Kept.relabelled (.schema ⟨ho.within, List.Subset.refl _⟩)

theorem Kept.declareNewProps {members : List (String × Json)}
    (htid : ∀ g, tid ∈ graphTypes d.catalog g → g = gid)
    (hop : declareNewProps session d tid members = .ok d') : Kept gid d d' := by
  rcases declareNewProps_eq_ok hop with rfl | ⟨t, ht, rfl, -, -, hwork⟩
  · exact .refl gid _
  · have hgraph : t.graphId = gid := htid _ (graphTypes_of_mem ht)
    exact hgraph ▸ (Kept.declareMembers ht hwork).1

theorem Kept.tidy (h : Kept gid d d') (htidy : Tidy d.schema.o) : Tidy d'.schema.o :=
  (h.within htidy).tidy

theorem Loading.instance {t : Triple} {acc acc' : Database × List (String × Int)} (ht : t ∈ ts)
    (hiri : "iri" ∈ names) (h : Loading session gid names d₀ acc.1) (hd₀ : Tidy d₀.schema.o)
    (hplaced : Placed gid ts acc.1.schema.o acc.2)
    (hop : declareInstance session gid acc t = .ok acc') :
    Loading session gid names d₀ acc'.1 ∧ Placed gid ts acc'.1.schema.o acc'.2 := by
  obtain ⟨o, ho, hop⟩ := bind_eq_ok.mp hop
  have hcreates := Creates.declareInstance ho
  have htidy := h.kept.tidy hd₀
  have hfollow := h.follow hd₀ hcreates
  have hplaced' : Placed gid ts (SchemaVersions.follow gid acc.1 o).schema.o acc.2 :=
    hplaced.kept htidy (.follow hcreates)
  have htidy' := hfollow.kept.tidy hd₀
  split at hop
  · next s p obj hs hp hobj =>
    split at hop
    · next hinstance =>
      split at hop
      · next tid htid =>
        obtain ⟨d₁, hwrite, hop⟩ := bind_eq_ok.mp hop
        obtain rfl := pure_eq_ok.mp hop
        have hmem : tid ∈ graphTypes (SchemaVersions.follow gid acc.1 o).schema.o.catalog gid := by
          rw [follow_o]
          exact iriType_mem htid
        have hgraph (g : Int) (hg : tid ∈ graphTypes (SchemaVersions.follow gid acc.1 o).catalog g) : g = gid :=
          htidy'.graph_unique hg hmem
        have hkept := Kept.declareNewProps hgraph hwrite
        refine ⟨hfollow.write hgraph (fun kv hkv => ?_) hwrite, fun n hn => ?_⟩
        · obtain rfl := List.mem_singleton.mp hkv
          exact ⟨hiri, rfl⟩
        · rcases List.mem_cons.mp hn with rfl | hn
          · refine ⟨(Belongs.of_mem htidy' hmem).frame (hkept.within htidy'), ?_⟩
            refine List.mem_filterMap.mpr ⟨t, ht, ?_⟩
            rw [hs, hp, hobj]
            exact if_pos hinstance
          · exact hplaced'.kept htidy' hkept n hn
      · obtain rfl := pure_eq_ok.mp hop
        exact ⟨hfollow, hplaced'⟩
    · obtain rfl := pure_eq_ok.mp hop
      exact ⟨hfollow, hplaced'⟩
  · obtain rfl := pure_eq_ok.mp hop
    exact ⟨hfollow, hplaced'⟩

theorem Loading.instances {triples : List Triple} {acc acc' : Database × List (String × Int)}
    (hsub : triples ⊆ ts) (hiri : "iri" ∈ names) (h : Loading session gid names d₀ acc.1)
    (hd₀ : Tidy d₀.schema.o) (hplaced : Placed gid ts acc.1.schema.o acc.2)
    (hop : triples.foldlM (declareInstance session gid) acc = .ok acc') :
    Loading session gid names d₀ acc'.1 ∧ Placed gid ts acc'.1.schema.o acc'.2 := by
  induction triples generalizing acc with
  | nil =>
      obtain rfl := pure_eq_ok.mp hop
      exact ⟨h, hplaced⟩
  | cons t triples ih =>
      obtain ⟨mid, hmid, hrest⟩ := foldlM_cons_eq_ok.mp hop
      obtain ⟨h', hplaced'⟩ := Loading.instance (hsub (List.mem_cons_self ..)) hiri h hd₀ hplaced hmid
      exact ih (fun t' ht' => hsub (List.mem_cons_of_mem _ ht')) h' hplaced' hrest

theorem Loading.property {prop dtype : String} (h : Loading session gid names d₀ d)
    (hdtype : session.canChangeSchema = true → dtype ∉ widenable)
    (hop : ensureProperty session gid d tid prop dtype = .ok d') :
    Loading session gid names d₀ d' ∧ Kept gid d d' := by
  unfold ensureProperty at hop
  split at hop
  · obtain rfl := Except.ok.inj hop
    exact ⟨h, .refl gid _⟩
  · split at hop
    · obtain rfl := Except.ok.inj hop
      exact ⟨h, .refl gid _⟩
    · exact ⟨h.addProperty hdtype hop, (kept_addProperty hop).1⟩

theorem literalMembers_text {prop : String} {l : Literal} {kv : String × Json}
    (h : kv ∈ literalMembers prop l) : inferColumnType kv.2 = some "text" := by
  rcases List.mem_cons.mp h with rfl | h
  · rfl
  · rcases List.mem_append.mp h with h | h
    · obtain ⟨lang, -, rfl⟩ := List.mem_map.mp h
      rfl
    · obtain ⟨datatype, -, rfl⟩ := List.mem_map.mp h
      rfl

theorem Loading.fact {doc : List Statement} {st : Statement} (hst : st ∈ doc)
    (hdoc : session.canChangeSchema = true →
      ∀ f ∈ literalFacts doc, xsdToPropertyType f.2.datatype ∉ widenable)
    (h : Loading session gid (writtenNames doc) d₀ d) (hd₀ : Tidy d₀.schema.o)
    (hplaced : Placed gid (doc.map (·.triple)) d.schema.o nodes)
    (hop : declareFact session gid nodes d st = .ok d') :
    Loading session gid (writtenNames doc) d₀ d' ∧ Placed gid (doc.map (·.triple)) d'.schema.o nodes := by
  obtain ⟨o, ho, hop⟩ := bind_eq_ok.mp hop
  have hcreates := Creates.declareFact ho
  have htidy := h.kept.tidy hd₀
  have hfollow := h.follow hd₀ hcreates
  have hplaced' := hplaced.kept htidy (.follow hcreates)
  have htidy' := hfollow.kept.tidy hd₀
  split at hop
  · next s p l hs hp hobj =>
    split at hop
    · next n hn =>
      have hmem : n ∈ nodes := List.mem_of_find?_eq_some hn
      have hname : n.1 = s := by simpa using List.find?_some hn
      split at hop
      · obtain rfl := pure_eq_ok.mp hop
        exact ⟨hfollow, hplaced'⟩
      · next hbuiltin =>
        obtain ⟨d₁, hprop, hwrite⟩ := bind_eq_ok.mp hop
        have hfact : (localName p, l) ∈ literalFacts doc := by
          refine List.mem_filterMap.mpr ⟨st, hst, ?_⟩
          rw [hs, hp, hobj]
          exact if_pos ⟨hname ▸ (hplaced n hmem).2, hbuiltin⟩
        obtain ⟨hloading, hkept⟩ := hfollow.property (fun hmay => hdoc hmay _ hfact) hprop
        have hplaced₁ := hplaced'.kept htidy' hkept
        have htidy₁ := hloading.kept.tidy hd₀
        have hgraph := (hplaced₁ n hmem).1.2
        refine ⟨hloading.write hgraph (fun kv hkv => ⟨?_, literalMembers_text hkv⟩) hwrite,
          hplaced₁.kept htidy₁ (Kept.declareNewProps hgraph hwrite)⟩
        refine List.mem_cons_of_mem _ (List.mem_flatMap.mpr ⟨_, hfact, ?_⟩)
        exact List.mem_map_of_mem hkv
    · obtain rfl := pure_eq_ok.mp hop
      exact ⟨hfollow, hplaced'⟩
  · obtain rfl := pure_eq_ok.mp hop
    exact ⟨hfollow, hplaced'⟩

/-- Nothing in a document gives a role, and nothing it writes makes a column wider. -/
def RecordsLoad (session : Session) (c : Catalog) (graph : String) (doc : List Statement) : Prop :=
  NoRoles doc ∧ (session.canChangeSchema = true →
    (∀ gid, graphId c graph = .ok gid → Narrow gid (writtenNames doc) c) ∧
      ∀ f ∈ literalFacts doc, xsdToPropertyType f.2.datatype ∉ widenable)

theorem graphId_mem {c : Catalog} {graph : String} (h : graphId c graph = .ok gid) :
    gid ∈ c.graphs.map (·.1) := by
  unfold graphId at h
  split at h
  · next g hg =>
    obtain rfl := Except.ok.inj h
    exact List.mem_map_of_mem (List.mem_of_find?_eq_some hg)
  · cases h

theorem Inv.loadRdf {graph : String} {doc : List Statement} (h : Inv d)
    (hguard : RecordsLoad session d.catalog graph doc) (hop : loadRdf session d graph doc = .ok d') :
    Inv d' := by
  obtain ⟨hroles, hnarrow⟩ := hguard
  obtain ⟨gid, hgid, hop⟩ := bind_eq_ok.mp hop
  obtain ⟨d₁, h₁, hop⟩ := bind_eq_ok.mp hop
  obtain ⟨d₂, h₂, hop⟩ := bind_eq_ok.mp hop
  obtain ⟨⟨d₃, nodes⟩, h₃, h₄⟩ := bind_eq_ok.mp hop
  have hclasses : Loading session gid (writtenNames doc) d d₁ :=
    .classes h (graphId_mem hgid) (fun hmay => (hnarrow hmay).1 gid hgid) h₁
  have hplayers := hclasses.players h.tidy hroles h₂
  obtain ⟨hinstances, hplaced⟩ := Loading.instances (List.Subset.refl (doc.map (·.triple)))
    (List.mem_cons_self ..) hplayers h.tidy (fun n hn => by cases hn) h₃
  have hall : ∀ (sts : List Statement) (d₄ : Database), sts ⊆ doc →
      Loading session gid (writtenNames doc) d d₄ →
      Placed gid (doc.map (·.triple)) d₄.schema.o nodes →
      sts.foldlM (declareFact session gid nodes) d₄ = .ok d' →
      Loading session gid (writtenNames doc) d d' := by
    intro sts
    induction sts with
    | nil =>
        intro d₄ _ hloading _ hop
        obtain rfl := pure_eq_ok.mp hop
        exact hloading
    | cons st sts ih =>
        intro d₄ hsub hloading hplaced hop
        obtain ⟨mid, hmid, hrest⟩ := foldlM_cons_eq_ok.mp hop
        obtain ⟨hloading', hplaced'⟩ := Loading.fact (hsub (List.mem_cons_self ..))
          (fun hmay => (hnarrow hmay).2) hloading h.tidy hplaced hmid
        exact ih mid (fun st' hst' => hsub (List.mem_cons_of_mem _ hst')) hloading' hplaced' hrest
  have hloaded := hall doc d₃ (List.Subset.refl _) hinstances hplaced h₄
  exact h.kept hloaded.kept fun _ => hloaded.upToDate

end Rdf

end Operations

section Runs

variable {d d' d₀ : Database}

/-- Where an operation ends with a version: a type of the graph is left, a write declares
after it widens, a document neither gives roles nor widens. -/
def Records (d : Database) : Event → Prop
  | .dropType graph name _ _ => LeavesTypes d.catalog graph name
  | .write session tid members => DeclaresLast session d.catalog tid members
  | .loadRdf session graph doc => RecordsLoad session d.catalog graph doc
  | _ => True

/-- The latest version of each graph is its schema. -/
def Recorded (d : Database) : Prop := ∀ g ∈ d.catalog.graphs.map (·.1), UpToDate d g

theorem Inv.step {e : Event} (h : Inv d) (hguard : Records d e) (hop : step d e = .ok d') : Inv d' := by
  cases e with
  | createType graph name kind parents isAbstract =>
      obtain ⟨gid, -, hkept, hcur⟩ := kept_createType hop
      exact h.kept hkept fun _ => hcur
  | dropType graph name cascade instances =>
      obtain ⟨gid, hkept, hcur⟩ := kept_dropType hguard hop
      exact h.kept hkept fun _ => hcur
  | dropGraph graph =>
      obtain ⟨gid, hkept, hgone⟩ := kept_dropGraph hop
      exact h.kept hkept fun hmem => absurd hmem hgone
  | addProperty session gid typeName prop dtype =>
      obtain ⟨hkept, hcur⟩ := kept_addProperty hop
      exact h.kept hkept fun _ => hcur
  | addRole graph relType role player ordinal =>
      obtain ⟨gid, hkept, hcur⟩ := kept_addRole hop
      exact h.kept hkept fun _ => hcur
  | changeBeside graph =>
      obtain ⟨gid, -, hop⟩ := bind_eq_ok.mp hop
      obtain rfl := pure_eq_ok.mp hop
      exact h.bump gid
  | enableStamping graph typeName =>
      obtain ⟨gid, hkept, hcur⟩ := kept_enableStamping hop
      exact h.kept hkept fun _ => hcur
  | enableTemporal graph typeName =>
      obtain ⟨gid, hkept, hcur⟩ := kept_enableTemporal hop
      exact h.kept hkept fun _ => hcur
  | renameLabel graph old new =>
      rcases kept_renameLabel hop with rfl | ⟨gid, hkept, hcur⟩
      · exact h
      · exact h.kept hkept fun _ => hcur
  | plan graph spec => exact h.phaseBeside hop (.inl ⟨graph, spec, rfl⟩)
  | expand session id =>
      obtain ⟨gid, hkept, hcur⟩ := kept_expand hop
      exact h.kept hkept fun _ => hcur
  | migrate id => exact h.phaseBeside hop (.inr (.inl ⟨id, rfl⟩))
  | validate id violations => exact h.phaseBeside hop (.inr (.inr ⟨id, violations, rfl⟩))
  | contract id =>
      obtain ⟨gid, hkept, hcur⟩ := kept_contract h hop
      exact h.kept hkept fun _ => hcur
  | abort id => exact h.abortChange hop
  | planRole graph relation role player => exact h.planRole hop
  | expandRole id => exact h.expandRole hop
  | migrateRole id => exact h.migrateRole hop
  | validateRole id violations => exact h.validateRole hop
  | contractRole id => exact h.contractRole hop
  | abortRole id => exact h.abortRole hop
  | define graph defs =>
      obtain ⟨gid, hkept, hcur⟩ := kept_define hop
      exact h.kept hkept fun _ => hcur
  | ensureHasType graph => exact h.ensureHasType hop
  | write session tid members => exact h.write hguard hop
  | loadRdf session graph doc => exact h.loadRdf hguard hop

/-- Graphs before their first types, with the versions they were created with. -/
structure Start (d : Database) : Prop where
  noTypes : NoTypes d.schema.o
  properties : d.catalog.properties = []
  roles : d.catalog.roles = []
  changes : d.schema.changes = []
  roleChanges : d.roleChanges = []
  versions : ∀ g, d.versions g = []

theorem Start.inv (h : Start d) : Inv d := by
  obtain ⟨⟨htypes, hlinks, hlabels⟩, hprops, hroles, hchanges, hrolechanges, hversions⟩ := h
  unfold Database.catalog at hprops hroles
  refine ⟨⟨?_, ?_, ?_, ?_, ?_, ?_⟩, ?_, ?_, fun g _ => ?_⟩
  · simp [htypes]
  · simp [htypes]
  · simp [hlinks]
  · simp [hlabels]
  · simp [hroles]
  · simp [hprops]
  · simp [hchanges]
  · simp [hrolechanges]
  · refine (hversions g).trans (schemaSnapshot_eq_nil ?_).symm
    simp [graphTypes, Database.catalog, htypes]

theorem recorded_of_records {es : List Event} (h : Start d₀)
    (run : Run step (fun _ d e => Records d e) d₀ es d) : Recorded d := by
  have hinv : Inv d := run.invariant (I := fun _ d => Inv d) h.inv
    fun _ _ _ _ hinv hguard hop => hinv.step hguard hop
  exact hinv.upToDate

def kb : Database := ⟨PropertyColumns.kb, ⟨[], []⟩, [], 1, fun _ => []⟩

theorem kb_start : Start kb := ⟨⟨rfl, rfl, rfl⟩, rfl, rfl, rfl, rfl, fun _ => rfl⟩

/-- A type whose property is declared by the first write. -/
theorem recorded_of_records_write : ∃ d, d.catalog.properties.map (fun p => (p.name, p.dataType)) =
    [("p", "int8")] ∧ Recorded d := by
  have run : ∃ d, Run step (fun _ d e => Records d e) kb
      [.createType "kb" "Book" .entity [] false, .write ascii 1 [("p", .num ⟨1, 0⟩)]] d ∧
      d.catalog.properties.map (fun p => (p.name, p.dataType)) = [("p", "int8")] := by
    refine ⟨_, (Run.single trivial rfl).snoc (fun _ kv hkv => ?_) rfl, rfl⟩
    rfl
  obtain ⟨d, run, hprops⟩ := run
  exact ⟨d, hprops, recorded_of_records kb_start run⟩

/-- A text is written where a number was, and the version still says that it is a number. -/
theorem not_recorded :
    ¬ ∀ (d₀ d : Database) (es : List Event), Start d₀ → Run step (fun _ _ _ => True) d₀ es d →
      Recorded d := by
  intro h
  have run : ∃ d, Run step (fun _ _ _ => True) kb
      [.createType "kb" "Book" .entity [] false, .write ascii 1 [("p", .num ⟨1, 0⟩)],
        .write ascii 1 [("p", .str "x")]] d ∧ 1 ∈ d.catalog.graphs.map (·.1) ∧
      (d.versions 1).flatMap (fun t => t.properties.map (·.type)) = ["int8"] ∧
      (d.snapshot 1).flatMap (fun t => t.properties.map (·.type)) = ["text"] :=
    ⟨_, ((Run.single trivial rfl).snoc trivial rfl).snoc trivial rfl, by decide, rfl, rfl⟩
  obtain ⟨d, run, hgraph, hversion, hsnapshot⟩ := run
  have hrecorded : UpToDate d 1 := h kb d _ kb_start run 1 hgraph
  unfold UpToDate at hrecorded
  rw [hrecorded, hsnapshot] at hversion
  exact absurd hversion (by decide)

end Runs

end OntologicalDb.SchemaVersions
