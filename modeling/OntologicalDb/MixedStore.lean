import OntologicalDb.AdjacencyMirror
import OntologicalDb.GuardedRuns
import OntologicalDb.SchemaChanges

/-!
One store behind two languages: the TypeQL writes on it, the schema drops, and
what every mixture of operations keeps of registries and segments.
-/

namespace OntologicalDb.MixedStore

open OntologicalDb.Adjacency
open OntologicalDb.AdjacencyMirror
open OntologicalDb.ExceptRules
open OntologicalDb.GraphStorage
open OntologicalDb.GuardedRuns
open OntologicalDb.Ids
open OntologicalDb.KeyedRows
open OntologicalDb.Labeling
open OntologicalDb.SchemaChanges
open OntologicalDb.TypeCatalog
open OntologicalDb.TypedTables
open OntologicalDb.Values

section TypeQL

/-- An entity or a relation instance: a node either way. -/
def createInstance (st : Store) (tid : Int) (ty : String) : Except String (Store × Int) := do
  let kind ← typeKind st.schema.catalog tid
  require (kind ≠ .attribute) s!"'{ty}' is an attribute type"
  let table ← concreteTable st.schema.catalog tid ty
  refuseVirtualWrite st.schema.catalog tid
  let (alloc, id) ← allocId st.ogIdAlloc tid
  let nodes ← insertNode st.ogNode ⟨id, tid⟩
  require (table.shape ≠ .edge) s!"creating '{ty}' failed: null value in column"
  let schema ← insertTyped st.schema table ⟨id, none, [], none⟩
  return ({ st with schema := schema, ogIdAlloc := alloc, ogNode := nodes }, id)

/-- The instance of an attribute type that carries a value, found or created. -/
def internAttribute (st : Store) (tid : Int) (attr : String) (val : Val) :
    Except String (Store × Int) := do
  let table ← concreteTable st.schema.catalog tid attr
  match (rowsOf st.schema table).find? fun r => r.col "val" = val with
  | some r => return (st, r.id)
  | none =>
      let (alloc, id) ← allocId st.ogIdAlloc tid
      let nodes ← insertNode st.ogNode ⟨id, tid⟩
      let schema ← insertTyped st.schema table ⟨id, none, [("val", val)], none⟩
      return ({ st with schema := schema, ogIdAlloc := alloc, ogNode := nodes }, id)

def ownership (st : Store) (hasTid owner attr : Int) : Option EdgeRow :=
  st.ogEdge.find? fun e => e.typeId = hasTid ∧ e.src = owner ∧ e.dst = attr

def linkHas (hasTid : Int) (st : Store) (owner attr : Int) : Except String Store :=
  match ownership st hasTid owner attr with
  | some _ => .ok st
  | none => do
      let table ← concreteTable st.schema.catalog hasTid "$has"
      let (alloc, eid) ← allocId st.ogIdAlloc hasTid
      let edges ← insertEdge st.ogEdge ⟨eid, hasTid, owner, attr⟩
      let schema ← insertTyped st.schema table ⟨eid, some (owner, attr), [], none⟩
      let adj ← append st.ogAdj owner hasTid .o attr eid
      let adj ← append adj attr hasTid .i owner eid
      return { st with schema := schema, ogIdAlloc := alloc, ogEdge := edges, ogAdj := adj }

def unlinkHas (hasTid : Int) (st : Store) (owner attr : Int) : Store :=
  match ownership st hasTid owner attr with
  | none => st
  | some e =>
      let adj := remove (remove st.ogAdj owner hasTid .o e.id) attr hasTid .i e.id
      { st with
        schema := deleteRow st hasTid e.id
        ogEdge := st.ogEdge.filter fun r => r.id ≠ e.id
        ogAdj := adj }

/-- Assign a role, from either language; a repeated assignment does nothing. -/
def addRolePlayer (st : Store) (p : RolePlayer) : Store :=
  if p ∈ st.ogRolePlayer then st else { st with ogRolePlayer := st.ogRolePlayer ++ [p] }

def removeLinks (st : Store) (rel player : Int) (roleIds : List Int) : Store :=
  { st with ogRolePlayer := st.ogRolePlayer.filter fun p =>
      ¬ (p.edgeId = rel ∧ p.playerId = player ∧ p.roleId ∈ roleIds) }

/-- The relations an instance plays a role in. -/
def relationsOf (st : Store) (id : Int) : List Int :=
  ((st.ogRolePlayer.filter fun p => p.playerId = id).map (·.edgeId)).dedup

/-- Delete an instance, its ownerships and the relations it plays a role in.
Fuel replaces the call stack, which a cycle of roles exhausts. -/
def deleteInstance (hasTid : Int) : Nat → Store → Int → Except String Store
  | 0, _, _ => .error "stack depth limit exceeded"
  | fuel + 1, st, id => do
      let owned := st.ogEdge.filter fun e => e.typeId = hasTid ∧ (e.src = id ∨ e.dst = id)
      let st := owned.foldl (fun st e => unlinkHas hasTid st e.src e.dst) st
      let st ← (relationsOf st id).foldlM (deleteInstance hasTid fuel) st
      let st := { st with ogRolePlayer := st.ogRolePlayer.filter fun p => p.edgeId ≠ id }
      refuseVirtualWrite st.schema.catalog (idType id)
      return { st with
        schema := deleteRow st (idType id) id
        ogNode := st.ogNode.filter fun r => r.id ≠ id
        ogAdj := st.ogAdj.filter fun a => a.src ≠ id }

end TypeQL

section Drops

def dropTable (schema : Schema) (tid : Int) : Schema :=
  match storageTable schema.catalog tid with
  | none => schema
  | some table => { schema with tables := schema.tables.filter fun r => r.1 ≠ table }

/-- What `og_drop_type` does to one of the types it drops. -/
def dropOne (st : Store) (sub : Int) : Except String Store := do
  let schema := dropTable st.schema sub
  let catalog ← deleteType schema.catalog sub
  return { st with
    schema := { schema with catalog := catalog }
    ogNode := st.ogNode.filter fun n => n.typeId ≠ sub
    ogEdge := st.ogEdge.filter fun e => e.typeId ≠ sub
    ogAdj := st.ogAdj.filter fun a => a.etype ≠ sub }

def dropType (st : Store) (gid : Int) (name : String) (cascade : Bool) : Except String Store := do
  let tid ← typeId st.schema.catalog gid name
  let subs := ogSubtypes st.schema.catalog tid
  let n := (st.ogNode.filter fun n => n.typeId ∈ subs).length +
    (st.ogEdge.filter fun e => e.typeId ∈ subs).length
  require (n = 0 ∨ cascade = true) s!"type '{name}' has {n} instance(s) (including subtypes)"
  let st ← subs.foldlM dropOne st
  let catalog ← relabelGraph st.schema.catalog gid
  return { st with schema := { st.schema with catalog := catalog } }

/-- Drop the tables of a graph and delete it with the rows that reference it;
the registries and segments have no reference to it. -/
def dropGraph (st : Store) (name : String) : Except String Store := do
  let gid ← graphId st.schema.catalog name
  let c := st.schema.catalog
  let tids := graphTypes c gid
  require (¬ c.roles.any fun r => r.playerTypeId.any (· ∈ tids) ∧ r.relTypeId ∉ tids)
    "graph delete failed: violates foreign key constraint"
  return { st with schema := {
    tables := st.schema.tables.filter fun r => r.1 ∉ tids.filterMap (storageTable c)
    catalog := { c with
      graphs := c.graphs.filter fun g => g.1 ≠ gid
      types := c.types.filter fun t => t.graphId ≠ gid
      typeParent := c.typeParent.filter fun l => l.1 ∉ tids ∧ l.2 ∉ tids
      labels := c.labels.filter fun l => l.typeId ∉ tids
      properties := c.properties.filter fun p => p.typeId ∉ tids
      roles := c.roles.filter fun r => r.relTypeId ∉ tids
      virtualRels := c.virtualRels.filter fun v =>
        v.typeId ∉ tids ∧ v.srcType ∉ tids ∧ v.dstType ∉ tids
      virtualSources := c.virtualSources.filter fun v => v.1 ∉ tids
      temporal := c.temporal.filter fun t => t ∉ tids } } }

/-- An operation that takes no type away and leaves the registries alone: graphs
and types are created, linked, given properties and relabelled, instances get
other values. -/
structure Growth where
  run : Schema → Except String Schema
  types : ∀ s s', run s = .ok s' → ∀ t ∈ s.catalog.types, ∃ t' ∈ s'.catalog.types,
    t'.typeId = t.typeId ∧ t'.graphId = t.graphId
  graphs : ∀ s s', run s = .ok s' → s.catalog.graphs ⊆ s'.catalog.graphs

end Drops

/-- The operations of both languages on the store. -/
inductive MixedOp
  | storage (s : Session) (op : GraphStorage.Op)
  | addRolePlayer (p : RolePlayer)
  | removeLinks (rel player : Int) (roleIds : List Int)
  | createInstance (tid : Int) (ty : String)
  | internAttribute (tid : Int) (attr : String) (val : Val)
  | linkHas (hasTid owner attr : Int)
  | unlinkHas (hasTid owner attr : Int)
  | deleteInstance (hasTid : Int) (fuel : Nat) (id : Int)
  | grow (g : Growth)
  | dropType (gid : Int) (name : String) (cascade : Bool)
  | dropGraph (name : String)

def MixedOp.run (st : Store) : MixedOp → Except String Store
  | .storage s op => (op.run s st).map (·.1)
  | .addRolePlayer p => .ok (MixedStore.addRolePlayer st p)
  | .removeLinks rel player roleIds => .ok (MixedStore.removeLinks st rel player roleIds)
  | .createInstance tid ty => (MixedStore.createInstance st tid ty).map (·.1)
  | .internAttribute tid attr val => (MixedStore.internAttribute st tid attr val).map (·.1)
  | .linkHas hasTid owner attr => MixedStore.linkHas hasTid st owner attr
  | .unlinkHas hasTid owner attr => .ok (MixedStore.unlinkHas hasTid st owner attr)
  | .deleteInstance hasTid fuel id => MixedStore.deleteInstance hasTid fuel st id
  | .grow g => do
      let schema ← g.run st.schema
      return { st with schema := schema }
  | .dropType gid name cascade => MixedStore.dropType st gid name cascade
  | .dropGraph name => MixedStore.dropGraph st name

/-- A store without nodes, edges, segments or role players. -/
def EmptyStore (st : Store) : Prop := EmptyGraph st ∧ st.ogRolePlayer = []

end OntologicalDb.MixedStore
