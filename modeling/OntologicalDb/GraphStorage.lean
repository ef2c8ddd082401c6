import OntologicalDb.Adjacency
import OntologicalDb.Ids
import OntologicalDb.TypedTables

/-!
Graph storage.  A write keeps three structures in step: the registries, the
typed property tables and both directions of the adjacency segments.  An error
aborts the transaction, so a failed operation leaves the store as it was.
-/

namespace OntologicalDb.GraphStorage

open OntologicalDb.Adjacency
open OntologicalDb.ExceptRules
open OntologicalDb.Ids
open OntologicalDb.Labeling
open OntologicalDb.TypeCatalog
open OntologicalDb.TypedTables
open OntologicalDb.Values

structure NodeRow where
  id : Int
  typeId : Int
deriving DecidableEq

structure EdgeRow where
  id : Int
  typeId : Int
  src : Int
  dst : Int
deriving DecidableEq

/-- An extra participant of an n-ary relation. -/
structure RolePlayer where
  edgeId : Int
  roleId : Int
  playerId : Int
deriving DecidableEq

structure Store where
  schema : Schema
  ogIdAlloc : List (Int × Int)
  ogNode : List NodeRow
  ogEdge : List EdgeRow
  ogAdj : List Segment
  ogRolePlayer : List RolePlayer
deriving DecidableEq

/-- Allocate the next local id of a type and compose the identifier. -/
def allocId (alloc : List (Int × Int)) (typeId : Int) :
    Except String (List (Int × Int) × Int) := do
  match alloc.find? fun a => a.1 = typeId with
  | some a =>
      let id ← makeId 0 typeId a.2
      return (alloc.map fun b => if b.1 = typeId then (b.1, b.2 + 1) else b, id)
  | none =>
      let id ← makeId 0 typeId 1
      return (alloc ++ [(typeId, 2)], id)

def insertNode (nodes : List NodeRow) (r : NodeRow) : Except String (List NodeRow) :=
  if nodes.any fun q => q.id = r.id then
    .error "node registry insert failed: duplicate key value"
  else .ok (nodes ++ [r])

def insertEdge (edges : List EdgeRow) (r : EdgeRow) : Except String (List EdgeRow) :=
  if edges.any fun q => q.id = r.id then
    .error "edge registry insert failed: duplicate key value"
  else .ok (edges ++ [r])

/-- A virtual type's rows live elsewhere and are read-only. -/
def refuseVirtualWrite (c : Catalog) (tid : Int) : Except String Unit :=
  match virtualSource c tid with
  | none => .ok ()
  | some source =>
      let name := (tryTypeName c tid).getD (toString tid)
      .error (s!"'{name}' is a virtual node type and read-only: its rows live in {source}. " ++
        s!"Write to the source system, or MATERIALIZE VIRTUAL NODE {name} to take a copy")

/-- The columns a write names, for the privilege check. -/
def writtenCols (keys : List String) (plan : PropPlan) : List String :=
  keys ++ plan.columns.map (·.1) ++ if plan.extNeeded then ["__ext"] else []

def concreteTable (c : Catalog) (tid : Int) (name : String) : Except String StorageTable :=
  match storageTable c tid with
  | some table => .ok table
  | none => .error s!"'{name}' is abstract and cannot be instantiated"

def createNodeInner (s : Session) (st : Store) (tid : Int) (typeName : String)
    (props : Json) : Except String (Store × Int) := do
  let kind ← typeKind st.schema.catalog tid
  require (kind = .entity) s!"'{typeName}' is not an entity type"
  let table ← concreteTable st.schema.catalog tid typeName
  refuseVirtualWrite st.schema.catalog tid
  let (schema, plan) ← planProps s tid props st.schema
  checkWrite s schema.catalog tid table .create (writtenCols ["id"] plan)
  let (alloc, nid) ← allocId st.ogIdAlloc tid
  let nodes ← insertNode st.ogNode ⟨nid, tid⟩
  let ext := if plan.extNeeded then extValue plan props else none
  let schema ← insertTyped schema table ⟨nid, none, plan.columns, ext⟩
  return ({ st with schema := schema, ogIdAlloc := alloc, ogNode := nodes }, nid)

/-- Enforce the player types declared on the first two roles of a relation. -/
def validateRoles (c : Catalog) (tid : Int) (relType : String) (src dst : Int) :
    Except String Unit :=
  (c.roles.filter fun r => r.relTypeId ∈ ogSupertypes c tid ∧
    (r.ordinal = 0 ∨ r.ordinal = 1)).forM fun r =>
      match r.playerTypeId with
      | none => .ok ()
      | some player =>
          let actual := if r.ordinal = 0 then idType src else idType dst
          if ogIsSubtype c actual player then .ok ()
          else .error (s!"role '{r.name}' of relation '{relType}' requires a " ++
            s!"'{typeNameOf c player}', got '{typeNameOf c actual}'")

def createEdgeInner (s : Session) (st : Store) (tid : Int) (relType : String)
    (src dst : Int) (props : Json) : Except String (Store × Int) := do
  let kind ← typeKind st.schema.catalog tid
  require (kind = .relation) s!"'{relType}' is not a relation type"
  let table ← concreteTable st.schema.catalog tid relType
  validateRoles st.schema.catalog tid relType src dst
  let (schema, plan) ← planProps s tid props st.schema
  checkWrite s schema.catalog tid table .create (writtenCols ["id", "src", "dst"] plan)
  let (alloc, eid) ← allocId st.ogIdAlloc tid
  let edges ← insertEdge st.ogEdge ⟨eid, tid, src, dst⟩
  let ext := if plan.extNeeded then extValue plan props else none
  let schema ← insertTyped schema table ⟨eid, some (src, dst), plan.columns, ext⟩
  -- Both adjacency directions, same transaction.
  let adj ← append st.ogAdj src tid .o dst eid
  let adj ← append adj dst tid .i src eid
  return ({ st with schema := schema, ogIdAlloc := alloc, ogEdge := edges, ogAdj := adj }, eid)

/-- Delete from a type's table, once the caller may. -/
def checkDelete (s : Session) (st : Store) (tid : Int) : Except String Unit :=
  match storageTable st.schema.catalog tid with
  | none => .ok ()
  | some table => checkWrite s st.schema.catalog tid table .delete []

def deleteRow (st : Store) (tid id : Int) : Schema :=
  match storageTable st.schema.catalog tid with
  | none => st.schema
  | some table => deleteTyped st.schema table id

def deleteEdgeInner (s : Session) (st : Store) (eid : Int) : Except String (Store × Int) :=
  let tid := idType eid
  match st.ogEdge.find? fun e => e.id = eid with
  | none => .ok (st, 0)
  | some e => do
      checkDelete s st tid
      let adj := remove (remove st.ogAdj e.src tid .o eid) e.dst tid .i eid
      return ({ st with
        schema := deleteRow st tid eid
        ogEdge := st.ogEdge.filter fun r => r.id ≠ eid
        ogAdj := adj
        ogRolePlayer := st.ogRolePlayer.filter fun p => p.edgeId ≠ eid }, 1)

/-- The edges some segment of a node mentions. -/
def incident (adj : List Segment) (id : Int) : List Int :=
  ((adj.filter fun a => a.src = id).flatMap (·.eid)).dedup

/-- Delete a node and every incident edge. -/
def deleteNodeInner (s : Session) (st : Store) (id : Int) : Except String (Store × Int) := do
  let tid := idType id
  refuseVirtualWrite st.schema.catalog tid
  checkDelete s st tid
  let (st, removed) ← (incident st.ogAdj id).foldlM
    (fun (acc : Store × Int) eid => do
      let (st, n) ← deleteEdgeInner s acc.1 eid
      return (st, acc.2 + n)) (st, 0)
  return ({ st with
    schema := deleteRow st tid id
    ogNode := st.ogNode.filter fun r => r.id ≠ id
    ogAdj := st.ogAdj.filter fun a => a.src ≠ id }, removed + 1)

/-- The four operations of the storage layer. -/
inductive Op
  | createNode (tid : Int) (typeName : String) (props : Json)
  | createEdge (tid : Int) (relType : String) (src dst : Int) (props : Json)
  | deleteEdge (id : Int)
  | deleteNode (id : Int)

def Op.run (s : Session) (st : Store) : Op → Except String (Store × Int)
  | .createNode tid typeName props => createNodeInner s st tid typeName props
  | .createEdge tid relType src dst props => createEdgeInner s st tid relType src dst props
  | .deleteEdge id => deleteEdgeInner s st id
  | .deleteNode id => deleteNodeInner s st id

/-- One operation as its own transaction. -/
def Op.commit (s : Session) (st : Store) (op : Op) : Store :=
  match op.run s st with
  | .ok (st', _) => st'
  | .error _ => st

/-- A database without nodes and relationships; the catalog is any. -/
def EmptyGraph (st : Store) : Prop := st.ogNode = [] ∧ st.ogEdge = [] ∧ st.ogAdj = []

/-- The states some sequence of operations leads to, by any callers. -/
inductive Reachable : Store → Prop
  | empty {st : Store} : EmptyGraph st → Reachable st
  | step {st : Store} (s : Session) (op : Op) : Reachable st → Reachable (op.commit s st)

theorem Reachable.foldl {st : Store} (h : Reachable st) (s : Session) (ops : List Op) :
    Reachable (ops.foldl (fun st op => op.commit s st) st) := by
  induction ops generalizing st with
  | nil => exact h
  | cons op ops ih => exact ih (.step s op h)

end OntologicalDb.GraphStorage
