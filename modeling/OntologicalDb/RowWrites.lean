import Mathlib.Algebra.Ring.Int.Defs
import OntologicalDb.GraphStorage
import OntologicalDb.QueryExecution
import OntologicalDb.RowEvaluator

/-!
The write clauses of a query, applied to the store one binding row at a time, and
the counters they leave behind.
-/

namespace OntologicalDb.RowWrites

open OntologicalDb.Adjacency (Segment)
open OntologicalDb.CypherSyntax
open OntologicalDb.GraphStorage
open OntologicalDb.Ids
open OntologicalDb.QueryExecution (isLabelOnly readPrefix writeTail)
open OntologicalDb.RowEvaluator
open OntologicalDb.TypeCatalog (Kind)
open OntologicalDb.TypedTables
open OntologicalDb.Values

/-- The counters a client asks for after a write. -/
structure Counters where
  nodesCreated : Int
  nodesDeleted : Int
  relationshipsCreated : Int
  relationshipsDeleted : Int
deriving DecidableEq

def Counters.reset : Counters := ⟨0, 0, 0, 0⟩

def Counters.nodeCreated (k : Counters) : Counters := { k with nodesCreated := k.nodesCreated + 1 }

def Counters.nodeDeleted (k : Counters) : Counters := { k with nodesDeleted := k.nodesDeleted + 1 }

def Counters.relationshipCreated (k : Counters) : Counters :=
  { k with relationshipsCreated := k.relationshipsCreated + 1 }

def Counters.relationshipDeleted (k : Counters) : Counters :=
  { k with relationshipsDeleted := k.relationshipsDeleted + 1 }

/-- The store with the counters of the running query.  What only an observer
knows is kept beside them: the registry rows each statement inserted or removed,
and the node deletions with the registry as they found it. -/
structure State where
  store : Store
  counters : Counters
  rows : Counters
  deletions : List (Int × List NodeRow)

/-- The registry rows one more statement inserted or removed. -/
def observe (rows : Counters) (before after : Store) : Counters where
  nodesCreated := rows.nodesCreated + (after.ogNode.length - before.ogNode.length : Nat)
  nodesDeleted := rows.nodesDeleted + (before.ogNode.length - after.ogNode.length : Nat)
  relationshipsCreated :=
    rows.relationshipsCreated + (after.ogEdge.length - before.ogEdge.length : Nat)
  relationshipsDeleted :=
    rows.relationshipsDeleted + (before.ogEdge.length - after.ogEdge.length : Nat)

section Storage

variable (s : Session)

def createNode (st : State) (tid : Int) (label : String) (props : Json) :
    Except String (State × Int) := do
  let (store, id) ← createNodeInner s st.store tid label props
  return ({ st with
    store := store
    counters := st.counters.nodeCreated
    rows := observe st.rows st.store store }, id)

def createEdge (st : State) (tid : Int) (relType : String) (src dst : Int) (props : Json) :
    Except String (State × Int) := do
  let (store, id) ← createEdgeInner s st.store tid relType src dst props
  return ({ st with
    store := store
    counters := st.counters.relationshipCreated
    rows := observe st.rows st.store store }, id)

/-- An edge that is not registered returns early, before it is counted. -/
def deleteEdge (st : State) (eid : Int) : Except String (State × Int) := do
  let (store, n) ← deleteEdgeInner s st.store eid
  return ({ st with
    store := store
    counters := if n = 0 then st.counters else st.counters.relationshipDeleted
    rows := observe st.rows st.store store }, n)

def deleteEdges (eids : List Int) (st : State × Int) : Except String (State × Int) :=
  eids.foldlM (fun acc eid => do
    let (st, n) ← deleteEdge s acc.1 eid
    return (st, acc.2 + n)) st

/-- The registry, the typed row and the segments of a node go. -/
def dropNode (store : Store) (id : Int) : Store :=
  { store with
    schema := deleteRow store (idType id) id
    ogNode := store.ogNode.filter fun r => r.id ≠ id
    ogAdj := store.ogAdj.filter fun a => a.src ≠ id }

def deleteNode (st : State) (id : Int) : Except String (State × Int) := do
  refuseVirtualWrite st.store.schema.catalog (idType id)
  checkDelete s st.store (idType id)
  let (st, removed) ← deleteEdges s (incident st.store.ogAdj id) (st, 0)
  let store := dropNode st.store id
  return ({ store := store
            counters := st.counters.nodeDeleted
            rows := observe st.rows st.store store
            deletions := st.deletions ++ [(id, st.store.ogNode)] }, removed + 1)

end Storage

section Values

variable {F : Type}

/-- `as_i64`: doubles and integers out of range are not. -/
def asI64 : Value F → Option Int
  | .number (.int i) => if -(2 ^ 63) ≤ i ∧ i < 2 ^ 63 then some i else none
  | _ => none

/-- What a value names: an object with an identifier, an edge if it has a source. -/
inductive Entity
  | node (id : Int)
  | edge (id : Int)
deriving DecidableEq

def entityOf (v : Value F) : Option Entity :=
  match (v.get "_id").bind asI64 with
  | none => none
  | some id => some (if (v.get "_src").isSome then .edge id else .node id)

/-- What the row loop takes from the rest of the engine.  Property writes, the
resolution of labels, renames and schema commands change the schema only. -/
structure Engine (F : Type) where
  encode : Value F → Json
  resolve : Schema → List String → Kind → Except String (Schema × Int)
  nodeJson : Store → Int → Value F
  edgeJson : Store → Int → Value F
  find : Store → Pattern → Env F → Option (List (String × Value F))
  setProps : Schema → Entity → Value F → Except String Schema
  carries : Schema → Int → String → Bool
  bind : Store → List Clause → Except String (List (Env F))
  rename : Schema → List Clause → Option Schema
  ddl : Schema → String → Except String Schema

end Values

section Rows

variable {F : Type} (rt : Runtime F) (params : Value F) (s : Session) (G : Engine F)

/-- Evaluate, with null for what fails. -/
def evalOr (e : Expr) (env : Env F) : Value F :=
  match eval rt params e env with
  | .ok v => v
  | .error _ => .null

def bindVar (env : Env F) (var : Option String) (v : Value F) : Env F :=
  match var with
  | none => env
  | some name => Function.update env name (some v)

def propsJson (props : List (String × Expr)) (env : Env F) : Value F :=
  .object (props.foldl (fun kvs p => insertField p.1 (evalOr rt params p.2 env) kvs) [])

/-- The state of a `CREATE` pattern: the last node and the relationship waiting
for the next one. -/
structure PatternState (F : Type) where
  st : State
  env : Env F
  prev : Option Int
  waiting : Option RelPat

def createRel (rel : RelPat) (a b : Int) (st : State) (env : Env F) :
    Except String (State × Env F) :=
  match rel.types with
  | [relType] => do
      let (src, dst) := match rel.dir with
        | .in_ => (b, a)
        | _ => (a, b)
      let (schema, tid) ← G.resolve st.store.schema [relType] .relation
      let st := { st with store := { st.store with schema := schema } }
      let (st, eid) ← createEdge s st tid relType src dst
        (G.encode (propsJson rt params rel.props env))
      return (st, bindVar env rel.var (G.edgeJson st.store eid))
  | _ => .error "CREATE requires exactly one relationship type"

/-- The node an element stands for: the one its variable is bound to, or a new one. -/
def createNodeElem (np : NodePat) (st : State) (env : Env F) :
    Except String (State × Env F × Int) :=
  match np.var.bind env with
  | some v =>
      match v.get "_id" with
      | some i =>
          match asI64 i with
          | some id => .ok (st, env, id)
          | none => .error "called `Option::unwrap()` on a `None` value"
      | none => fresh
  | none => fresh
where
  fresh : Except String (State × Env F × Int) := do
    let (schema, tid) ← G.resolve st.store.schema np.labels .entity
    let st := { st with store := { st.store with schema := schema } }
    let (st, id) ← createNode s st tid (np.labels.getLast?.getD "")
      (G.encode (propsJson rt params np.props env))
    return (st, bindVar env np.var (G.nodeJson st.store id), id)

def createElem (p : PatternState F) : PatElem → Except String (PatternState F)
  | .rel rp => .ok { p with waiting := some rp }
  | .node np => do
      let (st, env, id) ← createNodeElem rt params s G np p.st p.env
      match p.prev, p.waiting with
      | some src, some rel => do
          let (st, env) ← createRel rt params s G rel src id st env
          return ⟨st, env, some id, none⟩
      | _, _ => return ⟨st, env, some id, none⟩

def createPattern (p : Pattern) (st : State) (env : Env F) : Except String (State × Env F) := do
  let r ← p.elems.foldlM (createElem rt params s G) ⟨st, env, none, none⟩
  return (r.st, r.env)

def writeProps (st : State) (x : Entity) (props : Value F) : Except String State := do
  let schema ← G.setProps st.store.schema x props
  return { st with store := { st.store with schema := schema } }

/-- `SET n = map` clears the properties first, `SET n += map` does not. -/
def clearProps (merge : Bool) (st : State) (x : Entity) : Except String State :=
  if merge then .ok st else writeProps G st x (.object [])

/-- A `SET` item on the entity its variable is bound to. -/
def setEntity (op : SetOp) (x : Entity) (entity : Value F) (st : State) (env : Env F) :
    Except String (State × Env F) :=
  match op with
  | .prop var prop value => do
      let v := evalOr rt params value env
      let st ← writeProps G st x (.object [(prop, v)])
      match entity with
      | .object kvs => return (st, Function.update env var (some (.object (insertField prop v kvs))))
      | _ => return (st, env)
  | .map _ value merge => do
      let v := evalOr rt params value env
      let st ← clearProps G merge st x
      let st ← writeProps G st x v
      return (st, env)
  | .label _ labels =>
      let id := match x with
        | .node id => id
        | .edge id => id
      match labels.find? fun l => ¬ G.carries st.store.schema (idType id) l with
      | none => .ok (st, env)
      | some l => .error (s!"cannot add label '{l}' to this node: a node's type is part of its " ++
          "                         identity here, so it cannot gain one after creation. To rename a " ++
          "                         class, write `REMOVE n:Old SET n:New` — that is applied to the type. " ++
          "                         To move a node between types, create it under the target type.")

def setVar : SetOp → String
  | .prop var _ _ => var
  | .map var _ _ => var
  | .label var _ => var

def unboundText : SetOp → String
  | .label var _ => s!"SET/REMOVE refers to unbound variable '{var}'"
  | op => s!"SET refers to unbound variable '{setVar op}'"

def applySetOp (st : State × Env F) (op : SetOp) : Except String (State × Env F) :=
  match st.2 (setVar op) with
  | none => .error (unboundText op)
  | some entity =>
      match entityOf entity with
      | none => .ok st
      | some x => setEntity rt params G op x entity st.1 st.2

def applySet (ops : List SetOp) (st : State) (env : Env F) : Except String (State × Env F) :=
  ops.foldlM (applySetOp rt params G) (st, env)

def mergePattern (p : Pattern) (onCreate onMatch : List SetOp) (st : State) (env : Env F) :
    Except String (State × Env F) :=
  match G.find st.store p env with
  | some found =>
      applySet rt params G onMatch st
        (found.foldl (fun env kv => Function.update env kv.1 (some kv.2)) env)
  | none => do
      let (st, env) ← createPattern rt params s G p st env
      applySet rt params G onCreate st env

/-- `SELECT sum(n)` over the segments of a node. -/
def degree (store : Store) (id : Int) : Int :=
  ((store.ogAdj.filter fun a => a.src = id).map (·.n)).sum

def deleteEntity (detach : Bool) (st : State) : Entity → Except String State
  | .edge id => do
      let (st, _) ← deleteEdge s st id
      return st
  | .node id =>
      let deg := degree st.store id
      if detach = false ∧ 0 < deg then
        .error (s!"cannot delete node {id}: it still has {deg} relationship(s). " ++
          "use DETACH DELETE")
      else do
        let (st, _) ← deleteNode s st id
        return st

def deleteExpr (detach : Bool) (env : Env F) (st : State) (e : Expr) : Except String State :=
  match entityOf (evalOr rt params e env) with
  | none => .ok st
  | some x => deleteEntity s detach st x

/-- One write clause for one row; a `RETURN` only reads. -/
def runClause (st : State × Env F) : Clause → Except String (State × Env F)
  | .create pats => pats.foldlM (fun st p => createPattern rt params s G p st.1 st.2) st
  | .merge p onCreate onMatch => mergePattern rt params s G p onCreate onMatch st.1 st.2
  | .set ops => applySet rt params G ops st.1 st.2
  | .remove ops => applySet rt params G ops st.1 st.2
  | .delete exprs detach => do
      let st' ← exprs.foldlM (deleteExpr rt params s detach st.2) st.1
      return (st', st.2)
  | _ => .ok st

def runRow (clauses : List Clause) (st : State) (env : Env F) : Except String State := do
  let r ← clauses.foldlM (runClause rt params s G) (st, env)
  return r.1

def runRows (clauses : List Clause) (st : State) (envs : List (Env F)) : Except String State :=
  envs.foldlM (runRow rt params s G clauses) st

def State.start (store : Store) : State := ⟨store, .reset, .reset, []⟩

/-- A write query: the rows its prefix binds, one by one through its tail. -/
def runWrite (store : Store) (clauses : List Clause) : Except String State :=
  match clauses with
  | [.ddl statement] => do
      let schema ← G.ddl store.schema statement
      return State.start { store with schema := schema }
  | .ddl _ :: _ => .error "a schema command cannot be combined with other clauses"
  | _ => do
      let envs ← G.bind store (readPrefix clauses)
      let tail := writeTail clauses
      match G.rename store.schema tail with
      | some schema =>
          runRows rt params s G (tail.filter fun c => ¬ isLabelOnly c)
            (State.start { store with schema := schema }) envs
      | none => runRows rt params s G tail (State.start store) envs

end Rows

end OntologicalDb.RowWrites
