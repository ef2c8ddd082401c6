import OntologicalDb.IntegerArithmetic
import OntologicalDb.RowWrites
import OntologicalDb.StoreCoherence

/-!
The counters of a write query against the registry rows it inserted and removed.
-/

namespace OntologicalDb.WriteCounters

open OntologicalDb.AdjacencyMirror (createEdgeInner_eq_ok createNodeInner_eq_ok ownerSession pairCatalog)
open OntologicalDb.CypherSyntax
open OntologicalDb.ExceptRules
open OntologicalDb.GraphStorage
open OntologicalDb.IntegerArithmetic (exactRuntime)
open OntologicalDb.KeyedRows
open OntologicalDb.RowEvaluator
open OntologicalDb.RowWrites
open OntologicalDb.StoreCoherence
open OntologicalDb.TypedTables
open OntologicalDb.Values

/-- What holds of the row loop as soon as it holds of its storage calls; the rest
of the loop touches the schema only. -/
structure Kept (s : Session) (P : State → Prop) : Prop where
  schema : ∀ st schema, P st → P { st with store := { st.store with schema := schema } }
  createNode : ∀ st st' tid label props id, P st →
    createNode s st tid label props = .ok (st', id) → P st'
  createEdge : ∀ st st' tid relType src dst props id, P st →
    createEdge s st tid relType src dst props = .ok (st', id) → P st'
  deleteEdge : ∀ st st' eid n, P st → deleteEdge s st eid = .ok (st', n) → P st'
  deleteNode : ∀ st st' id n, P st → deleteNode s st id = .ok (st', n) → P st'

section Loop

variable {F : Type} {rt : Runtime F} {params : Value F} {s : Session} {G : Engine F}
variable {P : State → Prop} {st st' : State} {env env' : Env F}

theorem Kept.createRel (h : Kept s P) {rel : RelPat} {a b : Int} (hP : P st)
    (hrun : createRel rt params s G rel a b st env = .ok (st', env')) : P st' := by
  unfold RowWrites.createRel at hrun
  split at hrun
  · split at hrun
    obtain ⟨⟨schema, tid⟩, -, hrun⟩ := bind_eq_ok.mp hrun
    obtain ⟨⟨mid, eid⟩, hedge, hrun⟩ := bind_eq_ok.mp hrun
    obtain ⟨rfl, -⟩ := Prod.mk.inj (pure_eq_ok.mp hrun)
    exact h.createEdge _ _ _ _ _ _ _ _ (h.schema st schema hP) hedge
  · cases hrun

theorem Kept.createNodeElem (h : Kept s P) {np : NodePat} {id : Int} (hP : P st)
    (hrun : createNodeElem rt params s G np st env = .ok (st', env', id)) : P st' := by
  have hfresh (hrun : createNodeElem.fresh rt params s G np st env = .ok (st', env', id)) :
      P st' := by
    unfold createNodeElem.fresh at hrun
    obtain ⟨⟨schema, tid⟩, -, hrun⟩ := bind_eq_ok.mp hrun
    obtain ⟨⟨mid, nid⟩, hnode, hrun⟩ := bind_eq_ok.mp hrun
    obtain ⟨rfl, -⟩ := Prod.mk.inj (pure_eq_ok.mp hrun)
    exact h.createNode _ _ _ _ _ _ (h.schema st schema hP) hnode
  unfold RowWrites.createNodeElem at hrun
  split at hrun
  · split at hrun
    · split at hrun
      · obtain ⟨rfl, -⟩ := Prod.mk.inj (Except.ok.inj hrun)
        exact hP
      · cases hrun
    · exact hfresh hrun
  · exact hfresh hrun

theorem Kept.createElem (h : Kept s P) {p p' : PatternState F} {x : PatElem} (hP : P p.st)
    (hrun : createElem rt params s G p x = .ok p') : P p'.st := by
  cases x with
  | rel rp =>
      obtain rfl := Except.ok.inj hrun
      exact hP
  | node np =>
      unfold RowWrites.createElem at hrun
      obtain ⟨⟨mid, env, id⟩, hnode, hrun⟩ := bind_eq_ok.mp hrun
      have hmid := h.createNodeElem hP hnode
      dsimp only at hrun
      split at hrun
      · obtain ⟨⟨last, env'⟩, hrel, hrun⟩ := bind_eq_ok.mp hrun
        obtain rfl := pure_eq_ok.mp hrun
        exact h.createRel hmid hrel
      · obtain rfl := pure_eq_ok.mp hrun
        exact hmid

theorem Kept.createPattern (h : Kept s P) {p : Pattern} (hP : P st)
    (hrun : createPattern rt params s G p st env = .ok (st', env')) : P st' := by
  obtain ⟨r, hloop, hrun⟩ := bind_eq_ok.mp hrun
  obtain ⟨rfl, -⟩ := Prod.mk.inj (pure_eq_ok.mp hrun)
  exact foldlM_preserves (P := fun p : PatternState F => P p.st)
    (fun _ _ _ hP hstep => h.createElem hP hstep) hloop hP

theorem Kept.writeProps (h : Kept s P) {x : Entity} {props : Value F} (hP : P st)
    (hrun : writeProps G st x props = .ok st') : P st' := by
  obtain ⟨schema, -, hrun⟩ := bind_eq_ok.mp hrun
  obtain rfl := pure_eq_ok.mp hrun
  exact h.schema st schema hP

theorem Kept.clearProps (h : Kept s P) {x : Entity} {merge : Bool} (hP : P st)
    (hrun : clearProps G merge st x = .ok st') : P st' := by
  unfold RowWrites.clearProps at hrun
  split at hrun
  · obtain rfl := Except.ok.inj hrun
    exact hP
  · exact h.writeProps hP hrun

theorem Kept.setEntity (h : Kept s P) {op : SetOp} {x : Entity} {entity : Value F} (hP : P st)
    (hrun : setEntity rt params G op x entity st env = .ok (st', env')) : P st' := by
  cases op with
  | prop var prop value =>
      obtain ⟨mid, hprops, hrun⟩ := bind_eq_ok.mp hrun
      have hmid := h.writeProps hP hprops
      split at hrun
      all_goals
        obtain ⟨rfl, -⟩ := Prod.mk.inj (pure_eq_ok.mp hrun)
        exact hmid
  | map var value merge =>
      obtain ⟨mid, hclear, hrun⟩ := bind_eq_ok.mp hrun
      obtain ⟨last, hprops, hrun⟩ := bind_eq_ok.mp hrun
      obtain ⟨rfl, -⟩ := Prod.mk.inj (pure_eq_ok.mp hrun)
      exact h.writeProps (h.clearProps hP hclear) hprops
  | label var labels =>
      dsimp only [RowWrites.setEntity] at hrun
      split at hrun
      · obtain ⟨rfl, -⟩ := Prod.mk.inj (Except.ok.inj hrun)
        exact hP
      · cases hrun

theorem Kept.applySet (h : Kept s P) {ops : List SetOp} (hP : P st)
    (hrun : applySet rt params G ops st env = .ok (st', env')) : P st' := by
  refine foldlM_preserves (P := fun st : State × Env F => P st.1) ?_ hrun hP
  intro st op st' hP hstep
  unfold applySetOp at hstep
  split at hstep
  · cases hstep
  · split at hstep
    · obtain rfl := Except.ok.inj hstep
      exact hP
    · exact h.setEntity hP hstep

theorem Kept.mergePattern (h : Kept s P) {p : Pattern} {onCreate onMatch : List SetOp} (hP : P st)
    (hrun : mergePattern rt params s G p onCreate onMatch st env = .ok (st', env')) : P st' := by
  unfold RowWrites.mergePattern at hrun
  split at hrun
  · exact h.applySet hP hrun
  · obtain ⟨⟨mid, env⟩, hcreate, hrun⟩ := bind_eq_ok.mp hrun
    exact h.applySet (h.createPattern hP hcreate) hrun

theorem Kept.deleteExpr (h : Kept s P) {detach : Bool} {e : Expr} (hP : P st)
    (hrun : deleteExpr rt params s detach env st e = .ok st') : P st' := by
  unfold RowWrites.deleteExpr at hrun
  split at hrun
  · obtain rfl := Except.ok.inj hrun
    exact hP
  · unfold deleteEntity at hrun
    split at hrun
    · obtain ⟨⟨mid, n⟩, hedge, hrun⟩ := bind_eq_ok.mp hrun
      obtain rfl := pure_eq_ok.mp hrun
      exact h.deleteEdge _ _ _ _ hP hedge
    · dsimp only at hrun
      split_ifs at hrun
      obtain ⟨⟨mid, n⟩, hnode, hrun⟩ := bind_eq_ok.mp hrun
      obtain rfl := pure_eq_ok.mp hrun
      exact h.deleteNode _ _ _ _ hP hnode

theorem Kept.runClause (h : Kept s P) {c : Clause} (hP : P st)
    (hrun : runClause rt params s G (st, env) c = .ok (st', env')) : P st' := by
  unfold RowWrites.runClause at hrun
  split at hrun
  · exact foldlM_preserves (P := fun st : State × Env F => P st.1)
      (fun _ _ _ hP hstep => h.createPattern hP hstep) hrun hP
  · exact h.mergePattern hP hrun
  · exact h.applySet hP hrun
  · exact h.applySet hP hrun
  · obtain ⟨mid, hloop, hrun⟩ := bind_eq_ok.mp hrun
    obtain ⟨rfl, -⟩ := Prod.mk.inj (pure_eq_ok.mp hrun)
    exact foldlM_preserves (fun _ _ _ hP hstep => h.deleteExpr hP hstep) hloop hP
  · obtain ⟨rfl, -⟩ := Prod.mk.inj (Except.ok.inj hrun)
    exact hP

theorem Kept.runRows (h : Kept s P) {clauses : List Clause} {envs : List (Env F)} (hP : P st)
    (hrun : runRows rt params s G clauses st envs = .ok st') : P st' := by
  refine foldlM_preserves (fun st env st' hP hstep => ?_) hrun hP
  obtain ⟨r, hloop, hstep⟩ := bind_eq_ok.mp hstep
  obtain rfl := pure_eq_ok.mp hstep
  exact foldlM_preserves (P := fun st : State × Env F => P st.1)
    (fun _ _ _ hP hstep => h.runClause hP hstep) hloop hP

/-- A write query keeps what its storage calls keep. -/
theorem Kept.runWrite (h : Kept s P) {store : Store} {clauses : List Clause}
    (hP : P (State.start store)) (hrun : runWrite rt params s G store clauses = .ok st') :
    P st' := by
  unfold RowWrites.runWrite at hrun
  split at hrun
  · obtain ⟨schema, -, hrun⟩ := bind_eq_ok.mp hrun
    obtain rfl := pure_eq_ok.mp hrun
    exact h.schema _ schema hP
  · cases hrun
  · obtain ⟨envs, -, hrun⟩ := bind_eq_ok.mp hrun
    dsimp only at hrun
    split at hrun
    · exact h.runRows (h.schema _ _ hP) hrun
    · exact h.runRows hP hrun

end Loop

/-- Whether the registry a node deletion finds has the node. -/
def Present (d : Int × List NodeRow) : Prop := d.1 ∈ d.2.map (·.id)

instance : DecidablePred Present := fun d => inferInstanceAs (Decidable (d.1 ∈ d.2.map (·.id)))

/-- How the counters stand to the rows: they differ by the node deletions that
found no node. -/
structure Tally (st : State) : Prop where
  nodes : (st.store.ogNode.map (·.id)).Nodup
  edges : (st.store.ogEdge.map (·.id)).Nodup
  nodesCreated : st.counters.nodesCreated = st.rows.nodesCreated
  relationshipsCreated : st.counters.relationshipsCreated = st.rows.relationshipsCreated
  relationshipsDeleted : st.counters.relationshipsDeleted = st.rows.relationshipsDeleted
  nodesDeleted : st.counters.nodesDeleted = st.deletions.length
  found : st.rows.nodesDeleted = st.deletions.countP fun d => Present d

section Storage

variable {s : Session} {st st' : State}

theorem insertNode_fresh {nodes nodes' : List NodeRow} {r : NodeRow}
    (h : insertNode nodes r = .ok nodes') : r.id ∉ nodes.map (·.id) := by
  unfold insertNode at h
  split_ifs at h with hdup
  intro hmem
  obtain ⟨q, hq, hid⟩ := List.mem_map.mp hmem
  exact hdup (List.any_eq_true.mpr ⟨q, hq, by simpa using hid⟩)

theorem createNodeInner_fresh {store store' : Store} {tid id : Int} {label : String} {props : Json}
    (h : createNodeInner s store tid label props = .ok (store', id)) :
    id ∉ store.ogNode.map (·.id) := by
  unfold createNodeInner at h
  obtain ⟨kind, -, h⟩ := bind_eq_ok.mp h
  obtain ⟨_, -, h⟩ := bind_eq_ok.mp h
  obtain ⟨table, -, h⟩ := bind_eq_ok.mp h
  obtain ⟨_, -, h⟩ := bind_eq_ok.mp h
  obtain ⟨⟨schema, plan⟩, -, h⟩ := bind_eq_ok.mp h
  obtain ⟨_, -, h⟩ := bind_eq_ok.mp h
  obtain ⟨⟨alloc, nid⟩, halloc, h⟩ := bind_eq_ok.mp h
  obtain ⟨nodes, hnodes, h⟩ := bind_eq_ok.mp h
  obtain ⟨schema, -, h⟩ := bind_eq_ok.mp h
  obtain ⟨-, rfl⟩ := Prod.mk.inj (pure_eq_ok.mp h)
  exact insertNode_fresh hnodes

theorem Tally.createNode (h : Tally st) {tid id : Int} {label : String} {props : Json}
    (hrun : createNode s st tid label props = .ok (st', id)) : Tally st' := by
  obtain ⟨⟨store, nid⟩, hinner, hrun⟩ := bind_eq_ok.mp hrun
  obtain ⟨rfl, rfl⟩ := Prod.mk.inj (pure_eq_ok.mp hrun)
  obtain ⟨hedge, -, -, hnode⟩ := createNodeInner_eq_ok hinner
  have hfresh := createNodeInner_fresh hinner
  refine ⟨?_, ?_, ?_, ?_, ?_, ?_, ?_⟩
  · simpa [hnode] using List.nodup_append.mpr
      ⟨h.nodes, List.nodup_singleton nid, fun a ha b hb => by
        rw [List.mem_singleton.mp hb]
        exact ne_of_mem_of_not_mem ha hfresh⟩
  · simpa [hedge] using h.edges
  · simp [observe, Counters.nodeCreated, hnode, h.nodesCreated]
  · simp [observe, Counters.nodeCreated, hedge, h.relationshipsCreated]
  · simp [observe, Counters.nodeCreated, hedge, h.relationshipsDeleted]
  · exact h.nodesDeleted
  · simp [observe, hnode, h.found]

theorem Tally.createEdge (h : Tally st) {tid src dst id : Int} {relType : String} {props : Json}
    (hrun : createEdge s st tid relType src dst props = .ok (st', id)) : Tally st' := by
  obtain ⟨⟨store, eid⟩, hinner, hrun⟩ := bind_eq_ok.mp hrun
  obtain ⟨rfl, rfl⟩ := Prod.mk.inj (pure_eq_ok.mp hrun)
  obtain ⟨-, hfresh, hedge, hnode, -⟩ := createEdgeInner_eq_ok hinner
  refine ⟨?_, ?_, ?_, ?_, ?_, ?_, ?_⟩
  · simpa [hnode] using h.nodes
  · simpa [hedge] using List.nodup_append.mpr
      ⟨h.edges, List.nodup_singleton eid, fun a ha b hb => by
        rw [List.mem_singleton.mp hb]
        exact ne_of_mem_of_not_mem ha hfresh⟩
  · simp [observe, Counters.relationshipCreated, hnode, h.nodesCreated]
  · simp [observe, Counters.relationshipCreated, hedge, h.relationshipsCreated]
  · simp [observe, Counters.relationshipCreated, hedge, h.relationshipsDeleted]
  · exact h.nodesDeleted
  · simp [observe, hnode, h.found]

theorem Tally.deleteEdge (h : Tally st) {eid n : Int}
    (hrun : deleteEdge s st eid = .ok (st', n)) : Tally st' := by
  obtain ⟨⟨store, k⟩, hinner, hrun⟩ := bind_eq_ok.mp hrun
  obtain ⟨rfl, rfl⟩ := Prod.mk.inj (pure_eq_ok.mp hrun)
  unfold deleteEdgeInner at hinner
  dsimp only at hinner
  split at hinner
  · obtain ⟨rfl, rfl⟩ := Prod.mk.inj (Except.ok.inj hinner)
    refine ⟨h.nodes, h.edges, ?_, ?_, ?_, h.nodesDeleted, ?_⟩
    · simp [observe, h.nodesCreated]
    · simp [observe, h.relationshipsCreated]
    · simp [observe, h.relationshipsDeleted]
    · simp [observe, h.found]
  · next e hfind =>
    obtain ⟨_, -, hinner⟩ := bind_eq_ok.mp hinner
    obtain ⟨rfl, rfl⟩ := Prod.mk.inj (pure_eq_ok.mp hinner)
    have hid : e.id = eid := by simpa using List.find?_some hfind
    subst hid
    have hlen := length_filter_key EdgeRow.id h.edges e.id
    rw [if_pos (List.mem_map_of_mem (List.mem_of_find?_eq_some hfind))] at hlen
    refine ⟨h.nodes, h.edges.sublist (List.filter_sublist.map _), ?_, ?_, ?_, h.nodesDeleted, ?_⟩
    · simpa [observe, Counters.relationshipDeleted] using h.nodesCreated
    · simp only [observe, Counters.relationshipDeleted, if_neg one_ne_zero]
      rw [h.relationshipsCreated]
      omega
    · simp only [observe, Counters.relationshipDeleted, if_neg one_ne_zero]
      rw [h.relationshipsDeleted]
      omega
    · simp [observe, h.found]

theorem Tally.deleteNode (h : Tally st) {id n : Int}
    (hrun : deleteNode s st id = .ok (st', n)) : Tally st' := by
  obtain ⟨_, -, hrun⟩ := bind_eq_ok.mp hrun
  obtain ⟨_, -, hrun⟩ := bind_eq_ok.mp hrun
  obtain ⟨⟨mid, removed⟩, hedges, hrun⟩ := bind_eq_ok.mp hrun
  obtain ⟨rfl, -⟩ := Prod.mk.inj (pure_eq_ok.mp hrun)
  have hmid : Tally mid := by
    refine foldlM_preserves (P := fun st : State × Int => Tally st.1) ?_ hedges h
    intro st eid st' h hstep
    obtain ⟨⟨mid, k⟩, hedge, hstep⟩ := bind_eq_ok.mp hstep
    obtain rfl := pure_eq_ok.mp hstep
    exact h.deleteEdge hedge
  have hlen : (mid.store.ogNode.filter fun r => r.id ≠ id).length +
      (if id ∈ mid.store.ogNode.map (·.id) then 1 else 0) = mid.store.ogNode.length :=
    length_filter_key NodeRow.id hmid.nodes id
  refine ⟨hmid.nodes.sublist (List.filter_sublist.map _), hmid.edges, ?_, ?_, ?_, ?_, ?_⟩
  · simp only [observe, Counters.nodeDeleted, dropNode]
    rw [hmid.nodesCreated]
    omega
  · simp [observe, Counters.nodeDeleted, dropNode, hmid.relationshipsCreated]
  · simp [observe, Counters.nodeDeleted, dropNode, hmid.relationshipsDeleted]
  · simp [Counters.nodeDeleted, hmid.nodesDeleted]
  · simp only [observe, dropNode, List.countP_append, hmid.found]
    by_cases hid : id ∈ mid.store.ogNode.map (·.id)
    · have hone : Present (id, mid.store.ogNode) := hid
      rw [if_pos hid] at hlen
      simp only [List.countP_singleton, hone, decide_true, if_true]
      omega
    · have hone : ¬ Present (id, mid.store.ogNode) := hid
      rw [if_neg hid] at hlen
      simp only [List.countP_singleton, hone, decide_false, Bool.false_eq_true, if_false]
      omega

theorem kept_tally : Kept s Tally where
  schema _ _ h := ⟨h.1, h.2, h.3, h.4, h.5, h.6, h.7⟩
  createNode _ _ _ _ _ _ h hrun := h.createNode hrun
  createEdge _ _ _ _ _ _ _ _ h hrun := h.createEdge hrun
  deleteEdge _ _ _ _ h hrun := h.deleteEdge hrun
  deleteNode _ _ _ _ h hrun := h.deleteNode hrun

end Storage

theorem Tally.truthful_iff {st : State} (h : Tally st) :
    st.counters = st.rows ↔ ∀ d ∈ st.deletions, Present d := by
  have hcount : st.counters = st.rows ↔ st.counters.nodesDeleted = st.rows.nodesDeleted := by
    refine ⟨fun heq => heq ▸ rfl, fun heq => ?_⟩
    calc
      st.counters = ⟨st.counters.1, st.counters.2, st.counters.3, st.counters.4⟩ := rfl
      _ = st.rows := by
        rw [h.nodesCreated, heq, h.relationshipsCreated, h.relationshipsDeleted]
  rw [hcount, h.nodesDeleted, h.found, Int.natCast_inj, eq_comm, List.countP_eq_length]
  simp

/-- The counters of a write query are the rows it inserted and removed exactly
when each node it deletes is still registered when its turn comes. -/
theorem counters_eq_rows_iff {F : Type} {rt : Runtime F} {params : Value F} {s : Session}
    {G : Engine F} {store : Store} {clauses : List Clause} {st' : State}
    (hnodes : (store.ogNode.map (·.id)).Nodup) (hedges : (store.ogEdge.map (·.id)).Nodup)
    (hrun : runWrite rt params s G store clauses = .ok st') :
    st'.counters = st'.rows ↔ ∀ d ∈ st'.deletions, d.1 ∈ d.2.map (·.id) := by
  have hstart : Tally (State.start store) := ⟨hnodes, hedges, rfl, rfl, rfl, rfl, rfl⟩
  exact (kept_tally.runWrite hstart hrun).truthful_iff

section Hop

def nodeObject (id : Int) : Value Rat := .object [("_id", .number (.int id))]

def edgeObject (e : EdgeRow) : Value Rat :=
  .object [("_id", .number (.int e.id)), ("_src", .number (.int e.src)),
    ("_dst", .number (.int e.dst))]

/-- The rows of `MATCH (a)-[r]->(b)`: one for each relationship. -/
def hopRow (e : EdgeRow) : Env Rat
  | "a" => some (nodeObject e.src)
  | "r" => some (edgeObject e)
  | "b" => some (nodeObject e.dst)
  | _ => none

/-- An engine whose prefix is one hop. -/
def hopEngine : Engine Rat where
  encode _ := .obj []
  resolve schema _ kind := .ok (schema, if kind = .entity then 1 else 2)
  nodeJson _ id := nodeObject id
  edgeJson store id := ((store.ogEdge.find? fun e => e.id = id).map edgeObject).getD .null
  find _ _ _ := none
  setProps schema _ _ := .ok schema
  carries _ _ _ := false
  bind store _ := .ok (store.ogEdge.map hopRow)
  rename _ _ := none
  ddl schema _ := .ok schema

/-- Two nodes with one relationship between them, and another beside it. -/
def twinStore : Store :=
  ⟨⟨pairCatalog, []⟩, [(1, 3), (2, 3)],
    [⟨68719476737, 1⟩, ⟨68719476738, 1⟩],
    [⟨137438953473, 2, 68719476737, 68719476738⟩, ⟨137438953474, 2, 68719476737, 68719476738⟩],
    [⟨68719476737, 2, .o, 0, 2, [68719476738, 68719476738], [137438953473, 137438953474]⟩,
      ⟨68719476738, 2, .i, 0, 2, [68719476737, 68719476737], [137438953473, 137438953474]⟩], []⟩

def hopMatch : Clause :=
  .match_ [⟨none, [.node ⟨some "a", [], []⟩, .rel ⟨some "r", [], .out, [], none⟩,
    .node ⟨some "b", [], []⟩]⟩] false none

/-- `DETACH DELETE a` after the hop: both rows name the node, which is deleted
once and counted twice. -/
theorem twin_delete_counts_twice :
    (twinStore.ogNode.map (·.id)).Nodup ∧ (twinStore.ogEdge.map (·.id)).Nodup ∧
      ∃ st', runWrite exactRuntime .null ownerSession hopEngine twinStore
          [hopMatch, .delete [.var "a"] true] = .ok st' ∧
        st'.counters = ⟨0, 2, 0, 2⟩ ∧ st'.rows = ⟨0, 1, 0, 2⟩ := by
  refine ⟨by decide, by decide, _, rfl, ?_, ?_⟩
  · decide
  · decide

/-- The same nodes with one relationship. -/
def hopStore : Store :=
  { twinStore with
    ogEdge := [⟨137438953473, 2, 68719476737, 68719476738⟩]
    ogAdj := [⟨68719476737, 2, .o, 0, 1, [68719476738], [137438953473]⟩,
      ⟨68719476738, 2, .i, 0, 1, [68719476737], [137438953473]⟩] }

theorem counters_eq_rows_iff_hop :
    ∃ st', runWrite exactRuntime .null ownerSession hopEngine hopStore
        [hopMatch, .delete [.var "r", .var "a"] false] = .ok st' ∧
      (st'.counters = st'.rows ↔ ∀ d ∈ st'.deletions, d.1 ∈ d.2.map (·.id)) := by
  have hrun : ∃ st', runWrite exactRuntime .null ownerSession hopEngine hopStore
      [hopMatch, .delete [.var "r", .var "a"] false] = .ok st' := ⟨_, rfl⟩
  obtain ⟨st', hrun⟩ := hrun
  exact ⟨st', hrun, counters_eq_rows_iff (by decide) (by decide) hrun⟩

end Hop

end OntologicalDb.WriteCounters
