import Mathlib.Algebra.Order.BigOperators.Group.List
import OntologicalDb.InstanceDeletes
import OntologicalDb.WriteCounters

/-!
`DELETE` over the binding rows of a query: which entities go, when the clause
refuses, and whether either depends on the order of the rows.
-/

namespace OntologicalDb.DeleteOrder

open OntologicalDb.Adjacency
open OntologicalDb.CypherSyntax
open OntologicalDb.ExceptRules
open OntologicalDb.GraphStorage
open OntologicalDb.Ids
open OntologicalDb.InstanceDeletes (edgeK mixedStore mixedStore_reached nodeA nodeB)
open OntologicalDb.IntegerArithmetic (exactRuntime)
open OntologicalDb.RowEvaluator
open OntologicalDb.RowWrites
open OntologicalDb.StoreCoherence
open OntologicalDb.TypeCatalog
open OntologicalDb.TypedTables
open OntologicalDb.Values
open OntologicalDb.WriteCounters (edgeObject hopEngine hopRow nodeObject)

section Refusals

variable (s : Session)

/-- The caller may delete from the table of a type. -/
def Deletable (st : Store) (tid : Int) : Prop := checkDelete s st tid = .ok ()

/-- The refusals of a deletion that do not look at the relationships of a node: a
virtual type and a missing privilege. -/
def Allowed (st : Store) : Entity → Prop
  | .edge id => id ∈ st.ogEdge.map (·.id) → Deletable s st (idType id)
  | .node id =>
      virtualSource st.schema.catalog (idType id) = none ∧ Deletable s st (idType id) ∧
        ∀ eid ∈ incident st.ogAdj id, Deletable s st (idType eid)

/-- The deletion of one entity, without the counters. -/
def removeEntity (detach : Bool) (st : Store) : Entity → Except String Store
  | .edge id => (deleteEdgeInner s st id).map (·.1)
  | .node id =>
      if detach = false ∧ 0 < degree st id then
        .error (s!"cannot delete node {id}: it still has {degree st id} relationship(s). " ++
          "use DETACH DELETE")
      else (deleteNodeInner s st id).map (·.1)

variable {s} {st st' : Store}

theorem deletable_congr (h : st'.schema.catalog = st.schema.catalog) (tid : Int) :
    Deletable s st' tid ↔ Deletable s st tid := by
  unfold Deletable checkDelete
  rw [h]

theorem refuseVirtualWrite_eq_ok {c : Catalog} {tid : Int} :
    refuseVirtualWrite c tid = .ok () ↔ virtualSource c tid = none := by
  unfold refuseVirtualWrite
  cases virtualSource c tid with
  | none => simp
  | some source => simp

end Refusals

section Removal

variable {s : Session} {st st' st₁ : Store}

/-- The edges that go with an entity. -/
def cut (st : Store) : Entity → Set Int
  | .edge id => {e | e = id ∧ e ∈ st.ogEdge.map (·.id)}
  | .node id => {e | e ∈ incident st.ogAdj id}

/-- What is left of a graph when some nodes and edges are gone. -/
structure Gone (N E : Set Int) (st st' : Store) : Prop where
  coherent : Coherent st'
  catalog : st'.schema.catalog = st.schema.catalog
  node : ∀ n, n ∈ st'.ogNode ↔ n ∈ st.ogNode ∧ n.id ∉ N
  edge : ∀ e, e ∈ st'.ogEdge ↔ e ∈ st.ogEdge ∧ e.id ∉ E
  entry : ∀ x, x ∈ entries st'.ogAdj ↔ x ∈ entries st.ogAdj ∧ x.eid ∉ E
  role : ∀ p, p ∈ st'.ogRolePlayer ↔ p ∈ st.ogRolePlayer ∧ p.edgeId ∉ E
  row : ∀ table r, r ∈ rowsOf st'.schema table ↔ r ∈ rowsOf st.schema table ∧
    ¬ ((r.id ∈ N ∨ r.id ∈ E) ∧ storageTable st.schema.catalog (idType r.id) = some table)

theorem Gone.refl (h : Coherent st) : Gone ∅ ∅ st st := by
  refine ⟨h, rfl, ?_, ?_, ?_, ?_, ?_⟩ <;> simp

theorem Gone.trans {N E N' E' : Set Int} (h : Gone N E st st₁) (h' : Gone N' E' st₁ st') :
    Gone (N ∪ N') (E ∪ E') st st' where
  coherent := h'.coherent
  catalog := h'.catalog.trans h.catalog
  node n := by
    rw [h'.node, h.node]
    simp only [Set.mem_union, not_or, and_assoc]
  edge e := by
    rw [h'.edge, h.edge]
    simp only [Set.mem_union, not_or, and_assoc]
  entry x := by
    rw [h'.entry, h.entry]
    simp only [Set.mem_union, not_or, and_assoc]
  role p := by
    rw [h'.role, h.role]
    simp only [Set.mem_union, not_or, and_assoc]
  row table r := by
    rw [h'.row, h.row, h.catalog]
    simp only [Set.mem_union]
    tauto

theorem Gone.edge_ids {N E : Set Int} (h : Gone N E st st') {x : Int} :
    x ∈ st'.ogEdge.map (·.id) ↔ x ∈ st.ogEdge.map (·.id) ∧ x ∉ E := by
  simp only [List.mem_map, h.edge]
  constructor
  · rintro ⟨e, ⟨he, hne⟩, rfl⟩
    exact ⟨⟨e, he, rfl⟩, hne⟩
  · rintro ⟨⟨e, he, rfl⟩, hne⟩
    exact ⟨e, ⟨he, hne⟩, rfl⟩

theorem Gone.mem_incident {N E : Set Int} (h : Gone N E st st') (hst : Coherent st) {v x : Int} :
    x ∈ incident st'.ogAdj v ↔ x ∈ incident st.ogAdj v ∧ x ∉ E := by
  rw [h.coherent.mem_incident, hst.mem_incident]
  constructor
  · rintro ⟨y, hy, rfl, rfl⟩
    obtain ⟨hy, hne⟩ := (h.entry y).mp hy
    exact ⟨⟨y, hy, rfl, rfl⟩, hne⟩
  · rintro ⟨⟨y, hy, rfl, rfl⟩, hne⟩
    exact ⟨y, (h.entry y).mpr ⟨hy, hne⟩, rfl, rfl⟩

theorem Gone.mem_cut {N E : Set Int} (h : Gone N E st st') (hst : Coherent st) {y : Entity}
    {x : Int} : x ∈ cut st' y ↔ x ∈ cut st y ∧ x ∉ E := by
  cases y with
  | edge id =>
      simp only [cut, Set.mem_ofPred_eq, h.edge_ids, and_assoc]
  | node id => exact h.mem_incident hst

theorem registered_of_incident (h : Coherent st) {v x : Int} (hx : x ∈ incident st.ogAdj v) :
    x ∈ st.ogEdge.map (·.id) := by
  obtain ⟨y, hy, -, rfl⟩ := h.mem_incident.mp hx
  obtain ⟨e, he, hmem⟩ := AdjacencyMirror.mem_registryEntries.mp (h.registered y hy)
  rw [AdjacencyMirror.eid_of_mem_edgeEntries hmem]
  exact List.mem_map_of_mem he

theorem mem_rowsOf_deleteRow {tid id : Int} {table : StorageTable} {r : TypedRow} :
    r ∈ rowsOf (deleteRow st tid id) table ↔ r ∈ rowsOf st.schema table ∧
      ¬ (r.id = id ∧ storageTable st.schema.catalog tid = some table) := by
  unfold deleteRow
  cases hst : storageTable st.schema.catalog tid with
  | none => simp
  | some t =>
      simp only [rowsOf, deleteTyped, List.mem_map, List.mem_filter, decide_eq_true_eq,
        Option.some.injEq]
      constructor
      · rintro ⟨a, ⟨⟨ha, hkeep⟩, rfl⟩, rfl⟩
        exact ⟨⟨a, ⟨ha, rfl⟩, rfl⟩, fun hgone => hkeep ⟨hgone.2.symm, hgone.1⟩⟩
      · rintro ⟨⟨a, ⟨ha, rfl⟩, rfl⟩, hkeep⟩
        exact ⟨a, ⟨⟨ha, fun hgone => hkeep ⟨hgone.2, hgone.1.symm⟩⟩, rfl⟩, rfl⟩

theorem deleteEdgeInner_schema {eid n : Int} (hrun : deleteEdgeInner s st eid = .ok (st', n)) :
    st' = st ∨ st'.schema = deleteRow st (idType eid) eid := by
  unfold deleteEdgeInner at hrun
  dsimp only at hrun
  split at hrun
  · obtain ⟨rfl, -⟩ := Prod.mk.inj (Except.ok.inj hrun)
    exact .inl rfl
  · obtain ⟨_, -, hrun⟩ := bind_eq_ok.mp hrun
    obtain ⟨rfl, -⟩ := Prod.mk.inj (pure_eq_ok.mp hrun)
    exact .inr rfl

theorem deleteEdgeInner_gone {eid n : Int} (h : Coherent st)
    (hrun : deleteEdgeInner s st eid = .ok (st', n)) : Gone ∅ (cut st (.edge eid)) st st' := by
  rcases deleteEdgeInner_eq_ok h hrun with ⟨hnone, rfl⟩ | ⟨hreg, hcut⟩
  · have hempty : cut st' (.edge eid) = ∅ := by
      ext x
      simp only [cut, Set.mem_ofPred_eq, Set.mem_empty_iff_false, iff_false, not_and]
      rintro rfl
      exact hnone
    rw [hempty]
    exact .refl h
  · have hsingle : cut st (.edge eid) = {eid} := by
      ext x
      simp only [cut, Set.mem_ofPred_eq, Set.mem_singleton_iff, and_iff_left_iff_imp]
      rintro rfl
      exact hreg
    have hschema : st'.schema = deleteRow st (idType eid) eid := by
      refine (deleteEdgeInner_schema hrun).resolve_left fun heq => ?_
      obtain ⟨e, he, hid⟩ := List.mem_map.mp hreg
      exact ((hcut.edge e).mp (heq ▸ he)).2 (List.mem_singleton.mpr hid)
    rw [hsingle]
    refine ⟨hcut.coherent, hcut.catalog, ?_, ?_, ?_, ?_, fun table r => ?_⟩
    · simp [hcut.nodes]
    · simpa using hcut.edge
    · simpa using hcut.entry
    · simpa using hcut.role
    · rw [hschema, mem_rowsOf_deleteRow]
      refine and_congr_right fun _ => not_congr ?_
      simp only [Set.mem_empty_iff_false, false_or, Set.mem_singleton_iff]
      exact and_congr_right fun hid => by rw [hid]

/-- The loop over the edges of a node. -/
theorem deleteEdges_gone {ids : List Int} {k n : Int} (h : Coherent st)
    (hrun : ids.foldlM (fun (acc : Store × Int) eid => do
      let (st, n) ← deleteEdgeInner s acc.1 eid
      return (st, acc.2 + n)) (st, k) = .ok (st', n)) :
    Gone ∅ {e | e ∈ ids ∧ e ∈ st.ogEdge.map (·.id)} st st' := by
  induction ids generalizing st k with
  | nil =>
      obtain ⟨rfl, -⟩ := Prod.mk.inj (pure_eq_ok.mp hrun)
      simpa using Gone.refl h
  | cons eid ids ih =>
      obtain ⟨⟨mid, m⟩, hmid, hrest⟩ := foldlM_cons_eq_ok.mp hrun
      obtain ⟨⟨mid', m'⟩, hdelete, hmid⟩ := bind_eq_ok.mp hmid
      obtain ⟨rfl, -⟩ := Prod.mk.inj (pure_eq_ok.mp hmid)
      have hone := deleteEdgeInner_gone h hdelete
      have hall := hone.trans (ih hone.coherent hrest)
      have hset : cut st (.edge eid) ∪ {e | e ∈ ids ∧ e ∈ mid'.ogEdge.map (·.id)} =
          {e | e ∈ eid :: ids ∧ e ∈ st.ogEdge.map (·.id)} := by
        ext x
        simp only [Set.mem_union, Set.mem_ofPred_eq, hone.edge_ids, cut, List.mem_cons]
        tauto
      rwa [Set.union_empty, hset] at hall

theorem deleteNodeInner_gone {id n : Int} (h : Coherent st)
    (hrun : deleteNodeInner s st id = .ok (st', n)) : Gone {id} (cut st (.node id)) st st' := by
  unfold deleteNodeInner at hrun
  obtain ⟨_, -, hrun⟩ := bind_eq_ok.mp hrun
  obtain ⟨_, -, hrun⟩ := bind_eq_ok.mp hrun
  obtain ⟨⟨mid, m⟩, hloop, hrun⟩ := bind_eq_ok.mp hrun
  obtain ⟨rfl, -⟩ := Prod.mk.inj (pure_eq_ok.mp hrun)
  have hedges := deleteEdges_gone h hloop
  have hset : {e | e ∈ incident st.ogAdj id ∧ e ∈ st.ogEdge.map (·.id)} = cut st (.node id) := by
    ext x
    exact and_iff_left_of_imp (registered_of_incident h)
  rw [hset] at hedges
  obtain ⟨hcoherent, hentry⟩ := hedges.coherent.removeNode { mid with
    schema := deleteRow mid (idType id) id
    ogNode := mid.ogNode.filter fun r => r.id ≠ id
    ogAdj := mid.ogAdj.filter fun a => a.src ≠ id } id rfl rfl rfl rfl
  have hlast : Gone {id} ∅ mid { mid with
      schema := deleteRow mid (idType id) id
      ogNode := mid.ogNode.filter fun r => r.id ≠ id
      ogAdj := mid.ogAdj.filter fun a => a.src ≠ id } := by
    refine ⟨hcoherent, deleteRow_catalog .., fun n => ?_, fun e => ?_, fun x => ?_, fun p => ?_,
      fun table r => ?_⟩
    · simp [List.mem_filter]
    · simp
    · rw [hentry]
      -- an entry at the node would belong to an edge the loop has removed
      refine and_congr_right fun hx => ?_
      simp only [Set.mem_empty_iff_false, not_false_eq_true, iff_true]
      intro hsrc
      obtain ⟨hold, hne⟩ := (hedges.entry x).mp hx
      exact hne (h.mem_incident.mpr ⟨x, hold, hsrc, rfl⟩)
    · simp
    · rw [mem_rowsOf_deleteRow]
      refine and_congr_right fun _ => not_congr ?_
      simp only [Set.mem_empty_iff_false, or_false, Set.mem_singleton_iff]
      exact and_congr_right fun hid => by rw [hid]
  have hall := hedges.trans hlast
  rwa [Set.empty_union, Set.union_empty] at hall

theorem removeEntity_gone {detach : Bool} {x : Entity} (h : Coherent st)
    (hrun : removeEntity s detach st x = .ok st') :
    Gone {v | x = .node v} (cut st x) st st' := by
  cases x with
  | edge id =>
      obtain ⟨⟨mid, n⟩, hdelete, rfl⟩ := map_eq_ok.mp hrun
      simpa using deleteEdgeInner_gone h hdelete
  | node id =>
      dsimp only [removeEntity] at hrun
      split_ifs at hrun
      obtain ⟨⟨mid, n⟩, hdelete, rfl⟩ := map_eq_ok.mp hrun
      have hset : {v | Entity.node id = .node v} = ({id} : Set Int) := by
        ext v
        simp [eq_comm]
      rw [hset]
      exact deleteNodeInner_gone h hdelete

end Removal

section Success

variable {s : Session} {st st' : Store} {detach : Bool}

theorem deleteEdgeInner_isOk {eid : Int} :
    (∃ r, deleteEdgeInner s st eid = .ok r) ↔ Allowed s st (.edge eid) := by
  constructor
  · rintro ⟨r, hrun⟩ hreg
    unfold deleteEdgeInner at hrun
    dsimp only at hrun
    split at hrun
    · next hfind =>
      obtain ⟨e, he, hid⟩ := List.mem_map.mp hreg
      exact absurd hid (by simpa using List.find?_eq_none.mp hfind e he)
    · obtain ⟨u, hcheck, -⟩ := bind_eq_ok.mp hrun
      exact hcheck
  · intro h
    unfold deleteEdgeInner
    dsimp only
    split
    · exact ⟨_, rfl⟩
    · next e hfind =>
      have hid : e.id = eid := by simpa using List.find?_some hfind
      have hcheck : checkDelete s st (idType eid) = .ok () :=
        h (List.mem_map.mpr ⟨e, List.mem_of_find?_eq_some hfind, hid⟩)
      exact ⟨_, bind_eq_ok.mpr ⟨(), hcheck, rfl⟩⟩

theorem deleteEdges_isOk {ids : List Int} {k : Int} (h : Coherent st) :
    (∃ r, ids.foldlM (fun (acc : Store × Int) eid => do
      let (st, n) ← deleteEdgeInner s acc.1 eid
      return (st, acc.2 + n)) (st, k) = .ok r) ↔ ∀ e ∈ ids, Allowed s st (.edge e) := by
  induction ids generalizing st k with
  | nil => exact ⟨fun _ e he => absurd he List.not_mem_nil, fun _ => ⟨_, rfl⟩⟩
  | cons eid ids ih =>
      constructor
      · rintro ⟨r, hrun⟩ e he hreg
        obtain ⟨⟨mid, m⟩, hstep, hrest⟩ := foldlM_cons_eq_ok.mp hrun
        obtain ⟨⟨mid', m'⟩, hdelete, hstep⟩ := bind_eq_ok.mp hstep
        obtain ⟨rfl, -⟩ := Prod.mk.inj (pure_eq_ok.mp hstep)
        have hgone := deleteEdgeInner_gone h hdelete
        have hhead := deleteEdgeInner_isOk.mp ⟨_, hdelete⟩
        have htail := (ih hgone.coherent).mp ⟨r, hrest⟩
        by_cases heq : e = eid
        · exact heq ▸ hhead (heq ▸ hreg)
        · refine (deletable_congr hgone.catalog _).mp (htail e ?_ ?_)
          · exact (List.mem_cons.mp he).resolve_left heq
          · exact hgone.edge_ids.mpr ⟨hreg, fun hcut => heq hcut.1⟩
      · intro hall
        obtain ⟨⟨mid, m⟩, hdelete⟩ := deleteEdgeInner_isOk.mpr (hall eid List.mem_cons_self)
        have hgone := deleteEdgeInner_gone h hdelete
        have htail : ∀ e ∈ ids, Allowed s mid (.edge e) := fun e he hreg =>
          (deletable_congr hgone.catalog _).mpr
            (hall e (List.mem_cons_of_mem _ he) (hgone.edge_ids.mp hreg).1)
        obtain ⟨r, hrest⟩ := (ih hgone.coherent).mpr htail
        exact ⟨r, foldlM_cons_eq_ok.mpr ⟨_, bind_eq_ok.mpr ⟨_, hdelete, rfl⟩, hrest⟩⟩

theorem deleteNodeInner_isOk {id : Int} (h : Coherent st) :
    (∃ r, deleteNodeInner s st id = .ok r) ↔ Allowed s st (.node id) := by
  constructor
  · rintro ⟨r, hrun⟩
    unfold deleteNodeInner at hrun
    obtain ⟨_, hvirtual, hrun⟩ := bind_eq_ok.mp hrun
    obtain ⟨_, hcheck, hrun⟩ := bind_eq_ok.mp hrun
    obtain ⟨r, hloop, -⟩ := bind_eq_ok.mp hrun
    refine ⟨refuseVirtualWrite_eq_ok.mp hvirtual, hcheck, fun e he => ?_⟩
    exact (deleteEdges_isOk h).mp ⟨r, hloop⟩ e he (registered_of_incident h he)
  · rintro ⟨hvirtual, hcheck, hedges⟩
    obtain ⟨r, hloop⟩ := (deleteEdges_isOk (s := s) (k := 0) h).mpr fun e he _ => hedges e he
    exact ⟨_, bind_eq_ok.mpr ⟨(), refuseVirtualWrite_eq_ok.mpr hvirtual,
      bind_eq_ok.mpr ⟨(), hcheck, bind_eq_ok.mpr ⟨r, hloop, rfl⟩⟩⟩⟩

/-- The counter of the segments is positive exactly where some edge is mentioned. -/
theorem degree_pos_iff (h : Sound st.ogAdj) {id : Int} :
    0 < degree st id ↔ incident st.ogAdj id ≠ [] := by
  have hpos : ∀ a ∈ st.ogAdj.filter fun a => a.src = id, 0 < a.n := fun a ha =>
    Int.lt_of_lt_of_le one_pos (h.segment a (List.mem_filter.mp ha).1).pos
  unfold degree
  cases hsegs : st.ogAdj.filter fun a => a.src = id with
  | nil => simp [incident, hsegs]
  | cons a segs =>
      rw [hsegs] at hpos
      have hmem : a ∈ st.ogAdj.filter fun a => a.src = id := hsegs ▸ List.mem_cons_self
      have heid : a.eid ≠ [] := by
        have hlen := (h.segment a (List.mem_filter.mp hmem).1).eid_length
        have hn := hpos a List.mem_cons_self
        rintro hnil
        rw [hnil] at hlen
        simp only [List.length_nil] at hlen
        omega
      obtain ⟨x, hx⟩ := List.exists_mem_of_ne_nil _ heid
      refine iff_of_true ?_ (List.ne_nil_of_mem (a := x) (AdjacencyMirror.mem_incident.mpr
        ⟨a, (List.mem_filter.mp hmem).1, of_decide_eq_true (List.mem_filter.mp hmem).2, hx⟩))
      refine List.sum_pos _ (fun n hn => ?_) (List.cons_ne_nil _ _)
      obtain ⟨b, hb, rfl⟩ := List.mem_map.mp hn
      exact hpos b hb

theorem removeEntity_isOk {x : Entity} (h : Coherent st) :
    (∃ st', removeEntity s detach st x = .ok st') ↔
      Allowed s st x ∧ (detach = false → ∀ v, x = .node v → incident st.ogAdj v = []) := by
  cases x with
  | edge id =>
      constructor
      · rintro ⟨st', hrun⟩
        obtain ⟨r, hdelete, -⟩ := map_eq_ok.mp hrun
        exact ⟨deleteEdgeInner_isOk.mp ⟨r, hdelete⟩, fun _ v hv => by cases hv⟩
      · rintro ⟨hallowed, -⟩
        obtain ⟨r, hdelete⟩ := deleteEdgeInner_isOk.mpr hallowed
        exact ⟨r.1, map_eq_ok.mpr ⟨r, hdelete, rfl⟩⟩
  | node id =>
      dsimp only [removeEntity]
      constructor
      · rintro ⟨st', hrun⟩
        split_ifs at hrun with hrefuse
        obtain ⟨r, hdelete, -⟩ := map_eq_ok.mp hrun
        refine ⟨(deleteNodeInner_isOk h).mp ⟨r, hdelete⟩, fun hdetach v hv => ?_⟩
        obtain rfl := Entity.node.inj hv
        by_contra hne
        exact hrefuse ⟨hdetach, (degree_pos_iff h.sound).mpr hne⟩
      · rintro ⟨hallowed, hempty⟩
        obtain ⟨r, hdelete⟩ := (deleteNodeInner_isOk h).mpr hallowed
        rw [if_neg fun hrefuse =>
          (degree_pos_iff h.sound).mp hrefuse.2 (hempty hrefuse.1 id rfl)]
        exact ⟨r.1, map_eq_ok.mpr ⟨r, hdelete, rfl⟩⟩

end Success

section Runs

variable {s : Session} {st st' mid : Store} {detach : Bool} {N : Set Int} {x : Entity}
variable {items : List Entity}

theorem deletable_of_mem_cut (hx : Allowed s st x) {e : Int} (he : e ∈ cut st x) :
    Deletable s st (idType e) := by
  cases x with
  | edge id =>
      obtain ⟨rfl, hreg⟩ := he
      exact hx hreg
  | node id => exact hx.2.2 e he

/-- A deletion that went through refuses nothing it would not have refused before. -/
theorem allowed_iff_of_gone (h : Coherent st) (hgone : Gone N (cut st x) st mid)
    (hx : Allowed s st x) {y : Entity} : Allowed s mid y ↔ Allowed s st y := by
  have hcongr := fun e : Int => deletable_congr (s := s) hgone.catalog (idType e)
  cases y with
  | edge id =>
      constructor
      · intro hy hreg
        by_cases hcut : id ∈ cut st x
        · exact deletable_of_mem_cut hx hcut
        · exact (hcongr id).mp (hy (hgone.edge_ids.mpr ⟨hreg, hcut⟩))
      · intro hy hreg
        exact (hcongr id).mpr (hy (hgone.edge_ids.mp hreg).1)
  | node id =>
      dsimp only [Allowed]
      rw [hgone.catalog, hcongr id]
      refine and_congr_right fun _ => and_congr_right fun _ => ⟨fun hy e he => ?_, fun hy e he => ?_⟩
      · by_cases hcut : e ∈ cut st x
        · exact deletable_of_mem_cut hx hcut
        · exact (hcongr e).mp (hy e ((hgone.mem_incident h).mpr ⟨he, hcut⟩))
      · exact (hcongr e).mpr (hy e ((hgone.mem_incident h).mp he).1)

/-- Each node comes after all of its relationships. -/
def Ordered (st : Store) (items : List Entity) : Prop :=
  ∀ pre v post, items = pre ++ Entity.node v :: post → ∀ e ∈ incident st.ogAdj v, Entity.edge e ∈ pre

theorem Ordered.head {v : Int} (h : Ordered st (.node v :: items)) : incident st.ogAdj v = [] :=
  List.eq_nil_iff_forall_not_mem.mpr fun e he => List.not_mem_nil (h [] v items rfl e he)

theorem ordered_cons_iff (h : Coherent st) (hgone : Gone N (cut st x) st mid)
    (hx : ∀ v, x = .node v → incident st.ogAdj v = []) :
    Ordered st (x :: items) ↔ Ordered mid items := by
  constructor
  · rintro hord pre v post rfl e he
    obtain ⟨hold, hkept⟩ := (hgone.mem_incident h).mp he
    rcases List.mem_cons.mp (hord (x :: pre) v post rfl e hold) with rfl | hmem
    · exact absurd ⟨rfl, registered_of_incident h hold⟩ hkept
    · exact hmem
  · intro hord pre v post heq e he
    cases pre with
    | nil =>
        obtain ⟨rfl, rfl⟩ := List.cons.inj heq
        rw [hx v rfl] at he
        exact absurd he List.not_mem_nil
    | cons y pre =>
        obtain ⟨rfl, rfl⟩ := List.cons.inj heq
        by_cases hcut : e ∈ cut st x
        · cases x with
          | edge id => exact hcut.1 ▸ List.mem_cons_self
          | node w =>
              have hnone : e ∈ incident st.ogAdj w := hcut
              rw [hx w rfl] at hnone
              exact absurd hnone List.not_mem_nil
        · exact List.mem_cons_of_mem _ (hord pre v post rfl e
            ((hgone.mem_incident h).mpr ⟨he, hcut⟩))

/-- When a run of deletions goes through. -/
theorem removeAll_isOk (h : Coherent st) :
    (∃ st', items.foldlM (removeEntity s detach) st = .ok st') ↔
      (∀ x ∈ items, Allowed s st x) ∧ (detach = false → Ordered st items) := by
  induction items generalizing st with
  | nil =>
      refine iff_of_true ⟨st, rfl⟩ ⟨fun x hx => absurd hx List.not_mem_nil, fun _ => ?_⟩
      intro pre v post heq
      simp at heq
  | cons x items ih =>
      constructor
      · rintro ⟨st', hrun⟩
        obtain ⟨mid, hstep, hrest⟩ := foldlM_cons_eq_ok.mp hrun
        obtain ⟨hallowed, hempty⟩ := (removeEntity_isOk h).mp ⟨mid, hstep⟩
        have hgone := removeEntity_gone h hstep
        obtain ⟨htail, hord⟩ := (ih hgone.coherent).mp ⟨st', hrest⟩
        refine ⟨List.forall_mem_cons.mpr ⟨hallowed, fun y hy => ?_⟩, fun hdetach => ?_⟩
        · exact (allowed_iff_of_gone h hgone hallowed).mp (htail y hy)
        · exact (ordered_cons_iff h hgone (hempty hdetach)).mpr (hord hdetach)
      · rintro ⟨hall, hord⟩
        obtain ⟨hallowed, htail⟩ := List.forall_mem_cons.mp hall
        have hempty : detach = false → ∀ v, x = .node v → incident st.ogAdj v = [] := by
          rintro hdetach v rfl
          exact (hord hdetach).head
        obtain ⟨mid, hstep⟩ := (removeEntity_isOk h).mpr ⟨hallowed, hempty⟩
        have hgone := removeEntity_gone h hstep
        obtain ⟨st', hrest⟩ := (ih hgone.coherent).mpr
          ⟨fun y hy => (allowed_iff_of_gone h hgone hallowed).mpr (htail y hy),
            fun hdetach => (ordered_cons_iff h hgone (hempty hdetach)).mp (hord hdetach)⟩
        exact ⟨st', foldlM_cons_eq_ok.mpr ⟨mid, hstep, hrest⟩⟩

/-- What a run of deletions leaves depends on what it names, not on the order. -/
theorem removeAll_gone (h : Coherent st) (hrun : items.foldlM (removeEntity s detach) st = .ok st') :
    Gone {v | .node v ∈ items} {e | ∃ x ∈ items, e ∈ cut st x} st st' := by
  induction items generalizing st with
  | nil =>
      obtain rfl := pure_eq_ok.mp hrun
      simpa using Gone.refl h
  | cons x items ih =>
      obtain ⟨mid, hstep, hrest⟩ := foldlM_cons_eq_ok.mp hrun
      have hone := removeEntity_gone h hstep
      have hall := hone.trans (ih hone.coherent hrest)
      have hnodes : {v | x = .node v} ∪ {v | .node v ∈ items} =
          {v | Entity.node v ∈ x :: items} := by
        ext v
        simp [eq_comm]
      have hedges : cut st x ∪ {e | ∃ y ∈ items, e ∈ cut mid y} =
          {e | ∃ y ∈ x :: items, e ∈ cut st y} := by
        ext e
        simp only [Set.mem_union, Set.mem_ofPred_eq, List.exists_mem_cons_iff, hone.mem_cut h]
        constructor
        · rintro (he | ⟨y, hy, he, -⟩)
          · exact .inl he
          · exact .inr ⟨y, hy, he⟩
        · rintro (he | ⟨y, hy, he⟩)
          · exact .inl he
          · by_cases hcut : e ∈ cut st x
            · exact .inl hcut
            · exact .inr ⟨y, hy, he, hcut⟩
      rwa [hnodes, hedges] at hall

end Runs

/-- The same graph, whatever the layout of its segments. -/
structure SameGraph (st st' : Store) : Prop where
  catalog : st.schema.catalog = st'.schema.catalog
  node : ∀ n, n ∈ st.ogNode ↔ n ∈ st'.ogNode
  edge : ∀ e, e ∈ st.ogEdge ↔ e ∈ st'.ogEdge
  entry : ∀ x, x ∈ entries st.ogAdj ↔ x ∈ entries st'.ogAdj
  role : ∀ p, p ∈ st.ogRolePlayer ↔ p ∈ st'.ogRolePlayer
  row : ∀ table r, r ∈ rowsOf st.schema table ↔ r ∈ rowsOf st'.schema table

theorem Gone.sameGraph {N E : Set Int} {st a b : Store} (ha : Gone N E st a) (hb : Gone N E st b) :
    SameGraph a b where
  catalog := ha.catalog.trans hb.catalog.symm
  node n := (ha.node n).trans (hb.node n).symm
  edge e := (ha.edge e).trans (hb.edge e).symm
  entry x := (ha.entry x).trans (hb.entry x).symm
  role p := (ha.role p).trans (hb.role p).symm
  row table r := (ha.row table r).trans (hb.row table r).symm

section Rows

variable {F : Type} (rt : Runtime F) (params : Value F) (s : Session) (G : Engine F)

/-- What the expressions of a `DELETE` name for one row. -/
def named (exprs : List Expr) (env : Env F) : List Entity :=
  exprs.filterMap fun e => entityOf (evalOr rt params e env)

def namedByRows (exprs : List Expr) (envs : List (Env F)) : List Entity :=
  envs.flatMap (named rt params exprs)

variable {rt params s G} {st : State} {detach : Bool} {exprs : List Expr} {envs : List (Env F)}

theorem deleteEdge_store {eid : Int} :
    (deleteEdge s st eid).map (fun r => (r.1.store, r.2)) = deleteEdgeInner s st.store eid := by
  unfold deleteEdge
  cases deleteEdgeInner s st.store eid with
  | error e => rfl
  | ok r => rfl

theorem deleteEdges_store {ids : List Int} :
    (deleteEdges s ids (st, 0)).map (fun r => (r.1.store, r.2)) =
      ids.foldlM (fun (acc : Store × Int) eid => do
        let (st, n) ← deleteEdgeInner s acc.1 eid
        return (st, acc.2 + n)) (st.store, 0) := by
  refine map_foldlM (fun acc eid => ?_) ids (st, 0)
  rw [← deleteEdge_store]
  cases deleteEdge s acc.1 eid with
  | error e => rfl
  | ok r => rfl

theorem deleteNode_store {id : Int} :
    (deleteNode s st id).map (fun r => (r.1.store, r.2)) = deleteNodeInner s st.store id := by
  unfold deleteNode deleteNodeInner
  dsimp only
  rw [← deleteEdges_store]
  cases refuseVirtualWrite st.store.schema.catalog (idType id) with
  | error e => rfl
  | ok u =>
      cases checkDelete s st.store (idType id) with
      | error e => rfl
      | ok u =>
          cases deleteEdges s (incident st.store.ogAdj id) (st, 0) with
          | error e => rfl
          | ok r => rfl

theorem deleteEntity_store {x : Entity} :
    (deleteEntity s detach st x).map (·.store) = removeEntity s detach st.store x := by
  cases x with
  | edge id =>
      dsimp only [deleteEntity, removeEntity]
      rw [← deleteEdge_store]
      cases deleteEdge s st id with
      | error e => rfl
      | ok r => rfl
  | node id =>
      dsimp only [deleteEntity, removeEntity]
      split_ifs
      · rfl
      · rw [← deleteNode_store]
        cases deleteNode s st id with
        | error e => rfl
        | ok r => rfl

/-- The row loop of a `DELETE` is one run over all that its rows name. -/
theorem runRows_store :
    (runRows rt params s G [.delete exprs detach] st envs).map (·.store) =
      (namedByRows rt params exprs envs).foldlM (removeEntity s detach) st.store := by
  have hrow (st : State) (env : Env F) :
      (runRow rt params s G [.delete exprs detach] st env).map (·.store) =
        (named rt params exprs env).foldlM (removeEntity s detach) st.store := by
    have hone : runRow rt params s G [.delete exprs detach] st env =
        exprs.foldlM (deleteExpr rt params s detach env) st := by
      unfold runRow
      simp only [List.foldlM_cons, List.foldlM_nil, runClause]
      cases exprs.foldlM (deleteExpr rt params s detach env) st with
      | error e => rfl
      | ok r => rfl
    rw [hone, named, List.foldlM_filterMap]
    refine map_foldlM (fun st e => ?_) exprs st
    unfold deleteExpr
    cases entityOf (evalOr rt params e env) with
    | none => rfl
    | some x => exact deleteEntity_store
  unfold runRows namedByRows
  rw [foldlM_flatMap]
  exact map_foldlM hrow envs st

end Rows

section Order

variable {F : Type} (rt : Runtime F) (params : Value F) (s : Session) (G : Engine F)
variable (st : Store) (exprs : List Expr) (detach : Bool) (envs : List (Env F))

/-- After all the clause names is gone, a node it names without `DETACH` would
still have a relationship; or the caller may not delete what it names. -/
def Blocked : Prop :=
  (detach = false ∧ ∃ v, .node v ∈ namedByRows rt params exprs envs ∧
    ∃ e ∈ incident st.ogAdj v, .edge e ∉ namedByRows rt params exprs envs) ∨
  ∃ x ∈ namedByRows rt params exprs envs, ¬ Allowed s st x

/-- Any two orders of the binding rows fail together, when the clause is blocked,
or leave the same graph. -/
def OrderFree : Prop :=
  ∀ o o' : List (Env F), o.Perm envs → o'.Perm envs →
    (Blocked rt params s st exprs detach envs →
      (∃ e, runRows rt params s G [.delete exprs detach] (.start st) o = .error e) ∧
        ∃ e, runRows rt params s G [.delete exprs detach] (.start st) o' = .error e) ∧
    (¬ Blocked rt params s st exprs detach envs →
      ∃ a b, runRows rt params s G [.delete exprs detach] (.start st) o = .ok a ∧
        runRows rt params s G [.delete exprs detach] (.start st) o' = .ok b ∧
        SameGraph a.store b.store)

/-- Each row names a node only after all of its relationships. -/
def RowsOrdered : Prop := ∀ env ∈ envs, Ordered st (named rt params exprs env)

variable {rt params s G st exprs detach envs}

theorem runRows_start :
    (runRows rt params s G [.delete exprs detach] (.start st) envs).map (·.store) =
      (namedByRows rt params exprs envs).foldlM (removeEntity s detach) st := runRows_store

theorem runRows_isOk (h : Coherent st) :
    (∃ a, runRows rt params s G [.delete exprs detach] (.start st) envs = .ok a) ↔
      (∀ x ∈ namedByRows rt params exprs envs, Allowed s st x) ∧
        (detach = false → Ordered st (namedByRows rt params exprs envs)) := by
  rw [← removeAll_isOk h, ← @runRows_start F rt params s G]
  constructor
  · rintro ⟨a, hrun⟩
    exact ⟨a.store, map_eq_ok.mpr ⟨a, hrun, rfl⟩⟩
  · rintro ⟨st', hrun⟩
    obtain ⟨a, hrun, -⟩ := map_eq_ok.mp hrun
    exact ⟨a, hrun⟩

theorem runRows_gone {a : State} (h : Coherent st)
    (hrun : runRows rt params s G [.delete exprs detach] (.start st) envs = .ok a) :
    Gone {v | .node v ∈ namedByRows rt params exprs envs}
      {e | ∃ x ∈ namedByRows rt params exprs envs, e ∈ cut st x} st a.store := by
  have hstore := @runRows_start F rt params s G st exprs detach envs
  rw [hrun] at hstore
  exact removeAll_gone h hstore.symm

theorem mem_namedByRows_perm {o : List (Env F)} (ho : o.Perm envs) (x : Entity) :
    x ∈ namedByRows rt params exprs o ↔ x ∈ namedByRows rt params exprs envs :=
  (ho.flatMap_right _).mem_iff

/-- What splits a list of rows splits one of its rows. -/
theorem exists_row_of_split {pre post : List Entity} {x : Entity}
    (h : namedByRows rt params exprs envs = pre ++ x :: post) :
    ∃ env ∈ envs, ∃ left mid right, pre = left ++ mid ∧
      named rt params exprs env = mid ++ x :: right := by
  induction envs generalizing pre with
  | nil => simp [namedByRows] at h
  | cons env envs ih =>
      have hcons : named rt params exprs env ++ namedByRows rt params exprs envs =
          pre ++ x :: post := h
      rcases List.append_eq_append_iff.mp hcons with ⟨rest, hpre, hrest⟩ | ⟨rest, hrow, hpost⟩
      · obtain ⟨env', henv', left, mid, right, hsplit, hnamed⟩ := ih hrest
        exact ⟨env', List.mem_cons_of_mem _ henv', named rt params exprs env ++ left, mid, right,
          by rw [hpre, hsplit, List.append_assoc], hnamed⟩
      · cases rest with
        | nil =>
            obtain ⟨env', henv', left, mid, right, hsplit, hnamed⟩ := @ih [] hpost.symm
            obtain ⟨rfl, rfl⟩ := List.append_eq_nil_iff.mp hsplit.symm
            exact ⟨env', List.mem_cons_of_mem _ henv', pre, [], right, (List.append_nil _).symm,
              hnamed⟩
        | cons y rest =>
            obtain ⟨rfl, rfl⟩ := List.cons.inj hpost
            exact ⟨env, List.mem_cons_self, [], pre, rest, rfl, hrow⟩

theorem RowsOrdered.ordered (h : RowsOrdered rt params st exprs envs) {o : List (Env F)}
    (ho : o.Perm envs) : Ordered st (namedByRows rt params exprs o) := by
  intro pre v post heq e he
  obtain ⟨env, henv, left, mid, right, rfl, hnamed⟩ := exists_row_of_split heq
  exact List.mem_append_right _ (h env (ho.mem_iff.mp henv) mid v right hnamed e he)

theorem not_blocked_iff : ¬ Blocked rt params s st exprs detach envs ↔
    (∀ x ∈ namedByRows rt params exprs envs, Allowed s st x) ∧
      (detach = false → ∀ v, .node v ∈ namedByRows rt params exprs envs →
        ∀ e ∈ incident st.ogAdj v, .edge e ∈ namedByRows rt params exprs envs) := by
  unfold Blocked
  push Not
  tauto

/-- A blocked clause fails in every order. -/
theorem not_blocked_of_isOk (h : Coherent st) {o : List (Env F)} (ho : o.Perm envs) {a : State}
    (hrun : runRows rt params s G [.delete exprs detach] (.start st) o = .ok a) :
    ¬ Blocked rt params s st exprs detach envs := by
  obtain ⟨hallowed, hord⟩ := (runRows_isOk h).mp ⟨a, hrun⟩
  refine not_blocked_iff.mpr ⟨fun x hx => ?_, fun hdetach v hv e he => ?_⟩
  · exact hallowed x ((mem_namedByRows_perm ho x).mpr hx)
  · obtain ⟨pre, post, heq⟩ := List.append_of_mem ((mem_namedByRows_perm ho _).mpr hv)
    refine (mem_namedByRows_perm ho _).mp ?_
    rw [heq]
    exact List.mem_append_left _ (hord hdetach pre v post heq e he)

/-- The outcome of a `DELETE` does not depend on the order of its rows exactly when
it detaches, is blocked in any case, or finds each node after its relationships
in the same row. -/
theorem orderFree_iff (h : Reached st) :
    OrderFree rt params s G st exprs detach envs ↔
      detach = true ∨ Blocked rt params s st exprs detach envs ∨
        RowsOrdered rt params st exprs envs := by
  have hst := h.coherent
  constructor
  · intro hfree
    by_contra hnot
    push Not at hnot
    obtain ⟨hdetach, hblocked, hrows⟩ := hnot
    refine hrows fun env henv pre v post heq e he => ?_
    -- the order that puts this row first
    obtain ⟨left, right, rfl⟩ := List.append_of_mem henv
    have hperm : (env :: (left ++ right)).Perm (left ++ env :: right) := List.perm_middle.symm
    obtain ⟨a, -, hrun, -⟩ := (hfree _ _ hperm hperm).2 hblocked
    have hord := ((runRows_isOk hst).mp ⟨a, hrun⟩).2 (by simpa using hdetach)
    refine hord pre v (post ++ namedByRows rt params exprs (left ++ right)) ?_ e he
    rw [namedByRows, List.flatMap_cons, heq, List.append_assoc, List.cons_append]
    rfl
  · intro hcond o o' ho ho'
    constructor
    · intro hblocked
      have hfails {o : List (Env F)} (ho : o.Perm envs) :
          ∃ e, runRows rt params s G [.delete exprs detach] (.start st) o = .error e := by
        cases hrun : runRows rt params s G [.delete exprs detach] (.start st) o with
        | error e => exact ⟨e, rfl⟩
        | ok a => exact absurd hblocked (not_blocked_of_isOk hst ho hrun)
      exact ⟨hfails ho, hfails ho'⟩
    · intro hblocked
      have hends {o : List (Env F)} (ho : o.Perm envs) :
          ∃ a, runRows rt params s G [.delete exprs detach] (.start st) o = .ok a := by
        refine (runRows_isOk hst).mpr ⟨fun x hx => ?_, fun hdetach => ?_⟩
        · exact (not_blocked_iff.mp hblocked).1 x ((mem_namedByRows_perm ho x).mp hx)
        · rcases hcond with hcond | hcond | hrows
          · simp [hdetach] at hcond
          · exact absurd hcond hblocked
          · exact hrows.ordered ho
      obtain ⟨a, ha⟩ := hends ho
      obtain ⟨b, hb⟩ := hends ho'
      refine ⟨a, b, ha, hb, (runRows_gone hst ha).sameGraph ?_⟩
      have hgone := runRows_gone hst hb
      simp only [mem_namedByRows_perm ho', ← mem_namedByRows_perm ho] at hgone
      exact hgone

end Order

section Hop

/-- `DELETE r, a` in one row. -/
theorem orderFree_hop :
    OrderFree exactRuntime .null AdjacencyMirror.ownerSession hopEngine mixedStore
      [.var "r", .var "a"] false [hopRow ⟨edgeK, 2, nodeA, nodeB⟩] := by
  refine (orderFree_iff mixedStore_reached).mpr (.inr (.inr ?_))
  intro env henv pre v post heq e he
  obtain rfl := List.mem_singleton.mp henv
  have hnamed : named exactRuntime .null [.var "r", .var "a"]
      (hopRow ⟨edgeK, 2, nodeA, nodeB⟩) = [.edge edgeK, .node nodeA] := rfl
  rw [hnamed] at heq
  cases pre with
  | nil => cases (List.cons.inj heq).1
  | cons y pre =>
      obtain ⟨rfl, hrest⟩ := List.cons.inj heq
      cases pre with
      | nil =>
          obtain rfl := Entity.node.inj (List.cons.inj hrest).1
          have hone : incident mixedStore.ogAdj nodeA = [edgeK] := by decide
          rw [hone, List.mem_singleton] at he
          rw [he]
          exact List.mem_cons_self
      | cons z pre =>
          have hlen := congrArg List.length (List.cons.inj hrest).2
          simp at hlen

/-- A row that binds one variable. -/
def oneRow (v : Value Rat) : Env Rat
  | "x" => some v
  | _ => none

def rowK : Env Rat := oneRow (edgeObject ⟨edgeK, 2, nodeA, nodeB⟩)

def rowA : Env Rat := oneRow (nodeObject nodeA)

/-- `DELETE x` over a relationship and its node: it goes through when the
relationship comes first, and fails when the node does. -/
theorem delete_order_matters :
    (∃ a, runRows exactRuntime .null AdjacencyMirror.ownerSession hopEngine
      [.delete [.var "x"] false] (.start mixedStore) [rowK, rowA] = .ok a) ∧
    (∃ e, runRows exactRuntime .null AdjacencyMirror.ownerSession hopEngine
      [.delete [.var "x"] false] (.start mixedStore) [rowA, rowK] = .error e) ∧
    Reached mixedStore ∧
      ¬ OrderFree exactRuntime .null AdjacencyMirror.ownerSession hopEngine mixedStore
        [.var "x"] false [rowK, rowA] := by
  refine ⟨⟨_, rfl⟩, ⟨_, rfl⟩, mixedStore_reached, fun hfree => ?_⟩
  obtain ⟨hblocked, hends⟩ := hfree [rowK, rowA] [rowA, rowK] (.refl _) (.swap _ _ _)
  by_cases hcond : Blocked exactRuntime .null AdjacencyMirror.ownerSession mixedStore
      [.var "x"] false [rowK, rowA]
  · obtain ⟨⟨e, he⟩, -⟩ := hblocked hcond
    cases he
  · obtain ⟨a, b, -, hb, -⟩ := hends hcond
    cases hb

end Hop

end OntologicalDb.DeleteOrder
