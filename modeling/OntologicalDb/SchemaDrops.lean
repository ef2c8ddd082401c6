import OntologicalDb.InstanceDeletes

/-!
Dropping types and graphs, and the rows that are left behind.
-/

namespace OntologicalDb.SchemaDrops

open OntologicalDb.Adjacency
open OntologicalDb.AdjacencyMirror
open OntologicalDb.ExceptRules
open OntologicalDb.GraphStorage
open OntologicalDb.InstanceDeletes
open OntologicalDb.IntegrityCheck
open OntologicalDb.Labeling
open OntologicalDb.MixedStore
open OntologicalDb.SchemaChanges (typeId)
open OntologicalDb.StoreCoherence
open OntologicalDb.TypeCatalog

/-- The type exists, and so does its graph. -/
def Placed (c : Catalog) (tid : Int) : Prop :=
  ∃ t ∈ c.types, t.typeId = tid ∧ ∃ g ∈ c.graphs, g.1 = t.graphId

instance (c : Catalog) (tid : Int) : Decidable (Placed c tid) :=
  inferInstanceAs (Decidable (∃ t ∈ c.types, _))

def NodeExists (st : Store) (id : Int) : Prop := id ∈ st.ogNode.map (·.id)

instance (st : Store) (id : Int) : Decidable (NodeExists st id) :=
  inferInstanceAs (Decidable (id ∈ _))

/-- Every row belongs to an existing type of an existing graph, and refers to
existing rows only. -/
structure Consistent (st : Store) : Prop where
  nodes : ∀ n ∈ st.ogNode, Placed st.schema.catalog n.typeId
  edges : ∀ e ∈ st.ogEdge, Placed st.schema.catalog e.typeId
  ends : ∀ e ∈ st.ogEdge, NodeExists st e.src ∧ NodeExists st e.dst
  segments : ∀ a ∈ st.ogAdj, NodeExists st a.src ∧ (∀ x ∈ a.nbr, NodeExists st x) ∧
    ∀ x ∈ a.eid, x ∈ st.ogEdge.map (·.id)

/-- What a drop promises: a consistent store, in which the integrity checker
finds nothing new. -/
def CleanDrop (st st' : Store) : Prop :=
  Consistent st' ∧ checkIntegrity st' ⊆ checkIntegrity st

section Consistency

variable {st st' : Store}

/-- In a coherent store the segments are as good as the edges. -/
theorem consistent_iff (h : Coherent st) :
    Consistent st ↔ (∀ n ∈ st.ogNode, Placed st.schema.catalog n.typeId) ∧
      ∀ e ∈ st.ogEdge, Placed st.schema.catalog e.typeId ∧
        NodeExists st e.src ∧ NodeExists st e.dst := by
  constructor
  · intro hc
    exact ⟨hc.nodes, fun e he => ⟨hc.edges e he, hc.ends e he⟩⟩
  · rintro ⟨hnodes, hedges⟩
    refine ⟨hnodes, fun e he => (hedges e he).1, fun e he => (hedges e he).2, fun a ha => ?_⟩
    have hsound := h.sound.segment a ha
    have hends (nbr eid : Int) (hzip : (nbr, eid) ∈ a.nbr.zip a.eid) :
        NodeExists st a.src ∧ NodeExists st nbr ∧ eid ∈ st.ogEdge.map (·.id) := by
      have hx : ⟨a.src, a.etype, a.dir, nbr, eid⟩ ∈ entries st.ogAdj :=
        mem_entries.mpr ⟨a, ha, Segment.mem_entries_iff.mpr ⟨⟨rfl, rfl, rfl⟩, hzip⟩⟩
      obtain ⟨e, he, hmem⟩ := mem_registryEntries.mp (h.registered _ hx)
      obtain ⟨-, hsrc, hdst⟩ := hedges e he
      have hid := List.mem_map_of_mem (f := fun r : EdgeRow => r.id) he
      simp only [edgeEntries, List.mem_cons, List.not_mem_nil, or_false, Entry.mk.injEq] at hmem
      rcases hmem with ⟨hs, -, -, hnbr, heid⟩ | ⟨hs, -, -, hnbr, heid⟩
      · rw [hs, hnbr, heid]
        exact ⟨hsrc, hdst, hid⟩
      · rw [hs, hnbr, heid]
        exact ⟨hdst, hsrc, hid⟩
    refine ⟨?_, fun x hx => ?_, fun x hx => ?_⟩
    · obtain ⟨x, hx⟩ : ∃ x, x ∈ a.eid := by
        refine List.exists_mem_of_length_pos ?_
        have := hsound.pos
        have := hsound.eid_length
        omega
      obtain ⟨nbr, hzip⟩ := (Segment.Sound.mem_eid_iff hsound).mp hx
      exact (hends nbr x hzip).1
    · obtain ⟨eid, hzip⟩ := (mem_nbr_iff hsound).mp hx
      exact (hends x eid hzip).2.1
    · obtain ⟨nbr, hzip⟩ := (Segment.Sound.mem_eid_iff hsound).mp hx
      exact (hends nbr x hzip).2.2

/-- A drop that leaves a consistent store gives the checker nothing new. -/
theorem cleanDrop_iff (h : Coherent st) (h' : Coherent st') (hedge : st'.ogEdge ⊆ st.ogEdge)
    (hnode : st'.ogNode ⊆ st.ogNode)
    (hmissing : ∀ e ∈ st'.ogEdge, MissingAdjacency st' e → MissingAdjacency st e) :
    CleanDrop st st' ↔ Consistent st' := by
  refine ⟨fun hclean => hclean.1, fun hcons => ⟨hcons, ?_⟩⟩
  refine (checkIntegrity_subset h h' hedge hnode fun n hn horphan => ?_).mpr hmissing
  obtain ⟨t, ht, htype, -⟩ := hcons.nodes n hn
  exact absurd htype (horphan t ht)

end Consistency

section Types

variable {st st' : Store} {gid tid : Int} {name : String} {cascade : Bool}

theorem relabelGraph_keeps {c c' : Catalog} (h : relabelGraph c gid = .ok c') :
    c'.types = c.types ∧ c'.graphs = c.graphs := by
  unfold relabelGraph at h
  dsimp only at h
  split at h
  · obtain rfl := Except.ok.inj h
    exact ⟨rfl, rfl⟩
  · obtain ⟨labels, -, h⟩ := bind_eq_ok.mp h
    obtain rfl := pure_eq_ok.mp h
    exact ⟨rfl, rfl⟩

/-- The rows of other types are in order, and no edge of another type ends at an
instance of a dropped one. -/
structure OthersInOrder (st : Store) (subs : List Int) : Prop where
  nodes : ∀ n ∈ st.ogNode, n.typeId ∉ subs → Placed st.schema.catalog n.typeId
  edges : ∀ e ∈ st.ogEdge, e.typeId ∉ subs → Placed st.schema.catalog e.typeId
  ends : ∀ e ∈ st.ogEdge, e.typeId ∉ subs →
    (∃ n ∈ st.ogNode, n.id = e.src ∧ n.typeId ∉ subs) ∧
      ∃ n ∈ st.ogNode, n.id = e.dst ∧ n.typeId ∉ subs

theorem dropType_eq_ok (h : Coherent st) (htid : typeId st.schema.catalog gid name = .ok tid)
    (hrun : dropType st gid name cascade = .ok st') :
    Dropped (ogSubtypes st.schema.catalog tid) st st' := by
  unfold MixedStore.dropType at hrun
  obtain ⟨t, ht, hrun⟩ := bind_eq_ok.mp hrun
  obtain rfl := Except.ok.inj (htid.symm.trans ht)
  obtain ⟨-, -, hrun⟩ := bind_eq_ok.mp hrun
  obtain ⟨mid, hmid, hrun⟩ := bind_eq_ok.mp hrun
  obtain ⟨catalog, hcatalog, hrun⟩ := bind_eq_ok.mp hrun
  obtain rfl := pure_eq_ok.mp hrun
  obtain ⟨htypes, hgraphs⟩ := relabelGraph_keeps hcatalog
  have hdropped := dropTypes_eq_ok h hmid
  exact ⟨hdropped.coherent.of_eq rfl rfl rfl rfl, hdropped.node, hdropped.edge, hdropped.adj,
    htypes.trans hdropped.types, hgraphs.trans hdropped.graphs, hdropped.roles⟩

section Dropped

variable {subs : List Int}

theorem dropped_placed (h : Dropped subs st st') :
    Placed st'.schema.catalog tid ↔ Placed st.schema.catalog tid ∧ tid ∉ subs := by
  unfold Placed
  rw [h.types, h.graphs]
  constructor
  · rintro ⟨t, ht, rfl, hg⟩
    obtain ⟨ht, hkeep⟩ := List.mem_filter.mp ht
    exact ⟨⟨t, ht, rfl, hg⟩, of_decide_eq_true hkeep⟩
  · rintro ⟨⟨t, ht, rfl, hg⟩, hkeep⟩
    exact ⟨t, List.mem_filter.mpr ⟨ht, decide_eq_true hkeep⟩, rfl, hg⟩

theorem dropped_nodeExists (h : Dropped subs st st') {id : Int} :
    NodeExists st' id ↔ ∃ n ∈ st.ogNode, n.id = id ∧ n.typeId ∉ subs := by
  unfold NodeExists
  rw [h.node, List.mem_map]
  constructor
  · rintro ⟨n, hn, rfl⟩
    obtain ⟨hn, hkeep⟩ := List.mem_filter.mp hn
    exact ⟨n, hn, rfl, of_decide_eq_true hkeep⟩
  · rintro ⟨n, hn, rfl, hkeep⟩
    exact ⟨n, List.mem_filter.mpr ⟨hn, decide_eq_true hkeep⟩, rfl⟩

/-- An edge that stays keeps its entries, which are of its own type. -/
theorem dropped_missing (hc : Coherent st) (h : Dropped subs st st') {e : EdgeRow}
    (he : e ∈ st'.ogEdge) (hmissing : MissingAdjacency st' e) : MissingAdjacency st e := by
  rw [h.edge] at he
  obtain ⟨he, hkeep⟩ := List.mem_filter.mp he
  have hids : (st.ogEdge.map (·.id)).Nodup := (List.nodup_append.mp hc.ids).2.1
  have hkept (node : Int) (dir : Dir) (hm : Mentioned st.ogAdj node dir e.id) :
      Mentioned st'.ogAdj node dir e.id := by
    obtain ⟨x, hx, rfl, rfl, heid⟩ := (mentioned_iff hc).mp hm
    obtain ⟨e', he', hmem⟩ := mem_registryEntries.mp (hc.registered x hx)
    obtain rfl := List.inj_on_of_nodup_map hids he' he
      ((eid_of_mem_edgeEntries hmem).symm.trans heid)
    have hetype : x.etype = e'.typeId := by
      simp only [edgeEntries, List.mem_cons, List.not_mem_nil, or_false] at hmem
      rcases hmem with rfl | rfl <;> rfl
    obtain ⟨a, ha, hx⟩ := mem_entries.mp hx
    obtain ⟨hat, hzip⟩ := Segment.mem_entries_iff.mp hx
    refine ⟨a, ?_, hat.1, hat.2.2, heid ▸ (List.of_mem_zip hzip).2⟩
    rw [h.adj]
    refine List.mem_filter.mpr ⟨ha, ?_⟩
    rw [hat.2.1, hetype]
    exact hkeep
  exact fun hm => hmissing ⟨hkept _ _ hm.1, hkept _ _ hm.2⟩

theorem dropped_clean_iff (hc : Coherent st) (h : Dropped subs st st') :
    CleanDrop st st' ↔ OthersInOrder st subs := by
  rw [cleanDrop_iff hc h.coherent (h.edge ▸ List.filter_subset_self _)
    (h.node ▸ List.filter_subset_self _) fun e he => dropped_missing hc h he,
    consistent_iff h.coherent]
  constructor
  · rintro ⟨hnodes, hedges⟩
    have hedge (e : EdgeRow) (he : e ∈ st.ogEdge) (hkeep : e.typeId ∉ subs) :=
      hedges e (h.edge ▸ List.mem_filter.mpr ⟨he, decide_eq_true hkeep⟩)
    refine ⟨fun n hn hkeep => ?_, fun e he hkeep => ?_, fun e he hkeep => ?_⟩
    · have hn' : n ∈ st'.ogNode := h.node ▸ List.mem_filter.mpr ⟨hn, decide_eq_true hkeep⟩
      exact ((dropped_placed h).mp (hnodes n hn')).1
    · exact ((dropped_placed h).mp (hedge e he hkeep).1).1
    · obtain ⟨-, hsrc, hdst⟩ := hedge e he hkeep
      exact ⟨(dropped_nodeExists h).mp hsrc, (dropped_nodeExists h).mp hdst⟩
  · intro hothers
    refine ⟨fun n hn => ?_, fun e he => ?_⟩
    · rw [h.node] at hn
      obtain ⟨hn, hkeep⟩ := List.mem_filter.mp hn
      have hkeep := of_decide_eq_true hkeep
      exact (dropped_placed h).mpr ⟨hothers.nodes n hn hkeep, hkeep⟩
    · rw [h.edge] at he
      obtain ⟨he, hkeep⟩ := List.mem_filter.mp he
      have hkeep := of_decide_eq_true hkeep
      obtain ⟨hsrc, hdst⟩ := hothers.ends e he hkeep
      exact ⟨(dropped_placed h).mpr ⟨hothers.edges e he hkeep, hkeep⟩,
        (dropped_nodeExists h).mpr hsrc, (dropped_nodeExists h).mpr hdst⟩

end Dropped

end Types

section Graphs

variable {st st' : Store} {gid : Int} {name : String}

/-- The type exists in another graph, which exists too. -/
def PlacedElsewhere (c : Catalog) (gid tid : Int) : Prop :=
  ∃ t ∈ c.types, t.typeId = tid ∧ t.graphId ≠ gid ∧ ∃ g ∈ c.graphs, g.1 = t.graphId

instance (c : Catalog) (gid tid : Int) : Decidable (PlacedElsewhere c gid tid) :=
  inferInstanceAs (Decidable (∃ t ∈ c.types, _))

/-- Every row is of a type of another graph, and no edge has lost an end. -/
structure OthersOnly (st : Store) (gid : Int) : Prop where
  nodes : ∀ n ∈ st.ogNode, PlacedElsewhere st.schema.catalog gid n.typeId
  edges : ∀ e ∈ st.ogEdge, PlacedElsewhere st.schema.catalog gid e.typeId
  ends : ∀ e ∈ st.ogEdge, NodeExists st e.src ∧ NodeExists st e.dst

theorem dropGraph_eq_ok (hgid : graphId st.schema.catalog name = .ok gid)
    (hrun : dropGraph st name = .ok st') :
    st'.ogNode = st.ogNode ∧ st'.ogEdge = st.ogEdge ∧ st'.ogAdj = st.ogAdj ∧
      ∀ tid, Placed st'.schema.catalog tid ↔ PlacedElsewhere st.schema.catalog gid tid := by
  unfold MixedStore.dropGraph at hrun
  obtain ⟨g, hg, hrun⟩ := bind_eq_ok.mp hrun
  obtain rfl := Except.ok.inj (hgid.symm.trans hg)
  obtain ⟨-, -, hrun⟩ := bind_eq_ok.mp hrun
  obtain rfl := pure_eq_ok.mp hrun
  refine ⟨rfl, rfl, rfl, fun tid => ?_⟩
  unfold Placed PlacedElsewhere
  simp only [List.mem_filter, decide_eq_true_eq]
  constructor
  · rintro ⟨t, ⟨ht, hne⟩, htype, g, ⟨hg, -⟩, hgraph⟩
    exact ⟨t, ht, htype, hne, g, hg, hgraph⟩
  · rintro ⟨t, ht, htype, hne, g, hg, hgraph⟩
    exact ⟨t, ⟨ht, hne⟩, htype, g, ⟨hg, hgraph ▸ hne⟩, hgraph⟩

theorem dropGraph_clean_iff (hc : Coherent st) (hgid : graphId st.schema.catalog name = .ok gid)
    (hrun : dropGraph st name = .ok st') : CleanDrop st st' ↔ OthersOnly st gid := by
  obtain ⟨hnode, hedge, hadj, hplaced⟩ := dropGraph_eq_ok hgid hrun
  have hexists (id : Int) : NodeExists st' id ↔ NodeExists st id := by
    unfold NodeExists
    rw [hnode]
  rw [cleanDrop_iff hc (hc.dropGraph hrun) (hedge ▸ List.Subset.refl _)
    (hnode ▸ List.Subset.refl _) fun e _ hmissing => by
      unfold MissingAdjacency at hmissing ⊢
      rwa [hadj] at hmissing,
    consistent_iff (hc.dropGraph hrun)]
  simp only [hnode, hedge, hplaced, hexists]
  constructor
  · rintro ⟨hnodes, hedges⟩
    exact ⟨hnodes, fun e he => (hedges e he).1, fun e he => (hedges e he).2⟩
  · intro hothers
    exact ⟨hothers.nodes, fun e he => ⟨hothers.edges e he, hothers.ends e he⟩⟩

end Graphs

/-- In every store that operations of both languages lead to, dropping a type is
clean exactly when the rows of the other types are in order and no edge of theirs
ends at a dropped instance; dropping a graph exactly when it has no instances and
the others are in order. -/
theorem clean_drop_iff {st : Store} (h : Reached st) :
    (∀ gid name cascade tid st', typeId st.schema.catalog gid name = .ok tid →
      dropType st gid name cascade = .ok st' →
        (CleanDrop st st' ↔ OthersInOrder st (ogSubtypes st.schema.catalog tid))) ∧
    ∀ name gid st', graphId st.schema.catalog name = .ok gid → dropGraph st name = .ok st' →
      (CleanDrop st st' ↔ OthersOnly st gid) :=
  ⟨fun _ _ _ _ _ htid hrun => dropped_clean_iff h.coherent (dropType_eq_ok h.coherent htid hrun),
    fun _ _ _ hgid hrun => dropGraph_clean_iff h.coherent hgid hrun⟩

/-- Nothing but instances of Cypher's types refers to the reified relation type. -/
theorem clean_drop_iff_mixed :
    ∃ st', dropType mixedStore 1 "R" true = .ok st' ∧ CleanDrop mixedStore st' :=
  ⟨_, rfl, ((clean_drop_iff mixedStore_reached).1 1 "R" true 3 _ rfl rfl).mpr
    ⟨by decide, by decide, by decide⟩⟩

/-- Dropping the graph leaves its nodes, edges and segments; dropping a type with
its instances leaves the edges of another type that end at them. -/
theorem not_clean_drop :
    Reached mixedStore ∧
      (∃ st', dropGraph mixedStore "g" = .ok st' ∧ ⟨nodeA, 1⟩ ∈ st'.ogNode ∧
        orphanNode nodeA ∈ checkIntegrity st' ∧ orphanNode nodeA ∉ checkIntegrity mixedStore ∧
        ¬ CleanDrop mixedStore st') ∧
      ∃ st', dropType mixedStore 1 "A" true = .ok st' ∧
        ⟨edgeK, 2, nodeA, nodeB⟩ ∈ st'.ogEdge ∧ st'.ogNode = [⟨relationR, 3⟩] ∧
        ¬ CleanDrop mixedStore st' := by
  refine ⟨mixedStore_reached, ⟨_, rfl, by decide, by decide, by decide, fun hclean => ?_⟩,
    ⟨_, rfl, by decide, rfl, fun hclean => ?_⟩⟩
  · exact absurd (hclean.1.nodes ⟨nodeA, 1⟩ (by decide)) (by decide)
  · exact absurd (hclean.1.ends ⟨edgeK, 2, nodeA, nodeB⟩ (by decide)).1 (by decide)

end OntologicalDb.SchemaDrops
