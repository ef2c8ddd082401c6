import OntologicalDb.IntegrityCheck

/-!
Deleting an instance through either language, and what still refers to it.
-/

namespace OntologicalDb.InstanceDeletes

open OntologicalDb.Adjacency
open OntologicalDb.AdjacencyMirror
open OntologicalDb.GraphStorage
open OntologicalDb.IntegrityCheck
open OntologicalDb.MixedStore
open OntologicalDb.StoreCoherence
open OntologicalDb.TypeCatalog
open OntologicalDb.TypedTables

/-- Some row or array position names the identifier. -/
structure Unreferenced (st : Store) (id : Int) : Prop where
  edges : ∀ e ∈ st.ogEdge, e.id ≠ id ∧ e.src ≠ id ∧ e.dst ≠ id
  segments : ∀ a ∈ st.ogAdj, a.src ≠ id ∧ id ∉ a.nbr ∧ id ∉ a.eid
  players : ∀ p ∈ st.ogRolePlayer, p.edgeId ≠ id ∧ p.playerId ≠ id

/-- What a deletion promises: nothing refers to the instance any more, and the
integrity checker finds nothing new. -/
def CleanDelete (st st' : Store) (id : Int) : Prop :=
  Unreferenced st' id ∧ checkIntegrity st' ⊆ checkIntegrity st

section Segments

variable {st : Store} {id : Int}

theorem mem_nbr_iff {a : Segment} (ha : a.Sound) {x : Int} :
    x ∈ a.nbr ↔ ∃ eid, (x, eid) ∈ a.nbr.zip a.eid := by
  constructor
  · intro hx
    obtain ⟨i, hi, rfl⟩ := List.mem_iff_getElem.mp hx
    have hlen : i < a.eid.length := by
      have := ha.nbr_length
      have := ha.eid_length
      omega
    refine ⟨a.eid[i], List.mem_iff_getElem.mpr ⟨i, ?_, ?_⟩⟩
    · rw [List.length_zip]
      omega
    · simp
  · rintro ⟨eid, hzip⟩
    exact (List.of_mem_zip hzip).1

/-- In a coherent store the edges decide whether an array names an instance. -/
theorem segments_unreferenced (h : Coherent st)
    (hedge : ∀ e ∈ st.ogEdge, e.id ≠ id ∧ e.src ≠ id ∧ e.dst ≠ id) :
    ∀ a ∈ st.ogAdj, a.src ≠ id ∧ id ∉ a.nbr ∧ id ∉ a.eid := by
  intro a ha
  have hsound := h.sound.segment a ha
  have hat (nbr eid : Int) (hzip : (nbr, eid) ∈ a.nbr.zip a.eid) :
      ⟨a.src, a.etype, a.dir, nbr, eid⟩ ∈ entries st.ogAdj :=
    mem_entries.mpr ⟨a, ha, Segment.mem_entries_iff.mpr ⟨⟨rfl, rfl, rfl⟩, hzip⟩⟩
  have hends (nbr eid : Int) (hzip : (nbr, eid) ∈ a.nbr.zip a.eid) :
      a.src ≠ id ∧ nbr ≠ id ∧ eid ≠ id := by
    obtain ⟨e, he, hmem⟩ := mem_registryEntries.mp (h.registered _ (hat nbr eid hzip))
    obtain ⟨hid, hs, hd⟩ := hedge e he
    simp only [edgeEntries, List.mem_cons, List.not_mem_nil, or_false, Entry.mk.injEq] at hmem
    rcases hmem with ⟨hsrc, -, -, hnbr, heid⟩ | ⟨hsrc, -, -, hnbr, heid⟩
    · rw [hsrc, hnbr, heid]
      exact ⟨hs, hd, hid⟩
    · rw [hsrc, hnbr, heid]
      exact ⟨hd, hs, hid⟩
  refine ⟨?_, fun hx => ?_, fun hx => ?_⟩
  · obtain ⟨x, hx⟩ : ∃ x, x ∈ a.eid := by
      refine List.exists_mem_of_length_pos ?_
      have := hsound.pos
      have := hsound.eid_length
      omega
    obtain ⟨nbr, hzip⟩ := (Segment.Sound.mem_eid_iff hsound).mp hx
    exact (hends nbr x hzip).1
  · obtain ⟨eid, hzip⟩ := (mem_nbr_iff hsound).mp hx
    exact (hends id eid hzip).2.1 rfl
  · obtain ⟨nbr, hzip⟩ := (Segment.Sound.mem_eid_iff hsound).mp hx
    exact (hends nbr id hzip).2.2 rfl

theorem node_not_edge (h : Coherent st) (hid : id ∈ st.ogNode.map (·.id)) {e : EdgeRow}
    (he : e ∈ st.ogEdge) : e.id ≠ id := by
  rintro rfl
  exact (List.nodup_append.mp h.ids).2.2 _ hid _ (List.mem_map_of_mem he) rfl

end Segments

section Cypher

variable {st st' : Store} {s : Session} {id n : Int}

/-- The segments of the node name every edge at it, and the roles it plays are
roles of those edges. -/
structure StorageKnows (st : Store) (id : Int) : Prop where
  edges : ∀ e ∈ st.ogEdge, e.src = id ∨ e.dst = id → e.id ∈ incident st.ogAdj id
  roles : ∀ p ∈ st.ogRolePlayer,
    p.edgeId ≠ id ∧ (p.playerId = id → p.edgeId ∈ incident st.ogAdj id)

theorem nodeCut_missing (h : NodeCut id st st') (hc : Coherent st) {e : EdgeRow}
    (he : e ∈ st'.ogEdge) (hmissing : MissingAdjacency st' e) : MissingAdjacency st e := by
  have hnot := ((h.edge e).mp he).2
  have hkept (node : Int) (dir : Dir) (hm : Mentioned st.ogAdj node dir e.id) :
      Mentioned st'.ogAdj node dir e.id := by
    obtain ⟨x, hx, hsrc, hdir, heid⟩ := (mentioned_iff hc).mp hm
    exact (mentioned_iff h.coherent).mpr
      ⟨x, (h.entry x).mpr ⟨hx, heid ▸ hnot⟩, hsrc, hdir, heid⟩
  exact fun hm => hmissing ⟨hkept _ _ hm.1, hkept _ _ hm.2⟩

theorem deleteNodeInner_clean_iff (hc : Coherent st) (hid : id ∈ st.ogNode.map (·.id))
    (hrun : deleteNodeInner s st id = .ok (st', n)) :
    CleanDelete st st' id ↔ StorageKnows st id := by
  have hcut := deleteNodeInner_eq_ok hc hrun
  constructor
  · rintro ⟨hclean, -⟩
    refine ⟨fun e he hend => ?_, fun p hp => ?_⟩
    · by_contra hout
      obtain ⟨-, hsrc, hdst⟩ := hclean.edges e ((hcut.edge e).mpr ⟨he, hout⟩)
      rcases hend with h | h
      · exact hsrc h
      · exact hdst h
    · have hedge : id ∉ incident st.ogAdj id := by
        intro hmem
        obtain ⟨x, hx, -, heid⟩ := hc.mem_incident.mp hmem
        obtain ⟨e, he, hmem⟩ := mem_registryEntries.mp (hc.registered x hx)
        exact node_not_edge hc hid he ((eid_of_mem_edgeEntries hmem).symm.trans heid)
      have hkept (hout : p.edgeId ∉ incident st.ogAdj id) :=
        hclean.players p ((hcut.role p).mpr ⟨hp, hout⟩)
      refine ⟨?_, fun hplayer => ?_⟩
      · rintro rfl
        exact (hkept hedge).1 rfl
      · by_contra hout
        exact (hkept hout).2 hplayer
  · intro hknows
    have hedges : ∀ e ∈ st'.ogEdge, e.id ≠ id ∧ e.src ≠ id ∧ e.dst ≠ id := by
      intro e he
      obtain ⟨he, hout⟩ := (hcut.edge e).mp he
      exact ⟨node_not_edge hc hid he, fun h => hout (hknows.edges e he (.inl h)),
        fun h => hout (hknows.edges e he (.inr h))⟩
    refine ⟨⟨hedges, segments_unreferenced hcut.coherent hedges, fun p hp => ?_⟩, ?_⟩
    · obtain ⟨hp, hout⟩ := (hcut.role p).mp hp
      obtain ⟨hrel, hplayer⟩ := hknows.roles p hp
      exact ⟨hrel, fun h => hout (hplayer h)⟩
    · refine (checkIntegrity_subset hc hcut.coherent (fun e he => ((hcut.edge e).mp he).1)
        (fun n hn => ((hcut.node n).mp hn).1) fun n _ horphan => ?_).mpr
        fun e he => nodeCut_missing hcut hc he
      unfold OrphanNode at horphan ⊢
      rwa [hcut.catalog] at horphan

end Cypher

section TypeQL

variable {st st' : Store} {hasTid id : Int} {fuel : Nat}

/-- The edges other than ownerships that the deletion does not look at: none ends
at the instance, and those that end at an instance deleted with it were cut off
before. -/
structure OnlyOwnerships (hasTid : Int) (st : Store) (id : Int) : Prop where
  edges : ∀ e ∈ st.ogEdge, e.typeId ≠ hasTid → e.src ≠ id ∧ e.dst ≠ id
  others : ∀ e ∈ st.ogEdge, e.typeId ≠ hasTid → ∀ r, PlaysIn st.ogRolePlayer id r →
    e.src = r ∨ e.dst = r → MissingAdjacency st e

theorem swept_missing_iff {D : Set Int} (h : Swept hasTid D D st st') (hc : Coherent st)
    {e : EdgeRow} (he : e ∈ st'.ogEdge) :
    MissingAdjacency st' e ↔ MissingAdjacency st e ∨ e.src ∈ D ∨ e.dst ∈ D := by
  have hkept (node : Int) (dir : Dir) : Mentioned st'.ogAdj node dir e.id ↔
      Mentioned st.ogAdj node dir e.id ∧ node ∉ D := by
    rw [mentioned_iff hc, mentioned_iff h.coherent]
    constructor
    · rintro ⟨x, hx, rfl, rfl, heid⟩
      obtain ⟨hx, hD, -⟩ := (h.entry x).mp hx
      exact ⟨⟨x, hx, rfl, rfl, heid⟩, hD⟩
    · rintro ⟨⟨x, hx, rfl, rfl, heid⟩, hD⟩
      exact ⟨x, (h.entry x).mpr ⟨hx, hD, heid ▸ List.mem_map_of_mem he⟩, rfl, rfl, heid⟩
  unfold MissingAdjacency
  rw [hkept, hkept]
  tauto

theorem deleteInstance_clean_iff (hc : Coherent st) (hid : id ∈ st.ogNode.map (·.id))
    (hrun : deleteInstance hasTid fuel st id = .ok st') :
    CleanDelete st st' id ↔ OnlyOwnerships hasTid st id := by
  have hswept := deleteInstance_eq_ok hc hrun
  have hfindings := checkIntegrity_subset hc hswept.coherent
    (fun e he => ((hswept.edge e).mp he).1) (fun n hn => ((hswept.node n).mp hn).1)
    fun n _ horphan => by
      unfold OrphanNode at horphan ⊢
      rwa [hswept.catalog] at horphan
  constructor
  · rintro ⟨hclean, hfound⟩
    have hkept (e : EdgeRow) (he : e ∈ st.ogEdge) (htype : e.typeId ≠ hasTid) : e ∈ st'.ogEdge :=
      (hswept.edge e).mpr ⟨he, fun hown => htype hown.1⟩
    refine ⟨fun e he htype => (hclean.edges e (hkept e he htype)).2, ?_⟩
    rintro e he htype r hr hend
    refine hfindings.mp hfound e (hkept e he htype)
      ((swept_missing_iff hswept hc (hkept e he htype)).mpr (.inr ?_))
    rcases hend with rfl | rfl
    · exact .inl hr
    · exact .inr hr
  · intro hknows
    have hedges : ∀ e ∈ st'.ogEdge, e.id ≠ id ∧ e.src ≠ id ∧ e.dst ≠ id := by
      intro e he
      obtain ⟨he, hkeep⟩ := (hswept.edge e).mp he
      refine ⟨node_not_edge hc hid he, ?_⟩
      by_cases htype : e.typeId = hasTid
      · refine ⟨fun h => hkeep ⟨htype, .inl ?_⟩, fun h => hkeep ⟨htype, .inr ?_⟩⟩
        · exact h ▸ PlaysIn.self
        · exact h ▸ PlaysIn.self
      · exact hknows.edges e he htype
    refine ⟨⟨hedges, segments_unreferenced hswept.coherent hedges, fun p hp => ?_⟩,
      hfindings.mpr fun e he hmissing => ?_⟩
    · obtain ⟨hp, hout⟩ := (hswept.role p).mp hp
      refine ⟨?_, ?_⟩
      · rintro rfl
        exact hout PlaysIn.self
      · rintro rfl
        exact hout (PlaysIn.step .self hp)
    · obtain ⟨hold, hkeep⟩ := (hswept.edge e).mp he
      rcases (swept_missing_iff hswept hc he).mp hmissing with h | hD
      · exact h
      · have htype : e.typeId ≠ hasTid := fun htype => hkeep ⟨htype, hD⟩
        rcases hD with hD | hD
        · exact hknows.others e hold htype _ hD (.inl rfl)
        · exact hknows.others e hold htype _ hD (.inr rfl)

end TypeQL

/-- In every store that operations of both languages lead to, a Cypher deletion
is clean exactly when the segments of the node account for all that refers to it,
a TypeQL deletion exactly when only ownerships and roles do. -/
theorem clean_delete_iff {st : Store} {id : Int} (h : Reached st)
    (hid : id ∈ st.ogNode.map (·.id)) :
    (∀ s st' n, deleteNodeInner s st id = .ok (st', n) →
      (CleanDelete st st' id ↔ StorageKnows st id)) ∧
    ∀ hasTid fuel st', deleteInstance hasTid fuel st id = .ok st' →
      (CleanDelete st st' id ↔ OnlyOwnerships hasTid st id) :=
  ⟨fun _ _ _ hrun => deleteNodeInner_clean_iff h.coherent hid hrun,
    fun _ _ _ hrun => deleteInstance_clean_iff h.coherent hid hrun⟩

section Mixed

/-- Cypher's entity and relation types beside a reified TypeQL relation. -/
def mixedCatalog : Catalog :=
  { TypeCatalog.empty with
    graphs := [(1, "g")]
    types := [⟨1, 1, "A", .entity, some (nodeTable 1)⟩,
      ⟨2, 1, "K", .relation, some (edgeTable 2)⟩,
      ⟨3, 1, "R", .relation, some (nodeTable 3)⟩,
      ⟨4, 1, "$has", .relation, some (edgeTable 4)⟩]
    labels := [⟨1, 0, 1, 1, 1025, 0⟩, ⟨2, 0, 1, 2049, 3073, 0⟩, ⟨3, 0, 1, 4097, 5121, 0⟩,
      ⟨4, 0, 1, 6145, 7169, 0⟩]
    roles := [⟨3, "player", none, 0⟩] }

def mixedEmpty : Store := ⟨⟨mixedCatalog, []⟩, [], [], [], [], []⟩

def nodeA : Int := 68719476737
def nodeB : Int := 68719476738
def edgeK : Int := 137438953473
def relationR : Int := 206158430209

/-- Two Cypher nodes with an edge, one of them a player in a TypeQL relation. -/
def mixedOps : List MixedOp :=
  [.storage ownerSession (.createNode 1 "A" (.obj [])),
    .storage ownerSession (.createNode 1 "A" (.obj [])),
    .storage ownerSession (.createEdge 2 "K" nodeA nodeB (.obj [])),
    .createInstance 3 "R", .addRolePlayer ⟨relationR, 1, nodeA⟩]

def mixedStore : Store where
  schema := ⟨mixedCatalog,
    [(nodeTable 1, ⟨nodeA, none, [], none⟩), (nodeTable 1, ⟨nodeB, none, [], none⟩),
      (edgeTable 2, ⟨edgeK, some (nodeA, nodeB), [], none⟩),
      (nodeTable 3, ⟨relationR, none, [], none⟩)]⟩
  ogIdAlloc := [(1, 3), (2, 2), (3, 2)]
  ogNode := [⟨nodeA, 1⟩, ⟨nodeB, 1⟩, ⟨relationR, 3⟩]
  ogEdge := [⟨edgeK, 2, nodeA, nodeB⟩]
  ogAdj := [⟨nodeA, 2, .o, 0, 1, [nodeB], [edgeK]⟩, ⟨nodeB, 2, .i, 0, 1, [nodeA], [edgeK]⟩]
  ogRolePlayer := [⟨relationR, 1, nodeA⟩]

theorem mixedStore_reached : Reached mixedStore :=
  ⟨mixedEmpty, mixedOps, ⟨⟨rfl, rfl, rfl⟩, rfl⟩,
    .of_foldlM (fun _ _ _ => trivial) .nil rfl⟩

/-- The store without the second node and its edge. -/
def withoutB : Store :=
  { mixedStore with
    schema := ⟨mixedCatalog,
      [(nodeTable 1, ⟨nodeA, none, [], none⟩), (nodeTable 3, ⟨relationR, none, [], none⟩)]⟩
    ogNode := [⟨nodeA, 1⟩, ⟨relationR, 3⟩]
    ogEdge := []
    ogAdj := [] }

theorem clean_delete_iff_mixed :
    deleteNodeInner ownerSession mixedStore nodeB = .ok (withoutB, 2) ∧
      CleanDelete mixedStore withoutB nodeB :=
  ⟨rfl, ((clean_delete_iff mixedStore_reached (by decide)).1 ownerSession withoutB 2 rfl).mpr
    ⟨by decide, by decide⟩⟩

/-- Cypher's deletion of the player leaves the assignment to it; the TypeQL one
leaves the edge to the other node. -/
theorem not_clean_delete :
    Reached mixedStore ∧ nodeA ∈ mixedStore.ogNode.map (·.id) ∧
      (∃ st' n, deleteNodeInner ownerSession mixedStore nodeA = .ok (st', n) ∧
        ⟨relationR, 1, nodeA⟩ ∈ st'.ogRolePlayer ∧ ¬ CleanDelete mixedStore st' nodeA) ∧
      ∃ st', deleteInstance 4 3 mixedStore nodeA = .ok st' ∧
        ⟨edgeK, 2, nodeA, nodeB⟩ ∈ st'.ogEdge ∧ missingAdjacency edgeK ∈ checkIntegrity st' ∧
        ¬ CleanDelete mixedStore st' nodeA := by
  refine ⟨mixedStore_reached, by decide, ⟨_, _, rfl, by decide, fun hclean => ?_⟩,
    ⟨_, rfl, by decide, by decide, fun hclean => ?_⟩⟩
  · exact absurd (hclean.1.players ⟨relationR, 1, nodeA⟩ (by decide)).2 (by decide)
  · exact absurd (hclean.1.edges ⟨edgeK, 2, nodeA, nodeB⟩ (by decide)).2.1 (by decide)

end Mixed

end OntologicalDb.InstanceDeletes
