import Mathlib.Data.List.Flatten
import OntologicalDb.MixedStore

/-!
What every mixture of operations keeps: each entry of a segment belongs to a
registered edge, and an identifier is allocated once.
-/

namespace OntologicalDb.StoreCoherence

open OntologicalDb.Adjacency
open OntologicalDb.AdjacencyMirror
open OntologicalDb.ExceptRules
open OntologicalDb.GraphStorage
open OntologicalDb.GuardedRuns
open OntologicalDb.Ids
open OntologicalDb.KeyedRows
open OntologicalDb.MixedStore
open OntologicalDb.SchemaChanges (deleteType)
open OntologicalDb.TypeCatalog
open OntologicalDb.TypedTables

section Identifiers

variable {alloc alloc' : List (Int × Int)} {tid id : Int}

/-- The next local id of a type. -/
def nextLocal (alloc : List (Int × Int)) (tid : Int) : Int :=
  ((alloc.find? fun a => a.1 = tid).map (·.2)).getD 1

theorem idLocal_makeId {shard typeId localId id : Int}
    (h : makeId shard typeId localId = .ok id) : idLocal id = localId := by
  obtain ⟨-, -, hlocal, rfl⟩ := makeId_eq_ok h
  simp only [idLocal, maxLocalId, localMask, typeShift, shardShift, typeBits, localBits] at *
  omega

theorem allocId_eq_ok (h : allocId alloc tid = .ok (alloc', id)) :
    idType id = tid ∧ idLocal id = nextLocal alloc tid ∧
      ∀ t, nextLocal alloc t ≤ nextLocal alloc' t ∧
        (t = tid → nextLocal alloc' t = nextLocal alloc t + 1) := by
  refine ⟨allocId_type h, ?_⟩
  unfold allocId at h
  split at h
  · next a hfind =>
    obtain ⟨i, hi, h⟩ := bind_eq_ok.mp h
    obtain ⟨rfl, rfl⟩ := Prod.mk.inj (pure_eq_ok.mp h)
    have htid : a.1 = tid := by simpa using List.find?_some hfind
    have hnext : nextLocal alloc tid = a.2 := by simp [nextLocal, hfind]
    refine ⟨(idLocal_makeId hi).trans hnext.symm, fun t => ?_⟩
    have hmap : ((alloc.map fun b => if b.1 = tid then (b.1, b.2 + 1) else b).find?
        fun a => a.1 = t) = (alloc.find? fun a => a.1 = t).map
          fun b => if b.1 = tid then (b.1, b.2 + 1) else b := by
      have hpred : ((fun a : Int × Int => decide (a.1 = t)) ∘
          fun b : Int × Int => if b.1 = tid then (b.1, b.2 + 1) else b) =
            fun b => decide (b.1 = t) := by
        funext b
        by_cases hb : b.1 = tid <;> simp [hb]
      rw [List.find?_map, hpred]
    unfold nextLocal
    rw [hmap]
    cases hft : alloc.find? fun a => a.1 = t with
    | none =>
        refine ⟨by simp, fun heq => ?_⟩
        rw [heq, hfind] at hft
        cases hft
    | some b =>
        have hb : b.1 = t := by simpa using List.find?_some hft
        by_cases hbt : b.1 = tid
        · refine ⟨?_, fun _ => by simp [hbt]⟩
          simp only [Option.map_some, if_pos hbt, Option.getD_some]
          exact (Int.lt_succ _).le
        · exact ⟨by simp [hbt], fun heq => absurd (hb.trans heq) hbt⟩
  · next hfind =>
    obtain ⟨i, hi, h⟩ := bind_eq_ok.mp h
    obtain ⟨rfl, rfl⟩ := Prod.mk.inj (pure_eq_ok.mp h)
    have hnext : nextLocal alloc tid = 1 := by simp [nextLocal, hfind]
    refine ⟨(idLocal_makeId hi).trans hnext.symm, fun t => ?_⟩
    unfold nextLocal
    rw [List.find?_append]
    cases hft : alloc.find? fun a => a.1 = t with
    | some b =>
        refine ⟨by simp, fun heq => ?_⟩
        rw [heq, hfind] at hft
        cases hft
    | none =>
        by_cases ht : tid = t
        · simp [ht]
        · exact ⟨by simp [ht], fun heq => absurd heq.symm ht⟩

end Identifiers

/-- The identifiers in use. -/
def idsOf (st : Store) : List Int := st.ogNode.map (·.id) ++ st.ogEdge.map (·.id)

structure Coherent (st : Store) : Prop where
  sound : Sound st.ogAdj
  nodup : (entries st.ogAdj).Nodup
  registered : ∀ x ∈ entries st.ogAdj, x ∈ registryEntries st.ogEdge
  types : ∀ e ∈ st.ogEdge, e.typeId = idType e.id
  ids : (idsOf st).Nodup
  allocated : ∀ x ∈ idsOf st, idLocal x < nextLocal st.ogIdAlloc (idType x)

section Creation

variable {st st' : Store} {tid id : Int} {alloc : List (Int × Int)}

/-- A fresh identifier is not in use, and the next one is not either. -/
theorem Coherent.allocate (h : Coherent st) (halloc : allocId st.ogIdAlloc tid = .ok (alloc, id)) :
    id ∉ idsOf st ∧ ∀ x, x = id ∨ x ∈ idsOf st → idLocal x < nextLocal alloc (idType x) := by
  obtain ⟨htype, hlocal, hnext⟩ := allocId_eq_ok halloc
  refine ⟨fun hmem => ?_, ?_⟩
  · have hlt := h.allocated id hmem
    rw [htype, hlocal] at hlt
    exact lt_irrefl _ hlt
  · rintro x (rfl | hx)
    · rw [htype, hlocal, (hnext tid).2 rfl]
      exact Int.lt_succ _
    · exact (h.allocated x hx).trans_le (hnext _).1

theorem Coherent.addNode (h : Coherent st) (halloc : allocId st.ogIdAlloc tid = .ok (alloc, id))
    (hadj : st'.ogAdj = st.ogAdj) (hedge : st'.ogEdge = st.ogEdge)
    (hnode : st'.ogNode = st.ogNode ++ [⟨id, tid⟩]) (hids : st'.ogIdAlloc = alloc) :
    Coherent st' := by
  obtain ⟨hfresh, hnext⟩ := h.allocate halloc
  have hperm : (idsOf st').Perm (id :: idsOf st) := by
    simp only [idsOf, hnode, hedge, List.map_append, List.map_singleton, List.append_assoc,
      List.singleton_append]
    exact List.perm_middle
  refine ⟨hadj ▸ h.sound, hadj ▸ h.nodup, hadj ▸ hedge ▸ h.registered, hedge ▸ h.types, ?_, ?_⟩
  · exact hperm.nodup_iff.mpr (List.nodup_cons.mpr ⟨hfresh, h.ids⟩)
  · intro x hx
    rw [hids]
    exact hnext x (List.mem_cons.mp (hperm.subset hx))

theorem entries_fresh (h : Coherent st) {x : Entry} (hx : x ∈ entries st.ogAdj) :
    x.eid ∈ idsOf st := by
  obtain ⟨e, he, hmem⟩ := mem_registryEntries.mp (h.registered x hx)
  rw [eid_of_mem_edgeEntries hmem]
  exact List.mem_append_right _ (List.mem_map_of_mem he)

theorem Coherent.addEdge (h : Coherent st) {src dst : Int} {adj : List Segment}
    (halloc : allocId st.ogIdAlloc tid = .ok (alloc, id))
    (hout : append st.ogAdj src tid .o dst id = .ok adj)
    (hin : append adj dst tid .i src id = .ok st'.ogAdj)
    (hedge : st'.ogEdge = st.ogEdge ++ [⟨id, tid, src, dst⟩]) (hnode : st'.ogNode = st.ogNode)
    (hids : st'.ogIdAlloc = alloc) : Coherent st' := by
  obtain ⟨hfresh, hnext⟩ := h.allocate halloc
  obtain ⟨hsoundOut, hpermOut⟩ := append_eq_ok h.sound hout
  obtain ⟨hsoundIn, hpermIn⟩ := append_eq_ok hsoundOut hin
  have hentries : (entries st'.ogAdj).Perm
      (⟨dst, tid, .i, src, id⟩ :: ⟨src, tid, .o, dst, id⟩ :: entries st.ogAdj) :=
    hpermIn.trans (hpermOut.cons _)
  have hperm : (idsOf st').Perm (id :: idsOf st) := by
    simp only [idsOf, hnode, hedge, List.map_append, List.map_singleton, ← List.append_assoc]
    exact List.perm_append_comm
  have hregistry : registryEntries st'.ogEdge =
      registryEntries st.ogEdge ++ edgeEntries ⟨id, tid, src, dst⟩ := by
    simp [registryEntries, hedge]
  refine ⟨hsoundIn, hentries.nodup_iff.mpr ?_, fun x hx => ?_, fun e he => ?_,
    hperm.nodup_iff.mpr (List.nodup_cons.mpr ⟨hfresh, h.ids⟩), fun x hx => ?_⟩
  · have hno (x : Entry) (hx : x ∈ entries st.ogAdj) : x.eid ≠ id := fun heq =>
      hfresh (heq ▸ entries_fresh h hx)
    refine List.nodup_cons.mpr ⟨?_, List.nodup_cons.mpr ⟨fun hx => hno _ hx rfl, h.nodup⟩⟩
    intro hx
    rcases List.mem_cons.mp hx with heq | hx
    · cases congrArg Entry.dir heq
    · exact hno _ hx rfl
  · rw [hregistry]
    rcases List.mem_cons.mp (hentries.subset hx) with rfl | hx
    · exact List.mem_append_right _ (by simp [edgeEntries])
    · rcases List.mem_cons.mp hx with rfl | hx
      · exact List.mem_append_right _ (by simp [edgeEntries])
      · exact List.mem_append_left _ (h.registered x hx)
  · rw [hedge] at he
    rcases List.mem_append.mp he with he | he
    · exact h.types e he
    · obtain rfl := List.mem_singleton.mp he
      exact (allocId_type halloc).symm
  · rw [hids]
    exact hnext x (List.mem_cons.mp (hperm.subset hx))

end Creation

section Removal

variable {st st' : Store} {adj : List Segment}

/-- Rows taken away from the registries, and entries with the edges they belong to. -/
theorem Coherent.shrink (h : Coherent st) (hsound : Sound st'.ogAdj)
    (hnodup : (entries st'.ogAdj).Nodup)
    (hnode : st'.ogNode.Sublist st.ogNode) (hedge : st'.ogEdge.Sublist st.ogEdge)
    (halloc : st'.ogIdAlloc = st.ogIdAlloc)
    (hentries : ∀ x ∈ entries st'.ogAdj, x ∈ entries st.ogAdj ∧ x.eid ∈ st'.ogEdge.map (·.id)) :
    Coherent st' := by
  have hsub : (idsOf st').Sublist (idsOf st) := (hnode.map _).append (hedge.map _)
  refine ⟨hsound, hnodup, fun x hx => ?_, fun e he => h.types e (hedge.subset he),
    h.ids.sublist hsub, fun x hx => halloc ▸ h.allocated x (hsub.subset hx)⟩
  obtain ⟨hold, hid⟩ := hentries x hx
  obtain ⟨e, he, hmem⟩ := mem_registryEntries.mp (h.registered x hold)
  obtain ⟨e', he', hid'⟩ := List.mem_map.mp hid
  have hids : (st.ogEdge.map (·.id)).Nodup := (List.nodup_append.mp h.ids).2.1
  obtain rfl : e' = e := List.inj_on_of_nodup_map hids (hedge.subset he') he
    (hid'.trans (eid_of_mem_edgeEntries hmem))
  exact mem_registryEntries.mpr ⟨e', he', hmem⟩

/-- Two entries of one edge in one direction are the same. -/
theorem Coherent.entry_unique (h : Coherent st) {x y : Entry} (hx : x ∈ entries st.ogAdj)
    (hy : y ∈ entries st.ogAdj) (heid : x.eid = y.eid) (hdir : x.dir = y.dir) : x = y := by
  obtain ⟨e, he, hxe⟩ := mem_registryEntries.mp (h.registered x hx)
  obtain ⟨e', he', hye⟩ := mem_registryEntries.mp (h.registered y hy)
  have hids : (st.ogEdge.map (·.id)).Nodup := (List.nodup_append.mp h.ids).2.1
  obtain rfl : e = e' := List.inj_on_of_nodup_map hids he he'
    ((eid_of_mem_edgeEntries hxe).symm.trans (heid.trans (eid_of_mem_edgeEntries hye)))
  simp only [edgeEntries, List.mem_cons, List.not_mem_nil, or_false] at hxe hye
  rcases hxe with rfl | rfl <;> rcases hye with rfl | rfl
  · rfl
  · cases hdir
  · cases hdir
  · rfl

/-- Removing an edge from a segment takes out its entry there and no other. -/
theorem mem_entries_remove (hadj : Sound adj) (hnodup : (entries adj).Nodup)
    {src etype eid : Int} {dir : Dir}
    (huniq : ∀ x ∈ entries adj, ∀ y ∈ entries adj, x.eid = eid → y.eid = eid → x.dir = dir →
      y.dir = dir → x = y)
    (hplace : ∀ x ∈ entries adj, x.eid = eid → x.dir = dir → x.src = src ∧ x.etype = etype) :
    Sound (remove adj src etype dir eid) ∧ (entries (remove adj src etype dir eid)).Nodup ∧
      ∀ x, x ∈ entries (remove adj src etype dir eid) ↔
        x ∈ entries adj ∧ ¬ (x.eid = eid ∧ x.dir = dir) := by
  have hrem := @remove_sound adj src etype eid dir hadj
  obtain ⟨hsound, ⟨nbr, hperm⟩ | ⟨hnone, heq⟩⟩ := hrem
  · have hcons := hperm.nodup_iff.mp hnodup
    obtain ⟨hnot, hnodup'⟩ := List.nodup_cons.mp hcons
    refine ⟨hsound, hnodup', fun x => ?_⟩
    constructor
    · intro hx
      refine ⟨hperm.symm.subset (List.mem_cons_of_mem _ hx), fun hkey => hnot ?_⟩
      have hin := hperm.symm.subset (List.mem_cons_of_mem _ hx)
      have hgone := hperm.symm.subset (List.mem_cons_self ..)
      rwa [huniq _ hgone x hin rfl hkey.1 rfl hkey.2]
    · rintro ⟨hx, hkey⟩
      rcases List.mem_cons.mp (hperm.subset hx) with rfl | hx
      · exact absurd ⟨rfl, rfl⟩ hkey
      · exact hx
  · refine ⟨hsound, heq ▸ hnodup, fun x => ?_⟩
    rw [heq]
    refine ⟨fun hx => ⟨hx, fun hkey => ?_⟩, fun hx => hx.1⟩
    obtain ⟨rfl, rfl⟩ := hkey
    obtain ⟨rfl, rfl⟩ := hplace x hx rfl rfl
    exact hnone x.nbr hx

theorem mem_entries_filter {q : Segment → Bool} {x : Entry} :
    x ∈ entries (adj.filter q) ↔ ∃ a ∈ adj, q a = true ∧ x ∈ a.entries := by
  simp [mem_entries, and_assoc]

/-- Segments dropped by what their key says take their entries with them. -/
theorem entries_filter (hadj : Sound adj) (hnodup : (entries adj).Nodup) {q : Segment → Bool}
    {k : Entry → Prop} (hkey : ∀ a ∈ adj, ∀ x ∈ a.entries, q a = true ↔ k x) :
    Sound (adj.filter q) ∧ (entries (adj.filter q)).Nodup ∧
      ∀ x, x ∈ entries (adj.filter q) ↔ x ∈ entries adj ∧ k x := by
  refine ⟨⟨fun a ha => hadj.segment a (List.mem_filter.mp ha).1,
    hadj.keys.sublist (List.filter_sublist.map _)⟩, ?_, fun x => ?_⟩
  · exact hnodup.sublist (List.filter_sublist.flatMap Segment.entries)
  · rw [mem_entries_filter, mem_entries]
    constructor
    · rintro ⟨a, ha, hq, hx⟩
      exact ⟨⟨a, ha, hx⟩, (hkey a ha x hx).mp hq⟩
    · rintro ⟨⟨a, ha, hx⟩, hk⟩
      exact ⟨a, ha, (hkey a ha x hx).mpr hk, hx⟩

variable (st') in
/-- Both ends of a registered edge let go of it. -/
theorem Coherent.removeEdge (h : Coherent st) {e : EdgeRow} (he : e ∈ st.ogEdge)
    (hadj : st'.ogAdj = remove (remove st.ogAdj e.src e.typeId .o e.id) e.dst e.typeId .i e.id)
    (hedge : st'.ogEdge = st.ogEdge.filter fun r => r.id ≠ e.id)
    (hnode : st'.ogNode = st.ogNode) (halloc : st'.ogIdAlloc = st.ogIdAlloc) :
    Coherent st' ∧ ∀ x, x ∈ entries st'.ogAdj ↔ x ∈ entries st.ogAdj ∧ x.eid ≠ e.id := by
  have hids : (st.ogEdge.map (·.id)).Nodup := (List.nodup_append.mp h.ids).2.1
  have hplace (x : Entry) (hx : x ∈ entries st.ogAdj) (heid : x.eid = e.id) :
      x ∈ edgeEntries e := by
    obtain ⟨e', he', hmem⟩ := mem_registryEntries.mp (h.registered x hx)
    rwa [List.inj_on_of_nodup_map hids he he' (heid.symm.trans (eid_of_mem_edgeEntries hmem))]
  simp only [edgeEntries, List.mem_cons, List.not_mem_nil, or_false] at hplace
  have huniq (x : Entry) (hx : x ∈ entries st.ogAdj) (y : Entry) (hy : y ∈ entries st.ogAdj)
      (d : Dir) (hxe : x.eid = e.id) (hye : y.eid = e.id) (hxd : x.dir = d) (hyd : y.dir = d) :
      x = y := h.entry_unique hx hy (hxe.trans hye.symm) (hxd.trans hyd.symm)
  obtain ⟨hsoundOut, hnodupOut, hout⟩ := mem_entries_remove h.sound h.nodup
    (fun x hx y hy hxe hye => huniq x hx y hy .o hxe hye)
    (fun x hx heid hdir => by
      rcases hplace x hx heid with rfl | rfl
      · exact ⟨rfl, rfl⟩
      · cases hdir)
  obtain ⟨hsoundIn, hnodupIn, hin⟩ := mem_entries_remove hsoundOut hnodupOut
    (fun x hx y hy hxe hye => huniq x ((hout x).mp hx).1 y ((hout y).mp hy).1 .i hxe hye)
    (fun x hx heid hdir => by
      rcases hplace x ((hout x).mp hx).1 heid with rfl | rfl
      · cases hdir
      · exact ⟨rfl, rfl⟩)
  have hentries (x : Entry) :
      x ∈ entries st'.ogAdj ↔ x ∈ entries st.ogAdj ∧ x.eid ≠ e.id := by
    rw [hadj, hin, hout]
    constructor
    · rintro ⟨⟨hx, ho⟩, hi⟩
      refine ⟨hx, fun heid => ?_⟩
      cases hdir : x.dir with
      | o => exact ho ⟨heid, hdir⟩
      | i => exact hi ⟨heid, hdir⟩
    · rintro ⟨hx, hne⟩
      exact ⟨⟨hx, fun hkey => hne hkey.1⟩, fun hkey => hne hkey.1⟩
  refine ⟨h.shrink (hadj ▸ hsoundIn) (hadj ▸ hnodupIn) (hnode ▸ List.Sublist.refl _)
    (hedge ▸ List.filter_sublist) halloc fun x hx => ?_, hentries⟩
  obtain ⟨hold, hne⟩ := (hentries x).mp hx
  refine ⟨hold, ?_⟩
  obtain ⟨r, hr, hmem⟩ := mem_registryEntries.mp (h.registered x hold)
  have heid := eid_of_mem_edgeEntries hmem
  rw [hedge, heid]
  exact List.mem_map_of_mem (List.mem_filter.mpr ⟨hr, by simpa [← heid] using hne⟩)

theorem Coherent.of_eq (h : Coherent st) (hadj : st'.ogAdj = st.ogAdj)
    (hedge : st'.ogEdge = st.ogEdge) (hnode : st'.ogNode = st.ogNode)
    (halloc : st'.ogIdAlloc = st.ogIdAlloc) : Coherent st' := by
  have hids : idsOf st' = idsOf st := by simp only [idsOf, hedge, hnode]
  exact ⟨hadj ▸ h.sound, hadj ▸ h.nodup, hadj ▸ hedge ▸ h.registered, hedge ▸ h.types,
    hids ▸ h.ids, hids ▸ halloc ▸ h.allocated⟩

variable (st') in
/-- A node goes with its segments. -/
theorem Coherent.removeNode (h : Coherent st) (id : Int)
    (hadj : st'.ogAdj = st.ogAdj.filter fun a => a.src ≠ id) (hedge : st'.ogEdge = st.ogEdge)
    (hnode : st'.ogNode = st.ogNode.filter fun r => r.id ≠ id)
    (halloc : st'.ogIdAlloc = st.ogIdAlloc) :
    Coherent st' ∧ ∀ x, x ∈ entries st'.ogAdj ↔ x ∈ entries st.ogAdj ∧ x.src ≠ id := by
  obtain ⟨hsound, hnodup, hentries⟩ := entries_filter (q := fun a => a.src ≠ id)
    (k := fun x => x.src ≠ id) h.sound h.nodup fun a _ x hx => by
      rw [← (Segment.mem_entries_iff.mp hx).1.1, decide_eq_true_eq]
  refine ⟨h.shrink (hadj ▸ hsound) (hadj ▸ hnodup) (hnode ▸ List.filter_sublist)
    (hedge ▸ List.Sublist.refl _) halloc fun x hx => ?_, fun x => hadj ▸ hentries x⟩
  rw [hadj] at hx
  have hold := ((hentries x).mp hx).1
  obtain ⟨e, he, hmem⟩ := mem_registryEntries.mp (h.registered x hold)
  rw [hedge, eid_of_mem_edgeEntries hmem]
  exact ⟨hold, List.mem_map_of_mem he⟩

end Removal

section Deletes

variable {st st' st₁ : Store} {s : Session}

theorem deleteRow_catalog (st : Store) (tid id : Int) :
    (deleteRow st tid id).catalog = st.schema.catalog := by
  unfold deleteRow
  split <;> rfl

/-- What taking edges away does to every table. -/
structure Cut (ids : List Int) (st st' : Store) : Prop where
  coherent : Coherent st'
  catalog : st'.schema.catalog = st.schema.catalog
  nodes : st'.ogNode = st.ogNode
  edge : ∀ e, e ∈ st'.ogEdge ↔ e ∈ st.ogEdge ∧ e.id ∉ ids
  entry : ∀ x, x ∈ entries st'.ogAdj ↔ x ∈ entries st.ogAdj ∧ x.eid ∉ ids
  role : ∀ p, p ∈ st'.ogRolePlayer ↔ p ∈ st.ogRolePlayer ∧ p.edgeId ∉ ids

theorem Cut.refl (h : Coherent st) : Cut [] st st :=
  ⟨h, rfl, rfl, by simp, by simp, by simp⟩

theorem Cut.cons {eid : Int} {ids : List Int} (h : Cut [eid] st st₁) (h' : Cut ids st₁ st') :
    Cut (eid :: ids) st st' where
  coherent := h'.coherent
  catalog := h'.catalog.trans h.catalog
  nodes := h'.nodes.trans h.nodes
  edge e := by
    rw [h'.edge, h.edge]
    simp only [List.mem_cons, List.not_mem_nil, or_false, not_or, and_assoc]
  entry x := by
    rw [h'.entry, h.entry]
    simp only [List.mem_cons, List.not_mem_nil, or_false, not_or, and_assoc]
  role p := by
    rw [h'.role, h.role]
    simp only [List.mem_cons, List.not_mem_nil, or_false, not_or, and_assoc]

theorem deleteEdgeInner_eq_ok {eid n : Int} (h : Coherent st)
    (hrun : deleteEdgeInner s st eid = .ok (st', n)) :
    (eid ∉ st.ogEdge.map (·.id) ∧ st' = st) ∨ eid ∈ st.ogEdge.map (·.id) ∧ Cut [eid] st st' := by
  unfold deleteEdgeInner at hrun
  dsimp only at hrun
  cases hfind : st.ogEdge.find? fun e => e.id = eid with
  | none =>
      rw [hfind] at hrun
      obtain ⟨rfl, -⟩ := Prod.mk.inj (Except.ok.inj hrun)
      refine .inl ⟨fun hmem => ?_, rfl⟩
      obtain ⟨e, he, hid⟩ := List.mem_map.mp hmem
      exact absurd hid (by simpa using List.find?_eq_none.mp hfind e he)
  | some e =>
      rw [hfind] at hrun
      obtain ⟨-, -, hrun⟩ := bind_eq_ok.mp hrun
      obtain ⟨rfl, -⟩ := Prod.mk.inj (pure_eq_ok.mp hrun)
      have he := List.mem_of_find?_eq_some hfind
      obtain rfl : e.id = eid := by simpa using List.find?_some hfind
      rw [← h.types e he]
      obtain ⟨hcoherent, hentry⟩ := h.removeEdge { st with
        schema := deleteRow st e.typeId e.id
        ogEdge := st.ogEdge.filter fun r => r.id ≠ e.id
        ogAdj := remove (remove st.ogAdj e.src e.typeId .o e.id) e.dst e.typeId .i e.id
        ogRolePlayer := st.ogRolePlayer.filter fun p => p.edgeId ≠ e.id } he rfl rfl rfl rfl
      refine .inr ⟨List.mem_map_of_mem he, hcoherent, deleteRow_catalog .., rfl, fun r => ?_,
        fun x => ?_, fun p => ?_⟩
      · simp [List.mem_filter]
      · simpa using hentry x
      · simp [List.mem_filter]

theorem deleteEdges_eq_ok {ids : List Int} {k n : Int} (h : Coherent st) (hids : ids.Nodup)
    (hreg : ∀ eid ∈ ids, eid ∈ st.ogEdge.map (·.id))
    (hrun : ids.foldlM (fun (acc : Store × Int) eid => do
      let (st, n) ← deleteEdgeInner s acc.1 eid
      return (st, acc.2 + n)) (st, k) = .ok (st', n)) : Cut ids st st' := by
  induction ids generalizing st k with
  | nil =>
      obtain ⟨rfl, -⟩ := Prod.mk.inj (pure_eq_ok.mp hrun)
      exact .refl h
  | cons eid ids ih =>
      obtain ⟨⟨mid, m⟩, hmid, hrest⟩ := foldlM_cons_eq_ok.mp hrun
      obtain ⟨⟨mid', m'⟩, hdelete, hmid⟩ := bind_eq_ok.mp hmid
      obtain ⟨rfl, -⟩ := Prod.mk.inj (pure_eq_ok.mp hmid)
      obtain ⟨hnot, hids⟩ := List.nodup_cons.mp hids
      rcases deleteEdgeInner_eq_ok h hdelete with ⟨hnone, -⟩ | ⟨-, hcut⟩
      · exact absurd (hreg eid (List.mem_cons_self ..)) hnone
      · refine hcut.cons (ih hcut.coherent hids (fun x hx => ?_) hrest)
        obtain ⟨e, he, rfl⟩ := List.mem_map.mp (hreg x (List.mem_cons_of_mem _ hx))
        exact List.mem_map_of_mem ((hcut.edge e).mpr ⟨he, by
          rw [List.mem_singleton]
          rintro rfl
          exact hnot hx⟩)

/-- The edges a segment of a node mentions are those of its entries. -/
theorem Coherent.mem_incident (h : Coherent st) {id x : Int} :
    x ∈ incident st.ogAdj id ↔ ∃ y ∈ entries st.ogAdj, y.src = id ∧ y.eid = x := by
  rw [AdjacencyMirror.mem_incident]
  constructor
  · rintro ⟨a, ha, rfl, hx⟩
    obtain ⟨nbr, hzip⟩ := (Segment.Sound.mem_eid_iff (h.sound.segment a ha)).mp hx
    exact ⟨⟨a.src, a.etype, a.dir, nbr, x⟩,
      mem_entries.mpr ⟨a, ha, Segment.mem_entries_iff.mpr ⟨⟨rfl, rfl, rfl⟩, hzip⟩⟩, rfl, rfl⟩
  · rintro ⟨y, hy, rfl, rfl⟩
    obtain ⟨a, ha, hy⟩ := mem_entries.mp hy
    obtain ⟨hat, hzip⟩ := Segment.mem_entries_iff.mp hy
    exact ⟨a, ha, hat.1, (List.of_mem_zip hzip).2⟩

/-- Deleting a node by the storage layer: it goes, and so do the edges its
segments mention. -/
structure NodeCut (id : Int) (st st' : Store) : Prop where
  coherent : Coherent st'
  catalog : st'.schema.catalog = st.schema.catalog
  node : ∀ n, n ∈ st'.ogNode ↔ n ∈ st.ogNode ∧ n.id ≠ id
  edge : ∀ e, e ∈ st'.ogEdge ↔ e ∈ st.ogEdge ∧ e.id ∉ incident st.ogAdj id
  entry : ∀ x, x ∈ entries st'.ogAdj ↔ x ∈ entries st.ogAdj ∧ x.eid ∉ incident st.ogAdj id
  role : ∀ p, p ∈ st'.ogRolePlayer ↔ p ∈ st.ogRolePlayer ∧ p.edgeId ∉ incident st.ogAdj id

theorem deleteNodeInner_eq_ok {id n : Int} (h : Coherent st)
    (hrun : deleteNodeInner s st id = .ok (st', n)) : NodeCut id st st' := by
  unfold deleteNodeInner at hrun
  obtain ⟨-, -, hrun⟩ := bind_eq_ok.mp hrun
  obtain ⟨-, -, hrun⟩ := bind_eq_ok.mp hrun
  obtain ⟨⟨mid, m⟩, hloop, hrun⟩ := bind_eq_ok.mp hrun
  obtain ⟨rfl, -⟩ := Prod.mk.inj (pure_eq_ok.mp hrun)
  have hreg : ∀ eid ∈ incident st.ogAdj id, eid ∈ st.ogEdge.map (·.id) := by
    intro eid heid
    obtain ⟨x, hx, -, rfl⟩ := h.mem_incident.mp heid
    obtain ⟨e, he, hmem⟩ := mem_registryEntries.mp (h.registered x hx)
    rw [eid_of_mem_edgeEntries hmem]
    exact List.mem_map_of_mem he
  have hcut := deleteEdges_eq_ok h (List.nodup_dedup _) hreg hloop
  obtain ⟨hcoherent, hentry⟩ := hcut.coherent.removeNode { mid with
    schema := deleteRow mid (idType id) id
    ogNode := mid.ogNode.filter fun r => r.id ≠ id
    ogAdj := mid.ogAdj.filter fun a => a.src ≠ id } id rfl rfl rfl rfl
  refine ⟨hcoherent, (deleteRow_catalog ..).trans hcut.catalog, fun r => ?_, hcut.edge,
    fun x => ?_, hcut.role⟩
  · simp [List.mem_filter, hcut.nodes]
  · rw [hentry, hcut.entry]
    refine ⟨fun hx => hx.1, fun hx => ⟨hx, fun hsrc => ?_⟩⟩
    exact hx.2 (h.mem_incident.mpr ⟨x, hx.1, hsrc, rfl⟩)

end Deletes

section Instances

variable {st st' st₁ : Store} {hasTid : Int}

/-- What a TypeQL deletion does to every table: the ownerships of some instances
go, and others go with their segments and the assignments to them. -/
structure Swept (hasTid : Int) (U R : Set Int) (st st' : Store) : Prop where
  coherent : Coherent st'
  catalog : st'.schema.catalog = st.schema.catalog
  node : ∀ n, n ∈ st'.ogNode ↔ n ∈ st.ogNode ∧ n.id ∉ R
  edge : ∀ e, e ∈ st'.ogEdge ↔ e ∈ st.ogEdge ∧ ¬ (e.typeId = hasTid ∧ (e.src ∈ U ∨ e.dst ∈ U))
  entry : ∀ x, x ∈ entries st'.ogAdj ↔
    x ∈ entries st.ogAdj ∧ x.src ∉ R ∧ x.eid ∈ st'.ogEdge.map (·.id)
  role : ∀ p, p ∈ st'.ogRolePlayer ↔ p ∈ st.ogRolePlayer ∧ p.edgeId ∉ R

theorem Swept.refl (h : Coherent st) : Swept hasTid ∅ ∅ st st where
  coherent := h
  catalog := rfl
  node := by simp
  edge := by simp
  entry x := by
    refine ⟨fun hx => ⟨hx, Set.notMem_empty _, ?_⟩, fun hx => hx.1⟩
    obtain ⟨e, he, hmem⟩ := mem_registryEntries.mp (h.registered x hx)
    exact eid_of_mem_edgeEntries hmem ▸ List.mem_map_of_mem he
  role := by simp

theorem Swept.edge_ids {U R : Set Int} (h : Swept hasTid U R st st') {x : Int}
    (hx : x ∈ st'.ogEdge.map (·.id)) : x ∈ st.ogEdge.map (·.id) := by
  obtain ⟨e, he, rfl⟩ := List.mem_map.mp hx
  exact List.mem_map_of_mem ((h.edge e).mp he).1

theorem Swept.trans {U R U' R' : Set Int} (h : Swept hasTid U R st st₁)
    (h' : Swept hasTid U' R' st₁ st') : Swept hasTid (U ∪ U') (R ∪ R') st st' where
  coherent := h'.coherent
  catalog := h'.catalog.trans h.catalog
  node n := by
    rw [h'.node, h.node, Set.mem_union, not_or, and_assoc]
  edge e := by
    rw [h'.edge, h.edge]
    simp only [Set.mem_union]
    tauto
  entry x := by
    rw [h'.entry, h.entry, Set.mem_union, not_or]
    constructor
    · rintro ⟨⟨hx, hR, -⟩, hR', heid⟩
      exact ⟨hx, ⟨hR, hR'⟩, heid⟩
    · rintro ⟨hx, ⟨hR, hR'⟩, heid⟩
      exact ⟨⟨hx, hR, h'.edge_ids heid⟩, hR', heid⟩
  role p := by
    rw [h'.role, h.role, Set.mem_union, not_or, and_assoc]

theorem ownership_eq_some {owner attr : Int} {e : EdgeRow}
    (h : ownership st hasTid owner attr = some e) :
    e ∈ st.ogEdge ∧ e.typeId = hasTid ∧ e.src = owner ∧ e.dst = attr := by
  refine ⟨List.mem_of_find?_eq_some h, ?_⟩
  simpa using List.find?_some h

/-- Taking back an ownership takes out one edge, its entries and nothing else. -/
theorem unlinkHas_eq (h : Coherent st) {owner attr : Int} {e : EdgeRow}
    (he : ownership st hasTid owner attr = some e) :
    Coherent (unlinkHas hasTid st owner attr) ∧
      (unlinkHas hasTid st owner attr).ogEdge = st.ogEdge.filter (fun r => r.id ≠ e.id) ∧
      (∀ x, x ∈ entries (unlinkHas hasTid st owner attr).ogAdj ↔
        x ∈ entries st.ogAdj ∧ x.eid ≠ e.id) ∧
      (unlinkHas hasTid st owner attr).ogNode = st.ogNode ∧
      (unlinkHas hasTid st owner attr).ogRolePlayer = st.ogRolePlayer ∧
      (unlinkHas hasTid st owner attr).schema.catalog = st.schema.catalog := by
  obtain ⟨hmem, rfl, rfl, rfl⟩ := ownership_eq_some he
  have heq : unlinkHas e.typeId st e.src e.dst =
      { st with
        schema := deleteRow st e.typeId e.id
        ogEdge := st.ogEdge.filter fun r => r.id ≠ e.id
        ogAdj := remove (remove st.ogAdj e.src e.typeId .o e.id) e.dst e.typeId .i e.id } := by
    simp only [unlinkHas, he]
  rw [heq]
  obtain ⟨hcoherent, hentry⟩ := h.removeEdge { st with
    schema := deleteRow st e.typeId e.id
    ogEdge := st.ogEdge.filter fun r => r.id ≠ e.id
    ogAdj := remove (remove st.ogAdj e.src e.typeId .o e.id) e.dst e.typeId .i e.id }
    hmem rfl rfl rfl rfl
  exact ⟨hcoherent, rfl, hentry, rfl, rfl, deleteRow_catalog ..⟩

theorem Coherent.unlinkHas (h : Coherent st) (owner attr : Int) :
    Coherent (unlinkHas hasTid st owner attr) := by
  cases he : ownership st hasTid owner attr with
  | none => simpa only [MixedStore.unlinkHas, he] using h
  | some e => exact (unlinkHas_eq h he).1

/-- The ownerships an instance takes part in. -/
def ownerships (hasTid id : Int) (edges : List EdgeRow) : List EdgeRow :=
  edges.filter fun e => e.typeId = hasTid ∧ (e.src = id ∨ e.dst = id)

theorem mem_ownerships {id : Int} {e : EdgeRow} :
    e ∈ ownerships hasTid id st.ogEdge ↔
      e ∈ st.ogEdge ∧ e.typeId = hasTid ∧ (e.src = id ∨ e.dst = id) := by
  simp [ownerships, List.mem_filter]

/-- The loop over the ownerships of an instance takes all of them, although each
step only looks for the ends of the one it is at. -/
theorem unlinkOwnerships {id : Int} {owned : List EdgeRow} (h : Coherent st)
    (howned : ∀ e ∈ owned, e.src = id ∨ e.dst = id)
    (hperm : ((ownerships hasTid id st.ogEdge).map fun e => (e.src, e.dst)).Perm
      (owned.map fun e => (e.src, e.dst))) :
    Swept hasTid {id} ∅ st
      (owned.foldl (fun st e => unlinkHas hasTid st e.src e.dst) st) := by
  induction owned generalizing st with
  | nil =>
      have hnone : ownerships hasTid id st.ogEdge = [] := List.map_eq_nil_iff.mp hperm.eq_nil
      refine { (Swept.refl h : Swept hasTid ∅ ∅ st st) with edge := fun e => ?_ }
      refine ⟨fun he => ⟨he, fun hown => ?_⟩, fun he => he.1⟩
      exact List.eq_nil_iff_forall_not_mem.mp hnone e (mem_ownerships.mpr ⟨he, hown⟩)
  | cons e owned ih =>
      -- Some registered ownership has the ends of the one the loop is at.
      obtain ⟨f, hf, hends⟩ : ∃ f ∈ ownerships hasTid id st.ogEdge, (f.src, f.dst) = (e.src, e.dst) :=
        List.mem_map.mp (hperm.symm.subset (List.mem_cons_self ..))
      obtain ⟨hf, hftype, -⟩ := mem_ownerships.mp hf
      obtain ⟨hfsrc, hfdst⟩ := Prod.mk.inj hends
      obtain ⟨g, hg⟩ : ∃ g, ownership st hasTid e.src e.dst = some g := by
        refine Option.isSome_iff_exists.mp (List.find?_isSome.mpr ⟨f, hf, ?_⟩)
        simp [hftype, hfsrc, hfdst]
      obtain ⟨hgmem, hgtype, hgsrc, hgdst⟩ := ownership_eq_some hg
      obtain ⟨hcoherent, hedge, hentry, hnode, hrole, hcatalog⟩ := unlinkHas_eq h hg
      have hgend : g.src = id ∨ g.dst = id := by
        rw [hgsrc, hgdst]
        exact howned e (List.mem_cons_self ..)
      have hids : (st.ogEdge.map (·.id)).Nodup := (List.nodup_append.mp h.ids).2.1
      have hrest : ((ownerships hasTid id (unlinkHas hasTid st e.src e.dst).ogEdge).map
          fun e => (e.src, e.dst)).Perm (owned.map fun e => (e.src, e.dst)) := by
        have hcons := perm_cons_filter (fun r : EdgeRow => r.id)
          (hids.sublist (List.filter_sublist.map _)) (mem_ownerships.mpr ⟨hgmem, hgtype, hgend⟩)
        have hcomm : ownerships hasTid id (unlinkHas hasTid st e.src e.dst).ogEdge =
            (ownerships hasTid id st.ogEdge).filter fun r => r.id ≠ g.id := by
          rw [hedge]
          exact List.filter_comm ..
        have hcons := (hcons.map fun e => (e.src, e.dst)).symm.trans hperm
        rw [List.map_cons, List.map_cons, hgsrc, hgdst] at hcons
        rw [hcomm]
        exact hcons.cons_inv
      have hswept := ih hcoherent (fun r hr => howned r (List.mem_cons_of_mem _ hr)) hrest
      refine ⟨hswept.coherent, hswept.catalog.trans hcatalog, fun n => ?_, fun r => ?_, fun x => ?_,
        fun p => ?_⟩
      · rw [List.foldl_cons, hswept.node, hnode]
      · rw [List.foldl_cons, hswept.edge, hedge, List.mem_filter]
        constructor
        · rintro ⟨⟨hr, -⟩, hown⟩
          exact ⟨hr, hown⟩
        · rintro ⟨hr, hown⟩
          refine ⟨⟨hr, decide_eq_true fun hid => hown ?_⟩, hown⟩
          obtain rfl := List.inj_on_of_nodup_map hids hr hgmem hid
          exact ⟨hgtype, hgend⟩
      · rw [List.foldl_cons, hswept.entry, hentry]
        constructor
        · rintro ⟨⟨hx, -⟩, hR, heid⟩
          exact ⟨hx, hR, heid⟩
        · rintro ⟨hx, hR, heid⟩
          refine ⟨⟨hx, ?_⟩, hR, heid⟩
          obtain ⟨r, hr, hid⟩ := List.mem_map.mp (hswept.edge_ids heid)
          rw [hedge] at hr
          rw [← hid]
          exact of_decide_eq_true (List.mem_filter.mp hr).2
      · rw [List.foldl_cons, hswept.role, hrole]

/-- The instances reached by going from a player to the relation it plays in. -/
inductive PlaysIn (roles : List RolePlayer) (id : Int) : Int → Prop
  | self : PlaysIn roles id id
  | step {p : RolePlayer} (h : PlaysIn roles id p.playerId) (hp : p ∈ roles) :
      PlaysIn roles id p.edgeId

theorem PlaysIn.trans {roles : List RolePlayer} {id r x : Int} (h : PlaysIn roles id r)
    (h' : PlaysIn roles r x) : PlaysIn roles id x := by
  induction h' with
  | self => exact h
  | step _ hp ih => exact .step ih hp

theorem PlaysIn.mono {roles roles' : List RolePlayer} {id x : Int} (hsub : roles' ⊆ roles)
    (h : PlaysIn roles' id x) : PlaysIn roles id x := by
  induction h with
  | self => exact .self
  | step _ hp ih => exact .step ih (hsub hp)

/-- The deletion went where the roles lead, and no further. -/
structure Reach (roles : List RolePlayer) (from' D : Set Int) : Prop where
  start : from' ⊆ D
  closed : ∀ p ∈ roles, p.playerId ∈ D → p.edgeId ∈ D
  within : ∀ x ∈ D, ∃ r ∈ from', PlaysIn roles r x

theorem Reach.eq {roles : List RolePlayer} {id : Int} {D : Set Int}
    (h : Reach roles {id} D) : D = {x | PlaysIn roles id x} := by
  ext x
  constructor
  · intro hx
    obtain ⟨r, rfl, hplays⟩ := h.within x hx
    exact hplays
  · intro hx
    induction hx with
    | self => exact h.start rfl
    | step _ hp ih => exact h.closed _ hp ih

/-- Two deletions in a row, the second of which finds what the first left. -/
theorem Reach.union {roles roles' : List RolePlayer} {A B D E : Set Int}
    (h : Reach roles A D) (h' : Reach roles' B E)
    (hroles : ∀ p, p ∈ roles' ↔ p ∈ roles ∧ p.edgeId ∉ D) : Reach roles (A ∪ B) (D ∪ E) where
  start := Set.union_subset_union h.start h'.start
  closed p hp hplayer := by
    rcases hplayer with hD | hE
    · exact .inl (h.closed p hp hD)
    · by_cases hgone : p.edgeId ∈ D
      · exact .inl hgone
      · exact .inr (h'.closed p ((hroles p).mpr ⟨hp, hgone⟩) hE)
  within x hx := by
    rcases hx with hD | hE
    · obtain ⟨r, hr, hplays⟩ := h.within x hD
      exact ⟨r, .inl hr, hplays⟩
    · obtain ⟨r, hr, hplays⟩ := h'.within x hE
      exact ⟨r, .inr hr, hplays.mono fun p hp => ((hroles p).mp hp).1⟩

theorem mem_relationsOf {id r : Int} :
    r ∈ relationsOf st id ↔ ∃ p ∈ st.ogRolePlayer, p.playerId = id ∧ p.edgeId = r := by
  simp [relationsOf, and_assoc]

/-- The loop over the relations of an instance, when the deletion of each is understood. -/
theorem deleteInstances_eq_ok {fuel : Nat}
    (ih : ∀ {st st' : Store} {id : Int}, Coherent st →
      deleteInstance hasTid fuel st id = .ok st' →
        ∃ D, Swept hasTid D D st st' ∧ Reach st.ogRolePlayer {id} D)
    {rels : List Int} (h : Coherent st)
    (hrun : rels.foldlM (deleteInstance hasTid fuel) st = .ok st') :
    ∃ D, Swept hasTid D D st st' ∧ Reach st.ogRolePlayer {r | r ∈ rels} D := by
  induction rels generalizing st with
  | nil =>
      obtain rfl := pure_eq_ok.mp hrun
      exact ⟨∅, .refl h, ⟨by simp, by simp, by simp⟩⟩
  | cons r rels ihrels =>
      obtain ⟨mid, hmid, hrest⟩ := foldlM_cons_eq_ok.mp hrun
      obtain ⟨D, hswept, hreach⟩ := ih h hmid
      obtain ⟨E, hswept', hreach'⟩ := ihrels hswept.coherent hrest
      refine ⟨D ∪ E, hswept.trans hswept', ?_⟩
      have hunion := hreach.union hreach' hswept.role
      have hset : ({r} ∪ {x | x ∈ rels} : Set Int) = {x | x ∈ r :: rels} := by
        ext x
        simp
      rwa [hset] at hunion

/-- Deleting an instance sweeps the instances its roles lead to. -/
theorem deleteInstance_reach {fuel : Nat} {id : Int} (h : Coherent st)
    (hrun : deleteInstance hasTid fuel st id = .ok st') :
    ∃ D, Swept hasTid D D st st' ∧ Reach st.ogRolePlayer {id} D := by
  induction fuel generalizing st id st' with
  | zero => cases hrun
  | succ fuel ih =>
      simp only [deleteInstance] at hrun
      obtain ⟨mid, hloop, hrun⟩ := bind_eq_ok.mp hrun
      obtain ⟨-, -, hrun⟩ := bind_eq_ok.mp hrun
      obtain rfl := pure_eq_ok.mp hrun
      obtain ⟨st₁, hst₁⟩ : ∃ st₁, (ownerships hasTid id st.ogEdge).foldl
          (fun st e => unlinkHas hasTid st e.src e.dst) st = st₁ := ⟨_, rfl⟩
      have hunlinked : Swept hasTid {id} ∅ st st₁ :=
        hst₁ ▸ unlinkOwnerships h (fun e he => (mem_ownerships.mp he).2.2) (.refl _)
      have hloop : (relationsOf st₁ id).foldlM (deleteInstance hasTid fuel) st₁ = .ok mid := by
        rw [← hst₁]
        exact hloop
      obtain ⟨D, hswept, hreach⟩ := deleteInstances_eq_ok (fun h => ih h) hunlinked.coherent hloop
      have hroles (p : RolePlayer) := (hunlinked.role p).trans
        (and_iff_left (Set.notMem_empty p.edgeId))
      have hlast : Swept hasTid ∅ {id} mid
          { mid with
            schema := deleteRow mid (idType id) id
            ogNode := mid.ogNode.filter fun r => r.id ≠ id
            ogAdj := mid.ogAdj.filter fun a => a.src ≠ id
            ogRolePlayer := mid.ogRolePlayer.filter fun p => p.edgeId ≠ id } := by
        obtain ⟨hcoherent, hentry⟩ := hswept.coherent.removeNode
          { mid with
            schema := deleteRow mid (idType id) id
            ogNode := mid.ogNode.filter fun r => r.id ≠ id
            ogAdj := mid.ogAdj.filter fun a => a.src ≠ id
            ogRolePlayer := mid.ogRolePlayer.filter fun p => p.edgeId ≠ id } id rfl rfl rfl rfl
        refine ⟨hcoherent, deleteRow_catalog .., fun n => ?_, fun e => ?_, fun x => ?_, fun p => ?_⟩
        · simp [List.mem_filter]
        · simp
        · rw [hentry, Set.mem_singleton_iff]
          refine ⟨fun hx => ⟨hx.1, hx.2, ?_⟩, fun hx => ⟨hx.1, hx.2.1⟩⟩
          obtain ⟨e, he, hmem⟩ := mem_registryEntries.mp (hswept.coherent.registered x hx.1)
          exact eid_of_mem_edgeEntries hmem ▸ List.mem_map_of_mem he
        · simp [List.mem_filter]
      have hall := (hunlinked.trans hswept).trans hlast
      have hset : ({id} ∪ D ∪ ∅ : Set Int) = {id} ∪ D ∧ (∅ ∪ D ∪ {id} : Set Int) = {id} ∪ D :=
        ⟨Set.union_empty _, by rw [Set.empty_union, Set.union_comm]⟩
      rw [hset.1, hset.2] at hall
      refine ⟨{id} ∪ D, hall, Set.subset_union_left, fun p hp hplayer => ?_, fun x hx => ?_⟩
      · rcases hplayer with hid | hD
        · exact .inr (hreach.start (mem_relationsOf.mpr ⟨p, (hroles p).mpr hp, hid, rfl⟩))
        · exact .inr (hreach.closed p ((hroles p).mpr hp) hD)
      · refine ⟨id, rfl, ?_⟩
        rcases hx with rfl | hD
        · exact .self
        · obtain ⟨r, hr, hplays⟩ := hreach.within x hD
          obtain ⟨p, hp, rfl, rfl⟩ := mem_relationsOf.mp hr
          have hrel : PlaysIn st.ogRolePlayer p.playerId p.edgeId :=
            .step .self ((hroles p).mp hp)
          exact hrel.trans (hplays.mono fun p hp => (hroles p).mp hp)

theorem deleteInstance_eq_ok {fuel : Nat} {id : Int} (h : Coherent st)
    (hrun : deleteInstance hasTid fuel st id = .ok st') :
    Swept hasTid {x | PlaysIn st.ogRolePlayer id x} {x | PlaysIn st.ogRolePlayer id x} st st' := by
  obtain ⟨D, hswept, hreach⟩ := deleteInstance_reach h hrun
  rwa [hreach.eq] at hswept

end Instances

section Runs

variable {st st' : Store}

theorem Coherent.empty (h : EmptyStore st) : Coherent st := by
  obtain ⟨⟨hnode, hedge, hadj⟩, -⟩ := h
  have hids : idsOf st = [] := by simp only [idsOf, hnode, hedge, List.map_nil, List.append_nil]
  refine ⟨hadj ▸ Sound.nil, ?_, ?_, ?_, ?_, ?_⟩
  · simp [hadj, entries]
  · simp [hadj, entries]
  · simp [hedge]
  · simp [hids]
  · simp [hids]

theorem Coherent.storage {s : Session} {op : GraphStorage.Op} {n : Int} (h : Coherent st)
    (hrun : op.run s st = .ok (st', n)) : Coherent st' := by
  cases op with
  | createNode tid name props =>
      obtain ⟨hedge, hadj, halloc, hnode⟩ := createNodeInner_eq_ok hrun
      exact h.addNode halloc hadj hedge hnode rfl
  | createEdge tid name src dst props =>
      obtain ⟨halloc, -, hedge, hnode, adj, hout, hin⟩ := createEdgeInner_eq_ok hrun
      exact h.addEdge halloc hout hin hedge hnode rfl
  | deleteEdge id =>
      rcases deleteEdgeInner_eq_ok h hrun with ⟨-, rfl⟩ | ⟨-, hcut⟩
      · exact h
      · exact hcut.coherent
  | deleteNode id => exact (deleteNodeInner_eq_ok h hrun).coherent

theorem Coherent.createInstance {tid id : Int} {ty : String} (h : Coherent st)
    (hrun : createInstance st tid ty = .ok (st', id)) : Coherent st' := by
  unfold MixedStore.createInstance at hrun
  obtain ⟨kind, -, hrun⟩ := bind_eq_ok.mp hrun
  obtain ⟨-, -, hrun⟩ := bind_eq_ok.mp hrun
  obtain ⟨table, -, hrun⟩ := bind_eq_ok.mp hrun
  obtain ⟨-, -, hrun⟩ := bind_eq_ok.mp hrun
  obtain ⟨⟨alloc, nid⟩, halloc, hrun⟩ := bind_eq_ok.mp hrun
  obtain ⟨nodes, hnodes, hrun⟩ := bind_eq_ok.mp hrun
  obtain ⟨-, -, hrun⟩ := bind_eq_ok.mp hrun
  obtain ⟨schema, -, hrun⟩ := bind_eq_ok.mp hrun
  obtain ⟨rfl, rfl⟩ := Prod.mk.inj (pure_eq_ok.mp hrun)
  exact h.addNode halloc rfl rfl (insertNode_eq_ok hnodes) rfl

theorem Coherent.internAttribute {tid id : Int} {attr : String} {val : Values.Val}
    (h : Coherent st) (hrun : internAttribute st tid attr val = .ok (st', id)) : Coherent st' := by
  unfold MixedStore.internAttribute at hrun
  obtain ⟨table, -, hrun⟩ := bind_eq_ok.mp hrun
  split at hrun
  · obtain ⟨rfl, -⟩ := Prod.mk.inj (pure_eq_ok.mp hrun)
    exact h
  · obtain ⟨⟨alloc, nid⟩, halloc, hrun⟩ := bind_eq_ok.mp hrun
    obtain ⟨nodes, hnodes, hrun⟩ := bind_eq_ok.mp hrun
    obtain ⟨schema, -, hrun⟩ := bind_eq_ok.mp hrun
    obtain ⟨rfl, rfl⟩ := Prod.mk.inj (pure_eq_ok.mp hrun)
    exact h.addNode halloc rfl rfl (insertNode_eq_ok hnodes) rfl

theorem Coherent.linkHas {hasTid owner attr : Int} (h : Coherent st)
    (hrun : linkHas hasTid st owner attr = .ok st') : Coherent st' := by
  unfold MixedStore.linkHas at hrun
  split at hrun
  · obtain rfl := Except.ok.inj hrun
    exact h
  · obtain ⟨table, -, hrun⟩ := bind_eq_ok.mp hrun
    obtain ⟨⟨alloc, eid⟩, halloc, hrun⟩ := bind_eq_ok.mp hrun
    obtain ⟨edges, hedges, hrun⟩ := bind_eq_ok.mp hrun
    obtain ⟨schema, -, hrun⟩ := bind_eq_ok.mp hrun
    obtain ⟨adj, hout, hrun⟩ := bind_eq_ok.mp hrun
    obtain ⟨adj', hin, hrun⟩ := bind_eq_ok.mp hrun
    obtain rfl := pure_eq_ok.mp hrun
    exact h.addEdge halloc hout hin (insertEdge_eq_ok hedges).1 rfl rfl

/-- The registries and segments after the types of a list are gone. -/
structure Dropped (subs : List Int) (st st' : Store) : Prop where
  coherent : Coherent st'
  node : st'.ogNode = st.ogNode.filter fun n => n.typeId ∉ subs
  edge : st'.ogEdge = st.ogEdge.filter fun e => e.typeId ∉ subs
  adj : st'.ogAdj = st.ogAdj.filter fun a => a.etype ∉ subs
  types : st'.schema.catalog.types = st.schema.catalog.types.filter fun t => t.typeId ∉ subs
  graphs : st'.schema.catalog.graphs = st.schema.catalog.graphs
  roles : st'.ogRolePlayer = st.ogRolePlayer

theorem Dropped.refl (h : Coherent st) : Dropped [] st st := by
  refine ⟨h, ?_, ?_, ?_, ?_, rfl, rfl⟩ <;> simp

theorem filter_notMem_cons {α : Type} (l : List α) (f : α → Int) (x : Int) (xs : List Int) :
    ((l.filter fun a => f a ∉ [x]).filter fun a => f a ∉ xs) =
      l.filter fun a => f a ∉ x :: xs := by
  rw [List.filter_filter]
  exact List.filter_congr fun a _ => by simp [Bool.and_comm]

theorem Dropped.cons {sub : Int} {subs : List Int} {st₁ : Store} (h : Dropped [sub] st st₁)
    (h' : Dropped subs st₁ st') : Dropped (sub :: subs) st st' := by
  refine ⟨h'.coherent, ?_, ?_, ?_, ?_, h'.graphs.trans h.graphs, h'.roles.trans h.roles⟩
  · rw [h'.node, h.node, filter_notMem_cons]
  · rw [h'.edge, h.edge, filter_notMem_cons]
  · rw [h'.adj, h.adj, filter_notMem_cons]
  · rw [h'.types, h.types, filter_notMem_cons]

theorem dropTable_catalog (schema : Schema) (tid : Int) :
    (dropTable schema tid).catalog = schema.catalog := by
  unfold dropTable
  split <;> rfl

theorem dropOne_eq_ok {sub : Int} (h : Coherent st) (hrun : dropOne st sub = .ok st') :
    Dropped [sub] st st' := by
  unfold dropOne at hrun
  obtain ⟨catalog, hcatalog, hrun⟩ := bind_eq_ok.mp hrun
  obtain rfl := pure_eq_ok.mp hrun
  rw [dropTable_catalog] at hcatalog
  unfold deleteType at hcatalog
  split at hcatalog
  · cases hcatalog
  obtain rfl := Except.ok.inj hcatalog
  obtain ⟨hsound, hnodup, hentries⟩ := entries_filter (q := fun a => a.etype ≠ sub)
    (k := fun x => x.etype ≠ sub) h.sound h.nodup fun a _ x hx => by
      rw [← (Segment.mem_entries_iff.mp hx).1.2.1, decide_eq_true_eq]
  refine ⟨h.shrink hsound hnodup List.filter_sublist List.filter_sublist rfl fun x hx => ?_,
    ?_, ?_, ?_, ?_, rfl, rfl⟩
  · obtain ⟨hold, hne⟩ := (hentries x).mp hx
    obtain ⟨e, he, hmem⟩ := mem_registryEntries.mp (h.registered x hold)
    have hetype : x.etype = e.typeId := by
      simp only [edgeEntries, List.mem_cons, List.not_mem_nil, or_false] at hmem
      rcases hmem with rfl | rfl <;> rfl
    refine ⟨hold, ?_⟩
    rw [eid_of_mem_edgeEntries hmem]
    exact List.mem_map_of_mem (List.mem_filter.mpr ⟨he, by simpa [← hetype] using hne⟩)
  · simp
  · simp
  · simp
  · simp

theorem dropTypes_eq_ok {subs : List Int} (h : Coherent st)
    (hrun : subs.foldlM dropOne st = .ok st') : Dropped subs st st' := by
  induction subs generalizing st with
  | nil =>
      obtain rfl := pure_eq_ok.mp hrun
      exact .refl h
  | cons sub subs ih =>
      obtain ⟨mid, hmid, hrest⟩ := foldlM_cons_eq_ok.mp hrun
      have hone := dropOne_eq_ok h hmid
      exact hone.cons (ih hone.coherent hrest)

theorem Coherent.dropType {gid : Int} {name : String} {cascade : Bool} (h : Coherent st)
    (hrun : dropType st gid name cascade = .ok st') : Coherent st' := by
  unfold MixedStore.dropType at hrun
  obtain ⟨tid, -, hrun⟩ := bind_eq_ok.mp hrun
  obtain ⟨-, -, hrun⟩ := bind_eq_ok.mp hrun
  obtain ⟨mid, hmid, hrun⟩ := bind_eq_ok.mp hrun
  obtain ⟨catalog, -, hrun⟩ := bind_eq_ok.mp hrun
  obtain rfl := pure_eq_ok.mp hrun
  exact (dropTypes_eq_ok h hmid).coherent.of_eq rfl rfl rfl rfl

theorem Coherent.dropGraph {name : String} (h : Coherent st)
    (hrun : dropGraph st name = .ok st') : Coherent st' := by
  unfold MixedStore.dropGraph at hrun
  obtain ⟨gid, -, hrun⟩ := bind_eq_ok.mp hrun
  obtain ⟨-, -, hrun⟩ := bind_eq_ok.mp hrun
  obtain rfl := pure_eq_ok.mp hrun
  exact h.of_eq rfl rfl rfl rfl

/-- Every operation of either language keeps the store coherent. -/
theorem Coherent.step {op : MixedOp} (h : Coherent st) (hrun : op.run st = .ok st') :
    Coherent st' := by
  cases op with
  | storage s op =>
      obtain ⟨⟨mid, n⟩, hop, rfl⟩ := map_eq_ok.mp hrun
      exact h.storage hop
  | addRolePlayer p =>
      obtain rfl := Except.ok.inj hrun
      unfold MixedStore.addRolePlayer
      split
      · exact h
      · exact h.of_eq rfl rfl rfl rfl
  | removeLinks rel player roleIds =>
      obtain rfl := Except.ok.inj hrun
      exact h.of_eq rfl rfl rfl rfl
  | createInstance tid ty =>
      obtain ⟨⟨mid, n⟩, hop, rfl⟩ := map_eq_ok.mp hrun
      exact h.createInstance hop
  | internAttribute tid attr val =>
      obtain ⟨⟨mid, n⟩, hop, rfl⟩ := map_eq_ok.mp hrun
      exact h.internAttribute hop
  | linkHas hasTid owner attr => exact h.linkHas hrun
  | unlinkHas hasTid owner attr =>
      obtain rfl := Except.ok.inj hrun
      exact h.unlinkHas owner attr
  | deleteInstance hasTid fuel id => exact (deleteInstance_eq_ok h hrun).coherent
  | grow g =>
      obtain ⟨schema, -, hrun⟩ := bind_eq_ok.mp hrun
      obtain rfl := pure_eq_ok.mp hrun
      exact h.of_eq rfl rfl rfl rfl
  | dropType gid name cascade => exact h.dropType hrun
  | dropGraph name => exact h.dropGraph hrun

/-- Any operation may come next. -/
def Anything (_ : List MixedOp) (_ : Store) (_ : MixedOp) : Prop := True

/-- A store that operations of both languages lead to from an empty one. -/
def Reached (st : Store) : Prop :=
  ∃ st₀ ops, EmptyStore st₀ ∧ Run MixedOp.run Anything st₀ ops st

theorem Reached.coherent (h : Reached st) : Coherent st := by
  obtain ⟨st₀, ops, hempty, hrun⟩ := h
  exact hrun.invariant (I := fun _ st => Coherent st) (.empty hempty)
    fun _ _ _ _ h _ hstep => h.step hstep

end Runs

end OntologicalDb.StoreCoherence
