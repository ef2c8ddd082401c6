import OntologicalDb.GraphStorage

/-!
The adjacency segments mirror the edge registry in every reachable state: both
list the same neighbours, and no segment is misaligned, over-full or empty.
-/

namespace OntologicalDb.AdjacencyMirror

open OntologicalDb.Adjacency
open OntologicalDb.ExceptRules
open OntologicalDb.GraphStorage
open OntologicalDb.Ids
open OntologicalDb.KeyedRows
open OntologicalDb.TypeCatalog
open OntologicalDb.TypedTables

/-- The two entries a registered edge owns, one at each of its ends. -/
def edgeEntries (e : EdgeRow) : List Entry :=
  [⟨e.src, e.typeId, .o, e.dst, e.id⟩, ⟨e.dst, e.typeId, .i, e.src, e.id⟩]

def registryEntries (edges : List EdgeRow) : List Entry := edges.flatMap edgeEntries

/-- The registry and the segments agree. -/
structure Mirror (st : Store) : Prop where
  sound : Sound st.ogAdj
  ids : (st.ogEdge.map (·.id)).Nodup
  types : ∀ e ∈ st.ogEdge, e.typeId = idType e.id
  mirrored : (entries st.ogAdj).Perm (registryEntries st.ogEdge)

section Registry

variable {edges : List EdgeRow} {x : Entry}

theorem mem_registryEntries :
    x ∈ registryEntries edges ↔ ∃ e ∈ edges, x ∈ edgeEntries e := by
  simp [registryEntries]

theorem eid_of_mem_edgeEntries {e : EdgeRow} (h : x ∈ edgeEntries e) : x.eid = e.id := by
  simp only [edgeEntries, List.mem_cons, List.not_mem_nil, or_false] at h
  rcases h with rfl | rfl <;> rfl

theorem eid_ne_of_mem_filter {eid : Int}
    (h : x ∈ registryEntries (edges.filter fun r => r.id ≠ eid)) : x.eid ≠ eid := by
  obtain ⟨e, he, hx⟩ := mem_registryEntries.mp h
  rw [eid_of_mem_edgeEntries hx]
  simpa using (List.mem_filter.mp he).2

/-- Taking one edge out of the registry takes out its two entries. -/
theorem registryEntries_perm_filter {e : EdgeRow} (hids : (edges.map (·.id)).Nodup)
    (he : e ∈ edges) :
    (registryEntries edges).Perm
      (edgeEntries e ++ registryEntries (edges.filter fun r => r.id ≠ e.id)) := by
  have hperm := perm_cons_filter (fun r : EdgeRow => r.id) hids he
  simpa [registryEntries] using hperm.flatMap_right edgeEntries

end Registry

section Steps

variable {st st' : Store} {s : Session}

theorem Mirror.of_graph_eq (h : Mirror st) (hedge : st'.ogEdge = st.ogEdge)
    (hadj : st'.ogAdj = st.ogAdj) : Mirror st' where
  sound := hadj ▸ h.sound
  ids := hedge ▸ h.ids
  types := hedge ▸ h.types
  mirrored := hadj ▸ hedge ▸ h.mirrored

theorem Mirror.empty (h : EmptyGraph st) : Mirror st := by
  obtain ⟨-, hedge, hadj⟩ := h
  refine ⟨hadj ▸ Sound.nil, by simp [hedge], by simp [hedge], ?_⟩
  rw [hadj, hedge]
  exact .nil

theorem insertEdge_eq_ok {edges edges' : List EdgeRow} {r : EdgeRow}
    (h : insertEdge edges r = .ok edges') :
    edges' = edges ++ [r] ∧ r.id ∉ edges.map (·.id) := by
  unfold insertEdge at h
  split_ifs at h with hdup
  refine ⟨(Except.ok.inj h).symm, fun hmem => hdup ?_⟩
  obtain ⟨q, hq, hid⟩ := List.mem_map.mp hmem
  exact List.any_eq_true.mpr ⟨q, hq, by simpa using hid⟩

theorem allocId_type {alloc alloc' : List (Int × Int)} {tid id : Int}
    (h : allocId alloc tid = .ok (alloc', id)) : idType id = tid := by
  unfold allocId at h
  split at h
  · obtain ⟨i, hi, h⟩ := bind_eq_ok.mp h
    obtain ⟨-, rfl⟩ := Prod.mk.inj (pure_eq_ok.mp h)
    exact idType_makeId hi
  · obtain ⟨i, hi, h⟩ := bind_eq_ok.mp h
    obtain ⟨-, rfl⟩ := Prod.mk.inj (pure_eq_ok.mp h)
    exact idType_makeId hi

theorem insertNode_eq_ok {nodes nodes' : List NodeRow} {r : NodeRow}
    (h : insertNode nodes r = .ok nodes') : nodes' = nodes ++ [r] := by
  unfold insertNode at h
  split_ifs at h
  exact (Except.ok.inj h).symm

/-- Creating a node leaves the relationship side alone. -/
theorem createNodeInner_eq_ok {tid id : Int} {name : String} {props : Values.Json}
    (h : createNodeInner s st tid name props = .ok (st', id)) :
    st'.ogEdge = st.ogEdge ∧ st'.ogAdj = st.ogAdj ∧
      allocId st.ogIdAlloc tid = .ok (st'.ogIdAlloc, id) ∧
      st'.ogNode = st.ogNode ++ [⟨id, tid⟩] := by
  unfold createNodeInner at h
  obtain ⟨kind, -, h⟩ := bind_eq_ok.mp h
  obtain ⟨-, -, h⟩ := bind_eq_ok.mp h
  obtain ⟨table, -, h⟩ := bind_eq_ok.mp h
  obtain ⟨-, -, h⟩ := bind_eq_ok.mp h
  obtain ⟨⟨schema, plan⟩, -, h⟩ := bind_eq_ok.mp h
  obtain ⟨-, -, h⟩ := bind_eq_ok.mp h
  obtain ⟨⟨alloc, nid⟩, halloc, h⟩ := bind_eq_ok.mp h
  obtain ⟨nodes, hnodes, h⟩ := bind_eq_ok.mp h
  obtain ⟨schema, -, h⟩ := bind_eq_ok.mp h
  obtain ⟨rfl, rfl⟩ := Prod.mk.inj (pure_eq_ok.mp h)
  exact ⟨rfl, rfl, halloc, insertNode_eq_ok hnodes⟩

/-- Creating an edge registers it and appends it at both of its ends. -/
theorem createEdgeInner_eq_ok {tid src dst id : Int} {name : String} {props : Values.Json}
    (h : createEdgeInner s st tid name src dst props = .ok (st', id)) :
    allocId st.ogIdAlloc tid = .ok (st'.ogIdAlloc, id) ∧ id ∉ st.ogEdge.map (·.id) ∧
      st'.ogEdge = st.ogEdge ++ [⟨id, tid, src, dst⟩] ∧ st'.ogNode = st.ogNode ∧
      ∃ adj, append st.ogAdj src tid .o dst id = .ok adj ∧
        append adj dst tid .i src id = .ok st'.ogAdj := by
  unfold createEdgeInner at h
  obtain ⟨kind, -, h⟩ := bind_eq_ok.mp h
  obtain ⟨-, -, h⟩ := bind_eq_ok.mp h
  obtain ⟨table, -, h⟩ := bind_eq_ok.mp h
  obtain ⟨-, -, h⟩ := bind_eq_ok.mp h
  obtain ⟨⟨schema, plan⟩, -, h⟩ := bind_eq_ok.mp h
  obtain ⟨-, -, h⟩ := bind_eq_ok.mp h
  obtain ⟨⟨alloc, eid⟩, halloc, h⟩ := bind_eq_ok.mp h
  obtain ⟨edges, hedges, h⟩ := bind_eq_ok.mp h
  obtain ⟨schema, -, h⟩ := bind_eq_ok.mp h
  obtain ⟨adj, hout, h⟩ := bind_eq_ok.mp h
  obtain ⟨adj', hin, h⟩ := bind_eq_ok.mp h
  obtain ⟨rfl, rfl⟩ := Prod.mk.inj (pure_eq_ok.mp h)
  obtain ⟨rfl, hfresh⟩ := insertEdge_eq_ok hedges
  exact ⟨halloc, hfresh, rfl, rfl, adj, hout, hin⟩

theorem Mirror.createEdge (h : Mirror st) {tid src dst id : Int} {name : String}
    {props : Values.Json}
    (hrun : createEdgeInner s st tid name src dst props = .ok (st', id)) : Mirror st' := by
  obtain ⟨halloc, hfresh, hedge, -, adj, hout, hin⟩ := createEdgeInner_eq_ok hrun
  obtain ⟨hadj, hpermOut⟩ := append_eq_ok h.sound hout
  obtain ⟨hadj', hpermIn⟩ := append_eq_ok hadj hin
  refine ⟨hadj', ?_, ?_, ?_⟩
  · rw [hedge, List.map_append, List.map_singleton]
    exact h.ids.append (List.nodup_singleton _)
      (by simpa [List.disjoint_singleton] using hfresh)
  · intro e he
    rw [hedge] at he
    rcases List.mem_append.mp he with he | he
    · exact h.types e he
    · obtain rfl := List.mem_singleton.mp he
      exact (allocId_type halloc).symm
  · have hregistry : registryEntries st'.ogEdge =
        registryEntries st.ogEdge ++ edgeEntries ⟨id, tid, src, dst⟩ := by
      rw [hedge]
      simp [registryEntries]
    rw [hregistry]
    calc
      List.Perm (entries st'.ogAdj) (_ :: entries adj) := hpermIn
      List.Perm _ (_ :: _ :: entries st.ogAdj) := hpermOut.cons _
      List.Perm _ (edgeEntries ⟨id, tid, src, dst⟩ ++ entries st.ogAdj) := .swap _ _ _
      List.Perm _ (edgeEntries ⟨id, tid, src, dst⟩ ++ registryEntries st.ogEdge) :=
        h.mirrored.append_left _
      List.Perm _ _ := List.perm_append_comm

/-- When only one entry of a table has this edge and direction, removing the
edge there takes out exactly that entry. -/
theorem remove_perm {adj : List Segment} {e : Entry} {rest : List Entry}
    (hadj : Sound adj) (hperm : (entries adj).Perm (e :: rest))
    (hrest : ∀ x ∈ rest, x.dir = e.dir → x.eid ≠ e.eid) :
    Sound (remove adj e.src e.etype e.dir e.eid) ∧
      (entries (remove adj e.src e.etype e.dir e.eid)).Perm rest := by
  obtain ⟨hsound, ⟨nbr, hremoved⟩ | ⟨hnone, -⟩⟩ := remove_sound hadj
  · refine ⟨hsound, ?_⟩
    have hmem := (hremoved.symm.trans hperm).subset List.mem_cons_self
    rcases List.mem_cons.mp hmem with heq | hmem
    · rw [heq] at hremoved
      exact (hremoved.symm.trans hperm).cons_inv
    · exact (hrest _ hmem rfl rfl).elim
  · exact absurd (hperm.symm.subset List.mem_cons_self) (hnone e.nbr)

/-- Deleting an edge unregisters it and keeps the mirror. -/
theorem Mirror.deleteEdge (h : Mirror st) {eid n : Int}
    (hrun : deleteEdgeInner s st eid = .ok (st', n)) :
    Mirror st' ∧ st'.ogEdge = st.ogEdge.filter fun r => r.id ≠ eid := by
  unfold deleteEdgeInner at hrun
  dsimp only at hrun
  cases hfind : st.ogEdge.find? fun e => e.id = eid with
  | none =>
      rw [hfind] at hrun
      obtain ⟨rfl, -⟩ := Prod.mk.inj (Except.ok.inj hrun)
      refine ⟨h, (List.filter_eq_self.mpr fun r hr => ?_).symm⟩
      simpa using List.find?_eq_none.mp hfind r hr
  | some e =>
      rw [hfind] at hrun
      obtain ⟨-, -, hrun⟩ := bind_eq_ok.mp hrun
      obtain ⟨rfl, -⟩ := Prod.mk.inj (pure_eq_ok.mp hrun)
      have he := List.mem_of_find?_eq_some hfind
      obtain rfl : e.id = eid := by simpa using List.find?_some hfind
      have hperm := h.mirrored.trans (registryEntries_perm_filter h.ids he)
      obtain ⟨hsoundOut, hout⟩ := remove_perm h.sound hperm (by
        rintro x hx hdir heid
        rcases List.mem_cons.mp hx with rfl | hx
        · simp at hdir
        · exact eid_ne_of_mem_filter hx heid)
      obtain ⟨hsoundIn, hin⟩ := remove_perm hsoundOut hout fun x hx _ =>
        eid_ne_of_mem_filter hx
      rw [← h.types e he]
      exact ⟨⟨hsoundIn, h.ids.sublist (List.filter_sublist.map _),
        fun r hr => h.types r (List.mem_filter.mp hr).1, hin⟩, rfl⟩

theorem Mirror.deleteEdges (h : Mirror st) {ids : List Int} {k n : Int}
    (hrun : ids.foldlM (fun (acc : Store × Int) eid => do
      let (st, n) ← deleteEdgeInner s acc.1 eid
      return (st, acc.2 + n)) (st, k) = .ok (st', n)) :
    Mirror st' ∧ st'.ogEdge ⊆ st.ogEdge ∧ ∀ e ∈ st'.ogEdge, e.id ∉ ids := by
  induction ids generalizing st k with
  | nil =>
      obtain ⟨rfl, -⟩ := Prod.mk.inj (pure_eq_ok.mp hrun)
      exact ⟨h, fun _ he => he, by simp⟩
  | cons eid ids ih =>
      obtain ⟨⟨mid, m⟩, hmid, hrest⟩ := foldlM_cons_eq_ok.mp hrun
      obtain ⟨⟨mid', m'⟩, hdelete, hmid⟩ := bind_eq_ok.mp hmid
      obtain ⟨rfl, -⟩ := Prod.mk.inj (pure_eq_ok.mp hmid)
      obtain ⟨hmirror, hedge⟩ := h.deleteEdge hdelete
      obtain ⟨hmirror', hsub, hgone⟩ := ih hmirror hrest
      refine ⟨hmirror', fun e he => ?_, fun e he hmem => ?_⟩
      · exact (List.mem_filter.mp (hedge ▸ hsub he)).1
      · rcases List.mem_cons.mp hmem with heq | hmem
        · have hkept := List.mem_filter.mp (hedge ▸ hsub he)
          exact of_decide_eq_true hkept.2 heq
        · exact hgone e he hmem

theorem mem_incident {adj : List Segment} {id x : Int} :
    x ∈ incident adj id ↔ ∃ a ∈ adj, a.src = id ∧ x ∈ a.eid := by
  simp [incident, and_assoc]

theorem Segment.Sound.mem_eid_iff {a : Segment} (ha : a.Sound) {x : Int} :
    x ∈ a.eid ↔ ∃ nbr, (nbr, x) ∈ a.nbr.zip a.eid := by
  constructor
  · intro hx
    obtain ⟨i, hi, rfl⟩ := List.mem_iff_getElem.mp hx
    have hlen : i < a.nbr.length := by
      have := ha.nbr_length
      have := ha.eid_length
      omega
    refine ⟨a.nbr[i], List.mem_iff_getElem.mpr ⟨i, ?_, ?_⟩⟩
    · rw [List.length_zip]
      omega
    · simp
  · rintro ⟨nbr, hzip⟩
    exact (List.of_mem_zip hzip).2

/-- A segment mentions an edge exactly where the registry puts it. -/
theorem Mirror.mem_eid (h : Mirror st) {a : Segment} (ha : a ∈ st.ogAdj) {x : Int}
    (hx : x ∈ a.eid) :
    ∃ nbr, ∃ e ∈ st.ogEdge, ⟨a.src, a.etype, a.dir, nbr, x⟩ ∈ edgeEntries e := by
  obtain ⟨nbr, hzip⟩ := (Segment.Sound.mem_eid_iff (h.sound.segment a ha)).mp hx
  have hentry : ⟨a.src, a.etype, a.dir, nbr, x⟩ ∈ entries st.ogAdj :=
    mem_entries.mpr ⟨a, ha, Segment.mem_entries_iff.mpr ⟨⟨rfl, rfl, rfl⟩, hzip⟩⟩
  exact ⟨nbr, mem_registryEntries.mp (h.mirrored.subset hentry)⟩

theorem Mirror.deleteNode (h : Mirror st) {id n : Int}
    (hrun : deleteNodeInner s st id = .ok (st', n)) : Mirror st' := by
  unfold deleteNodeInner at hrun
  obtain ⟨-, -, hrun⟩ := bind_eq_ok.mp hrun
  obtain ⟨-, -, hrun⟩ := bind_eq_ok.mp hrun
  obtain ⟨⟨mid, m⟩, hloop, hrun⟩ := bind_eq_ok.mp hrun
  obtain ⟨rfl, -⟩ := Prod.mk.inj (pure_eq_ok.mp hrun)
  obtain ⟨hmid, hsub, hgone⟩ := h.deleteEdges hloop
  refine hmid.of_graph_eq rfl (List.filter_eq_self.mpr fun a ha => ?_)
  rw [decide_eq_true_eq]
  intro hsrc
  -- A segment left at the node would mention an edge that the loop deleted.
  have hsound := hmid.sound.segment a ha
  obtain ⟨x, hx⟩ : ∃ x, x ∈ a.eid := by
    refine List.exists_mem_of_length_pos ?_
    have := hsound.pos
    have := hsound.eid_length
    omega
  obtain ⟨nbr, e, he, hentry⟩ := hmid.mem_eid ha hx
  have hold := h.mirrored.symm.subset (mem_registryEntries.mpr ⟨e, hsub he, hentry⟩)
  obtain ⟨b, hb, hentry'⟩ := mem_entries.mp hold
  obtain ⟨hat, hzip⟩ := Segment.mem_entries_iff.mp hentry'
  refine hgone e he (mem_incident.mpr ⟨b, hb, hat.1.trans hsrc, ?_⟩)
  rw [← eid_of_mem_edgeEntries hentry]
  exact (List.of_mem_zip hzip).2

/-- Every operation keeps the mirror, whether it succeeds or fails. -/
theorem Mirror.commit (h : Mirror st) (op : Op) : Mirror (op.commit s st) := by
  unfold Op.commit
  cases hrun : op.run s st with
  | error e => exact h
  | ok res =>
      obtain ⟨st', n⟩ := res
      cases op with
      | createNode tid name props =>
          obtain ⟨hedge, hadj, -, -⟩ := createNodeInner_eq_ok hrun
          exact h.of_graph_eq hedge hadj
      | createEdge tid name src dst props => exact h.createEdge hrun
      | deleteEdge id => exact (h.deleteEdge hrun).1
      | deleteNode id => exact h.deleteNode hrun

/-- Every reachable state carries the mirror. -/
theorem Reachable.mirror (h : Reachable st) : Mirror st := by
  induction h with
  | empty hempty => exact .empty hempty
  | step s op _ ih => exact ih.commit op

end Steps

/-- The edge sits once in one segment of the given direction: that of the given
node and type, with the neighbour at the position of the edge. -/
def AppearsOnce (adj : List Segment) (x : Entry) : Prop :=
  ∃ a, adj.filter (fun a => a.dir = x.dir ∧ x.eid ∈ a.eid) = [a] ∧
    a.At x.src x.etype x.dir ∧ a.eid.count x.eid = 1 ∧
    ∃ i : Nat, a.eid[i]? = some x.eid ∧ a.nbr[i]? = some x.nbr

section Explicit

variable {st : Store}

theorem filter_entries_eq {x : Entry} {e : EdgeRow} (hx : x ∈ edgeEntries e) :
    (edgeEntries e).filter (fun y => y.dir = x.dir ∧ y.eid = x.eid) = [x] := by
  simp only [edgeEntries, List.mem_cons, List.not_mem_nil, or_false] at hx
  rcases hx with rfl | rfl <;> simp [edgeEntries]

/-- One entry of the table has the direction and edge of a registered entry. -/
theorem Mirror.filter_entries (h : Mirror st) {e : EdgeRow} (he : e ∈ st.ogEdge)
    {x : Entry} (hx : x ∈ edgeEntries e) :
    (entries st.ogAdj).filter (fun y => y.dir = x.dir ∧ y.eid = x.eid) = [x] := by
  have hperm := (h.mirrored.trans (registryEntries_perm_filter h.ids he)).filter
    fun y => decide (y.dir = x.dir ∧ y.eid = x.eid)
  rw [List.filter_append, filter_entries_eq hx] at hperm
  have hnone : (registryEntries (st.ogEdge.filter fun r => r.id ≠ e.id)).filter
      (fun y => decide (y.dir = x.dir ∧ y.eid = x.eid)) = [] := by
    rw [List.filter_eq_nil_iff]
    intro y hy
    have hne := eid_ne_of_mem_filter hy
    rw [eid_of_mem_edgeEntries hx]
    simp [hne]
  rw [hnone, List.append_nil] at hperm
  exact List.perm_singleton.mp hperm

theorem length_filter_entries {a : Segment} (ha : a.Sound) {x : Entry} :
    (a.entries.filter fun y => y.dir = x.dir ∧ y.eid = x.eid).length =
      if a.dir = x.dir then a.eid.count x.eid else 0 := by
  have hlen : a.eid.length ≤ a.nbr.length := by
    have := ha.nbr_length
    have := ha.eid_length
    omega
  rw [Segment.entries, List.filter_map, List.length_map, ← List.countP_eq_length_filter]
  split
  · next hdir =>
    calc
      _ = (a.nbr.zip a.eid).countP fun y => y.2 == x.eid :=
        List.countP_congr fun y _ => by simp [hdir]
      _ = ((a.nbr.zip a.eid).map Prod.snd).countP fun y => y == x.eid := by
        rw [List.countP_map]
        rfl
      _ = a.eid.count x.eid := by
        rw [List.map_snd_zip hlen]
        rfl
  · next hdir =>
    rw [List.countP_eq_zero]
    intro y _
    simp [hdir]

/-- A registered entry sits once in one segment. -/
theorem Mirror.appearsOnce (h : Mirror st) {e : EdgeRow} (he : e ∈ st.ogEdge)
    {x : Entry} (hx : x ∈ edgeEntries e) : AppearsOnce st.ogAdj x := by
  have hone := h.filter_entries he hx
  rw [entries, List.filter_flatMap] at hone
  obtain ⟨xs, a, ys, hadj, ha, hothers⟩ := exists_of_flatMap_eq_singleton hone
  have hmem : ∀ b, b ∈ xs ∨ b = a ∨ b ∈ ys → b ∈ st.ogAdj := by
    rintro b (hb | rfl | hb) <;> simp [*]
  have hcount : ∀ b ∈ st.ogAdj, (b.dir = x.dir ∧ x.eid ∈ b.eid) ↔
      (b.entries.filter fun y => y.dir = x.dir ∧ y.eid = x.eid) ≠ [] := by
    intro b hb
    rw [← List.length_pos_iff, length_filter_entries (h.sound.segment b hb)]
    split <;> simp [*, List.count_pos_iff]
  have hxa : x ∈ a.entries :=
    (List.mem_filter.mp (ha ▸ List.mem_singleton_self x)).1
  obtain ⟨hat, hzip⟩ := Segment.mem_entries_iff.mp hxa
  refine ⟨a, ?_, hat, ?_, ?_⟩
  · have hnone : ∀ zs : List Segment, (∀ b ∈ zs, b ∈ xs ∨ b ∈ ys) →
        zs.filter (fun a => a.dir = x.dir ∧ x.eid ∈ a.eid) = [] := by
      intro zs hzs
      rw [List.filter_eq_nil_iff]
      intro b hb hkept
      exact (hcount b (hmem b ((hzs b hb).imp_right .inr))).mp (of_decide_eq_true hkept)
        (hothers b (hzs b hb))
    rw [hadj, List.filter_append, List.filter_cons, hnone xs fun b hb => .inl hb,
      hnone ys fun b hb => .inr hb, if_pos]
    · rfl
    · refine decide_eq_true ((hcount a (hmem a (.inr (.inl rfl)))).mpr ?_)
      rw [ha]
      exact List.cons_ne_nil _ _
  · have hlength := length_filter_entries (x := x) (h.sound.segment a (hmem a (.inr (.inl rfl))))
    rw [ha, if_pos hat.2.2] at hlength
    exact hlength.symm
  · obtain ⟨i, hi, hget⟩ := List.mem_iff_getElem.mp hzip
    have hlt : i < a.nbr.length ∧ i < a.eid.length := by
      simpa using hi
    rw [List.getElem_zip, Prod.mk.injEq] at hget
    exact ⟨i, by simp [hlt.2, hget.2], by simp [hlt.1, hget.1]⟩

/-- In every reachable state each registered edge sits once in one outgoing
segment, that of its source, and once in one incoming segment, that of its
destination; segments mention registered edges only, their counters and arrays
agree within the chunk size, and their keys are unique. -/
theorem reachable_adjacency_mirrors_registry (h : Reachable st) :
    (∀ e ∈ st.ogEdge,
      AppearsOnce st.ogAdj ⟨e.src, e.typeId, .o, e.dst, e.id⟩ ∧
      AppearsOnce st.ogAdj ⟨e.dst, e.typeId, .i, e.src, e.id⟩) ∧
    (∀ a ∈ st.ogAdj, ∀ x ∈ a.eid, ∃ e ∈ st.ogEdge, e.id = x) ∧
    (∀ a ∈ st.ogAdj, a.n = a.nbr.length ∧ a.n = a.eid.length ∧ 1 ≤ a.n ∧ a.n ≤ chunk) ∧
    (st.ogAdj.map fun a => (a.src, a.etype, a.dir, a.seq)).Nodup := by
  have hmirror := Reachable.mirror h
  refine ⟨fun e he => ⟨?_, ?_⟩, fun a ha x hx => ?_, fun a ha => ?_, hmirror.sound.keys⟩
  · exact hmirror.appearsOnce he (by simp [edgeEntries])
  · exact hmirror.appearsOnce he (by simp [edgeEntries])
  · obtain ⟨nbr, e, he, hentry⟩ := hmirror.mem_eid ha hx
    exact ⟨e, he, (eid_of_mem_edgeEntries hentry).symm⟩
  · have hsound := hmirror.sound.segment a ha
    exact ⟨hsound.nbr_length, hsound.eid_length, hsound.pos, hsound.le_chunk⟩

end Explicit

/-- One entity type and one relation type, both stored. -/
def pairCatalog : Catalog :=
  { TypeCatalog.empty with
    graphs := [(1, "g")]
    types := [⟨1, 1, "A", .entity, some (nodeTable 1)⟩,
      ⟨2, 1, "K", .relation, some (edgeTable 2)⟩]
    labels := [⟨1, 0, 1, 1, 1025, 0⟩, ⟨2, 0, 1, 2049, 3073, 0⟩] }

def ownerSession : Session where
  role := "owner"
  canChangeSchema := true
  denied _ _ _ := none
  cast _ v := .ok v
  isAlphanumeric _ := false
  toLowercase := String.singleton

def emptyStore : Store := ⟨⟨pairCatalog, []⟩, [], [], [], [], []⟩

/-- A node with a self loop that is made twice and deleted once. -/
def loopStore : Store :=
  ([.createNode 1 "A" (.obj []), .createEdge 2 "K" 68719476737 68719476737 (.obj []),
    .createEdge 2 "K" 68719476737 68719476737 (.obj []), .deleteEdge 137438953473] :
      List Op).foldl (fun st op => op.commit ownerSession st) emptyStore

theorem loopStore_mirrors :
    loopStore.ogEdge = [⟨137438953474, 2, 68719476737, 68719476737⟩] ∧
      (∀ e ∈ loopStore.ogEdge,
        AppearsOnce loopStore.ogAdj ⟨e.src, e.typeId, .o, e.dst, e.id⟩ ∧
        AppearsOnce loopStore.ogAdj ⟨e.dst, e.typeId, .i, e.src, e.id⟩) ∧
      (∀ a ∈ loopStore.ogAdj, ∀ x ∈ a.eid, ∃ e ∈ loopStore.ogEdge, e.id = x) ∧
      (∀ a ∈ loopStore.ogAdj,
        a.n = a.nbr.length ∧ a.n = a.eid.length ∧ 1 ≤ a.n ∧ a.n ≤ chunk) ∧
      (loopStore.ogAdj.map fun a => (a.src, a.etype, a.dir, a.seq)).Nodup :=
  ⟨by decide, reachable_adjacency_mirrors_registry
    ((Reachable.empty ⟨rfl, rfl, rfl⟩ : Reachable emptyStore).foldl _ _)⟩

end OntologicalDb.AdjacencyMirror
