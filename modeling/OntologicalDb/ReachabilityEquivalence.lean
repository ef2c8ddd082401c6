import OntologicalDb.AdjacencyMirror
import OntologicalDb.Traverse

/-!
The compiler replaces `ogVlp` by `ogReach` where nobody observes the paths.  The
two emit the same end nodes, except that an undirected walk may return to its
start over the edge it came by.
-/

namespace OntologicalDb.ReachabilityEquivalence

open OntologicalDb.Adjacency
open OntologicalDb.AdjacencyMirror
open OntologicalDb.EdgeTrails
open OntologicalDb.GraphStorage
open OntologicalDb.Traverse

/-- An adjacency table together with the registry it mirrors. -/
structure MirroredAdjacency where
  segments : List Segment
  edges : List EdgeRow
  sound : Sound segments
  ids : (edges.map (·.id)).Nodup
  mirrored : (entries segments).Perm (registryEntries edges)

/-- Every reachable state has such a table. -/
def MirroredAdjacency.ofReachable {st : Store} (h : Reachable st) : MirroredAdjacency where
  segments := st.ogAdj
  edges := st.ogEdge
  sound := (Reachable.mirror h).sound
  ids := (Reachable.mirror h).ids
  mirrored := (Reachable.mirror h).mirrored

section Arcs

variable {g : MirroredAdjacency} {etypes : Option (List Int)} {dir : HopDir}

theorem MirroredAdjacency.aligned (g : MirroredAdjacency) :
    ∀ a ∈ g.segments, a.Aligned :=
  fun a ha => (g.sound.segment a ha).toAligned

/-- A step of a traversal crosses a registered edge in an admitted direction. -/
theorem arc_iff {v e w : Int} :
    Arc g.segments etypes dir v e w ↔
      ∃ x ∈ registryEntries g.edges, x.src = v ∧ x.eid = e ∧ x.nbr = w ∧
        dir.Admits x.dir ∧ ∀ ts, etypes = some ts → x.etype ∈ ts := by
  constructor
  · rintro ⟨a, ha, rfl, ⟨hdir, htype⟩, hzip⟩
    have hentry : ⟨a.src, a.etype, a.dir, w, e⟩ ∈ entries g.segments :=
      mem_entries.mpr ⟨a, ha, Segment.mem_entries_iff.mpr ⟨⟨rfl, rfl, rfl⟩, hzip⟩⟩
    exact ⟨_, g.mirrored.subset hentry, rfl, rfl, rfl, hdir, htype⟩
  · rintro ⟨x, hx, rfl, rfl, rfl, hdir, htype⟩
    obtain ⟨a, ha, hentry⟩ := mem_entries.mp (g.mirrored.symm.subset hx)
    obtain ⟨⟨hsrc, hetype, hadir⟩, hzip⟩ := Segment.mem_entries_iff.mp hentry
    refine ⟨a, ha, hsrc, ⟨?_, fun ts hts => ?_⟩, hzip⟩
    · rw [hadir]
      exact hdir
    · rw [hetype]
      exact htype ts hts

theorem edge_unique {e e' : EdgeRow} (he : e ∈ g.edges) (he' : e' ∈ g.edges)
    (hid : e.id = e'.id) : e = e' :=
  List.inj_on_of_nodup_map g.ids he he' hid

theorem arc_edgeEnds : EdgeEnds (Arc g.segments etypes dir) := by
  intro v e w v' w' hvw hvw'
  obtain ⟨x, hx, rfl, rfl, rfl, -⟩ := arc_iff.mp hvw
  obtain ⟨x', hx', rfl, heid, rfl, -⟩ := arc_iff.mp hvw'
  obtain ⟨r, hr, hxr⟩ := mem_registryEntries.mp hx
  obtain ⟨r', hr', hxr'⟩ := mem_registryEntries.mp hx'
  obtain rfl : r' = r := edge_unique hr' hr (by
    rw [← eid_of_mem_edgeEntries hxr, ← eid_of_mem_edgeEntries hxr', heid])
  simp only [edgeEntries, List.mem_cons, List.not_mem_nil, or_false] at hxr hxr'
  rcases hxr with rfl | rfl <;> rcases hxr' with rfl | rfl <;> simp

/-- A directed traversal crosses every edge one way only. -/
theorem arc_oriented (hdir : dir ≠ .b) : Oriented (Arc g.segments etypes dir) := by
  intro v e w v' w' hvw hvw'
  obtain ⟨x, hx, rfl, rfl, rfl, hxdir, -⟩ := arc_iff.mp hvw
  obtain ⟨x', hx', rfl, heid, rfl, hxdir', -⟩ := arc_iff.mp hvw'
  obtain ⟨r, hr, hxr⟩ := mem_registryEntries.mp hx
  obtain ⟨r', hr', hxr'⟩ := mem_registryEntries.mp hx'
  obtain rfl : r' = r := edge_unique hr' hr (by
    rw [← eid_of_mem_edgeEntries hxr, ← eid_of_mem_edgeEntries hxr', heid])
  have hsame : x'.dir = x.dir := by
    cases dir with
    | o => exact hxdir'.trans hxdir.symm
    | i => exact hxdir'.trans hxdir.symm
    | b => exact absurd rfl hdir
  simp only [edgeEntries, List.mem_cons, List.not_mem_nil, or_false] at hxr hxr'
  rcases hxr with rfl | rfl <;> rcases hxr' with rfl | rfl <;> simp_all

/-- An undirected traversal crosses every edge both ways. -/
theorem arc_symm {v e w : Int} (h : Arc g.segments etypes .b v e w) :
    Arc g.segments etypes .b w e v := by
  obtain ⟨x, hx, rfl, rfl, rfl, -, htype⟩ := arc_iff.mp h
  obtain ⟨r, hr, hxr⟩ := mem_registryEntries.mp hx
  simp only [edgeEntries, List.mem_cons, List.not_mem_nil, or_false] at hxr
  rcases hxr with rfl | rfl
  · have hback : ⟨r.dst, r.typeId, .i, r.src, r.id⟩ ∈ edgeEntries r := by simp [edgeEntries]
    exact arc_iff.mpr
      ⟨_, mem_registryEntries.mpr ⟨r, hr, hback⟩, rfl, rfl, rfl, trivial, htype⟩
  · have hback : ⟨r.src, r.typeId, .o, r.dst, r.id⟩ ∈ edgeEntries r := by simp [edgeEntries]
    exact arc_iff.mpr
      ⟨_, mem_registryEntries.mpr ⟨r, hr, hback⟩, rfl, rfl, rfl, trivial, htype⟩

end Arcs

/-- The two traversals emit the same end nodes. -/
def SameEndNodes (adj : List Segment) (src : Int) (etypes : Option (List Int))
    (dir : HopDir) (minhop maxhop : Int) : Prop :=
  ∀ v, v ∈ (ogReach adj etypes dir src minhop maxhop).map (·.1) ↔
    v ∈ (ogVlp adj etypes dir src minhop maxhop).map (·.node)

/-- The walk cannot leave its start and come back over the same edge within the
bounds, or a trail returns to the start anyway. -/
def NoReturnOverOneEdge (adj : List Segment) (src : Int) (etypes : Option (List Int))
    (dir : HopDir) (minhop maxhop : Int) : Prop :=
  dir ≠ .b ∨ minhop = 0 ∨ maxhop < 2 ∨
    (∀ e w, Arc adj etypes dir src e w → w = src) ∨
    ∃ es, Trail (Arc adj etypes dir) src es src ∧ es ≠ [] ∧ (es.length : Int) ≤ maxhop

section Comparison

variable {g : MirroredAdjacency} {etypes : Option (List Int)} {dir : HopDir}
  {src minhop maxhop : Int}

theorem mem_vlp_nodes_iff (hmin : 0 ≤ minhop) (hmax : 0 ≤ maxhop) {v : Int} :
    v ∈ (ogVlp g.segments etypes dir src minhop maxhop).map (·.node) ↔
      ∃ es, Trail (Arc g.segments etypes dir) src es v ∧ minhop.toNat ≤ es.length ∧
        es.length ≤ maxhop.toNat := by
  rw [mem_ogVlp_nodes hmax]
  refine exists_congr fun es => and_congr_right fun _ => ?_
  omega

/-- Everywhere but at the start of an undirected walk the end nodes agree. -/
theorem mem_reach_iff_mem_vlp (hmin : 0 ≤ minhop) (hmin' : minhop ≤ 1)
    (hmax : 0 ≤ maxhop) {v : Int} (h : minhop = 0 ∨ v ≠ src ∨ dir ≠ .b) :
    v ∈ (ogReach g.segments etypes dir src minhop maxhop).map (·.1) ↔
      v ∈ (ogVlp g.segments etypes dir src minhop maxhop).map (·.node) := by
  rw [mem_ogReach_nodes g.aligned hmin', mem_vlp_nodes_iff hmin hmax]
  refine exists_walk_iff_exists_trail arc_edgeEnds (by omega) ?_
  rcases h with rfl | hne | hdir
  · exact .inl rfl
  · exact .inr (.inl hne)
  · exact .inr (.inr (arc_oriented hdir))

/-- From minimum one, an undirected walk returns to its start exactly when some
edge leaves it and the way back still fits, or a trail returns. -/
theorem hits_start_iff (hmax : 1 ≤ maxhop) :
    Hits (Arc g.segments etypes .b) src 1 maxhop.toNat src ↔
      (2 ≤ maxhop ∧ ∃ e w, Arc g.segments etypes .b src e w ∧ w ≠ src) ∨
        ∃ es, Trail (Arc g.segments etypes .b) src es src ∧ es ≠ [] ∧
          (es.length : Int) ≤ maxhop := by
  constructor
  · rintro ⟨es, hwalk, hlow, hhigh⟩
    cases es with
    | nil => simp at hlow
    | cons e es =>
        obtain ⟨w, hew, hrest⟩ := walk_cons_iff.mp hwalk
        by_cases hw : w = src
        · subst hw
          exact .inr ⟨[e], ⟨walk_singleton_iff.mpr hew, List.nodup_singleton e⟩,
            List.cons_ne_nil _ _, by simpa using hmax⟩
        · refine .inl ⟨?_, e, w, hew, hw⟩
          have hes : es ≠ [] := by
            rintro rfl
            exact hw (walk_nil_iff.mp hrest).symm
          have := List.length_pos_iff.mpr hes
          rw [List.length_cons] at hhigh
          omega
  · rintro (⟨hmax2, e, w, hew, -⟩ | ⟨es, htrail, hne, hlength⟩)
    · refine ⟨[e, e], walk_cons_iff.mpr ⟨w, hew, walk_singleton_iff.mpr (arc_symm hew)⟩,
        by simp, ?_⟩
      simp only [List.length_cons, List.length_nil]
      omega
    · exact ⟨es, htrail.1, List.length_pos_iff.mpr hne, by omega⟩

/-- `ogReach` replaces `ogVlp` exactly where an undirected walk from minimum one
cannot return over the edge it left by, or a trail returns as well. -/
theorem sameEndNodes_iff (hmin : 0 ≤ minhop) (hmin' : minhop ≤ 1)
    (hmax : minhop ≤ maxhop) :
    SameEndNodes g.segments src etypes dir minhop maxhop ↔
      NoReturnOverOneEdge g.segments src etypes dir minhop maxhop := by
  by_cases hsafe : minhop = 0 ∨ dir ≠ .b
  · refine iff_of_true (fun v => ?_) ?_
    · exact mem_reach_iff_mem_vlp hmin hmin' (hmin.trans hmax)
        (hsafe.imp_right .inr)
    · exact hsafe.elim (fun h => .inr (.inl h)) .inl
  obtain ⟨hmin0, hdir⟩ := not_or.mp hsafe
  obtain rfl : dir = .b := not_not.mp hdir
  obtain rfl : minhop = 1 := by omega
  have hstart : SameEndNodes g.segments src etypes .b 1 maxhop ↔
      (src ∈ (ogReach g.segments etypes .b src 1 maxhop).map (·.1) ↔
        src ∈ (ogVlp g.segments etypes .b src 1 maxhop).map (·.node)) := by
    refine ⟨fun h => h src, fun h v => ?_⟩
    by_cases hv : v = src
    · exact hv ▸ h
    · exact mem_reach_iff_mem_vlp hmin hmin' (hmin.trans hmax) (.inr (.inl hv))
  have htrail : src ∈ (ogVlp g.segments etypes .b src 1 maxhop).map (·.node) ↔
      ∃ es, Trail (Arc g.segments etypes .b) src es src ∧ es ≠ [] ∧
        (es.length : Int) ≤ maxhop := by
    rw [mem_ogVlp_nodes (hmin.trans hmax)]
    refine exists_congr fun es => and_congr_right fun _ => and_congr_left fun _ => ?_
    rw [← List.length_pos_iff]
    omega
  rw [hstart, mem_ogReach_nodes g.aligned le_rfl, htrail,
    show Int.toNat 1 = 1 from rfl, hits_start_iff hmax]
  unfold NoReturnOverOneEdge
  constructor
  · intro h
    by_cases hclosed : ∃ es, Trail (Arc g.segments etypes .b) src es src ∧ es ≠ [] ∧
        (es.length : Int) ≤ maxhop
    · exact .inr (.inr (.inr (.inr hclosed)))
    · have hnot := fun hout => hclosed (h.mp (.inl hout))
      by_cases hmax2 : maxhop < 2
      · exact .inr (.inr (.inl hmax2))
      · refine .inr (.inr (.inr (.inl fun e w harc => ?_)))
        by_contra hw
        exact hnot ⟨by omega, e, w, harc, hw⟩
  · rintro (h | h | h | h | h)
    · exact absurd rfl h
    · exact absurd h (by omega)
    · exact or_iff_right fun ⟨hmax2, _⟩ => by omega
    · exact or_iff_right fun ⟨_, e, w, harc, hw⟩ => hw (h e w harc)
    · exact iff_of_true (.inr h) h

end Comparison

/-- Two nodes with one edge between them. -/
def edgeStore : Store :=
  ([.createNode 1 "A" (.obj []), .createNode 1 "A" (.obj []),
    .createEdge 2 "K" 68719476737 68719476738 (.obj [])] :
      List Op).foldl (fun st op => op.commit ownerSession st) emptyStore

def edgeAdjacency : MirroredAdjacency :=
  .ofReachable ((Reachable.empty ⟨rfl, rfl, rfl⟩ : Reachable emptyStore).foldl _ _ :
    Reachable edgeStore)

/-- Outgoing walks over the single edge agree. -/
theorem sameEndNodes_edge_out :
    SameEndNodes edgeAdjacency.segments 68719476737 none .o 1 2 ↔
      NoReturnOverOneEdge edgeAdjacency.segments 68719476737 none .o 1 2 :=
  sameEndNodes_iff (by decide) (by decide) (by decide)

/-- Over a single edge the undirected walk of one or two hops returns to its
start, which no trail does. -/
theorem not_sameEndNodes_edge :
    (0 : Int) ≤ 1 ∧ (1 : Int) ≤ 1 ∧ (1 : Int) ≤ 2 ∧
      ¬ SameEndNodes edgeAdjacency.segments 68719476737 none .b 1 2 := by
  refine ⟨by decide, by decide, by decide, fun h => ?_⟩
  have hreach : 68719476737 ∈
      (ogReach edgeAdjacency.segments none .b 68719476737 1 2).map (·.1) := by
    decide
  have hvlp : 68719476737 ∉
      (ogVlp edgeAdjacency.segments none .b 68719476737 1 2).map (·.node) := by
    decide
  exact hvlp ((h _).mp hreach)

end OntologicalDb.ReachabilityEquivalence
