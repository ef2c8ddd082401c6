import Mathlib.Algebra.Ring.Int.Defs
import Mathlib.Data.Int.Interval
import Mathlib.Data.List.Sort
import OntologicalDb.GraphStorage
import OntologicalDb.SlicedLists

/-!
Online reorganisation.  The segments of a node, relation type and direction that fit
into one segment fewer are rewritten in one statement: unnested in order of their
numbers, cut into new segments numbered from zero, inserted while the old segments
are still there, and the old ones deleted.
-/

namespace OntologicalDb.Reorganization

open OntologicalDb.Adjacency
open OntologicalDb.ExceptRules
open OntologicalDb.GraphStorage
open OntologicalDb.SlicedLists
open OntologicalDb.TypeCatalog

/-- A node, relation type and direction. -/
structure Group where
  src : Int
  etype : Int
  dir : Dir
deriving DecidableEq

/-- The orders that the statements leave open. -/
structure RowOrders where
  /-- Of the groups the scan returns. -/
  groups : List Group → List Group
  groups_perm : ∀ gs, (groups gs).Perm gs
  /-- Of the unnested rows of one segment: `row_number` orders by `seq` alone. -/
  numbered : List (Int × Int) → List (Int × Int)
  numbered_perm : ∀ xs, (numbered xs).Perm xs
  /-- Of the rows of one new segment that both `array_agg` read. -/
  aggregated : List (Int × Int) → List (Int × Int)
  aggregated_perm : ∀ xs, (aggregated xs).Perm xs

section Model

def group (a : Segment) : Group := ⟨a.src, a.etype, a.dir⟩

def groupSegments (adj : List Segment) (g : Group) : List Segment :=
  adj.filter fun a => group a = g

/-- `sum(n)` of a group. -/
def total (adj : List Segment) (g : Group) : Int := ((groupSegments adj g).map (·.n)).sum

/-- The node is registered under a type of the graph; both ids are primary keys. -/
def OfGraph (st : Store) (gid src : Int) : Prop :=
  ∃ nd ∈ st.ogNode, nd.id = src ∧
    ∃ t ∈ st.schema.catalog.types, t.typeId = nd.typeId ∧ t.graphId = gid

instance (st : Store) (gid src : Int) : Decidable (OfGraph st gid src) :=
  inferInstanceAs (Decidable (∃ nd ∈ st.ogNode, _))

/-- More than one segment, and room for all in one segment fewer. -/
def Fragmented (adj : List Segment) (g : Group) : Prop :=
  1 < (groupSegments adj g).length ∧
    total adj g ≤ (groupSegments adj g).length * chunk - chunk

instance (adj : List Segment) (g : Group) : Decidable (Fragmented adj g) :=
  inferInstanceAs (Decidable (_ ∧ _))

/-- The groups the reorganisation rewrites. -/
def targets (st : Store) (gid : Int) : List Group :=
  ((st.ogAdj.filter fun a => OfGraph st gid a.src).map group).dedup.filter fun g =>
    Fragmented st.ogAdj g

variable (o : RowOrders)

/-- `flat`: the rows of a group in the order of their numbers. -/
def flat (adj : List Segment) (g : Group) : List (Int × Int) :=
  ((groupSegments adj g).insertionSort fun a b => a.seq ≤ b.seq).flatMap fun a =>
    o.numbered (a.nbr.zip a.eid)

/-- `packed`: the new segment of the rows whose number, divided by `chunk`, is
`newseq`. -/
def packedSegment (adj : List Segment) (g : Group) (newseq : Nat) : Segment :=
  let rows := o.aggregated (slice chunk.toNat newseq (flat o adj g))
  { src := g.src, etype := g.etype, dir := g.dir, seq := newseq, n := rows.length
    nbr := rows.map Prod.fst, eid := rows.map Prod.snd }

def packed (adj : List Segment) (g : Group) : List Segment :=
  (List.range (sliceCount chunk.toNat (flat o adj g).length)).map (packedSegment o adj g)

/-- One row of the `INSERT`, under the range of `seq` and the primary key. -/
def insertPacked (adj : List Segment) (a : Segment) : Except String (List Segment) :=
  if a.seq > maxInt4 then .error "repack failed: integer out of range"
  else if adj.any fun b => b.key = a.key then .error "repack failed: duplicate key value"
  else .ok (adj ++ [a])

/-- The statement for one group.  `wipe` has the snapshot of the statement, so that it
deletes the old rows of the group and none of the new ones, and it comes after them:
the query does not refer to it. -/
def repack (adj : List Segment) (g : Group) : Except String (List Segment) := do
  let inserted ← (packed o adj g).foldlM insertPacked adj
  return (adj.filter fun a => ¬ group a = g) ++ inserted.drop adj.length

def ogReorganize (graph : String) (st : Store) : Except String (Store × Int) := do
  let gid ← graphId st.schema.catalog graph
  let groups := o.groups (targets st gid)
  let adj ← groups.foldlM (repack o) st.ogAdj
  return ({ st with ogAdj := adj }, groups.length)

end Model

section Purpose

/-- The aligned pairs of one segment. -/
def pairsOf (a : Segment) : List (Int × Int) := a.nbr.zip a.eid

/-- The aligned pairs of a node, relation type and direction. -/
def pairs (adj : List Segment) (g : Group) : List (Int × Int) :=
  (groupSegments adj g).flatMap pairsOf

/-- The pairs are the same, the segments filled from one to `chunk` with their counters
right, and their numbers distinct. -/
structure Preserved (adj adj' : List Segment) : Prop where
  pairs : ∀ g, (pairs adj' g).Perm (pairs adj g)
  sound : Sound adj'

/-- How many segments the entries of a group need. -/
def needed (adj : List Segment) (g : Group) : Int := (total adj g + chunk - 1) / chunk

/-- None of the segments has one of the numbers the rewritten ones get. -/
def Free (adj : List Segment) (g : Group) : Prop :=
  ∀ a ∈ groupSegments adj g, ¬ (0 ≤ a.seq ∧ a.seq < needed adj g)

instance (adj : List Segment) (g : Group) : Decidable (Free adj g) :=
  inferInstanceAs (Decidable (∀ a ∈ groupSegments adj g, _))

end Purpose

section Packing

variable {o : RowOrders} {adj : List Segment} {g : Group} {a : Segment}

theorem mem_groupSegments : a ∈ groupSegments adj g ↔ a ∈ adj ∧ group a = g := by
  simp [groupSegments]

theorem flat_perm : (flat o adj g).Perm (pairs adj g) :=
  List.Perm.flatMap (List.perm_insertionSort _ _) fun a _ => o.numbered_perm (pairsOf a)

theorem pairsOf_packedSegment (newseq : Nat) :
    pairsOf (packedSegment o adj g newseq) =
      o.aggregated (slice chunk.toNat newseq (flat o adj g)) :=
  (List.zip_of_prod rfl rfl).symm

theorem length_pairsOf (ha : a.Aligned) : ((pairsOf a).length : Int) = a.n := by
  have hnbr := ha.nbr_length
  have heid := ha.eid_length
  rw [pairsOf, List.length_zip]
  omega

/-- The rewritten segments hold the pairs of the group. -/
theorem flatMap_packed_perm : ((packed o adj g).flatMap pairsOf).Perm (pairs adj g) := by
  have hslices : ((packed o adj g).flatMap pairsOf).Perm (flat o adj g) := by
    rw [packed, List.flatMap_map]
    conv_rhs => rw [← @flatMap_slice _ chunk.toNat (flat o adj g) (by decide)]
    refine List.Perm.flatMap_left _ fun newseq _ => ?_
    rw [pairsOf_packedSegment]
    exact o.aggregated_perm _
  exact hslices.trans flat_perm

theorem length_flat (hadj : Sound adj) : ((flat o adj g).length : Int) = total adj g := by
  rw [flat_perm.length_eq, pairs, total]
  have hsound : ∀ a ∈ groupSegments adj g, a.Aligned := fun a ha =>
    (hadj.segment a (mem_groupSegments.mp ha).1).toAligned
  generalize groupSegments adj g = as at hsound ⊢
  induction as with
  | nil => rfl
  | cons a rest ih =>
      have ih := ih fun b hb => hsound b (List.mem_cons_of_mem _ hb)
      rw [List.flatMap_cons, List.length_append, List.map_cons, List.sum_cons, Nat.cast_add, ih,
        length_pairsOf (hsound a List.mem_cons_self)]

theorem packed_sound (ha : a ∈ packed o adj g) : a.Sound := by
  rcases List.mem_map.mp ha with ⟨newseq, hnewseq, rfl⟩
  have hslice := slice_ne_nil (w := chunk.toNat) (by decide) (List.mem_range.mp hnewseq)
  have hlength := (o.aggregated_perm (slice chunk.toNat newseq (flat o adj g))).length_eq
  have hpos := List.length_pos_of_ne_nil hslice
  have hle := @length_slice _ chunk.toNat newseq (flat o adj g)
  have hchunk : chunk = 256 := rfl
  refine ⟨⟨?_, ?_⟩, ?_, ?_⟩
  · simp [packedSegment]
  · simp [packedSegment]
  · simp only [packedSegment]
    omega
  · simp only [packedSegment]
    omega

theorem group_of_mem_packed (ha : a ∈ packed o adj g) : group a = g := by
  rcases List.mem_map.mp ha with ⟨newseq, -, rfl⟩
  rfl

theorem nodup_packed_keys : ((packed o adj g).map Segment.key).Nodup := by
  rw [packed, List.map_map]
  refine (List.nodup_map_iff_inj_on List.nodup_range).mpr fun i _ j _ hij => ?_
  have hseq := (Segment.key_eq_iff.mp hij).2
  exact Int.ofNat.inj hseq

/-- The new numbers of a group are those below what its entries need. -/
theorem exists_packed_seq_iff (hadj : Sound adj) {seq : Int} :
    (∃ a ∈ packed o adj g, a.seq = seq) ↔ 0 ≤ seq ∧ seq < needed adj g := by
  have hlength := length_flat (o := o) (g := g) hadj
  have hcount : (sliceCount chunk.toNat (flat o adj g).length : Int) = needed adj g := by
    have hchunk : chunk.toNat = 256 := rfl
    rw [sliceCount, needed, ← hlength, hchunk, chunk]
    omega
  rw [← hcount]
  constructor
  · rintro ⟨a, ha, rfl⟩
    rcases List.mem_map.mp ha with ⟨newseq, hnewseq, rfl⟩
    have hlt := List.mem_range.mp hnewseq
    simp only [packedSegment]
    omega
  · rintro ⟨hnonneg, hlt⟩
    refine ⟨packedSegment o adj g seq.toNat,
      List.mem_map_of_mem (List.mem_range.mpr (by omega)), ?_⟩
    simp only [packedSegment]
    omega

end Packing

section Statement

variable {o : RowOrders} {adj adj' new : List Segment} {g : Group}

theorem insertPacked_eq_ok {a : Segment} :
    insertPacked adj a = .ok adj' ↔
      (a.seq ≤ maxInt4 ∧ ∀ b ∈ adj, b.key ≠ a.key) ∧ adj' = adj ++ [a] := by
  unfold insertPacked
  split_ifs with hseq hkey
  · simp only [false_iff, not_and]
    omega
  · rcases List.any_eq_true.mp hkey with ⟨b, hb, hba⟩
    simp only [false_iff, not_and]
    exact fun h => absurd (of_decide_eq_true hba) (h.2 b hb)
  · constructor
    · intro h
      refine ⟨⟨by omega, fun b hb hba => hkey ?_⟩, (Except.ok.inj h).symm⟩
      exact List.any_eq_true.mpr ⟨b, hb, decide_eq_true hba⟩
    · rintro ⟨-, rfl⟩
      rfl

/-- The `INSERT` of rows with keys of their own. -/
theorem insertAll_eq_ok (hnew : (new.map Segment.key).Nodup) :
    new.foldlM insertPacked adj = .ok adj' ↔
      (∀ a ∈ new, a.seq ≤ maxInt4 ∧ ∀ b ∈ adj, b.key ≠ a.key) ∧ adj' = adj ++ new := by
  induction new generalizing adj with
  | nil => simp [pure, Except.pure, eq_comm]
  | cons a new ih =>
      rw [List.map_cons, List.nodup_cons] at hnew
      rw [foldlM_cons_eq_ok]
      constructor
      · rintro ⟨adj₁, hinsert, hrest⟩
        rcases insertPacked_eq_ok.mp hinsert with ⟨ha, rfl⟩
        rcases (ih hnew.2).mp hrest with ⟨hall, rfl⟩
        refine ⟨fun b hb => ?_, by simp⟩
        rcases List.mem_cons.mp hb with rfl | hb
        · exact ha
        · exact ⟨(hall b hb).1, fun c hc => (hall b hb).2 c (List.mem_append_left _ hc)⟩
      · rintro ⟨hall, rfl⟩
        refine ⟨adj ++ [a], insertPacked_eq_ok.mpr ⟨hall a List.mem_cons_self, rfl⟩,
          (ih hnew.2).mpr ⟨fun b hb => ?_, by simp⟩⟩
        have hb' := hall b (List.mem_cons_of_mem _ hb)
        refine ⟨hb'.1, fun c hc => ?_⟩
        rcases List.mem_append.mp hc with hc | hc
        · exact hb'.2 c hc
        · rw [List.mem_singleton.mp hc]
          exact fun heq => hnew.1 (heq ▸ List.mem_map_of_mem hb)

/-- Every new row has room for its number and none of the group's old rows has it. -/
def Fits (o : RowOrders) (adj : List Segment) (g : Group) : Prop :=
  ∀ a ∈ packed o adj g, a.seq ≤ maxInt4 ∧ ∀ b ∈ groupSegments adj g, b.seq ≠ a.seq

theorem key_ne_iff {a : Segment} (ha : group a = g) :
    (∀ b ∈ adj, b.key ≠ a.key) ↔ ∀ b ∈ groupSegments adj g, b.seq ≠ a.seq := by
  constructor
  · intro h b hb hseq
    rcases mem_groupSegments.mp hb with ⟨hb, hgroup⟩
    have heq := Group.mk.inj (hgroup.trans ha.symm)
    exact h b hb (Segment.key_eq_iff.mpr ⟨heq, hseq⟩)
  · intro h b hb hkey
    rcases Segment.key_eq_iff.mp hkey with ⟨⟨hsrc, hetype, hdir⟩, hseq⟩
    refine h b (mem_groupSegments.mpr ⟨hb, ?_⟩) hseq
    rw [← ha, group, group, hsrc, hetype, hdir]

/-- What the statement for one group does. -/
theorem repack_eq_ok :
    repack o adj g = .ok adj' ↔
      Fits o adj g ∧ adj' = (adj.filter fun a => ¬ group a = g) ++ packed o adj g := by
  have hfits : Fits o adj g ↔
      ∀ a ∈ packed o adj g, a.seq ≤ maxInt4 ∧ ∀ b ∈ adj, b.key ≠ a.key :=
    forall₂_congr fun a ha => and_congr_right fun _ => (key_ne_iff (group_of_mem_packed ha)).symm
  rw [hfits, repack, bind_eq_ok]
  constructor
  · rintro ⟨inserted, hinserted, hrest⟩
    rcases (insertAll_eq_ok nodup_packed_keys).mp hinserted with ⟨hall, rfl⟩
    refine ⟨hall, ?_⟩
    rw [← pure_eq_ok.mp hrest, List.drop_left]
  · rintro ⟨hall, rfl⟩
    refine ⟨_, (insertAll_eq_ok nodup_packed_keys).mpr ⟨hall, rfl⟩, pure_eq_ok.mpr ?_⟩
    rw [List.drop_left]

/-- The other groups keep their segments. -/
theorem groupSegments_repacked {g' : Group} (hne : g' ≠ g) :
    groupSegments ((adj.filter fun a => ¬ group a = g) ++ packed o adj g) g' =
      groupSegments adj g' := by
  have hpacked : (packed o adj g).filter (fun a => group a = g') = [] := by
    refine List.filter_eq_nil_iff.mpr fun a ha => ?_
    rw [group_of_mem_packed ha, decide_eq_true_eq]
    exact hne.symm
  rw [groupSegments, List.filter_append, hpacked, List.append_nil, List.filter_filter]
  refine List.filter_congr fun a _ => ?_
  by_cases ha : group a = g'
  · simp [ha, hne]
  · simp [ha]

theorem groupSegments_repacked_self :
    groupSegments ((adj.filter fun a => ¬ group a = g) ++ packed o adj g) g =
      packed o adj g := by
  have hold : (adj.filter fun a => ¬ group a = g).filter (fun a => group a = g) = [] := by
    refine List.filter_eq_nil_iff.mpr fun a ha => ?_
    simpa using (List.mem_filter.mp ha).2
  rw [groupSegments, List.filter_append, hold, List.nil_append, List.filter_eq_self]
  intro a ha
  exact decide_eq_true (group_of_mem_packed ha)

theorem repacked_sound (hadj : Sound adj) :
    Sound ((adj.filter fun a => ¬ group a = g) ++ packed o adj g) := by
  refine ⟨fun a ha => ?_, ?_⟩
  · rcases List.mem_append.mp ha with ha | ha
    · exact hadj.segment a (List.mem_filter.mp ha).1
    · exact packed_sound ha
  · rw [List.map_append]
    refine List.Nodup.append (hadj.keys.sublist (List.filter_sublist.map _)) nodup_packed_keys ?_
    intro k hold hnew
    rcases List.mem_map.mp hold with ⟨a, ha, rfl⟩
    rcases List.mem_map.mp hnew with ⟨b, hb, hkey⟩
    rcases Segment.key_eq_iff.mp hkey with ⟨⟨hsrc, hetype, hdir⟩, -⟩
    refine of_decide_eq_true (List.mem_filter.mp ha).2 ?_
    rw [← group_of_mem_packed hb, group, group, hsrc, hetype, hdir]

theorem repack_preserved (hadj : Sound adj) (h : repack o adj g = .ok adj') :
    Preserved adj adj' := by
  rcases repack_eq_ok.mp h with ⟨-, rfl⟩
  refine ⟨fun g' => ?_, repacked_sound hadj⟩
  by_cases hg : g' = g
  · subst hg
    rw [pairs, groupSegments_repacked_self]
    exact flatMap_packed_perm
  · rw [pairs, groupSegments_repacked hg, pairs]

/-- A statement for another group leaves the group as it was. -/
theorem repack_groupSegments {g' : Group} (hne : g' ≠ g) (h : repack o adj g = .ok adj') :
    groupSegments adj' g' = groupSegments adj g' := by
  rcases repack_eq_ok.mp h with ⟨-, rfl⟩
  exact groupSegments_repacked hne

theorem Fits.congr (h : groupSegments adj' g = groupSegments adj g) :
    Fits o adj' g ↔ Fits o adj g := by
  have hflat : flat o adj' g = flat o adj g := by rw [flat, flat, h]
  have hpacked : packed o adj' g = packed o adj g := by
    rw [packed, packed, hflat]
    refine List.map_congr_left fun newseq _ => ?_
    rw [packedSegment, packedSegment, hflat]
  rw [Fits, Fits, hpacked, h]

end Statement

section Run

variable {o : RowOrders} {adj adj' : List Segment} {g : Group} {gs : List Group}

theorem Preserved.refl (hadj : Sound adj) : Preserved adj adj := ⟨fun _ => .refl _, hadj⟩

theorem Preserved.trans {adj'' : List Segment} (h : Preserved adj adj')
    (h' : Preserved adj' adj'') : Preserved adj adj'' :=
  ⟨fun g => (h'.pairs g).trans (h.pairs g), h'.sound⟩

theorem repackAll_preserved (hadj : Sound adj) (h : gs.foldlM (repack o) adj = .ok adj') :
    Preserved adj adj' :=
  foldlM_preserves (P := Preserved adj)
    (fun _ _ _ hb hstep => hb.trans (repack_preserved hb.sound hstep)) h (.refl hadj)

/-- The loop ends exactly when every group fits where it was before the loop. -/
theorem repackAll_isOk_iff (hgs : gs.Nodup) :
    (∃ adj', gs.foldlM (repack o) adj = .ok adj') ↔ ∀ g ∈ gs, Fits o adj g := by
  induction gs generalizing adj with
  | nil => exact ⟨fun _ _ hg => absurd hg List.not_mem_nil, fun _ => ⟨adj, rfl⟩⟩
  | cons g gs ih =>
      rcases List.nodup_cons.mp hgs with ⟨hg, hgs⟩
      have hothers : ∀ adj₁, repack o adj g = .ok adj₁ →
          ((∀ g' ∈ gs, Fits o adj₁ g') ↔ ∀ g' ∈ gs, Fits o adj g') := by
        intro adj₁ hstep
        refine forall₂_congr fun g' hg' => Fits.congr (repack_groupSegments ?_ hstep)
        rintro rfl
        exact hg hg'
      rw [List.forall_mem_cons]
      constructor
      · rintro ⟨adj', h⟩
        rcases foldlM_cons_eq_ok.mp h with ⟨adj₁, hstep, hrest⟩
        exact ⟨(repack_eq_ok.mp hstep).1, (hothers adj₁ hstep).mp ((ih hgs).mp ⟨adj', hrest⟩)⟩
      · rintro ⟨hfits, hall⟩
        have hstep := repack_eq_ok.mpr ⟨hfits, rfl⟩
        rcases (ih hgs).mpr ((hothers _ hstep).mpr hall) with ⟨adj', hrest⟩
        exact ⟨adj', foldlM_cons_eq_ok.mpr ⟨_, hstep, hrest⟩⟩

end Run

section Numbers

variable {o : RowOrders} {adj : List Segment} {g : Group}

/-- Segments of one group have different numbers. -/
theorem nodup_seqs (hadj : Sound adj) : ((groupSegments adj g).map (·.seq)).Nodup := by
  have hkeys : ((groupSegments adj g).map Segment.key).Nodup :=
    hadj.keys.sublist (List.filter_sublist.map _)
  have hmap : (groupSegments adj g).map Segment.key =
      ((groupSegments adj g).map (·.seq)).map fun seq => (g.src, g.etype, g.dir, seq) := by
    rw [List.map_map]
    refine List.map_congr_left fun a ha => ?_
    have hgroup := (mem_groupSegments.mp ha).2
    subst hgroup
    rfl
  rw [hmap] at hkeys
  exact hkeys.of_map _

theorem length_le_of_seqs {lo hi : Int} (hadj : Sound adj)
    (h : ∀ a ∈ groupSegments adj g, lo ≤ a.seq ∧ a.seq < hi) :
    (groupSegments adj g).length ≤ (hi - lo).toNat := by
  have hcard := List.toFinset_card_of_nodup (nodup_seqs (g := g) hadj)
  have hsub : ((groupSegments adj g).map (·.seq)).toFinset ⊆ Finset.Ico lo hi := by
    intro seq hseq
    rcases List.mem_map.mp (List.mem_toFinset.mp hseq) with ⟨a, ha, rfl⟩
    exact Finset.mem_Ico.mpr (h a ha)
  have hle := Finset.card_le_card hsub
  rw [hcard, List.length_map, Int.card_Ico] at hle
  exact hle

/-- A fragmented group fits when none of its segments has one of the new numbers: then
there are too few segments for a number out of range. -/
theorem fits_iff (hadj : Sound adj) (hseq : ∀ a ∈ adj, -2 ^ 31 ≤ a.seq ∧ a.seq ≤ maxInt4)
    (hfragmented : Fragmented adj g) : Fits o adj g ↔ Free adj g := by
  have hnumbers := @exists_packed_seq_iff o adj g hadj
  constructor
  · intro hfits a ha hrange
    rcases hnumbers.mpr hrange with ⟨b, hb, hba⟩
    exact (hfits b hb).2 a ha hba.symm
  · intro hfree a ha
    have hrange := hnumbers.mp ⟨a, ha, rfl⟩
    refine ⟨?_, fun b hb hba => hfree b hb (hba ▸ hrange)⟩
    by_contra hlarge
    -- all old numbers are then negative, hence few
    have hnegative : ∀ b ∈ groupSegments adj g, -2 ^ 31 ≤ b.seq ∧ b.seq < 0 := by
      intro b hb
      have hb' := hseq b (mem_groupSegments.mp hb).1
      have hnot := hfree b hb
      omega
    have hlength := length_le_of_seqs hadj hnegative
    have htotal := hfragmented.2
    simp only [needed, chunk, maxInt4] at hrange hlarge htotal
    omega

end Numbers

section Main

variable {o : RowOrders} {st : Store} {gid : Int} {graph : String}

theorem nodup_targets : (targets st gid).Nodup := (List.nodup_dedup _).filter _

theorem fragmented_of_mem_targets {g : Group} (hg : g ∈ targets st gid) :
    Fragmented st.ogAdj g := of_decide_eq_true (List.mem_filter.mp hg).2

/-- The reorganisation of a graph succeeds, and preserves what the segments say, exactly
when no segment it rewrites already has one of the numbers of the new ones. -/
theorem reorganize_iff (hadj : Sound st.ogAdj)
    (hseq : ∀ a ∈ st.ogAdj, -2 ^ 31 ≤ a.seq ∧ a.seq ≤ maxInt4)
    (hgraph : graphId st.schema.catalog graph = .ok gid) :
    (∃ st' repacked, ogReorganize o graph st = .ok (st', repacked) ∧
        Preserved st.ogAdj st'.ogAdj) ↔
      ∀ g ∈ targets st gid, Free st.ogAdj g := by
  have hperm := o.groups_perm (targets st gid)
  have hfits : (∀ g ∈ o.groups (targets st gid), Fits o st.ogAdj g) ↔
      ∀ g ∈ targets st gid, Free st.ogAdj g := by
    simp only [hperm.mem_iff]
    exact forall₂_congr fun g hg => fits_iff hadj hseq (fragmented_of_mem_targets hg)
  rw [← hfits, ← repackAll_isOk_iff (hperm.nodup_iff.mpr nodup_targets)]
  simp only [ogReorganize, bind_eq_ok, hgraph, pure_eq_ok]
  constructor
  · rintro ⟨st', repacked, ⟨gid', hgid, adj', hloop, -⟩, -⟩
    obtain rfl := Except.ok.inj hgid
    exact ⟨adj', hloop⟩
  · rintro ⟨adj', hloop⟩
    exact ⟨_, _, ⟨gid, rfl, adj', hloop, rfl⟩, repackAll_preserved hadj hloop⟩

/-- Every open order left as the rows come. -/
def scanOrders : RowOrders :=
  ⟨id, fun _ => .refl _, id, fun _ => .refl _, id, fun _ => .refl _⟩

/-- A node with two segments of one neighbour each, under these numbers. -/
def thinStore (first second : Int) : Store where
  schema := ⟨{ TypeCatalog.empty with
    graphs := [(1, "g")]
    types := [⟨1, 1, "A", .entity, some (nodeTable 1)⟩] }, []⟩
  ogIdAlloc := []
  ogNode := [⟨10, 1⟩]
  ogEdge := []
  ogAdj := [⟨10, 2, .o, first, 1, [11], [21]⟩, ⟨10, 2, .o, second, 1, [12], [22]⟩]
  ogRolePlayer := []

theorem thinStore_sound {first second : Int} (h : first ≠ second) :
    Sound (thinStore first second).ogAdj := by
  refine ⟨fun a ha => ?_, by simp [thinStore, Segment.key, h]⟩
  simp only [thinStore, List.mem_cons, List.not_mem_nil, or_false] at ha
  rcases ha with rfl | rfl
  · exact ⟨⟨rfl, rfl⟩, Int.le_refl 1, by simp [chunk]⟩
  · exact ⟨⟨rfl, rfl⟩, Int.le_refl 1, by simp [chunk]⟩

/-- The segments 3 and 4 are rewritten into a segment 0. -/
theorem reorganize_thin :
    ∃ st' repacked, ogReorganize scanOrders "g" (thinStore 3 4) = .ok (st', repacked) ∧
      Preserved (thinStore 3 4).ogAdj st'.ogAdj :=
  (@reorganize_iff scanOrders (thinStore 3 4) 1 "g" (thinStore_sound (by decide)) (by decide)
    rfl).mpr (by decide)

/-- The segments 0 and 1 of a node are not rewritten: the new segment 0 meets the old
one. -/
theorem not_reorganize_thin :
    ¬ ∃ st' repacked, ogReorganize scanOrders "g" (thinStore 0 1) = .ok (st', repacked) ∧
      Preserved (thinStore 0 1).ogAdj st'.ogAdj := by
  rintro ⟨st', repacked, hrun, -⟩
  have herror : ogReorganize scanOrders "g" (thinStore 0 1) =
      .error "repack failed: duplicate key value" := rfl
  rw [herror] at hrun
  cases hrun

end Main

end OntologicalDb.Reorganization
