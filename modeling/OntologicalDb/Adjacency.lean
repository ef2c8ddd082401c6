import Mathlib.Algebra.Group.Int.Defs
import Mathlib.Data.List.Zip
import OntologicalDb.ExceptRules
import OntologicalDb.KeyedRows

/-!
Adjacency segments.  One row holds up to `chunk` neighbours of one node for one
relation type in one direction, as two aligned arrays.
-/

namespace OntologicalDb.Adjacency

open OntologicalDb.ExceptRules
open OntologicalDb.KeyedRows

/-- Neighbours per segment. -/
def chunk : Int := 256

/-- The largest `int4`. -/
def maxInt4 : Int := 2 ^ 31 - 1

/-- The stored directions: `o` for outgoing, `i` for incoming. -/
inductive Dir
  | o
  | i
deriving DecidableEq

structure Segment where
  src : Int
  etype : Int
  dir : Dir
  seq : Int
  n : Int
  nbr : List Int
  eid : List Int
deriving DecidableEq

/-- The primary key of a segment. -/
def Segment.key (a : Segment) : Int × Int × Dir × Int := (a.src, a.etype, a.dir, a.seq)

/-- The segment belongs to this node, relation type and direction. -/
def Segment.At (src etype : Int) (dir : Dir) (a : Segment) : Prop :=
  a.src = src ∧ a.etype = etype ∧ a.dir = dir

instance (src etype : Int) (dir : Dir) (a : Segment) : Decidable (a.At src etype dir) :=
  inferInstanceAs (Decidable (_ ∧ _ ∧ _))

/-- `SELECT max(seq)` over the segments of a node, type and direction. -/
def maxSeq (adj : List Segment) (src etype : Int) (dir : Dir) : Option Int :=
  ((adj.filter fun a => a.At src etype dir).map (·.seq)).max?

/-- Insert a segment, under the range of `seq` and the primary key. -/
def insertSegment (adj : List Segment) (a : Segment) : Except String (List Segment) :=
  if a.seq > maxInt4 then .error "adjacency chunk insert failed: integer out of range"
  else if adj.any fun b => b.key = a.key then
    .error "adjacency chunk insert failed: duplicate key value"
  else .ok (adj ++ [a])

/-- Append one neighbour to the tail segment, or to a new one when the tail is
full. -/
def append (adj : List Segment) (src etype : Int) (dir : Dir) (nbr eid : Int) :
    Except String (List Segment) :=
  let isTail (a : Segment) : Prop :=
    a.At src etype dir ∧ some a.seq = maxSeq adj src etype dir ∧ a.n < chunk
  if adj.any fun a => isTail a then
    .ok (update isTail
      (fun a => { a with nbr := a.nbr ++ [nbr], eid := a.eid ++ [eid], n := a.n + 1 }) adj)
  else
    insertSegment adj
      { src := src, etype := etype, dir := dir
        seq := ((maxSeq adj src etype dir).map (· + 1)).getD 0
        n := 1, nbr := [nbr], eid := [eid] }

/-- The segment with one array position spliced out. -/
def Segment.splice (idx : Nat) (a : Segment) : Segment :=
  { a with nbr := a.nbr.eraseIdx idx, eid := a.eid.eraseIdx idx, n := a.n - 1 }

/-- Remove one edge from its segment, then reclaim emptied segments. -/
def remove (adj : List Segment) (src etype : Int) (dir : Dir) (eid : Int) :
    List Segment :=
  let spliced :=
    match adj.find? fun a => a.At src etype dir ∧ eid ∈ a.eid with
    | none => adj
    | some i => update (fun a => a.key = i.key) (Segment.splice (i.eid.idxOf eid)) adj
  spliced.filter fun a => ¬ (a.At src etype dir ∧ a.n = 0)

/-- One array position of one segment. -/
structure Entry where
  src : Int
  etype : Int
  dir : Dir
  nbr : Int
  eid : Int
deriving DecidableEq

def Segment.entries (a : Segment) : List Entry :=
  (a.nbr.zip a.eid).map fun x => ⟨a.src, a.etype, a.dir, x.1, x.2⟩

/-- Everything a table of segments says about neighbours. -/
def entries (adj : List Segment) : List Entry := adj.flatMap Segment.entries

/-- The counter and both arrays of a segment agree. -/
structure Segment.Aligned (a : Segment) : Prop where
  nbr_length : a.n = a.nbr.length
  eid_length : a.n = a.eid.length

/-- A stored segment is aligned and neither empty nor over-full. -/
structure Segment.Sound (a : Segment) : Prop extends a.Aligned where
  pos : 1 ≤ a.n
  le_chunk : a.n ≤ chunk

/-- The invariant of the adjacency table. -/
structure Sound (adj : List Segment) : Prop where
  segment : ∀ a ∈ adj, a.Sound
  keys : (adj.map Segment.key).Nodup

theorem Sound.nil : Sound [] := ⟨by simp, by simp⟩

section Segments

variable {adj adj' : List Segment} {a : Segment} {src etype nbr eid : Int} {dir : Dir}

theorem mem_entries {e : Entry} : e ∈ entries adj ↔ ∃ a ∈ adj, e ∈ a.entries := by
  simp [entries]

theorem Segment.mem_entries_iff {e : Entry} :
    e ∈ a.entries ↔ a.At e.src e.etype e.dir ∧ (e.nbr, e.eid) ∈ a.nbr.zip a.eid := by
  simp only [Segment.entries, Segment.At, List.mem_map]
  constructor
  · rintro ⟨x, hx, rfl⟩
    exact ⟨⟨rfl, rfl, rfl⟩, hx⟩
  · rintro ⟨⟨hsrc, hetype, hdir⟩, hx⟩
    exact ⟨_, hx, by rw [hsrc, hetype, hdir]⟩

theorem Segment.key_eq_iff {b : Segment} :
    a.key = b.key ↔ a.At b.src b.etype b.dir ∧ a.seq = b.seq := by
  simp [Segment.key, Segment.At, and_assoc]

theorem insertSegment_eq_ok (h : insertSegment adj a = .ok adj') :
    adj' = adj ++ [a] ∧ a.key ∉ adj.map Segment.key := by
  unfold insertSegment at h
  split_ifs at h with hseq hkey
  refine ⟨(Except.ok.inj h).symm, fun hmem => hkey ?_⟩
  obtain ⟨b, hb, hba⟩ := List.mem_map.mp hmem
  exact List.any_eq_true.mpr ⟨b, hb, by simpa using hba⟩

theorem Segment.entries_snoc (ha : a.Aligned) :
    ({ a with nbr := a.nbr ++ [nbr], eid := a.eid ++ [eid], n := a.n + 1 } :
      Segment).entries = a.entries ++ [⟨a.src, a.etype, a.dir, nbr, eid⟩] := by
  have hlen : a.nbr.length = a.eid.length := by
    have := ha.nbr_length
    have := ha.eid_length
    omega
  simp [Segment.entries, List.zip_append hlen]

theorem Segment.Sound.snoc (ha : a.Sound) (hn : a.n < chunk) :
    ({ a with nbr := a.nbr ++ [nbr], eid := a.eid ++ [eid], n := a.n + 1 } :
      Segment).Sound where
  nbr_length := by
    have := ha.nbr_length
    simp only [List.length_append, List.length_singleton]
    omega
  eid_length := by
    have := ha.eid_length
    simp only [List.length_append, List.length_singleton]
    omega
  pos := by
    have := ha.pos
    dsimp only
    omega
  le_chunk := by
    dsimp only
    omega

/-- Appending adds one entry, and keeps the table sound. -/
theorem append_eq_ok (hadj : Sound adj) (h : append adj src etype dir nbr eid = .ok adj') :
    Sound adj' ∧ (entries adj').Perm (⟨src, etype, dir, nbr, eid⟩ :: entries adj) := by
  unfold append at h
  extract_lets isTail at h
  split at h
  · next htail =>
    obtain ⟨a, ha, htail⟩ := List.any_eq_true.mp htail
    obtain ⟨⟨rfl, rfl, rfl⟩, hseq, hn⟩ : isTail a := of_decide_eq_true htail
    have honly : ∀ b ∈ adj, isTail b → b.key = a.key := by
      rintro b - ⟨hat, hbseq, -⟩
      exact Segment.key_eq_iff.mpr ⟨hat, Option.some.inj (hbseq.trans hseq.symm)⟩
    obtain ⟨xs, ys, rfl, hupdate⟩ :=
      exists_update_eq (p := isTail)
        (f := fun a => { a with nbr := a.nbr ++ [nbr], eid := a.eid ++ [eid], n := a.n + 1 })
        Segment.key hadj.keys ha ⟨⟨rfl, rfl, rfl⟩, hseq, hn⟩ honly
    obtain rfl := Except.ok.inj h
    rw [hupdate]
    have hsound := hadj.segment a ha
    refine ⟨⟨?_, ?_⟩, ?_⟩
    · intro b hb
      rcases List.mem_append.mp hb with hb | hb
      · exact hadj.segment b (List.mem_append_left _ hb)
      · rcases List.mem_cons.mp hb with rfl | hb
        · exact hsound.snoc hn
        · exact hadj.segment b (List.mem_append_right _ (List.mem_cons_of_mem _ hb))
    · simpa [Segment.key] using hadj.keys
    · exact flatMap_replace_perm Segment.entries [_]
        ((Segment.entries_snoc hsound.toAligned).symm ▸ List.perm_append_comm)
  · obtain ⟨rfl, hkey⟩ := insertSegment_eq_ok h
    refine ⟨⟨?_, ?_⟩, ?_⟩
    · intro b hb
      rcases List.mem_append.mp hb with hb | hb
      · exact hadj.segment b hb
      · obtain rfl := List.mem_singleton.mp hb
        exact ⟨⟨rfl, rfl⟩, Int.le_refl 1, by simp [chunk]⟩
    · rw [List.map_append, List.map_singleton]
      exact hadj.keys.append (List.nodup_singleton _)
        (by simpa [List.disjoint_singleton] using hkey)
    · simp only [entries, List.flatMap_append, List.flatMap_singleton]
      exact List.perm_append_comm

theorem Segment.splice_aligned {idx : Nat} (ha : a.Aligned) (hidx : idx < a.eid.length) :
    (a.splice idx).Aligned where
  nbr_length := by
    have := ha.nbr_length
    have := ha.eid_length
    simp only [Segment.splice, List.length_eraseIdx]
    split <;> omega
  eid_length := by
    have := ha.eid_length
    simp only [Segment.splice, List.length_eraseIdx]
    split <;> omega

theorem zip_eraseIdx {xs ys : List Int} {idx : Nat} :
    (xs.zip ys).eraseIdx idx = (xs.eraseIdx idx).zip (ys.eraseIdx idx) := by
  induction xs generalizing ys idx with
  | nil => simp
  | cons x xs ih =>
      cases ys with
      | nil => simp
      | cons y ys =>
          cases idx with
          | zero => rfl
          | succ idx => simp [ih]

/-- Splicing takes out the entry at that position. -/
theorem Segment.entries_splice {idx : Nat} (ha : a.Aligned) (hidx : idx < a.eid.length) :
    ∃ nbr, a.entries.Perm
      (⟨a.src, a.etype, a.dir, nbr, a.eid[idx]⟩ :: (a.splice idx).entries) := by
  have hnbr : idx < a.nbr.length := by
    have := ha.nbr_length
    have := ha.eid_length
    omega
  have hzip : idx < (a.nbr.zip a.eid).length := by
    rw [List.length_zip]
    omega
  refine ⟨a.nbr[idx], ?_⟩
  have hperm := (List.getElem_cons_eraseIdx_perm hzip).symm.map
    fun x : Int × Int => (⟨a.src, a.etype, a.dir, x.1, x.2⟩ : Entry)
  simpa [Segment.entries, Segment.splice, zip_eraseIdx] using hperm

theorem Segment.entries_eq_nil (ha : a.Aligned) (hn : a.n = 0) : a.entries = [] := by
  have hnbr : a.nbr = [] := List.length_eq_zero_iff.mp (by have := ha.nbr_length; omega)
  simp [Segment.entries, hnbr]

/-- Reclaiming emptied segments loses no entry and leaves a sound table. -/
theorem reclaim_sound (src etype : Int) (dir : Dir)
    (haligned : ∀ a ∈ adj, a.Aligned ∧ a.n ≤ chunk)
    (hpos : ∀ a ∈ adj, a.At src etype dir ∨ 1 ≤ a.n)
    (hkeys : (adj.map Segment.key).Nodup) :
    Sound (adj.filter fun a => ¬ (a.At src etype dir ∧ a.n = 0)) ∧
      entries (adj.filter fun a => ¬ (a.At src etype dir ∧ a.n = 0)) = entries adj := by
  refine ⟨⟨fun a ha => ?_, hkeys.sublist (List.filter_sublist.map _)⟩, ?_⟩
  · obtain ⟨ha, hkept⟩ := List.mem_filter.mp ha
    refine ⟨(haligned a ha).1, ?_, (haligned a ha).2⟩
    have hn := (haligned a ha).1.nbr_length
    rcases hpos a ha with hat | hpos
    · have hne : ¬ a.n = 0 := fun hzero => of_decide_eq_true hkept ⟨hat, hzero⟩
      omega
    · exact hpos
  · refine flatMap_filter_eq _ fun a ha hgone => ?_
    have hgone := not_not.mp (of_decide_eq_false hgone)
    exact Segment.entries_eq_nil (haligned a ha).1 hgone.2

/-- Removing an edge takes out one of its entries, and keeps the table sound. -/
theorem remove_sound (hadj : Sound adj) :
    Sound (remove adj src etype dir eid) ∧
      ((∃ nbr, (entries adj).Perm
          (⟨src, etype, dir, nbr, eid⟩ :: entries (remove adj src etype dir eid))) ∨
        (∀ nbr, ⟨src, etype, dir, nbr, eid⟩ ∉ entries adj) ∧
          entries (remove adj src etype dir eid) = entries adj) := by
  unfold remove
  cases hfind : adj.find? fun a => a.At src etype dir ∧ eid ∈ a.eid with
  | none =>
      have hnone := List.find?_eq_none.mp hfind
      obtain ⟨hsound, hentries⟩ := reclaim_sound src etype dir
        (fun a ha => ⟨(hadj.segment a ha).toAligned, (hadj.segment a ha).le_chunk⟩)
        (fun a ha => .inr (hadj.segment a ha).pos) hadj.keys
      refine ⟨hsound, .inr ⟨fun nbr hmem => ?_, hentries⟩⟩
      obtain ⟨a, ha, he⟩ := mem_entries.mp hmem
      obtain ⟨hat, hzip⟩ := Segment.mem_entries_iff.mp he
      exact hnone a ha (by simpa using ⟨hat, (List.of_mem_zip hzip).2⟩)
  | some a =>
      have ha := List.mem_of_find?_eq_some hfind
      obtain ⟨⟨rfl, rfl, rfl⟩, heid⟩ : a.At src etype dir ∧ eid ∈ a.eid := by
        simpa using List.find?_some hfind
      have hidx := List.idxOf_lt_length_iff.mpr heid
      obtain ⟨xs, ys, rfl, hupdate⟩ :=
        exists_update_eq (p := fun b => b.key = a.key)
          (f := Segment.splice (a.eid.idxOf eid)) Segment.key hadj.keys ha rfl
          fun b _ hb => hb
      dsimp only
      rw [hupdate]
      have hsound := hadj.segment a ha
      have hkey : (a.splice (a.eid.idxOf eid)).key = a.key := rfl
      have haligned : ∀ b ∈ xs ++ a.splice (a.eid.idxOf eid) :: ys,
          b.Aligned ∧ b.n ≤ chunk := by
        intro b hb
        rcases List.mem_append.mp hb with hb | hb
        · have hb := hadj.segment b (List.mem_append_left _ hb)
          exact ⟨hb.toAligned, hb.le_chunk⟩
        rcases List.mem_cons.mp hb with rfl | hb
        · refine ⟨Segment.splice_aligned hsound.toAligned hidx, ?_⟩
          have := hsound.le_chunk
          dsimp only [Segment.splice]
          omega
        · have hb := hadj.segment b (List.mem_append_right _ (List.mem_cons_of_mem _ hb))
          exact ⟨hb.toAligned, hb.le_chunk⟩
      have hpos : ∀ b ∈ xs ++ a.splice (a.eid.idxOf eid) :: ys,
          b.At a.src a.etype a.dir ∨ 1 ≤ b.n := by
        intro b hb
        rcases List.mem_append.mp hb with hb | hb
        · exact .inr (hadj.segment b (List.mem_append_left _ hb)).pos
        rcases List.mem_cons.mp hb with rfl | hb
        · exact .inl ⟨rfl, rfl, rfl⟩
        · exact .inr
            (hadj.segment b (List.mem_append_right _ (List.mem_cons_of_mem _ hb))).pos
      obtain ⟨hreclaimed, hentries⟩ := reclaim_sound _ _ _ haligned hpos
        (by simpa [hkey] using hadj.keys)
      refine ⟨hreclaimed, .inl ?_⟩
      rw [hentries]
      obtain ⟨nbr, hperm⟩ := Segment.entries_splice hsound.toAligned hidx
      rw [List.getElem_idxOf] at hperm
      exact ⟨nbr, flatMap_replace_perm Segment.entries [_] hperm⟩

end Segments

end OntologicalDb.Adjacency
