import Mathlib.Data.List.Basic
import Mathlib.Data.Nat.Bitwise
import Mathlib.Tactic.Cases

/-!
Packed arrays.  A counting sort lays the second components of a list of pairs
out in buckets, one for every first component, with the bucket bounds in an array
of offsets; a set of positions is kept as the bits of an array of words.
-/

namespace OntologicalDb.PackedArrays

section Buckets

/-- Buckets laid out one after the other: bucket `i` is
`items[offs[i]..offs[i + 1]]`. -/
structure Buckets where
  offs : List Nat
  items : List Nat
deriving DecidableEq

def Buckets.get (b : Buckets) (i : Nat) : List Nat :=
  (b.items.take (b.offs.getD (i + 1) 0)).drop (b.offs.getD i 0)

/-- Count one occurrence of a position. -/
def tally (counts : List Nat) (i : Nat) : List Nat := counts.modify i (· + 1)

/-- Add the entry before a position to the one after it. -/
def accumulate (offs : List Nat) (i : Nat) : List Nat :=
  offs.modify (i + 1) (· + offs.getD i 0)

/-- The items placed so far and the next free place of every bucket. -/
structure Filling where
  items : List Nat
  fill : List Nat

def place (st : Filling) (e : Nat × Nat) : Filling where
  items := st.items.set (st.fill.getD e.1 0) e.2
  fill := tally st.fill e.1

/-- The number of pairs whose first component is below a bound. -/
def below (es : List (Nat × Nat)) (i : Nat) : Nat := es.countP fun e => e.1 < i

def bucket (es : List (Nat × Nat)) (i : Nat) : List Nat :=
  (es.filter fun e => e.1 = i).map (·.2)

variable {es : List (Nat × Nat)} {i j : Nat}

theorem getD_modify {xs : List Nat} {f : Nat → Nat} (hi : i < xs.length) :
    (xs.modify i f).getD j 0 = if j = i then f (xs.getD i 0) else xs.getD j 0 := by
  simp only [List.getD_eq_getElem?_getD, List.getElem?_modify]
  split
  · next hij =>
    subst hij
    simp [hi]
  · next hij => simp [Ne.symm hij]

theorem length_bucket : (bucket es i).length = es.countP fun e => e.1 = i := by
  rw [bucket, List.length_map, ← List.countP_eq_length_filter]

theorem below_zero : below es 0 = 0 := by
  simp [below]

theorem below_succ : below es (i + 1) = below es i + (bucket es i).length := by
  rw [length_bucket]
  induction es with
  | nil => rfl
  | cons e es ih =>
      simp only [below, List.countP_cons, decide_eq_true_eq] at ih ⊢
      have : (if e.1 < i + 1 then 1 else 0) =
          (if e.1 < i then 1 else 0) + if e.1 = i then 1 else 0 := by
        split_ifs <;> omega
      omega

theorem below_mono (h : i ≤ j) : below es i ≤ below es j :=
  List.countP_mono_left fun _ _ hlt =>
    decide_eq_true (Nat.lt_of_lt_of_le (of_decide_eq_true hlt) h)

theorem length_foldl_tally (is : List Nat) (counts : List Nat) :
    (is.foldl tally counts).length = counts.length := by
  induction is generalizing counts with
  | nil => rfl
  | cons i is ih => rw [List.foldl_cons, ih, tally, List.length_modify]

theorem getD_foldl_tally (is : List Nat) (counts : List Nat)
    (his : ∀ i ∈ is, i < counts.length) :
    (is.foldl tally counts).getD j 0 = counts.getD j 0 + is.count j := by
  induction is generalizing counts with
  | nil => simp
  | cons i is ih =>
      have hi := his i List.mem_cons_self
      rw [List.foldl_cons, ih _ fun k hk => by
        rw [tally, List.length_modify]
        exact his k (List.mem_cons_of_mem _ hk)]
      rw [tally, getD_modify hi, List.count_cons]
      rcases eq_or_ne j i with rfl | hne
      · rw [if_pos rfl, if_pos (beq_self_eq_true j)]
        omega
      · rw [if_neg hne, if_neg (by simpa using hne.symm), Nat.add_zero]

/-- A counting sort of pairs whose first components are below `n`. -/
def pack (n : Nat) (edges : List (Nat × Nat)) : Buckets :=
  let counts := edges.foldl (fun offs e => tally offs (e.1 + 1)) (List.replicate (n + 1) 0)
  let offs := (List.range n).foldl accumulate counts
  let filled := edges.foldl place ⟨List.replicate edges.length 0, offs⟩
  ⟨offs, filled.items⟩

def counts (n : Nat) (es : List (Nat × Nat)) : List Nat :=
  es.foldl (fun offs e => tally offs (e.1 + 1)) (List.replicate (n + 1) 0)

theorem counts_eq {n : Nat} :
    counts n es = (es.map fun e => e.1 + 1).foldl tally (List.replicate (n + 1) 0) := by
  rw [counts, List.foldl_map]

theorem length_counts {n : Nat} : (counts n es).length = n + 1 := by
  rw [counts_eq, length_foldl_tally, List.length_replicate]

theorem getD_counts_succ {n : Nat} (hes : ∀ e ∈ es, e.1 < n) :
    (counts n es).getD (j + 1) 0 = (bucket es j).length := by
  have hmap : ∀ k ∈ es.map fun e => e.1 + 1, k < (List.replicate (n + 1) 0).length := by
    intro k hk
    obtain ⟨e, he, rfl⟩ := List.mem_map.mp hk
    have := hes e he
    rw [List.length_replicate]
    omega
  have hzero : (List.replicate (n + 1) 0).getD (j + 1) 0 = 0 := by
    rw [List.getD_eq_getElem?_getD, List.getElem?_replicate]
    split <;> rfl
  rw [counts_eq, getD_foldl_tally _ _ hmap, hzero, Nat.zero_add, length_bucket,
    List.count_eq_countP, List.countP_map]
  refine List.countP_congr fun e _ => ?_
  simp

theorem length_accumulated (k : Nat) (offs : List Nat) :
    ((List.range k).foldl accumulate offs).length = offs.length := by
  induction k with
  | zero => rfl
  | succ k ih =>
      rw [List.range_succ, List.foldl_append, List.foldl_cons, List.foldl_nil, accumulate,
        List.length_modify, ih]

/-- After `k` rounds the entries up to `k` are prefix sums, the others counts. -/
theorem getD_accumulated {n : Nat} (hes : ∀ e ∈ es, e.1 < n) {k : Nat} (hk : k ≤ n) :
    (∀ j ≤ k, ((List.range k).foldl accumulate (counts n es)).getD j 0 = below es j) ∧
      ∀ j, k < j → ((List.range k).foldl accumulate (counts n es)).getD j 0 =
        (counts n es).getD j 0 := by
  induction k with
  | zero =>
      refine ⟨fun j hj => ?_, fun j _ => rfl⟩
      obtain rfl := Nat.le_zero.mp hj
      rw [below_zero, List.range_zero, List.foldl_nil, counts_eq, getD_foldl_tally]
      · have hnone : (es.map fun e => e.1 + 1).count 0 = 0 := by
          refine List.count_eq_zero.mpr fun hmem => ?_
          obtain ⟨e, -, he⟩ := List.mem_map.mp hmem
          omega
        rw [hnone]
        rfl
      · intro i hi
        obtain ⟨e, he, rfl⟩ := List.mem_map.mp hi
        have := hes e he
        rw [List.length_replicate]
        omega
  | succ k ih =>
      obtain ⟨hsums, hcounts⟩ := ih (by omega)
      have hlength : k + 1 < ((List.range k).foldl accumulate (counts n es)).length := by
        rw [length_accumulated, length_counts]
        omega
      have hstep : ∀ j, ((List.range (k + 1)).foldl accumulate (counts n es)).getD j 0 =
          if j = k + 1 then (counts n es).getD (k + 1) 0 + below es k
          else ((List.range k).foldl accumulate (counts n es)).getD j 0 := by
        intro j
        rw [List.range_succ, List.foldl_append, List.foldl_cons, List.foldl_nil, accumulate,
          getD_modify hlength, hsums k (le_refl k), hcounts (k + 1) (by omega)]
      refine ⟨fun j hj => ?_, fun j hj => ?_⟩
      · rw [hstep]
        split
        · next heq =>
          rw [heq, getD_counts_succ hes, below_succ, Nat.add_comm]
        · exact hsums j (by omega)
      · rw [hstep, if_neg (by omega)]
        exact hcounts j (by omega)

theorem getD_offs {n : Nat} (hes : ∀ e ∈ es, e.1 < n) :
    (pack n es).offs.getD j 0 = if j ≤ n then below es j else 0 := by
  split
  · next hj => exact (getD_accumulated hes (le_refl n)).1 j hj
  · next hj =>
    refine List.getD_eq_default _ _ ?_
    change ((List.range n).foldl accumulate (counts n es)).length ≤ j
    rw [length_accumulated, length_counts]
    omega

theorem bucket_concat {e : Nat × Nat} :
    bucket (es ++ [e]) i = bucket es i ++ if e.1 = i then [e.2] else [] := by
  rw [bucket, List.filter_append, List.map_append]
  by_cases h : e.1 = i <;> simp [bucket, h]

/-- Part of the pairs has been placed, each bucket filled from its start. -/
structure Filled (n : Nat) (es done : List (Nat × Nat)) (st : Filling) : Prop where
  room : st.items.length = es.length
  buckets : st.fill.length = n + 1
  fill : ∀ i < n, st.fill.getD i 0 = below es i + (bucket done i).length
  items : ∀ i < n, ∀ k < (bucket done i).length,
    st.items.getD (below es i + k) 0 = (bucket done i).getD k 0

theorem length_bucket_le {done rest : List (Nat × Nat)} (h : es = done ++ rest) :
    (bucket done i).length ≤ (bucket es i).length := by
  rw [h, bucket, bucket, List.filter_append, List.map_append, List.length_append]
  omega

theorem Filled.place {n : Nat} {done rest : List (Nat × Nat)} {e : Nat × Nat}
    {st : Filling} (hes : ∀ e ∈ es, e.1 < n) (hsplit : es = done ++ e :: rest)
    (h : Filled n es done st) : Filled n es (done ++ [e]) (place st e) := by
  have he : e.1 < n := hes e (by rw [hsplit]; simp)
  have hfree := h.fill e.1 he
  have hsplit' : es = (done ++ [e]) ++ rest := by
    rw [hsplit]
    simp
  have hroom : (bucket done e.1).length < (bucket es e.1).length := by
    have hle : (bucket (done ++ [e]) e.1).length ≤ (bucket es e.1).length :=
      length_bucket_le hsplit'
    rw [bucket_concat, if_pos rfl, List.length_append, List.length_singleton] at hle
    omega
  have hbelow : below es (e.1 + 1) = below es e.1 + (bucket es e.1).length := below_succ
  have htotal : below es (e.1 + 1) ≤ es.length := List.countP_le_length
  have hset : ∀ q, (st.items.set (st.fill.getD e.1 0) e.2).getD q 0 =
      if q = st.fill.getD e.1 0 then e.2 else st.items.getD q 0 := by
    intro q
    have hlt : st.fill.getD e.1 0 < st.items.length := by
      rw [h.room]
      omega
    rcases eq_or_ne q (st.fill.getD e.1 0) with rfl | hne
    · rw [if_pos rfl, List.getD_eq_getElem?_getD, List.getElem?_set_self hlt]
      rfl
    · rw [if_neg hne, List.getD_eq_getElem?_getD, List.getElem?_set_ne hne.symm,
        List.getD_eq_getElem?_getD]
  have hlength : e.1 < st.fill.length := by
    rw [h.buckets]
    omega
  refine ⟨?_, ?_, fun i hi => ?_, fun i hi k hk => ?_⟩
  · exact List.length_set.trans h.room
  · exact (List.length_modify _ _ _).trans h.buckets
  · rw [PackedArrays.place, tally, getD_modify hlength, bucket_concat]
    split
    · next heq =>
      subst heq
      rw [hfree, if_pos rfl, List.length_append, List.length_singleton]
      omega
    · next hne =>
      rw [if_neg (Ne.symm hne), List.append_nil]
      exact h.fill i hi
  · rw [PackedArrays.place, hset]
    rw [bucket_concat] at hk ⊢
    rcases Nat.lt_or_ge k (bucket done i).length with hold | hnew
    · -- A place filled before lies in another bucket or further left in this one.
      have hne : below es i + k ≠ st.fill.getD e.1 0 := by
        have hlen : (bucket done i).length ≤ (bucket es i).length := length_bucket_le hsplit
        have hnext : below es (i + 1) = below es i + (bucket es i).length := below_succ
        rcases Nat.lt_trichotomy i e.1 with hlt | heq | hgt
        · have : below es (i + 1) ≤ below es e.1 := below_mono hlt
          omega
        · subst heq
          omega
        · have : below es (e.1 + 1) ≤ below es i := below_mono hgt
          omega
      rw [if_neg hne, List.getD_append _ _ _ _ hold]
      exact h.items i hi k hold
    · have heq : e.1 = i := by
        by_contra hne
        rw [if_neg hne, List.append_nil] at hk
        omega
      subst heq
      rw [if_pos rfl, List.length_append, List.length_singleton] at hk
      obtain rfl : k = (bucket done e.1).length := by omega
      rw [if_pos hfree.symm, if_pos rfl, List.getD_append_right _ _ _ _ (le_refl _),
        Nat.sub_self]
      rfl

theorem Filled.foldl {n : Nat} {done rest : List (Nat × Nat)} {st : Filling}
    (hes : ∀ e ∈ es, e.1 < n) (hsplit : es = done ++ rest) (h : Filled n es done st) :
    Filled n es es (rest.foldl PackedArrays.place st) := by
  induction rest generalizing done st with
  | nil =>
      rw [List.append_nil] at hsplit
      rw [hsplit] at h ⊢
      exact h
  | cons e rest ih =>
      exact ih (by rw [hsplit]; simp) (h.place hes hsplit)

/-- A packed bucket lists the second components in their order. -/
theorem get_pack {n : Nat} (hes : ∀ e ∈ es, e.1 < n) : (pack n es).get i = bucket es i := by
  rcases Nat.lt_or_ge i n with hi | hi
  · have hstart : Filled n es [] ⟨List.replicate es.length 0, (pack n es).offs⟩ := by
      refine ⟨List.length_replicate, ?_, fun i hi => ?_, by simp [bucket]⟩
      · change ((List.range n).foldl accumulate (counts n es)).length = n + 1
        rw [length_accumulated, length_counts]
      · rw [getD_offs hes, if_pos (by omega)]
        rfl
    have hfilled := hstart.foldl hes rfl
    have hnext : below es (i + 1) = below es i + (bucket es i).length := below_succ
    have htotal : below es (i + 1) ≤ es.length := List.countP_le_length
    rw [Buckets.get, getD_offs hes, getD_offs hes, if_pos (by omega), if_pos (by omega)]
    change (((es.foldl PackedArrays.place ⟨_, (pack n es).offs⟩).items).take _).drop _ = _
    refine List.ext_getElem ?_ fun k hk hk' => ?_
    · rw [List.length_drop, List.length_take, hfilled.room]
      omega
    · have hitem := hfilled.items i hi k hk'
      rw [List.getElem_drop, List.getElem_take]
      rw [List.getD_eq_getElem _ _ hk', List.getD_eq_getElem] at hitem
      exact hitem
  · have hnone : bucket es i = [] := by
      rw [bucket, List.map_eq_nil_iff, List.filter_eq_nil_iff]
      intro e he heq
      have := hes e he
      have := of_decide_eq_true heq
      omega
    have hend : (pack n es).offs.getD (i + 1) 0 = 0 := by
      rw [getD_offs hes, if_neg (by omega)]
    rw [Buckets.get, hnone, hend, List.take_zero, List.drop_nil]

end Buckets

section Bits

/-- Set a bit; report whether it was clear before. -/
def mark (seen : List Nat) (i : Nat) : List Nat × Bool :=
  let w := i / 64
  let b := 1 <<< (i % 64)
  (seen.modify w (· ||| b), seen.getD w 0 &&& b = 0)

def Marked (seen : List Nat) (i : Nat) : Prop := (seen.getD (i / 64) 0).testBit (i % 64) = true

theorem and_shiftLeft_one_eq_zero {w k : Nat} : w &&& 1 <<< k = 0 ↔ w.testBit k = false := by
  rw [Nat.one_shiftLeft, Nat.and_two_pow]
  cases w.testBit k with
  | false => simp
  | true => simp

theorem mark_snd {seen : List Nat} {i : Nat} : (mark seen i).2 = true ↔ ¬ Marked seen i := by
  rw [mark, decide_eq_true_eq, and_shiftLeft_one_eq_zero, Marked, Bool.not_eq_true]

theorem length_mark {seen : List Nat} {i : Nat} :
    (mark seen i).1.length = seen.length := List.length_modify _ _ _

theorem marked_mark {seen : List Nat} {i j : Nat} (hi : i / 64 < seen.length) :
    Marked (mark seen i).1 j ↔ Marked seen j ∨ j = i := by
  rw [Marked, mark, getD_modify hi]
  split
  · next hword =>
    rw [Nat.testBit_or, Nat.one_shiftLeft, Nat.testBit_two_pow, Bool.or_eq_true,
      decide_eq_true_eq, Marked, hword]
    refine or_congr_right ⟨fun hbit => ?_, fun heq => by rw [heq]⟩
    omega
  · next hword =>
    rw [Marked]
    refine ⟨.inl, fun h => h.resolve_right ?_⟩
    rintro rfl
    exact hword rfl

theorem not_marked_replicate {n i : Nat} : ¬ Marked (List.replicate n 0) i := by
  have hzero : (List.replicate n 0).getD (i / 64) 0 = 0 := by
    rw [List.getD_eq_getElem?_getD, List.getElem?_replicate]
    split <;> rfl
  rw [Marked, hzero, Nat.zero_testBit]
  simp

end Bits

end OntologicalDb.PackedArrays
