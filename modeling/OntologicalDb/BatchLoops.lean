import Mathlib

/-!
Work that is done batch by batch until a batch finds nothing to do, and the pages of a table that
is read in the order of its keys.
-/

namespace OntologicalDb.BatchLoops

section Loops

variable {ε σ β : Type} {step : β → σ → Except ε (σ × Nat)} {bs : List β} {s s' : σ}

/-- One batch after the other until one moves nothing; the flag says that one did. -/
def runBatches (step : β → σ → Except ε (σ × Nat)) : List β → σ → Except ε (σ × Bool)
  | [], s => .ok (s, false)
  | b :: bs, s =>
      match step b s with
      | .error e => .error e
      | .ok v => if v.2 = 0 then .ok (v.1, true) else runBatches step bs v.1

theorem runBatches_of_error {b : β} {e : ε} (h : step b s = .error e) :
    runBatches step (b :: bs) s = .error e := by
  rw [runBatches, h]

theorem runBatches_of_ok {b : β} {v : σ × Nat} (h : step b s = .ok v) :
    runBatches step (b :: bs) s =
      if v.2 = 0 then .ok (v.1, true) else runBatches step bs v.1 := by
  rw [runBatches, h]

/-- Batches that leave less to do whenever they move something come to an end. -/
theorem runBatches_ends {left : σ → Nat}
    (hstep : ∀ b s v, step b s = .ok v → v.2 ≠ 0 → left v.1 < left s)
    (h : left s < bs.length) :
    (∃ e, runBatches step bs s = .error e) ∨ ∃ s', runBatches step bs s = .ok (s', true) := by
  induction bs generalizing s with
  | nil => exact absurd h (Nat.not_lt_zero _)
  | cons b bs ih =>
      cases hrun : step b s with
      | error e => exact .inl ⟨e, runBatches_of_error hrun⟩
      | ok v =>
          rw [runBatches_of_ok hrun]
          split
          next => exact .inr ⟨v.1, rfl⟩
          next hmoved =>
            have hless := hstep b s v hrun hmoved
            exact ih (hless.trans_le (Nat.le_of_lt_succ h))

/-- The loop fails only with one of its batches. -/
theorem exists_of_runBatches_eq_error {e : ε} (h : runBatches step bs s = .error e) :
    ∃ b s, step b s = .error e := by
  induction bs generalizing s with
  | nil => cases h
  | cons b bs ih =>
      cases hrun : step b s with
      | error e' =>
          rw [runBatches_of_error hrun] at h
          exact ⟨b, s, hrun.trans (congrArg _ (Except.error.inj h))⟩
      | ok v =>
          rw [runBatches_of_ok hrun] at h
          split at h
          next => cases h
          next => exact ih h

/-- What every batch keeps holds before the last one, which moves nothing. -/
theorem runBatches_done {Inv : σ → Prop} (hstep : ∀ b s v, Inv s → step b s = .ok v → Inv v.1)
    (h : runBatches step bs s = .ok (s', true)) (hs : Inv s) :
    ∃ b s₁, Inv s₁ ∧ step b s₁ = .ok (s', 0) := by
  induction bs generalizing s with
  | nil => cases h
  | cons b bs ih =>
      cases hrun : step b s with
      | error e =>
          rw [runBatches_of_error hrun] at h
          cases h
      | ok v =>
          rw [runBatches_of_ok hrun] at h
          split at h
          next hmoved =>
            rcases Prod.mk.inj (Except.ok.inj h) with ⟨rfl, -⟩
            refine ⟨b, s, hs, hrun.trans ?_⟩
            rw [← hmoved]
          next => exact ih h (hstep b s v hs hrun)

end Loops

section Pages

variable {n i last : Nat} {ids : List Nat}

/-- The first keys, in their order. -/
def page (n : Nat) (ids : List Nat) : List Nat := ids.mergeSort.take n

theorem mem_of_mem_page (h : i ∈ page n ids) : i ∈ ids :=
  List.mem_mergeSort.mp (List.mem_of_mem_take h)

theorem eq_nil_of_page_eq_nil (hn : n ≠ 0) (h : page n ids = []) : ids = [] := by
  rcases List.take_eq_nil_iff.mp h with h | h
  · exact absurd h hn
  · exact List.length_eq_zero_iff.mp ((List.length_mergeSort ids) ▸ List.length_eq_zero_iff.mpr h)

theorem sorted_ids (ids : List Nat) : ids.mergeSort.Pairwise (· ≤ ·) :=
  List.pairwise_mergeSort' (· ≤ ·) ids

theorem le_last (hlast : (page n ids).getLast? = some last) (h : i ∈ page n ids) : i ≤ last := by
  have hsorted : (page n ids).Pairwise (· ≤ ·) :=
    (sorted_ids ids).sublist (List.take_sublist n _)
  rcases List.getLast?_eq_some_iff.mp hlast with ⟨init, hpage⟩
  rw [hpage] at hsorted h
  rcases List.mem_append.mp h with h | h
  · exact (List.pairwise_append.mp hsorted).2.2 i h last (List.mem_singleton_self last)
  · exact (List.mem_singleton.mp h).le

/-- A page leaves out no key up to its last one. -/
theorem mem_page_of_le (hlast : (page n ids).getLast? = some last) (h : i ∈ ids) (hle : i ≤ last) :
    i ∈ page n ids := by
  have hmem : i ∈ ids.mergeSort.take n ++ ids.mergeSort.drop n := by
    rw [List.take_append_drop]
    exact List.mem_mergeSort.mpr h
  rcases List.mem_append.mp hmem with h | h
  · exact h
  · have hsorted := sorted_ids ids
    rw [← List.take_append_drop n (List.mergeSort ids _)] at hsorted
    have hin := List.mem_of_getLast? hlast
    have hge := (List.pairwise_append.mp hsorted).2.2 last hin i h
    rw [Nat.le_antisymm hle hge]
    exact hin

end Pages

section Counting

variable {α : Type} {p q : α → Bool} {a : α} {l : List α}

/-- What fewer elements have is counted less. -/
theorem countP_lt (hpq : ∀ x ∈ l, p x = true → q x = true) (ha : a ∈ l) (hq : q a = true)
    (hp : ¬ p a = true) : l.countP p < l.countP q := by
  rcases List.append_of_mem ha with ⟨l₁, l₂, rfl⟩
  have hone := List.countP_mono_left fun x hx => hpq x (List.mem_append_left _ hx)
  have htwo := List.countP_mono_left fun x hx =>
    hpq x (List.mem_append_right _ (List.mem_cons_of_mem a hx))
  rw [List.countP_append, List.countP_append, List.countP_cons_of_neg hp,
    List.countP_cons_of_pos hq]
  exact Nat.add_lt_add_of_le_of_lt hone (Nat.lt_succ_of_le htwo)

end Counting

end OntologicalDb.BatchLoops
