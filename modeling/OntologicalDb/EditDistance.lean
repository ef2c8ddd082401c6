import Mathlib

/-!
The distance of two words: the least number of insertions, deletions and substitutions that
take one to the other, and the two-row table that computes it.
-/

namespace OntologicalDb.EditDistance

variable {α : Type*} {a b c r s : List α} {x y : α} {m n : Nat}

/-- One letter is inserted, deleted or replaced. -/
inductive Edit : List α → List α → Prop
  | insert (y : α) (r : List α) : Edit r (y :: r)
  | delete (x : α) (r : List α) : Edit (x :: r) r
  | subst (x y : α) (r : List α) : Edit (x :: r) (y :: r)
  | there (x : α) {a b : List α} (h : Edit a b) : Edit (x :: a) (x :: b)

/-- So many edits take one word to the other. -/
inductive Edits : Nat → List α → List α → Prop
  | refl (a : List α) : Edits 0 a a
  | step {n : Nat} {a b c : List α} (h : Edits n a b) (e : Edit b c) : Edits (n + 1) a c

/-- Two words letter by letter, at a cost. -/
inductive Aligned : List α → List α → Nat → Prop
  | nil : Aligned [] [] 0
  | keep (x : α) {a b : List α} {n : Nat} (h : Aligned a b n) : Aligned (x :: a) (x :: b) n
  | subst (x y : α) {a b : List α} {n : Nat} (h : Aligned a b n) : Aligned (x :: a) (y :: b) (n + 1)
  | insert (y : α) {a b : List α} {n : Nat} (h : Aligned a b n) : Aligned a (y :: b) (n + 1)
  | delete (x : α) {a b : List α} {n : Nat} (h : Aligned a b n) : Aligned (x :: a) b (n + 1)

section Alignments

theorem aligned_self : ∀ a : List α, Aligned a a 0
  | [] => .nil
  | x :: a => .keep x (aligned_self a)

/-- A further edit costs one at most. -/
theorem Aligned.edit (h : Aligned a b n) (e : Edit b c) : ∃ m ≤ n + 1, Aligned a c m := by
  induction h generalizing c with
  | nil =>
      cases e with
      | insert y => exact ⟨1, le_rfl, .insert y .nil⟩
  | @keep x a b n h ih =>
      cases e with
      | insert y => exact ⟨n + 1, le_rfl, .insert y (.keep x h)⟩
      | delete => exact ⟨n + 1, le_rfl, .delete x h⟩
      | subst _ y => exact ⟨n + 1, le_rfl, .subst x y h⟩
      | there _ e =>
          obtain ⟨m, hm, h⟩ := ih e
          exact ⟨m, hm, .keep x h⟩
  | @subst x y a b n h ih =>
      cases e with
      | insert z => exact ⟨n + 2, le_rfl, .insert z (.subst x y h)⟩
      | delete => exact ⟨n + 1, Nat.le_succ _, .delete x h⟩
      | subst _ z => exact ⟨n + 1, Nat.le_succ _, .subst x z h⟩
      | there _ e =>
          obtain ⟨m, hm, h⟩ := ih e
          exact ⟨m + 1, Nat.succ_le_succ hm, .subst x y h⟩
  | @insert y a b n h ih =>
      cases e with
      | insert z => exact ⟨n + 2, le_rfl, .insert z (.insert y h)⟩
      | delete => exact ⟨n, Nat.le_add_right n 2, h⟩
      | subst _ z => exact ⟨n + 1, Nat.le_succ _, .insert z h⟩
      | there _ e =>
          obtain ⟨m, hm, h⟩ := ih e
          exact ⟨m + 1, Nat.succ_le_succ hm, .insert y h⟩
  | @delete x a b n h ih =>
      obtain ⟨m, hm, h⟩ := ih e
      exact ⟨m + 1, Nat.succ_le_succ hm, .delete x h⟩

theorem Edits.exists_aligned (h : Edits n a b) : ∃ m ≤ n, Aligned a b m := by
  induction h with
  | refl a => exact ⟨0, le_rfl, aligned_self a⟩
  | step _ e ih =>
      obtain ⟨m, hm, h⟩ := ih
      obtain ⟨k, hk, h⟩ := h.edit e
      exact ⟨k, hk.trans (Nat.succ_le_succ hm), h⟩

theorem Edits.there (x : α) (h : Edits n a b) : Edits n (x :: a) (x :: b) := by
  induction h with
  | refl a => exact .refl _
  | step _ e ih => exact .step ih (.there x e)

theorem Aligned.edits (h : Aligned a b n) : Edits n a b := by
  induction h with
  | nil => exact .refl []
  | keep x _ ih => exact ih.there x
  | subst x y _ ih => exact .step (ih.there x) (.subst x y _)
  | insert y _ ih => exact .step ih (.insert y _)
  | delete x _ ih => exact .step (ih.there x) (.delete x _)

end Alignments

section Reversed

theorem Edit.append (h : Edit a b) (s : List α) : Edit (a ++ s) (b ++ s) := by
  induction h with
  | insert y r => exact .insert y _
  | delete x r => exact .delete x _
  | subst x y r => exact .subst x y _
  | there x _ ih => exact .there x ih

theorem Edit.after (h : Edit a b) : ∀ r : List α, Edit (r ++ a) (r ++ b)
  | [] => h
  | x :: r => .there x (h.after r)

theorem Edit.reverse (h : Edit a b) : Edit a.reverse b.reverse := by
  induction h with
  | insert y r =>
      have hend := (Edit.insert y ([] : List α)).after r.reverse
      rwa [List.append_nil, ← List.reverse_cons] at hend
  | delete x r =>
      have hend := (Edit.delete x ([] : List α)).after r.reverse
      rwa [List.append_nil, ← List.reverse_cons] at hend
  | subst x y r =>
      have hend := (Edit.subst x y ([] : List α)).after r.reverse
      rwa [← List.reverse_cons, ← List.reverse_cons] at hend
  | there x _ ih =>
      rw [List.reverse_cons, List.reverse_cons]
      exact ih.append [x]

theorem Edits.reverse (h : Edits n a b) : Edits n a.reverse b.reverse := by
  induction h with
  | refl a => exact .refl _
  | step _ e ih => exact .step ih e.reverse

theorem edits_reverse : Edits n a.reverse b.reverse ↔ Edits n a b :=
  ⟨fun h => by simpa using h.reverse, Edits.reverse⟩

end Reversed

section Distance

variable [DecidableEq α]

def cost (x y : α) : Nat := if x ≠ y then 1 else 0

/-- The distance by the first letters. -/
def lev : List α → List α → Nat
  | [], b => b.length
  | x :: a, [] => (x :: a).length
  | x :: a, y :: b => min (min (lev a (y :: b) + 1) (lev (x :: a) b + 1)) (lev a b + cost x y)

theorem lev_nil (a : List α) : lev a [] = a.length := by
  cases a with
  | nil => rw [lev]
  | cons x a => rw [lev]

theorem aligned_nil : ∀ a : List α, Aligned a [] a.length
  | [] => .nil
  | x :: a => .delete x (aligned_nil a)

theorem nil_aligned : ∀ b : List α, Aligned [] b b.length
  | [] => .nil
  | y :: b => .insert y (nil_aligned b)

theorem aligned_lev (a b : List α) : Aligned a b (lev a b) := by
  induction a, b using lev.induct with
  | case1 b =>
      rw [lev]
      exact nil_aligned b
  | case2 x a =>
      rw [lev]
      exact aligned_nil (x :: a)
  | case3 x a y b ih₁ ih₂ ih₃ =>
      rw [lev]
      rcases min_choice (min (lev a (y :: b) + 1) (lev (x :: a) b + 1)) (lev a b + cost x y) with h | h
      · rw [h]
        rcases min_choice (lev a (y :: b) + 1) (lev (x :: a) b + 1) with h | h
        · rw [h]
          exact .delete x ih₁
        · rw [h]
          exact .insert y ih₂
      · rw [h]
        by_cases hxy : x = y
        · subst hxy
          simpa [cost] using ih₃.keep x
        · simpa [cost, hxy] using ih₃.subst x y

theorem Aligned.lev_le (h : Aligned a b n) : lev a b ≤ n := by
  induction h with
  | nil =>
      rw [lev]
      exact Nat.le_refl _
  | keep x _ ih =>
      rw [lev]
      refine (min_le_right _ _).trans ?_
      simpa [cost] using ih
  | subst x y _ ih =>
      rw [lev]
      refine (min_le_right _ _).trans (Nat.add_le_add ih ?_)
      rw [cost]
      split <;> simp
  | @insert y a b n _ ih =>
      cases a with
      | nil => simpa [lev] using ih
      | cons x a =>
          rw [lev]
          exact (min_le_left _ _).trans ((min_le_right _ _).trans (Nat.succ_le_succ ih))
  | @delete x a b n _ ih =>
      cases b with
      | nil =>
          rw [lev_nil] at ih ⊢
          exact Nat.succ_le_succ ih
      | cons y b =>
          rw [lev]
          exact (min_le_left _ _).trans ((min_le_left _ _).trans (Nat.succ_le_succ ih))

theorem lev_isLeast (a b : List α) : IsLeast {n | Edits n a b} (lev a b) := by
  refine ⟨(aligned_lev a b).edits, fun n h => ?_⟩
  obtain ⟨m, hm, h⟩ := Edits.exists_aligned h
  exact h.lev_le.trans hm

end Distance

section Rows

variable [DecidableEq α]

/-- The rest of a row, from the value to its left and the row before it. -/
def nextRow (x : α) : Nat → List α → List Nat → List Nat
  | left, y :: b, diagonal :: above :: row =>
      let here := min (min (above + 1) (left + 1)) (diagonal + cost x y)
      here :: nextRow x here b (above :: row)
  | _, _, _ => []

/-- The last row, `i` rows down. -/
def lastRow (b : List α) : Nat → List α → List Nat → List Nat
  | _, [], row => row
  | i, x :: a, row => lastRow b (i + 1) a ((i + 1) :: nextRow x (i + 1) b row)

def distance (a b : List α) : Nat :=
  if a = [] then b.length
  else if b = [] then a.length
  else (lastRow b 0 a (List.range (b.length + 1))).getD b.length 0

/-- A row of the table, for words read backwards. -/
def rowOf (a : List α) : List α → List α → List Nat
  | r, [] => [lev a r]
  | r, y :: b => lev a r :: rowOf a (y :: r) b

theorem nextRow_rowOf (x : α) (a b r : List α) :
    lev (x :: a) r :: nextRow x (lev (x :: a) r) b (rowOf a r b) = rowOf (x :: a) r b := by
  induction b generalizing r with
  | nil => simp [nextRow, rowOf]
  | cons y b ih =>
      have htail : rowOf a (y :: r) b = lev a (y :: r) :: (rowOf a (y :: r) b).tail := by
        cases b with
        | nil => rfl
        | cons z b => rfl
      have hhere : min (min (lev a (y :: r) + 1) (lev (x :: a) r + 1)) (lev a r + cost x y) =
          lev (x :: a) (y :: r) := by rw [lev]
      rw [rowOf, rowOf, htail, nextRow, hhere, ← htail, ih]

theorem rowOf_nil (r b : List α) : rowOf [] r b = List.range' r.length (b.length + 1) := by
  induction b generalizing r with
  | nil => simp [rowOf, lev]
  | cons y b ih =>
      rw [rowOf, ih, List.length_cons, List.range'_succ, lev]
      rfl

theorem lastRow_rowOf (b a r : List α) : lastRow b r.length a (rowOf r [] b) = rowOf (a.reverse ++ r) [] b := by
  induction a generalizing r with
  | nil => rfl
  | cons x a ih =>
      have hfirst : r.length + 1 = lev (x :: r) [] := by rw [lev_nil, List.length_cons]
      rw [lastRow, hfirst, nextRow_rowOf, ← hfirst]
      have hlength : r.length + 1 = (x :: r).length := rfl
      rw [hlength, ih, List.reverse_cons, List.append_assoc, List.singleton_append]

theorem getD_rowOf (a r b : List α) : (rowOf a r b).getD b.length 0 = lev a (b.reverse ++ r) := by
  induction b generalizing r with
  | nil => rfl
  | cons y b ih =>
      rw [rowOf, List.length_cons, List.getD_cons_succ, ih, List.reverse_cons, List.append_assoc,
        List.singleton_append]

theorem distance_eq (a b : List α) : distance a b = lev a.reverse b.reverse := by
  rw [distance]
  split
  · next ha => rw [ha, List.reverse_nil, lev, List.length_reverse]
  · split
    · next hb => rw [hb, List.reverse_nil, lev_nil, List.length_reverse]
    · have hstart : List.range (b.length + 1) = rowOf [] [] b := by
        rw [rowOf_nil, List.range_eq_range']
        rfl
      have hrows := lastRow_rowOf b a []
      rw [List.append_nil] at hrows
      have hlast := getD_rowOf a.reverse [] b
      rw [List.append_nil] at hlast
      rw [hstart, ← hlast, ← hrows]
      rfl

/-- The two-row table ends with the least number of edits. -/
theorem distance_isLeast (a b : List α) : IsLeast {n | Edits n a b} (distance a b) := by
  have hleast := lev_isLeast a.reverse b.reverse
  rw [distance_eq]
  simpa only [edits_reverse] using hleast

end Rows

end OntologicalDb.EditDistance
