import Mathlib.Data.List.Basic

/-!
A list cut into consecutive slices of one width, the last one possibly shorter.
-/

namespace OntologicalDb.SlicedLists

universe u

variable {α : Type u} {w i : Nat} {xs : List α}

/-- The items numbered from `i * w` on, at most `w` of them. -/
def slice (w i : Nat) (xs : List α) : List α := (xs.drop (i * w)).take w

/-- How many slices of width `w` cover `n` items. -/
def sliceCount (w n : Nat) : Nat := (n + w - 1) / w

theorem length_slice : (slice w i xs).length = min w (xs.length - i * w) := by
  rw [slice, List.length_take, List.length_drop]

theorem lt_sliceCount_iff {n : Nat} (hw : 0 < w) : i < sliceCount w n ↔ i * w < n := by
  rw [sliceCount, Nat.lt_div_iff_mul_lt hw]
  omega

theorem le_sliceCount_mul {n : Nat} (hw : 0 < w) : n ≤ sliceCount w n * w := by
  by_contra hlt
  exact absurd ((lt_sliceCount_iff hw).mpr (Nat.lt_of_not_le hlt)) (Nat.lt_irrefl _)

theorem slice_ne_nil (hw : 0 < w) (hi : i < sliceCount w xs.length) : slice w i xs ≠ [] := by
  have hlt := (lt_sliceCount_iff hw).mp hi
  intro hnil
  have hlength := @length_slice _ w i xs
  rw [hnil, List.length_nil] at hlength
  omega

theorem flatMap_slice_eq_take (c : Nat) :
    ((List.range c).flatMap fun i => slice w i xs) = xs.take (c * w) := by
  induction c with
  | zero => simp
  | succ c ih =>
      rw [List.range_succ, List.flatMap_append, ih, Nat.succ_mul, List.take_add]
      simp [slice]

/-- The slices put together are the list. -/
theorem flatMap_slice (hw : 0 < w) :
    ((List.range (sliceCount w xs.length)).flatMap fun i => slice w i xs) = xs := by
  rw [flatMap_slice_eq_take]
  exact List.take_of_length_le (le_sliceCount_mul hw)

end OntologicalDb.SlicedLists
