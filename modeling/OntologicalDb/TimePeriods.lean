import Mathlib.Order.Lattice

/-!
Half-open periods over a linear order, possibly empty or without an end.
-/

namespace OntologicalDb.TimePeriods

/-- A half-open period; one without an upper bound does not end. -/
inductive Period (T : Type) [LT T]
  | empty
  | span (lo : T) (hi : Option T) (hlt : ∀ u ∈ hi, lo < u)

variable {T : Type} [LinearOrder T]

namespace Period

def Contains (p : Period T) (v : T) : Prop :=
  match p with
  | .empty => False
  | .span lo hi _ => lo ≤ v ∧ ∀ u ∈ hi, v < u

instance (p : Period T) (v : T) : Decidable (p.Contains v) :=
  match p with
  | .empty => inferInstanceAs (Decidable False)
  | .span lo none _ => decidable_of_iff (lo ≤ v) (by simp [Contains])
  | .span lo (some u) _ => decidable_of_iff (lo ≤ v ∧ v < u) (by simp [Contains])

def lower : Period T → Option T
  | .empty => none
  | .span lo _ _ => some lo

def upper : Period T → Option T
  | .empty => none
  | .span _ hi _ => hi

theorem not_contains_empty (v : T) : ¬ (Period.empty : Period T).Contains v := id

theorem lower_le {p : Period T} {v lo : T} (hv : p.Contains v) (hlo : p.lower = some lo) :
    lo ≤ v := by
  cases p with
  | empty => exact (not_contains_empty v hv).elim
  | span l hi hlt =>
      obtain rfl := Option.some.inj hlo
      exact hv.1

theorem lower_eq_none {p : Period T} (h : p.lower = none) : p = .empty := by
  cases p with
  | empty => rfl
  | span lo hi hlt => cases h

theorem contains_iff {p : Period T} {lo : T} (hlo : p.lower = some lo) (v : T) :
    p.Contains v ↔ lo ≤ v ∧ ∀ u ∈ p.upper, v < u := by
  cases p with
  | empty => cases hlo
  | span l hi hlt =>
      obtain rfl := Option.some.inj hlo
      rfl

theorem contains_lower {p : Period T} {lo : T} (hlo : p.lower = some lo) : p.Contains lo := by
  cases p with
  | empty => cases hlo
  | span l hi hlt =>
      obtain rfl := Option.some.inj hlo
      exact ⟨le_rfl, hlt⟩

/-- The period from one bound to the other, unless these are out of order. -/
def make (lo : T) (hi : Option T) : Except String (Period T) :=
  match hi with
  | none => .ok (.span lo none (by simp))
  | some u =>
      if h : lo < u then .ok (.span lo (some u) fun _ hw => Option.some.inj hw ▸ h)
      else if lo = u then .ok .empty
      else .error "range lower bound must be less than or equal to range upper bound"

theorem contains_make {lo : T} {hi : Option T} {p : Period T} (h : make lo hi = .ok p) (v : T) :
    p.Contains v ↔ lo ≤ v ∧ ∀ u ∈ hi, v < u := by
  unfold make at h
  split at h
  · obtain rfl := Except.ok.inj h
    rfl
  · next u =>
    split at h
    · obtain rfl := Except.ok.inj h
      rfl
    · split at h
      · next hne heq =>
        obtain rfl := Except.ok.inj h
        refine iff_of_false (not_contains_empty v) ?_
        rintro ⟨hlo, hhi⟩
        exact absurd (hhi u rfl) (by rw [← heq]; exact not_lt_of_ge hlo)
      · cases h

theorem le_of_make {lo u : T} {p : Period T} (h : make lo (some u) = .ok p) : lo ≤ u := by
  simp only [make] at h
  split at h
  · next hlt => exact hlt.le
  · split at h
    · next heq => exact heq.le
    · cases h

theorem lower_make {lo : T} {hi : Option T} {p : Period T} (h : make lo hi = .ok p) (l : T)
    (hl : p.lower = some l) : l = lo := by
  unfold make at h
  split at h
  · obtain rfl := Except.ok.inj h
    exact (Option.some.inj hl).symm
  · split at h
    · obtain rfl := Except.ok.inj h
      exact (Option.some.inj hl).symm
    · split at h
      · obtain rfl := Except.ok.inj h
        cases hl
      · cases h

end Period

end OntologicalDb.TimePeriods
