import OntologicalDb.ShadowWrite

/-!
Containment of jsonb documents: what the operator `@>` decides.
-/

namespace OntologicalDb.JsonContainment

open OntologicalDb.ShadowWrite
open OntologicalDb.Values

def isScalar : Json → Bool
  | .arr _ | .obj _ => false
  | _ => true

mutual

/-- What a document holds is found in what another one holds: an equal scalar,
an array with all its elements, an object with all its members. -/
def within : Json → Json → Bool
  | .arr ys, x =>
      match x with
      | .arr xs => withinAll ys xs
      | _ => false
  | .obj ls, x =>
      match x with
      | .obj kvs => withinFields ls kvs
      | _ => false
  | .null, x => sameJson .null x
  | .bool b, x => sameJson (.bool b) x
  | .num d, x => sameJson (.num d) x
  | .str t, x => sameJson (.str t) x

def withinAll : List Json → List Json → Bool
  | [], _ => true
  | y :: ys, xs => (xs.any fun x => within y x) && withinAll ys xs

def withinFields : List (String × Json) → List (String × Json) → Bool
  | [], _ => true
  | (k, y) :: ls, kvs =>
      (kvs.any fun kx => decide (kx.1 = k) && within y kx.2) && withinFields ls kvs

end

/-- `a @> b`; an array contains a scalar when it is one of its elements. -/
def contains (a b : Json) : Bool :=
  match a with
  | .arr xs => if isScalar b then xs.any fun x => within b x else within b a
  | _ => within b a

section Arrays

variable {x : Json} {xs ys : List Json}

theorem within_scalar (h : isScalar x = true) (y : Json) : within x y = sameJson x y := by
  cases x with
  | arr | obj => simp [isScalar] at h
  | _ => simp only [within]

theorem withinAll_iff :
    withinAll ys xs = true ↔ ∀ y ∈ ys, ∃ x ∈ xs, within y x = true := by
  induction ys with
  | nil => simp [withinAll]
  | cons y ys ih => simp [withinAll, ih]

theorem contains_scalar (h : isScalar x = true) :
    contains (.arr xs) x = xs.any fun y => sameJson x y := by
  simp only [contains, h, if_true, within_scalar h]

theorem contains_array :
    contains (.arr xs) (.arr ys) = true ↔ ∀ y ∈ ys, ∃ x ∈ xs, within y x = true := by
  simp [contains, isScalar, within, withinAll_iff]

/-- No array contains an object, not even one it has as an element. -/
theorem contains_object {kvs : List (String × Json)} : contains (.arr xs) (.obj kvs) = false := by
  simp [contains, isScalar, within]

end Arrays

end OntologicalDb.JsonContainment
