import Mathlib

/-!
Doubles as rational numbers: the value of a bit pattern, and the nearest double of an integer.
-/

namespace OntologicalDb.Binary64

/-- The number a bit pattern stands for, where it stands for one. -/
def value (bits : UInt64) : ℚ :=
  let n := bits.toNat
  let exponent : Nat := n / 2 ^ 52 % 2 ^ 11
  let fraction : Nat := n % 2 ^ 52
  let magnitude : ℚ :=
    if exponent = 0 then (fraction : ℚ) / 2 ^ 1074
    else if 1075 ≤ exponent then (2 ^ 52 + fraction : Nat) * 2 ^ (exponent - 1075)
    else (2 ^ 52 + fraction : Nat) / 2 ^ (1075 - exponent)
  if n / 2 ^ 63 = 0 then magnitude else -magnitude

/-- The bits of a natural number that a significand has no room for. -/
def excess (n : Nat) : Nat := n.log2 - 52

/-- The nearest double of a natural number; of two that are equally near, the one with the even
significand. -/
def nearestNat (n : Nat) : Nat :=
  let unit := 2 ^ excess n
  let q := n / unit
  let r := n % unit
  if 2 * r < unit ∨ (2 * r = unit ∧ q % 2 = 0) then q * unit else (q + 1) * unit

def nearest (n : Int) : Int :=
  if n < 0 then -(nearestNat n.natAbs : Int) else nearestNat n.natAbs

theorem nearestNat_of_lt {n : Nat} (h : n < 2 ^ 53) : nearestNat n = n := by
  have hexcess : excess n = 0 := by
    rw [excess]
    by_cases hn : n = 0
    · rw [hn]
      rfl
    · have hlog := (Nat.log2_lt hn).mpr h
      omega
  simp [nearestNat, hexcess, Nat.mod_one]

theorem le_nearestNat {n : Nat} (h : 2 ^ 53 ≤ n) : 2 ^ 53 ≤ nearestNat n := by
  have hn : n ≠ 0 := by
    intro hn
    rw [hn] at h
    exact absurd h (by decide)
  have hlog : 53 ≤ n.log2 := (Nat.le_log2 hn).mpr h
  have hunit : 2 ^ 52 * 2 ^ excess n ≤ n := by
    rw [← Nat.pow_add, excess, Nat.add_sub_cancel' (by omega)]
    exact Nat.log2_self_le hn
  -- the significand keeps its leading bit
  have hq : 2 ^ 52 ≤ n / 2 ^ excess n := (Nat.le_div_iff_mul_le (Nat.two_pow_pos _)).mpr hunit
  have htwo : 2 ≤ 2 ^ excess n := by
    calc 2 = 2 ^ 1 := rfl
      _ ≤ 2 ^ excess n := Nat.pow_le_pow_right (by decide) (by rw [excess]; omega)
  have hfloor : 2 ^ 53 ≤ n / 2 ^ excess n * 2 ^ excess n := by
    calc 2 ^ 53 = 2 ^ 52 * 2 := rfl
      _ ≤ n / 2 ^ excess n * 2 ^ excess n := Nat.mul_le_mul hq htwo
  rw [nearestNat]
  split
  · exact hfloor
  · exact hfloor.trans (Nat.mul_le_mul_right _ (Nat.le_succ _))

theorem nearest_of_lt {n : Int} (h : n.natAbs < 2 ^ 53) : nearest n = n := by
  rw [nearest, nearestNat_of_lt h]
  split <;> omega

/-- Rounding moves no integer past a bound that is smaller than `2 ^ 53`. -/
theorem nearest_lt_iff {n : Int} {b : ℚ} (h : |b| < 2 ^ 53) : (nearest n : ℚ) < b ↔ (n : ℚ) < b := by
  by_cases hn : n.natAbs < 2 ^ 53
  · rw [nearest_of_lt hn]
  · obtain ⟨hlow, hhigh⟩ := abs_lt.mp h
    have hround := le_nearestNat (Nat.le_of_not_lt hn)
    rw [nearest]
    split
    · next hneg =>
      have hle : n ≤ -2 ^ 53 := by omega
      have hle' : -(nearestNat n.natAbs : Int) ≤ -2 ^ 53 := by omega
      have hcast : (n : ℚ) ≤ -2 ^ 53 := by exact_mod_cast hle
      have hcast' : ((-(nearestNat n.natAbs : Int) : Int) : ℚ) ≤ -2 ^ 53 := by exact_mod_cast hle'
      exact ⟨fun _ => hcast.trans_lt hlow, fun _ => hcast'.trans_lt hlow⟩
    · next hneg =>
      have hle : 2 ^ 53 ≤ n := by omega
      have hle' : (2 ^ 53 : Int) ≤ nearestNat n.natAbs := by exact_mod_cast hround
      have hcast : (2 ^ 53 : ℚ) ≤ n := by exact_mod_cast hle
      have hcast' : (2 ^ 53 : ℚ) ≤ ((nearestNat n.natAbs : Int) : ℚ) := by exact_mod_cast hle'
      constructor
      · intro hlt
        exact absurd (hcast'.trans_lt hlt) (lt_asymm hhigh)
      · intro hlt
        exact absurd (hcast.trans_lt hlt) (lt_asymm hhigh)

theorem nearest_neg (n : Int) : nearest (-n) = -nearest n := by
  obtain hneg | rfl | hpos := lt_trichotomy n 0
  · rw [nearest, nearest, if_neg (by omega), if_pos hneg, Int.natAbs_neg, neg_neg]
  · rfl
  · rw [nearest, nearest, if_pos (by omega), if_neg (by omega), Int.natAbs_neg]

theorem lt_nearest_iff {n : Int} {b : ℚ} (h : |b| < 2 ^ 53) : b < (nearest n : ℚ) ↔ b < (n : ℚ) := by
  have hneg := @nearest_lt_iff (-n) (-b) (by rwa [abs_neg])
  rw [nearest_neg] at hneg
  push_cast at hneg
  rw [neg_lt_neg_iff, neg_lt_neg_iff] at hneg
  exact hneg

end OntologicalDb.Binary64
