import Mathlib.Data.Nat.Log
import Mathlib.Tactic.Ring

/-!
Numbers as strings of bytes, the most significant byte first.
-/

namespace OntologicalDb.BigEndian

/-- The last `width` bytes of a number. -/
def toBytes : Nat → Nat → List UInt8
  | 0, _ => []
  | width + 1, n => UInt8.ofNat (n / 256 ^ width) :: toBytes width n

/-- The number a string of bytes stands for. -/
def ofBytes : List UInt8 → Nat
  | [] => 0
  | b :: bs => b.toNat * 256 ^ bs.length + ofBytes bs

@[simp] theorem length_toBytes (width n : Nat) : (toBytes width n).length = width := by
  induction width with
  | zero => rfl
  | succ width ih => simp [toBytes, ih]

theorem ofBytes_toBytes_mod (width n : Nat) : ofBytes (toBytes width n) = n % 256 ^ width := by
  induction width with
  | zero => simp [toBytes, ofBytes, Nat.mod_one]
  | succ width ih =>
      have hsplit : n % 256 ^ (width + 1) =
          n % 256 ^ width + 256 ^ width * (n / 256 ^ width % 256) := by
        rw [Nat.pow_succ, Nat.mod_mul]
      rw [hsplit, toBytes, ofBytes, length_toBytes, ih, UInt8.toNat_ofNat', Nat.mul_comm,
        Nat.add_comm]

theorem ofBytes_toBytes {width n : Nat} (h : n < 256 ^ width) :
    ofBytes (toBytes width n) = n := by
  rw [ofBytes_toBytes_mod, Nat.mod_eq_of_lt h]

end OntologicalDb.BigEndian
