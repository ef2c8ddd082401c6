import Mathlib.Data.Nat.Bitwise

/-!
Node and edge identifiers: nine shard bits, eighteen type bits and thirty-six
local bits below a zero sign bit.
-/

namespace OntologicalDb.Ids

def localBits : Nat := 36
def typeBits : Nat := 18
def shardBits : Nat := 9

def typeShift : Nat := localBits
def shardShift : Nat := localBits + typeBits

def localMask : Int := 2 ^ localBits - 1
def typeMask : Int := 2 ^ typeBits - 1
def shardMask : Int := 2 ^ shardBits - 1

def maxTypeId : Int := typeMask
def maxLocalId : Int := localMask
def maxShardId : Int := shardMask

/-- Compose an identifier, refusing any component outside its field. -/
def makeId (shard typeId localId : Int) : Except String Int :=
  if ¬ (0 ≤ shard ∧ shard ≤ maxShardId) then
    .error s!"shard id {shard} out of range (0..{maxShardId})"
  else if ¬ (0 ≤ typeId ∧ typeId ≤ maxTypeId) then
    .error s!"type id {typeId} out of range (0..{maxTypeId})"
  else if ¬ (0 ≤ localId ∧ localId ≤ maxLocalId) then
    .error s!"local id {localId} exhausted the 36-bit space for this type"
  else
    .ok ((shard.toNat <<< shardShift ||| typeId.toNat <<< typeShift |||
      localId.toNat : Nat) : Int)

/-- The type field.  Shifting and masking a two's complement word is floor
division and remainder by powers of two. -/
def idType (id : Int) : Int := id / 2 ^ typeShift % 2 ^ typeBits

/-- The shard field. -/
def idShard (id : Int) : Int := id / 2 ^ shardShift % 2 ^ shardBits

/-- The local field. -/
def idLocal (id : Int) : Int := id % 2 ^ localBits

theorem composed_eq_sum {shard typeId localId : Nat}
    (htype : typeId < 2 ^ typeBits) (hlocal : localId < 2 ^ localBits) :
    shard <<< shardShift ||| typeId <<< typeShift ||| localId =
      shard * 2 ^ shardShift + typeId * 2 ^ typeShift + localId := by
  have hlow : typeId <<< typeShift ||| localId = typeId * 2 ^ typeShift + localId := by
    show typeId <<< localBits ||| localId = typeId * 2 ^ localBits + localId
    rw [← Nat.shiftLeft_add_eq_or_of_lt hlocal, Nat.shiftLeft_eq]
  have hsum : typeId * 2 ^ typeShift + localId < 2 ^ shardShift := by
    simp only [typeShift, shardShift, localBits, typeBits] at *
    omega
  rw [Nat.or_assoc, hlow, ← Nat.shiftLeft_add_eq_or_of_lt hsum, Nat.shiftLeft_eq,
    Nat.add_assoc]

theorem makeId_eq_ok {shard typeId localId id : Int}
    (h : makeId shard typeId localId = .ok id) :
    (0 ≤ shard ∧ shard ≤ maxShardId) ∧ (0 ≤ typeId ∧ typeId ≤ maxTypeId) ∧
      (0 ≤ localId ∧ localId ≤ maxLocalId) ∧
      id = shard * 2 ^ shardShift + typeId * 2 ^ typeShift + localId := by
  unfold makeId at h
  split_ifs at h with hshard htype hlocal
  refine ⟨hshard, htype, hlocal, ?_⟩
  have hid := Except.ok.inj h
  simp only [maxTypeId, typeMask, maxLocalId, localMask, maxShardId, shardMask,
    typeBits, localBits, shardBits] at *
  rw [composed_eq_sum (by simp only [typeBits]; omega)
    (by simp only [localBits]; omega)] at hid
  rw [← hid]
  push_cast
  rw [Int.toNat_of_nonneg hshard.1, Int.toNat_of_nonneg htype.1,
    Int.toNat_of_nonneg hlocal.1]

/-- An allocated identifier carries the type it was allocated for. -/
theorem idType_makeId {shard typeId localId id : Int}
    (h : makeId shard typeId localId = .ok id) : idType id = typeId := by
  obtain ⟨-, htype, hlocal, rfl⟩ := makeId_eq_ok h
  simp only [idType, maxTypeId, typeMask, maxLocalId, localMask, typeShift,
    shardShift, typeBits, localBits] at *
  omega

end OntologicalDb.Ids
