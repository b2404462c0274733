import Mathlib

/-! The fields of the binary64 format: a sign, 11 bits of exponent and 52 bits of fraction. -/
namespace SomeCode
namespace Binary64

structure Fields where
  sign : Bool
  exponent : BitVec 11
  fraction : BitVec 52
  deriving DecidableEq

/-- The fields from the highest to the lowest bit -/
def Fields.bits (x : Fields) : BitVec 64 := BitVec.ofBool x.sign ++ x.exponent ++ x.fraction

def Fields.ofBits (b : BitVec 64) : Fields where
  sign := b.getLsbD 63
  exponent := b.extractLsb' 52 11
  fraction := b.extractLsb' 0 52

variable {b : BitVec 64}

theorem Fields.bits_ofBits (b : BitVec 64) : (Fields.ofBits b).bits = b := by
  apply BitVec.eq_of_getLsbD_eq
  intro i hi
  rw [Fields.bits,BitVec.getLsbD_append,BitVec.getLsbD_append]
  by_cases hfraction : i < 52
  · simp [Fields.ofBits,hfraction]
  by_cases hexponent : i < 63
  · have hlow : i-52 < 11 := by omega
    have hplace : 52+(i-52) = i := by omega
    simp [Fields.ofBits,hfraction,hlow,hplace]
  · obtain rfl : i = 63 := by omega
    simp [Fields.ofBits]

theorem fraction_eq_zero_iff : (Fields.ofBits b).fraction = 0 ↔ ∀ i < 52, b.getLsbD i = false := by
  rw [BitVec.eq_of_getLsbD_eq_iff]
  refine forall₂_congr fun i hi => ?_
  simp [Fields.ofBits,hi]

theorem exponent_eq_zero_iff :
    (Fields.ofBits b).exponent = 0 ↔ ∀ i < 11, b.getLsbD (52+i) = false := by
  rw [BitVec.eq_of_getLsbD_eq_iff]
  refine forall₂_congr fun i hi => ?_
  simp [Fields.ofBits,hi]

theorem exponent_eq_max_iff :
    (Fields.ofBits b).exponent = 2047 ↔ ∀ i < 11, b.getLsbD (52+i) = true := by
  have hones : ∀ i < 11, (2047 : BitVec 11).getLsbD i = true := by decide
  rw [BitVec.eq_of_getLsbD_eq_iff]
  refine forall₂_congr fun i hi => ?_
  rw [hones i hi]
  simp [Fields.ofBits,hi]

theorem fraction_top : (Fields.ofBits b).fraction.getLsbD 51 = b.getLsbD 51 := by
  simp [Fields.ofBits]

end Binary64
end SomeCode
