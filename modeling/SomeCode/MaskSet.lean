import Mathlib.Data.Fintype.Basic
import Mathlib.Order.SymmDiff
import Mathlib.Tactic

/-! Bit masks as sets: bit `i` stands for the element `symbol i`, and the other bits of a mask
stand for nothing, whatever they are. -/
namespace SomeCode
namespace MaskSet

variable {w n : ℕ} {α : Type*} {symbol : Fin n → α}

def Represents (symbol : Fin n → α) (mask : BitVec w) (S : Finset α) : Prop :=
  ∀ i : Fin n, mask.getLsbD i = true ↔ symbol i ∈ S

theorem represents_empty : Represents symbol (0 : BitVec w) ∅ := fun i => by simp

variable [DecidableEq α] {mask mask' : BitVec w} {S S' : Finset α}

theorem Represents.and (h : Represents symbol mask S) (h' : Represents symbol mask' S') :
    Represents symbol (mask &&& mask') (S ∩ S') := fun i => by
  rw [BitVec.getLsbD_and,Bool.and_eq_true,h i,h' i,Finset.mem_inter]

theorem Represents.or (h : Represents symbol mask S) (h' : Represents symbol mask' S') :
    Represents symbol (mask ||| mask') (S ∪ S') := fun i => by
  rw [BitVec.getLsbD_or,Bool.or_eq_true,h i,h' i,Finset.mem_union]

theorem Represents.xor (h : Represents symbol mask S) (h' : Represents symbol mask' S') :
    Represents symbol (mask ^^^ mask') (symmDiff S S') := fun i => by
  rw [BitVec.getLsbD_xor,Finset.mem_symmDiff,← h i,← h' i]
  cases mask.getLsbD i <;> cases mask'.getLsbD i <;> decide

theorem Represents.not (h : Represents symbol mask S) (hn : n ≤ w) {U : Finset α}
    (hU : ∀ i, symbol i ∈ U) : Represents symbol (~~~mask) (U \ S) := fun i => by
  have hi : (i : ℕ) < w := i.isLt.trans_le hn
  rw [BitVec.getLsbD_not,Finset.mem_sdiff,← h i]
  simp [hi,hU i]

theorem Represents.insert (h : Represents symbol mask S) (hn : n ≤ w)
    (hsymbol : Function.Injective symbol) (i : Fin n) :
    Represents symbol (mask ||| 1#w <<< (i : ℕ)) (insert (symbol i) S) := fun j => by
  have hj : (j : ℕ) < w := j.isLt.trans_le hn
  have hbit : (1#w <<< (i : ℕ)).getLsbD j = true ↔ j = i := by
    simp only [BitVec.getLsbD_shiftLeft,BitVec.getLsbD_one,Fin.ext_iff]
    simp
    omega
  rw [BitVec.getLsbD_or,Bool.or_eq_true,h j,hbit,Finset.mem_insert,hsymbol.eq_iff,or_comm]

theorem shift_and_one_eq_one_iff (mask : BitVec w) (hw : 0 < w) (i : ℕ) :
    (mask >>> i) &&& 1#w = 1#w ↔ mask.getLsbD i = true := by
  rw [BitVec.and_one_eq_setWidth_ofBool_getLsbD,BitVec.getLsbD_ushiftRight,Nat.add_zero]
  cases mask.getLsbD i with
  | true => exact iff_of_true (BitVec.ofNat_toNat w 1#1).symm rfl
  | false =>
    have hne : (0#w : BitVec w) ≠ 1#w := fun h => by
      have hbit := congrArg (BitVec.getLsbD · 0) h
      simp [hw] at hbit
    simp [hne]

end MaskSet
end SomeCode
