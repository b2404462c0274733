import SomeCode.Binary64

/-! `classify` of `inf02-1.c`. -/
namespace SomeCode
namespace Classify

open Binary64

inductive FloatClass
  | plusZero | minusZero
  | plusInf | minusInf
  | plusRegular | minusRegular
  | plusDenormal | minusDenormal
  | signalingNaN | quietNaN
  deriving DecidableEq

/-- A loop from `i` on that clears the flag and stops where it finds something -/
def flagLoop (stop : ℕ) (found : ℕ → Bool) (i : ℕ) (flag : Bool) : Bool :=
  if i < stop then if found i then false else flagLoop stop found (i+1) flag else flag
termination_by stop-i

def classify (b : BitVec 64) : FloatClass :=
  let tmpForExtra := b >>> 52
  let boolTrue := 1#64
  let isExponentFull := flagLoop 11 (fun i => boolTrue &&& tmpForExtra >>> i == 0) 0 true
  let isNegative := b >>> 63 == 1
  let isMantisZero := flagLoop 52 (fun i => boolTrue &&& b >>> i == 1) 0 true
  if isExponentFull then
    if isMantisZero then if isNegative then .minusInf else .plusInf
    else if 1#64 &&& b >>> 51 == 1 then .quietNaN else .signalingNaN
  else
    let isExponentEmpty := flagLoop 11 (fun i => boolTrue &&& tmpForExtra >>> i == 1) 0 true
    if isExponentEmpty && isMantisZero then if isNegative then .minusZero else .plusZero
    else if isExponentEmpty && !isMantisZero then
      if isNegative then .minusDenormal else .plusDenormal
    else if isNegative then .minusRegular else .plusRegular

def floatClass (x : Fields) : FloatClass :=
  if x.exponent = 0 then
    if x.fraction = 0 then if x.sign then .minusZero else .plusZero
    else if x.sign then .minusDenormal else .plusDenormal
  else if x.exponent = 2047 then
    if x.fraction = 0 then if x.sign then .minusInf else .plusInf
    else if x.fraction.getLsbD 51 then .quietNaN else .signalingNaN
  else if x.sign then .minusRegular else .plusRegular

theorem flagLoop_eq {stop : ℕ} {found : ℕ → Bool} (i : ℕ) :
    flagLoop stop found i true = decide (∀ j < stop, i ≤ j → found j = false) := by
  fun_induction flagLoop stop found i true with
  | case1 i hlt hfound =>
    symm
    rw [decide_eq_false_iff_not]
    intro hnone
    rw [hnone i hlt (Nat.le_refl i)] at hfound
    cases hfound
  | case2 i hlt hfound ih =>
    rw [ih,decide_eq_decide]
    constructor
    · intro hrest j hj hij
      by_cases hji : j = i
      · rw [hji]
        simpa using hfound
      · exact hrest j hj (by omega)
    · exact fun hall j hj hij => hall j hj (Nat.le_of_succ_le hij)
  | case3 i hge =>
    symm
    rw [decide_eq_true_iff]
    intro j hj hij
    omega

variable (b : BitVec 64)

theorem one_and (x : BitVec 64) : 1#64 &&& x = if x.getLsbD 0 then 1 else 0 := by
  rw [BitVec.and_comm]
  have hmod : x &&& 1#64 = BitVec.setWidth 64 (BitVec.ofBool (x.getLsbD 0)) :=
    BitVec.and_one_eq_setWidth_ofBool_getLsbD
  refine hmod.trans ?_
  cases x.getLsbD 0 <;> rfl

theorem test_one (i : ℕ) : (1#64 &&& b >>> i == 1) = b.getLsbD i := by
  rw [one_and,BitVec.getLsbD_ushiftRight,Nat.add_zero]
  cases b.getLsbD i <;> rfl

theorem test_zero (i : ℕ) : (1#64 &&& b >>> i == 0) = !b.getLsbD i := by
  rw [one_and,BitVec.getLsbD_ushiftRight,Nat.add_zero]
  cases b.getLsbD i <;> rfl

theorem test_sign : (b >>> 63 == 1) = b.getLsbD 63 := by
  have hbit : b >>> 63 = 1#64 &&& b >>> 63 := by
    apply BitVec.eq_of_getLsbD_eq
    intro i hi
    cases i with
    | zero => simp
    | succ i => simp [BitVec.getLsbD_of_ge b (63+(i+1)) (by omega)]
  rw [hbit]
  exact test_one b 63

theorem isExponentFull_eq : flagLoop 11 (fun i => 1#64 &&& b >>> 52 >>> i == 0) 0 true =
    decide ((Fields.ofBits b).exponent = 2047) := by
  rw [flagLoop_eq,decide_eq_decide,exponent_eq_max_iff]
  simp only [test_zero,BitVec.getLsbD_ushiftRight,Nat.zero_le,forall_const,Bool.not_eq_false']

theorem isExponentEmpty_eq : flagLoop 11 (fun i => 1#64 &&& b >>> 52 >>> i == 1) 0 true =
    decide ((Fields.ofBits b).exponent = 0) := by
  rw [flagLoop_eq,decide_eq_decide,exponent_eq_zero_iff]
  simp only [test_one,BitVec.getLsbD_ushiftRight,Nat.zero_le,forall_const]

theorem isMantisZero_eq : flagLoop 52 (fun i => 1#64 &&& b >>> i == 1) 0 true =
    decide ((Fields.ofBits b).fraction = 0) := by
  rw [flagLoop_eq,decide_eq_decide,fraction_eq_zero_iff]
  simp only [test_one,Nat.zero_le,forall_const]

/-- Every pattern is the one of its fields and gets the class of these. -/
theorem classify_correct : (Fields.ofBits b).bits = b ∧ classify b = floatClass (Fields.ofBits b) := by
  refine ⟨Fields.bits_ofBits b,?_⟩
  have hsign : b.getLsbD 63 = (Fields.ofBits b).sign := rfl
  have hdistinct : (2047 : BitVec 11) ≠ 0 := by decide
  rw [classify,floatClass,fraction_top]
  simp only [isExponentFull_eq,isExponentEmpty_eq,isMantisZero_eq]
  simp only [test_one,test_sign,hsign]
  -- the exponent is tested the other way round
  by_cases hfull : (Fields.ofBits b).exponent = 2047
  · simp only [hfull,hdistinct,decide_true,decide_eq_true_eq,if_true,if_false]
  by_cases hempty : (Fields.ofBits b).exponent = 0
  · by_cases hzero : (Fields.ofBits b).fraction = 0
    · simp only [hempty,hzero,hdistinct.symm,decide_true,decide_false,Bool.and_self,if_true,
        Bool.false_eq_true,if_false]
    · simp only [hempty,hzero,hdistinct.symm,decide_true,decide_false,Bool.and_false,Bool.not_false,
        Bool.and_self,if_true,Bool.false_eq_true,if_false]
  · simp only [hfull,hempty,decide_false,Bool.false_and,Bool.false_eq_true,if_false]

end Classify
end SomeCode
