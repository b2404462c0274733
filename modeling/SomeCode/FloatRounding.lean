import Mathlib

/-! The operations on `Float` round to the nearest number with 53 bits. What is known of a result is
stated about the numbers that floats stand for. -/
namespace SomeCode
namespace FloatRounding

open Float.Model Float.Model.UnpackedFloat Format

/-! A mantissa with the two bits behind it -/

/-- `x` begins with the digits of `em`. -/
def Holds : ExtendedMantissa → ℝ → Prop
  | ⟨m,false,false⟩, x => x = m
  | ⟨m,false,true⟩, x => m < x ∧ x < m + 1/2
  | ⟨m,true,false⟩, x => x = m + 1/2
  | ⟨m,true,true⟩, x => m + 1/2 < x ∧ x < m + 1

variable {em : ExtendedMantissa} {x y q : ℝ} {m k n : ℕ} {e t : ℤ} {acc : Accuracy} {s : Sign}

theorem Holds.mantissa_le (h : Holds em x) : (em.mantissa : ℝ) ≤ x := by
  obtain ⟨m,r,st⟩ := em
  cases r <;> cases st <;> simp only [Holds] at h ⊢ <;> linarith

theorem Holds.lt_mantissa (h : Holds em x) : x < em.mantissa + 1 := by
  obtain ⟨m,r,st⟩ := em
  cases r <;> cases st <;> simp only [Holds] at h ⊢ <;> linarith

theorem Holds.halve (h : Holds em x) : Holds em.shiftRightOne (x/2) := by
  obtain ⟨m,r,st⟩ := em
  have hdiv : (m : ℝ) = 2*(m/2 : ℕ) + (m%2 : ℕ) := by
    exact_mod_cast (Nat.div_add_mod m 2).symm
  rcases Nat.mod_two_eq_zero_or_one m with hmod | hmod <;> rw [hmod] at hdiv <;>
    cases r <;> cases st <;>
    simp only [ExtendedMantissa.shiftRightOne,hmod,Holds,Nat.cast_zero,Nat.cast_one,
      bne_self_eq_false,Bool.or_false,Bool.or_true,Nat.reduceBNe] at h hdiv ⊢ <;>
    first
    | linarith
    | constructor <;> linarith

theorem Holds.shiftRight (h : Holds em x) (k : ℕ) : Holds (em >>> k) (x/2^k) := by
  change Holds (Nat.repeat ExtendedMantissa.shiftRightOne k em) (x/2^k)
  induction k with
  | zero => simpa [Nat.repeat] using h
  | succ k ih =>
    rw [Nat.repeat,pow_succ,← div_div]
    exact ih.halve

theorem Holds.rounded (h : Holds em x) : |(em.roundedMantissa : ℝ) - x| ≤ 1/2 := by
  obtain ⟨m,r,st⟩ := em
  have hmod : (m%2 : ℕ) ≤ 1 := by omega
  have hcast : ((m%2 : ℕ) : ℝ) ≤ 1 := by exact_mod_cast hmod
  have hnonneg : (0 : ℝ) ≤ (m%2 : ℕ) := by positivity
  rw [abs_le]
  cases r <;> cases st <;>
    simp only [Holds,ExtendedMantissa.roundedMantissa,ExtendedMantissa.accuracy,
      Accuracy.roundToNearestEven,Nat.cast_add,Nat.cast_one] at h ⊢ <;>
    constructor <;> linarith

theorem holds_exact (m : ℕ) : Holds (ExtendedMantissa.ofMantissaAndAccuracy m .exact) m := rfl

theorem holds_fraction {num den : ℕ} (hlt : num < den) :
    Holds (ExtendedMantissa.ofMantissaAndAccuracy m (accuracyOfFraction num den))
      (m + num/den) := by
  have hpos : (0 : ℝ) < den := by exact_mod_cast Nat.zero_lt_of_lt hlt
  have hone : (num : ℝ)/den < 1 := by
    rw [div_lt_one hpos]
    exact_mod_cast hlt
  rw [accuracyOfFraction]
  split
  · rename_i hzero
    simp [ExtendedMantissa.ofMantissaAndAccuracy,Holds,hzero]
  · rename_i hne
    have hnum : (0 : ℝ) < num/den := div_pos (by exact_mod_cast Nat.pos_of_ne_zero hne) hpos
    rcases lt_trichotomy (2*num) den with hlow | hmid | hhigh
    · have hhalf : (num : ℝ)/den < 1/2 := by
        rw [div_lt_div_iff₀ hpos two_pos,one_mul,mul_comm]
        exact_mod_cast hlow
      rw [Nat.compare_eq_lt.2 hlow]
      exact ⟨by linarith,by linarith⟩
    · have hhalf : (num : ℝ)/den = 1/2 := by
        rw [div_eq_div_iff hpos.ne' two_ne_zero,one_mul,mul_comm]
        exact_mod_cast hmid
      rw [Nat.compare_eq_eq.2 hmid]
      exact congrArg (_ + ·) hhalf
    · have hhalf : 1/2 < (num : ℝ)/den := by
        rw [div_lt_div_iff₀ two_pos hpos,one_mul,mul_comm (num : ℝ)]
        exact_mod_cast hhigh
      rw [Nat.compare_eq_gt.2 hhigh]
      exact ⟨by linarith,by linarith⟩

/-! Rounding -/

/-- The exponent of the last digit that is kept -/
def target (m : ℕ) (e : ℤ) : ℤ := binary64.targetExponent (totalExponent m e)

theorem target_eq (m : ℕ) (e : ℤ) : target m e = max (m.log2 + e - 52) (-1074) := by
  simp only [target,targetExponent,totalExponent,mantissaBits,minExponent]
  norm_num
  omega

/-- As a float is packed: with as many digits as there are -/
def Canonical : UnpackedFloat → Prop
  | .finite _ m e _ => m < 2^53 ∧ -1074 ≤ e ∧ (2^52 ≤ m ∨ e = -1074)
  | _ => True

def sgn : Sign → ℝ
  | .negative => -1
  | .positive => 1

theorem abs_sgn (s : Sign) : |sgn s| = 1 := by
  cases s <;> simp [sgn]

theorem apply_eq (s : Sign) (n : ℤ) : (s.apply n : ℝ) = sgn s*n := by
  cases s <;> simp [sgn,Sign.apply]

/-- The number that a float stands for; it is 0 for those that stand for none. -/
noncomputable def toReal : UnpackedFloat → ℝ
  | .finite s m e _ => sgn s*m*2^e
  | _ => 0

/-- The mantissa of the result, before a carry -/
def kept (m : ℕ) (e : ℤ) (acc : Accuracy) : ℕ :=
  (ExtendedMantissa.ofMantissaAndAccuracy m acc >>> (target m e - e).toNat).roundedMantissa

theorem lt_two_pow_target (m : ℕ) (e : ℤ) : m < 2^(53+(target m e - e).toNat) := by
  refine Nat.lt_log2_self.trans_le (Nat.pow_le_pow_right (by decide) ?_)
  rw [target_eq]
  omega

theorem ofMantissaAndAccuracy_mantissa (m : ℕ) (acc : Accuracy) :
    (ExtendedMantissa.ofMantissaAndAccuracy m acc).mantissa = m := by
  rcases acc with _ | (_ | _ | _) <;> rfl

theorem kept_near (hx : Holds (ExtendedMantissa.ofMantissaAndAccuracy m acc) x) :
    |(kept m e acc : ℝ) - x/2^(target m e - e).toNat| ≤ 1/2 :=
  (hx.shiftRight _).rounded

theorem kept_le (hx : Holds (ExtendedMantissa.ofMantissaAndAccuracy m acc) x) :
    kept m e acc ≤ 2^53 := by
  have hnear := abs_le.1 (kept_near (e := e) hx)
  have hlt := hx.lt_mantissa
  rw [ofMantissaAndAccuracy_mantissa] at hlt
  have hle : (m : ℝ) + 1 ≤ 2^53*2^(target m e - e).toNat := by
    rw [← pow_add]
    exact_mod_cast lt_two_pow_target m e
  have hdiv : x/2^(target m e - e).toNat < 2^53 := by
    rw [div_lt_iff₀ (by positivity)]
    linarith
  have hkept : (kept m e acc : ℝ) < 2^53 + 1 := by linarith [hnear.2]
  exact Nat.le_of_lt_succ (by exact_mod_cast hkept)

theorem le_kept (hx : Holds (ExtendedMantissa.ofMantissaAndAccuracy m acc) x) (he : e ≤ target m e)
    (hmin : target m e ≠ -1074) : 2^52 ≤ kept m e acc := by
  have htarget := target_eq m e
  have hlog : (target m e - e).toNat + 52 = m.log2 := by omega
  have hm : m ≠ 0 := by
    rintro rfl
    simp at hlog
  have hle : (2 : ℝ)^52*2^(target m e - e).toNat ≤ m := by
    rw [← pow_add,Nat.add_comm,hlog]
    exact_mod_cast Nat.log2_self_le hm
  have hmx := hx.mantissa_le
  rw [ofMantissaAndAccuracy_mantissa] at hmx
  have hdiv : (2 : ℝ)^52 ≤ x/2^(target m e - e).toNat := by
    rw [le_div_iff₀ (by positivity)]
    linarith
  have hnear := abs_le.1 (kept_near (e := e) hx)
  have hlt : (2 : ℝ)^52 < kept m e acc + 1 := by linarith [hnear.1]
  exact Nat.le_of_lt_succ (by exact_mod_cast hlt)

theorem shiftRight_exact (n k : ℕ) :
    (ExtendedMantissa.ofMantissaAndAccuracy (n*2^k) .exact >>> k).mantissa = n := by
  have hholds := (holds_exact (n*2^k)).shiftRight k
  have hquotient : ((n*2^k : ℕ) : ℝ)/2^k = n := by
    push_cast
    field_simp
  rw [hquotient] at hholds
  have hle : (ExtendedMantissa.ofMantissaAndAccuracy (n*2^k) .exact >>> k).mantissa ≤ n := by
    exact_mod_cast hholds.mantissa_le
  have hlt : n < (ExtendedMantissa.ofMantissaAndAccuracy (n*2^k) .exact >>> k).mantissa + 1 := by
    exact_mod_cast hholds.lt_mantissa
  omega

def assemble (s : Sign) (m : ℕ) (e : ℤ) : UnpackedFloat :=
  if h : m = 0 then .zero s else .finite s m e (Nat.pos_of_ne_zero h)

theorem roundWithAccuracy_eq (hx : Holds (ExtendedMantissa.ofMantissaAndAccuracy m acc) x)
    (he : e ≤ target m e) : roundWithAccuracy binary64 s m e acc =
      if kept m e acc < 2^53 then assemble s (kept m e acc) (target m e)
      else assemble s (2^52) (target m e + 1) := by
  have hexponent : e + (target m e - e).toNat = target m e := by omega
  have hmin : -1074 ≤ target m e := by
    rw [target_eq]
    exact le_max_right _ _
  have hle := kept_le (e := e) hx
  have hfirst : shiftToTargetExponent binary64 m e acc =
      (ExtendedMantissa.ofMantissaAndAccuracy m acc >>> (target m e - e).toNat,target m e) :=
    Prod.ext rfl hexponent
  have hsecond : roundWithAccuracy binary64 s m e acc = assemble s
      (ExtendedMantissa.ofMantissaAndAccuracy (kept m e acc) .exact >>>
        (target (kept m e acc) (target m e) - target m e).toNat).mantissa
      (target m e + (target (kept m e acc) (target m e) - target m e).toNat) := by
    rw [roundWithAccuracy,hfirst]
    rfl
  rw [hsecond]
  by_cases hsmall : kept m e acc < 2^53
  · have hlog : (kept m e acc).log2 < 53 := by
      rcases Nat.eq_zero_or_pos (kept m e acc) with hzero | hpos
      · rw [hzero]
        decide
      · exact (Nat.log2_lt hpos.ne').2 hsmall
    have hshift : (target (kept m e acc) (target m e) - target m e).toNat = 0 := by
      rw [target_eq (kept m e acc)]
      omega
    have hmantissa := shiftRight_exact (kept m e acc) 0
    rw [pow_zero,mul_one] at hmantissa
    rw [hshift,hmantissa,if_pos hsmall,Nat.cast_zero,add_zero]
  · have hcarry : kept m e acc = 2^53 := by omega
    have hshift : (target (2^53) (target m e) - target m e).toNat = 1 := by
      rw [target_eq (2^53),Nat.log2_two_pow]
      omega
    have hmantissa := shiftRight_exact (2^52) 1
    rw [← pow_add] at hmantissa
    rw [if_neg hsmall,hcarry,hshift,hmantissa,Nat.cast_one]

theorem isFinite_assemble (s : Sign) (m : ℕ) (e : ℤ) : (assemble s m e).isFinite = true := by
  rw [assemble]
  split <;> rfl

theorem toReal_assemble (s : Sign) (m : ℕ) (e : ℤ) : toReal (assemble s m e) = sgn s*m*2^e := by
  rw [assemble]
  split
  · rename_i hzero
    simp [toReal,hzero]
  · rfl

theorem canonical_assemble (hlt : m < 2^53) (hmin : -1074 ≤ e) (hnorm : 2^52 ≤ m ∨ e = -1074) :
    Canonical (assemble s m e) := by
  rw [assemble]
  split
  · trivial
  · exact ⟨hlt,hmin,hnorm⟩

theorem roundWithAccuracy_spec (hx : Holds (ExtendedMantissa.ofMantissaAndAccuracy m acc) x)
    (he : e ≤ target m e) : (roundWithAccuracy binary64 s m e acc).isFinite = true ∧
      Canonical (roundWithAccuracy binary64 s m e acc) ∧
      toReal (roundWithAccuracy binary64 s m e acc) = sgn s*kept m e acc*2^target m e := by
  have hmin : -1074 ≤ target m e := by
    rw [target_eq]
    exact le_max_right _ _
  have hle := kept_le (e := e) hx
  rw [roundWithAccuracy_eq hx he]
  split
  · rename_i hsmall
    refine ⟨isFinite_assemble ..,canonical_assemble hsmall hmin ?_,toReal_assemble ..⟩
    by_cases h : target m e = -1074
    · exact .inr h
    · exact .inl (le_kept hx he h)
  · rename_i hbig
    have hcarry : kept m e acc = 2^53 := by omega
    refine ⟨isFinite_assemble ..,canonical_assemble (by decide) (by omega) (.inl le_rfl),?_⟩
    rw [toReal_assemble,hcarry,zpow_add_one₀ two_ne_zero]
    push_cast
    ring

/-! Packing -/

theorem unpackSign_packComponents (s : Sign) (b : BitVec 11) (d : BitVec 52) :
    Sign.ofBitVec (unpackSign (packComponents binary64 s b d)) = s := by
  have hbits : unpackSign (packComponents binary64 s b d) = s.toBitVec := by
    apply BitVec.eq_of_getLsbD_eq
    intro i hi
    obtain rfl : i = 0 := by omega
    simp [unpackSign,packComponents]
    rw [BitVec.getLsbD_append,BitVec.getLsbD_append]
    rfl
  rw [hbits]
  cases s <;> rfl

theorem finite_congr {m' : ℕ} {e' : ℤ} (hm : m = m') (he : e = e') {h : 0 < m} {h' : 0 < m'} :
    UnpackedFloat.finite s m e h = .finite s m' e' h' := by
  subst hm he
  rfl

theorem unpack_pack_normal (hm : 0 < m) (hle : 2^52 ≤ m) (hlt : m < 2^53) (hmin : -1074 ≤ e)
    (hmax : e ≤ 971) :
    UnpackedFloat.unpack binary64 (UnpackedFloat.pack binary64 (.finite s m e hm)) =
      .finite s m e hm := by
  have hlog : m.log2 = 52 := (Nat.log2_eq_iff hm.ne').2 ⟨hle,hlt⟩
  have hbiased : (e + exponentBias binary64 + (52 : ℕ)).toNat = (e+1075).toNat := by
    change (e + (1023 : ℕ) + (52 : ℕ)).toNat = _
    omega
  have hnat : (BitVec.ofNat 11 (e+1075).toNat).toNat = (e+1075).toNat := by
    rw [BitVec.toNat_ofNat,Nat.mod_eq_of_lt (by omega)]
  have hmax' : BitVec.ofNat 11 (e+1075).toNat ≠ -1#11 := by
    intro h
    have htop := congrArg BitVec.toNat h
    rw [hnat] at htop
    change _ = 2047 at htop
    omega
  have hmin' : BitVec.ofNat 11 (e+1075).toNat ≠ 0#11 := by
    intro h
    have hzero := congrArg BitVec.toNat h
    rw [hnat] at hzero
    change _ = 0 at hzero
    omega
  have hpack : UnpackedFloat.pack binary64 (.finite s m e hm) =
      packComponents binary64 s (BitVec.ofNat 11 (e+1075).toNat) (BitVec.ofNat 52 m) := by
    simp only [UnpackedFloat.pack]
    rw [hbiased,if_neg (by omega),if_pos (by rw [hlog]; rfl)]
  have hmantissa : (1#1 ++ BitVec.ofNat 52 m).toNat = m := by
    rw [BitVec.toNat_append,← Nat.shiftLeft_add_eq_or_of_lt (BitVec.isLt _),BitVec.toNat_ofNat]
    change 2^52 + m % 2^52 = m
    omega
  rw [hpack,UnpackedFloat.unpack]
  simp only [unpackMantissa_packComponents,unpackExponent_packComponents,unpackSign_packComponents]
  rw [if_neg hmax',if_neg hmin']
  apply finite_congr hmantissa
  rw [hnat]
  change ((e+1075).toNat : ℤ) - ((1023 : ℕ) + (52 : ℕ)) = e
  omega

theorem unpack_pack_subnormal (hm : 0 < m) (hlt : m < 2^52) :
    UnpackedFloat.unpack binary64 (UnpackedFloat.pack binary64 (.finite s m (-1074) hm)) =
      .finite s m (-1074) hm := by
  have hlog : m.log2 < 52 := (Nat.log2_lt hm.ne').2 hlt
  have hnat : (BitVec.ofNat 52 m).toNat = m := by
    rw [BitVec.toNat_ofNat,Nat.mod_eq_of_lt hlt]
  have hne : BitVec.ofNat 52 m ≠ 0#52 := by
    intro h
    have hzero := congrArg BitVec.toNat h
    rw [hnat] at hzero
    exact hm.ne' hzero
  have hpack : UnpackedFloat.pack binary64 (.finite s m (-1074) hm) =
      packComponents binary64 s 0#11 (BitVec.ofNat 52 m) := by
    simp only [UnpackedFloat.pack]
    rw [if_neg (by decide),if_neg (by change ¬ m.log2 + 1 = 53; omega)]
  rw [hpack,UnpackedFloat.unpack]
  simp only [unpackMantissa_packComponents,unpackExponent_packComponents,unpackSign_packComponents]
  rw [if_neg (by decide),if_pos trivial,dif_neg hne]
  exact finite_congr hnat rfl

theorem unpack_pack_zero :
    UnpackedFloat.unpack binary64 (UnpackedFloat.pack binary64 (.zero s)) = .zero s := by
  cases s <;> rfl

theorem unpack_pack_infinity :
    UnpackedFloat.unpack binary64 (UnpackedFloat.pack binary64 (.infinity s)) = .infinity s := by
  cases s <;> rfl

theorem unpack_pack_notANumber :
    UnpackedFloat.unpack binary64 (UnpackedFloat.pack binary64 .notANumber) = .notANumber := rfl

theorem pack_large (hm : 0 < m) (he : 972 ≤ e) :
    UnpackedFloat.pack binary64 (.finite s m e hm) = UnpackedFloat.pack binary64 (.infinity s) := by
  have hbiased : (e + exponentBias binary64 + (52 : ℕ)).toNat = (e+1075).toNat := by
    change (e + (1023 : ℕ) + (52 : ℕ)).toNat = _
    omega
  simp only [UnpackedFloat.pack]
  rw [hbiased,if_pos (by omega)]

end FloatRounding
end SomeCode
