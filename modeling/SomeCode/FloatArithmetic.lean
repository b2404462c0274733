import SomeCode.FloatRounding

/-! Sums, products and quotients of floats as roundings of real numbers -/
namespace SomeCode
namespace FloatRounding

open Float.Model Float.Model.UnpackedFloat Format

/-- The number that `a` stands for; it is 0 for those that stand for none. -/
noncomputable def value (a : Float) : ℝ := toReal a.toModel.unpack

/-- `v` is `q`, rounded to a number of 53 bits. -/
structure Near (q v : ℝ) : Prop where
  error : |v - q| ≤ max (|q| * 2^(-53 : ℤ)) (2^(-1075 : ℤ))
  multiple : ∃ z : ℤ, v = z*2^(-1074 : ℤ)
  exact : ∀ z t : ℤ, |z| < 2^53 → -1074 ≤ t → q = z*2^t → v = q

/-- `q` is too large, or nearly so. -/
structure Overflow (q : ℝ) (a : Float) : Prop where
  isInf : a.isInf = true
  large : 2^1023 ≤ |q|

/-- `a` is what an operation gives whose exact result is `q`. -/
def Rounded (q : ℝ) (a : Float) : Prop := a.isFinite = true ∧ Near q (value a) ∨ Overflow q a

variable {x y q v : ℝ} {m n : ℕ} {e : ℤ} {acc : Accuracy} {s : Sign} {a b : Float}
  {u : UnpackedFloat}

/-! How near the results are -/

theorem Near.eq_zero (h : Near q v) (hv : |v| < 2^(-1074 : ℤ)) : v = 0 := by
  rcases h.multiple with ⟨z,rfl⟩
  have hunit : (0 : ℝ) < 2^(-1074 : ℤ) := zpow_pos two_pos _
  rw [abs_mul,abs_of_pos hunit] at hv
  have hz : |(z : ℝ)| < 1 := lt_of_mul_lt_mul_right (hv.trans_eq (one_mul _).symm) hunit.le
  have hz' : z = 0 := Int.abs_lt_one_iff.1 (by exact_mod_cast hz)
  rw [hz',Int.cast_zero,zero_mul]

theorem Near.abs_le_two_mul (h : Near q v) : |v| ≤ 2*|q| := by
  have htri := abs_sub_abs_le_abs_sub v q
  have hq := abs_nonneg q
  rcases le_max_iff.1 h.error with herr | herr
  · have hsmall : |q| * 2^(-53 : ℤ) ≤ |q| * 1 :=
      mul_le_mul_of_nonneg_left (zpow_le_one_of_nonpos₀ one_le_two (by decide)) hq
    linarith
  · have hhalf : (2 : ℝ)^(-1074 : ℤ) = 2*2^(-1075 : ℤ) := by
      rw [← zpow_one_add₀ two_ne_zero]
      rfl
    by_cases hle : 2^(-1075 : ℤ) ≤ |q|
    · linarith
    · -- there is no number but 0 that is so small
      rw [h.eq_zero (by linarith),abs_zero]
      positivity

theorem Near.abs_le_pow (h : Near q v) {k : ℕ} (hq : |q| ≤ 2^k) : |v| ≤ 2^(k+1) := by
  rw [pow_succ']
  exact h.abs_le_two_mul.trans (mul_le_mul_of_nonneg_left hq two_pos.le)

theorem Near.half_le_abs (h : Near q v) (hq : 2^(-1074 : ℤ) ≤ |q|) : |q|/2 ≤ |v| := by
  have htri := abs_sub_abs_le_abs_sub q v
  rw [abs_sub_comm] at htri
  have hhalf : (2 : ℝ)^(-1074 : ℤ) = 2*2^(-1075 : ℤ) := by
    rw [← zpow_one_add₀ two_ne_zero]
    rfl
  rcases le_max_iff.1 h.error with herr | herr
  · have hsmall : |q| * 2^(-53 : ℤ) ≤ |q| * 2^(-1 : ℤ) :=
      mul_le_mul_of_nonneg_left (zpow_le_zpow_right₀ one_le_two (by decide)) (abs_nonneg q)
    have hle := herr.trans hsmall
    rw [zpow_neg_one] at hle
    linarith
  · linarith

theorem Near.error_le (h : Near q v) {k : ℕ} (hk : k ≤ 1022) (hq : |q| ≤ 2^k) :
    |v - q| ≤ 2^((k : ℤ)-53) := by
  refine h.error.trans (max_le ?_ ?_)
  · rw [sub_eq_add_neg,zpow_add₀ two_ne_zero,zpow_natCast]
    exact mul_le_mul_of_nonneg_right hq (zpow_pos two_pos _).le
  · exact zpow_le_zpow_right₀ one_le_two (by omega)

theorem two_zpow_target_le (hx : Holds (ExtendedMantissa.ofMantissaAndAccuracy m acc) x)
    (he : e ≤ target m e) :
    (2 : ℝ)^target m e/2 ≤ max (x*2^e*2^(-53 : ℤ)) (2^(-1075 : ℤ)) := by
  have htarget := target_eq m e
  by_cases hmin : target m e = -1074
  · apply le_max_of_le_right
    rw [hmin,div_eq_mul_inv,← zpow_neg_one,← zpow_add₀ two_ne_zero]
    rfl
  · apply le_max_of_le_left
    have hlog : target m e = m.log2 + e - 52 := by omega
    have hm : m ≠ 0 := by
      rintro rfl
      simp at hlog
      omega
    have hle : (2 : ℝ)^m.log2 ≤ x := by
      have hmx := hx.mantissa_le
      rw [ofMantissaAndAccuracy_mantissa] at hmx
      exact le_trans (by exact_mod_cast Nat.log2_self_le hm) hmx
    have hpow : (2 : ℝ)^target m e/2 = 2^m.log2*2^e*2^(-53 : ℤ) := by
      rw [hlog,div_eq_mul_inv,← zpow_neg_one,← zpow_natCast,← zpow_add₀ two_ne_zero,
        ← zpow_add₀ two_ne_zero,← zpow_add₀ two_ne_zero]
      congr 1
      ring
    rw [hpow]
    gcongr

theorem kept_exact (hx : Holds (ExtendedMantissa.ofMantissaAndAccuracy m acc) x)
    (he : e ≤ target m e) {w : ℕ} {t : ℤ} (hw : w < 2^53) (ht : -1074 ≤ t) (hq : x*2^e = w*2^t) :
    kept m e acc*2^target m e = x*2^e := by
  have htarget := target_eq m e
  have hle : target m e ≤ t := by
    by_cases hmin : target m e = -1074
    · omega
    · have hlog : target m e = m.log2 + e - 52 := by omega
      have hm : m ≠ 0 := by
        rintro rfl
        simp at hlog
        omega
      have hmx := hx.mantissa_le
      rw [ofMantissaAndAccuracy_mantissa] at hmx
      have hlow : (2 : ℝ)^m.log2 ≤ x := le_trans (by exact_mod_cast Nat.log2_self_le hm) hmx
      have hlt : (2 : ℝ)^((m.log2 : ℤ) + e) < 2^((53 : ℤ) + t) := by
        rw [zpow_add₀ two_ne_zero,zpow_natCast,zpow_add₀ two_ne_zero]
        calc (2 : ℝ)^m.log2*2^e ≤ x*2^e := mul_le_mul_of_nonneg_right hlow (zpow_pos two_pos _).le
          _ = w*2^t := hq
          _ < 2^(53 : ℤ)*2^t := mul_lt_mul_of_pos_right (by exact_mod_cast hw) (zpow_pos two_pos _)
      have hexponent := (zpow_lt_zpow_iff_right₀ one_lt_two).1 hlt
      omega
  have hpow : (2 : ℝ)^target m e = 2^e*2^(target m e - e).toNat := by
    rw [← zpow_natCast,← zpow_add₀ two_ne_zero]
    congr 1
    omega
  have hunit : (2 : ℝ)^t = 2^(t - target m e).toNat*2^target m e := by
    rw [← zpow_natCast,← zpow_add₀ two_ne_zero]
    congr 1
    omega
  have hpos : (0 : ℝ) < 2^target m e := zpow_pos two_pos _
  have hinteger : x/2^(target m e - e).toNat = (w*2^(t - target m e).toNat : ℕ) := by
    have hscaled : x/2^(target m e - e).toNat*2^target m e =
        (w*2^(t - target m e).toNat : ℕ)*2^target m e := by
      push_cast
      rw [mul_assoc (w : ℝ),← hunit,← hq,hpow]
      field_simp
    exact mul_right_cancel₀ hpos.ne' hscaled
  have hnear := kept_near (e := e) hx
  rw [hinteger] at hnear
  have hsame : kept m e acc = w*2^(t - target m e).toNat := by
    generalize w*2^(t - target m e).toNat = n at hnear ⊢
    have hlt : |((kept m e acc : ℤ) - (n : ℤ) : ℝ)| < 1 := by
      push_cast
      linarith
    have hzero : (kept m e acc : ℤ) - n = 0 := Int.abs_lt_one_iff.1 (by exact_mod_cast hlt)
    omega
  rw [hq,hunit,hsame]
  push_cast
  ring

/-- The mantissa that is rounded stands for `x*2^e`. -/
theorem near_roundWithAccuracy (hx : Holds (ExtendedMantissa.ofMantissaAndAccuracy m acc) x)
    (he : e ≤ target m e) :
    Near (sgn s*(x*2^e)) (toReal (roundWithAccuracy binary64 s m e acc)) := by
  obtain ⟨-,-,hvalue⟩ := roundWithAccuracy_spec (s := s) hx he
  have hmin : -1074 ≤ target m e := by
    rw [target_eq]
    exact le_max_right _ _
  have hnonneg : 0 ≤ x := (Nat.cast_nonneg _).trans hx.mantissa_le
  have hexponent : e + (target m e - e).toNat = target m e := by omega
  have hpow : (2 : ℝ)^target m e = 2^e*2^(target m e - e).toNat := by
    rw [← zpow_natCast,← zpow_add₀ two_ne_zero,hexponent]
  have hexact : x*2^e = x/2^(target m e - e).toNat*2^target m e := by
    rw [hpow]
    field_simp
  have hpos : (0 : ℝ) < 2^target m e := zpow_pos two_pos _
  rw [hvalue]
  constructor
  · have hdiff : sgn s*kept m e acc*2^target m e - sgn s*(x*2^e) =
        sgn s*((kept m e acc - x/2^(target m e - e).toNat)*2^target m e) := by
      rw [hexact]
      ring
    rw [hdiff,abs_mul,abs_mul,abs_mul,abs_sgn,one_mul,one_mul,abs_of_pos hpos,
      abs_of_nonneg (mul_nonneg hnonneg (zpow_pos two_pos _).le)]
    have hhalf := mul_le_mul_of_nonneg_right (kept_near (e := e) hx) hpos.le
    refine le_trans ?_ (two_zpow_target_le hx he)
    linarith
  · refine ⟨s.apply (kept m e acc)*2^(target m e + 1074).toNat,?_⟩
    have hunit : (2 : ℝ)^target m e = 2^(target m e + 1074).toNat*2^(-1074 : ℤ) := by
      rw [← zpow_natCast,← zpow_add₀ two_ne_zero]
      congr 1
      omega
    rw [hunit]
    push_cast
    rw [apply_eq,Int.cast_natCast]
    ring
  · intro z t hz ht hq
    have habs : x*2^e = z.natAbs*2^t := by
      have hsize : |sgn s*(x*2^e)| = |(z : ℝ)*2^t| := by rw [hq]
      rw [abs_mul,abs_sgn,one_mul,abs_of_nonneg (mul_nonneg hnonneg (zpow_pos two_pos _).le),
        abs_mul,abs_of_pos (zpow_pos two_pos t : (0 : ℝ) < 2^t)] at hsize
      rw [hsize]
      rw [Nat.cast_natAbs,Int.cast_abs]
    have hlt : z.natAbs < 2^53 := by
      rw [Int.abs_eq_natAbs] at hz
      omega
    rw [mul_assoc,kept_exact hx he hlt ht habs]

/-! Results are packed -/

theorem unpack_ofModel_pack (u : UnpackedFloat) : (Float.ofModel (.pack u)).toModel.unpack =
    UnpackedFloat.unpack binary64 (UnpackedFloat.pack binary64 u) := rfl

theorem isFinite_eq (a : Float) : a.isFinite = a.toModel.unpack.isFinite := rfl

theorem isInf_eq (a : Float) : a.isInf = a.toModel.unpack.isInf := rfl

theorem isNaN_eq (a : Float) : a.isNaN = a.toModel.unpack.isNaN := rfl

theorem unpack_pack_canonical (hfin : u.isFinite = true) (hcan : Canonical u) :
    UnpackedFloat.unpack binary64 (UnpackedFloat.pack binary64 u) = u ∨
      (UnpackedFloat.unpack binary64 (UnpackedFloat.pack binary64 u)).isInf = true ∧
        2^1024 ≤ |toReal u| := by
  cases u with
  | infinity s => cases hfin
  | notANumber => cases hfin
  | zero s => exact .inl unpack_pack_zero
  | finite s m e hm =>
    obtain ⟨hlt,hmin,hnorm⟩ := hcan
    by_cases hmax : e ≤ 971
    · apply Or.inl
      by_cases hle : 2^52 ≤ m
      · exact unpack_pack_normal hm hle hlt hmin hmax
      · obtain rfl := hnorm.resolve_left hle
        exact unpack_pack_subnormal hm (Nat.lt_of_not_le hle)
    · apply Or.inr
      have hle := hnorm.resolve_right (by omega)
      rw [pack_large hm (by omega),unpack_pack_infinity]
      refine ⟨rfl,?_⟩
      have hcast : (2 : ℝ)^52 ≤ m := by exact_mod_cast hle
      have hpow : (2 : ℝ)^972 ≤ 2^e := by
        rw [← zpow_natCast]
        exact zpow_le_zpow_right₀ one_le_two (by push_cast; omega)
      rw [toReal,abs_mul,abs_mul,abs_sgn,one_mul,Nat.abs_cast,abs_of_pos (zpow_pos two_pos e)]
      have hsplit : (2 : ℝ)^1024 = 2^52*2^972 := by rw [← pow_add]
      rw [hsplit]
      exact mul_le_mul hcast hpow (by positivity) (by positivity)

theorem rounded_pack (hfin : u.isFinite = true) (hcan : Canonical u) (h : Near q (toReal u)) :
    Rounded q (Float.ofModel (.pack u)) := by
  rcases unpack_pack_canonical hfin hcan with hunpack | ⟨hinf,hlarge⟩
  · refine .inl ⟨?_,?_⟩
    · rw [isFinite_eq,unpack_ofModel_pack,hunpack]
      exact hfin
    · rw [value,unpack_ofModel_pack,hunpack]
      exact h
  · refine .inr ⟨hinf,?_⟩
    have htwice := h.abs_le_two_mul
    have hpow : (2 : ℝ)^1024 = 2*2^1023 := by rw [← pow_succ']
    rw [hpow] at hlarge
    exact le_of_mul_le_mul_left (hlarge.trans htwice) two_pos

/-- The rounding of a mantissa that stands for `x*2^e` -/
theorem rounded_roundWithAccuracy (hx : Holds (ExtendedMantissa.ofMantissaAndAccuracy m acc) x)
    (he : e ≤ target m e) (hq : q = sgn s*(x*2^e)) :
    Rounded q (Float.ofModel (.pack (roundWithAccuracy binary64 s m e acc))) := by
  obtain ⟨hfin,hcan,-⟩ := roundWithAccuracy_spec (s := s) hx he
  rw [hq]
  exact rounded_pack hfin hcan (near_roundWithAccuracy hx he)

/-- The fields of the bits of `a` -/
def exponentField (a : Float) : BitVec 11 := @unpackExponent binary64 a.toModel.toBits.toBitVec

def mantissaField (a : Float) : BitVec 52 := @unpackMantissa binary64 a.toModel.toBits.toBitVec

theorem canonical_unpack (a : Float) : Canonical a.toModel.unpack := by
  rw [Float.Model.unpack,UnpackedFloat.unpack]
  dsimp only
  split
  · split <;> trivial
  · rename_i hmax
    split
    · rename_i hzero
      split
      · trivial
      · have hlt := (mantissaField a).isLt
        rw [hzero]
        exact ⟨hlt.trans (by decide),by decide,.inr (by decide)⟩
    · rename_i hne
      have hlt := (mantissaField a).isLt
      have hexponent : (exponentField a).toNat ≠ 0 := fun h => hne (BitVec.eq_of_toNat_eq h)
      change _ < 2^52 at hlt
      have hmantissa : (1#1 ++ mantissaField a).toNat = 2^52 + (mantissaField a).toNat := by
        rw [BitVec.toNat_append,← Nat.shiftLeft_add_eq_or_of_lt (BitVec.isLt _)]
        rfl
      refine ⟨hmantissa.trans_lt (by omega),?_,.inl ((Nat.le_add_right _ _).trans hmantissa.ge)⟩
      change -1074 ≤ ((exponentField a).toNat : ℤ) - ((1023 : ℕ) + (52 : ℕ))
      omega

/-! The operations on numbers -/

theorem near_self (hcan : Canonical u) : Near (toReal u) (toReal u) := by
  constructor
  · rw [sub_self,abs_zero]
    exact le_max_of_le_right (zpow_pos two_pos _).le
  · cases u with
    | finite s m e hm =>
      obtain ⟨-,hmin,-⟩ := hcan
      refine ⟨s.apply m*2^(e+1074).toNat,?_⟩
      have hunit : (2 : ℝ)^e = 2^(e+1074).toNat*2^(-1074 : ℤ) := by
        rw [← zpow_natCast,← zpow_add₀ two_ne_zero]
        congr 1
        omega
      rw [toReal,hunit]
      push_cast
      rw [apply_eq,Int.cast_natCast]
      ring
    | _ => exact ⟨0,by simp [toReal]⟩
  · intro z t _ _ _
    rfl

theorem rounded_zero (s : Sign) : Rounded 0 (Float.ofModel (.pack (.zero s))) :=
  rounded_pack (u := .zero s) rfl trivial (near_self (u := .zero s) trivial)

theorem finite_cases (h : a.isFinite = true) :
    (∃ s, a.toModel.unpack = .zero s ∧ value a = 0) ∨
    ∃ s m e hm, a.toModel.unpack = .finite s m e hm ∧ value a = sgn s*m*2^e ∧ -1074 ≤ e ∧
      (2^52 ≤ m ∨ e = -1074) := by
  have hcan := canonical_unpack a
  rw [isFinite_eq] at h
  rw [value]
  cases hu : a.toModel.unpack with
  | infinity s => rw [hu] at h; cases h
  | notANumber => rw [hu] at h; cases h
  | zero s => exact .inl ⟨s,rfl,rfl⟩
  | finite s m e hm =>
    rw [hu] at hcan
    exact .inr ⟨s,m,e,hm,rfl,rfl,hcan.2⟩

theorem sgn_mul : ∀ s t : Sign, sgn (s*t) = sgn s*sgn t
  | .negative, .negative => ((neg_mul_neg 1 1).trans (mul_one (1 : ℝ))).symm
  | .negative, .positive => (mul_one (-1 : ℝ)).symm
  | .positive, .negative => (one_mul (-1 : ℝ)).symm
  | .positive, .positive => (one_mul (1 : ℝ)).symm

theorem sgn_div : ∀ s t : Sign, sgn (s/t) = sgn s/sgn t
  | .negative, .negative => ((neg_div_neg_eq 1 1).trans (div_one (1 : ℝ))).symm
  | .negative, .positive => (div_one (-1 : ℝ)).symm
  | .positive, .negative => ((div_neg 1).trans (congrArg _ (div_one (1 : ℝ)))).symm
  | .positive, .positive => (div_one (1 : ℝ)).symm

theorem sgn_ne_zero (s : Sign) : sgn s ≠ 0 := by
  cases s <;> simp [sgn]

theorem rounded_mul (ha : a.isFinite = true) (hb : b.isFinite = true) :
    Rounded (value a*value b) (a*b) := by
  change Rounded _ (Float.ofModel (.pack (UnpackedFloat.mul binary64 a.toModel.unpack
    b.toModel.unpack)))
  rcases finite_cases ha with ⟨s,hua,hva⟩ | ⟨s,m,e,hm,hua,hva,hmin,hnorm⟩ <;>
    rcases finite_cases hb with ⟨s',hub,hvb⟩ | ⟨s',m',e',hm',hub,hvb,hmin',hnorm'⟩ <;>
    rw [hua,hub,hva,hvb]
  · rw [zero_mul]
    exact rounded_zero _
  · rw [zero_mul]
    exact rounded_zero _
  · rw [mul_zero]
    exact rounded_zero _
  · refine rounded_roundWithAccuracy (holds_exact (m*m')) ?_ ?_
    · rw [target_eq]
      have hlog : 2^52 ≤ m ∨ 2^52 ≤ m' → 52 ≤ (m*m').log2 := by
        intro h
        rw [Nat.le_log2 (Nat.mul_pos hm hm').ne']
        rcases h with hle | hle
        · exact hle.trans (Nat.le_mul_of_pos_right m hm')
        · exact hle.trans (Nat.le_mul_of_pos_left m' hm)
      rcases hnorm with hle | rfl
      · exact le_max_of_le_left (by linarith [hlog (.inl hle)])
      · rcases hnorm' with hle | rfl
        · exact le_max_of_le_left (by linarith [hlog (.inr hle)])
        · exact le_max_of_le_right (by decide)
    · rw [sgn_mul,zpow_add₀ two_ne_zero]
      push_cast
      ring

theorem rounded_div (ha : a.isFinite = true) (hb : b.isFinite = true) (hne : value b ≠ 0) :
    Rounded (value a/value b) (a/b) := by
  change Rounded _ (Float.ofModel (.pack (UnpackedFloat.div binary64 a.toModel.unpack
    b.toModel.unpack)))
  rcases finite_cases hb with ⟨s',hub,hvb⟩ | ⟨s',m',e',hm',hub,hvb,-,-⟩
  · exact absurd hvb hne
  rcases finite_cases ha with ⟨s,hua,hva⟩ | ⟨s,m,e,hm,hua,hva,-,-⟩
  · rw [hua,hub,hva,zero_div]
    exact rounded_zero _
  rw [hua,hub,hva,hvb]
  -- the dividend is shifted so far that the quotient has all its digits
  let t := min (e-e') (binary64.targetExponent (totalExponent m e - totalExponent m' e'))
  let k := (e-e'-t).toNat
  have ht : t = min (e-e') (max ((m.log2 : ℤ) + e - m'.log2 - e' - 53) (-1074)) := by
    simp only [t,targetExponent,totalExponent,mantissaBits,minExponent]
    norm_num
    omega
  have hdiv : UnpackedFloat.div binary64 (.finite s m e hm) (.finite s' m' e' hm') =
      roundWithAccuracy binary64 (s/s') ((m <<< k)/m') t (accuracyOfFraction ((m <<< k)%m') m') :=
    rfl
  rw [hdiv]
  refine rounded_roundWithAccuracy (holds_fraction (Nat.mod_lt _ hm')) ?_ ?_
  · rw [target_eq]
    by_cases hmin : t ≤ -1074
    · exact le_max_of_le_right hmin
    · apply le_max_of_le_left
      have hk : m'.log2 + 53 ≤ m.log2 + k := by omega
      have hquotient : 2^52 ≤ (m <<< k)/m' := by
        rw [Nat.le_div_iff_mul_le hm',Nat.shiftLeft_eq]
        calc 2^52*m' ≤ 2^52*2^(m'.log2+1) := Nat.mul_le_mul_left _ Nat.lt_log2_self.le
          _ = 2^(m'.log2+53) := by rw [← pow_add]; congr 1; omega
          _ ≤ 2^(m.log2+k) := Nat.pow_le_pow_right (by decide) hk
          _ = 2^m.log2*2^k := pow_add ..
          _ ≤ m*2^k := Nat.mul_le_mul_right _ (Nat.log2_self_le hm.ne')
      have hlog : 52 ≤ ((m <<< k)/m').log2 := (Nat.le_log2 (by omega)).2 hquotient
      omega
  · have hm0 : (m' : ℝ) ≠ 0 := by exact_mod_cast hm'.ne'
    have hsplit : (((m <<< k)/m' : ℕ) : ℝ) + ((m <<< k)%m' : ℕ)/m' = m*2^k/m' := by
      have hnat : ((m' * ((m <<< k)/m') + (m <<< k)%m' : ℕ) : ℝ) = m*2^k := by
        rw [Nat.div_add_mod,Nat.shiftLeft_eq]
        push_cast
        ring
      rw [← hnat]
      push_cast
      field_simp
    have hpow : (2 : ℝ)^k*2^t = 2^e/2^e' := by
      rw [← zpow_natCast,← zpow_add₀ two_ne_zero,← zpow_sub₀ two_ne_zero]
      congr 1
      omega
    have hquotient : (m : ℝ)*2^k/m'*2^t = m*(2^e/2^e')/m' := by
      rw [← hpow]
      ring
    have hs := sgn_ne_zero s'
    rw [hsplit,sgn_div,hquotient]
    field_simp

/-- Rounding by exponents alone; zeros behind the mantissa are added where digits are missing. -/
theorem rounded_round (hm : 0 < m) :
    Rounded (sgn s*(m*2^e)) (Float.ofModel (.pack (round binary64 s m e))) := by
  have hround : round binary64 s m e = roundWithAccuracy binary64 s (m <<< (e - target m e).toNat)
      (e - (e - target m e).toNat) .exact := rfl
  have hlog : (m <<< (e - target m e).toNat).log2 = m.log2 + (e - target m e).toNat := by
    rw [Nat.shiftLeft_eq,Nat.log2_eq_iff (by positivity),pow_add,add_right_comm,pow_add]
    exact ⟨Nat.mul_le_mul_right _ (Nat.log2_self_le hm.ne'),
      Nat.mul_lt_mul_of_pos_right Nat.lt_log2_self (by positivity)⟩
  rw [hround]
  refine rounded_roundWithAccuracy (holds_exact _) ?_ ?_
  · have htarget := target_eq m e
    rw [target_eq (m <<< _),hlog]
    push_cast
    omega
  · have hpow : (2 : ℝ)^(e - target m e).toNat*2^(e - (e - target m e).toNat) = 2^e := by
      rw [← zpow_natCast,← zpow_add₀ two_ne_zero]
      congr 1
      omega
    rw [Nat.shiftLeft_eq,← hpow]
    push_cast
    ring

theorem rounded_normalize (n : ℤ) (e : ℤ) (s : Sign) :
    Rounded (n*2^e) (Float.ofModel (.pack (normalize binary64 n e s))) := by
  rw [UnpackedFloat.normalize]
  rcases lt_trichotomy n 0 with hneg | rfl | hpos
  · rw [Int.compare_eq_lt.2 hneg]
    have hround := rounded_round (s := .negative) (e := e) (m := (-n).toNat) (by omega)
    have hcast : (((-n).toNat : ℕ) : ℝ) = -n := by exact_mod_cast Int.toNat_of_nonneg (by omega)
    rw [hcast,sgn,neg_one_mul,neg_mul,neg_neg] at hround
    exact hround
  · rw [Int.compare_eq_eq.2 rfl,Int.cast_zero,zero_mul]
    exact rounded_zero s
  · rw [Int.compare_eq_gt.2 hpos]
    have hround := rounded_round (s := .positive) (e := e) (m := n.toNat) (by omega)
    have hcast : ((n.toNat : ℕ) : ℝ) = n := by exact_mod_cast Int.toNat_of_nonneg hpos.le
    rw [hcast,sgn,one_mul] at hround
    exact hround

theorem rounded_self (ha : a.isFinite = true) :
    Rounded (value a) (Float.ofModel (.pack a.toModel.unpack)) :=
  rounded_pack ha (canonical_unpack a) (near_self (canonical_unpack a))

theorem rounded_add (ha : a.isFinite = true) (hb : b.isFinite = true) :
    Rounded (value a + value b) (a+b) := by
  change Rounded _ (Float.ofModel (.pack (UnpackedFloat.add binary64 a.toModel.unpack
    b.toModel.unpack)))
  rcases finite_cases ha with ⟨s,hua,hva⟩ | ⟨s,m,e,hm,hua,hva,-,-⟩ <;>
    rcases finite_cases hb with ⟨s',hub,hvb⟩ | ⟨s',m',e',hm',hub,hvb,-,-⟩
  · rw [hua,hub,hva,hvb,add_zero]
    cases s <;> cases s' <;> exact rounded_zero _
  · have hself := rounded_self hb
    rw [hub] at hself
    rw [hva,zero_add,hua,hub]
    exact hself
  · have hself := rounded_self ha
    rw [hua] at hself
    rw [hvb,add_zero,hua,hub]
    exact hself
  · -- both are given the smaller one of the exponents
    have halign : ∀ {s : Sign} {m : ℕ} {e t : ℤ}, t ≤ e →
        (s.apply ((m <<< (e-t).toNat : ℕ) : ℤ) : ℝ)*2^t = sgn s*m*2^e := by
      intro s m e t hle
      have hpow : (2 : ℝ)^e = 2^(e-t).toNat*2^t := by
        rw [← zpow_natCast,← zpow_add₀ two_ne_zero]
        congr 1
        omega
      rw [apply_eq,Nat.shiftLeft_eq,hpow]
      push_cast
      ring
    have hadd := rounded_normalize (s.apply ((m <<< (e - min e e').toNat : ℕ) : ℤ) +
      s'.apply ((m' <<< (e' - min e e').toNat : ℕ) : ℤ)) (min e e') .positive
    rw [Int.cast_add,add_mul,halign (min_le_left e e'),halign (min_le_right e e')] at hadd
    rw [hua,hub,hva,hvb]
    exact hadd

/-! Integers -/

theorem isFinite_of_rounded (h : Rounded q a) (hq : |q| < 2^1023) :
    a.isFinite = true ∧ Near q (value a) :=
  h.resolve_right fun hinf => (not_le.2 hq) hinf.large

theorem rounded_ofInt (n : ℤ) : Rounded n (Float.ofModel (.ofInt n)) := by
  have hround := rounded_normalize n 0 .positive
  rwa [zpow_zero,mul_one] at hround

theorem ofInt_isFinite {n : ℤ} (hn : |n| ≤ 2^64) : (Float.ofModel (.ofInt n)).isFinite = true := by
  refine (isFinite_of_rounded (rounded_ofInt n) ?_).1
  have hle : |(n : ℝ)| ≤ 2^64 := by exact_mod_cast hn
  exact hle.trans_lt (pow_lt_pow_right₀ one_lt_two (by decide))

theorem value_ofInt {n : ℤ} (hn : |n| < 2^53) : value (Float.ofModel (.ofInt n)) = n := by
  have hlt : |(n : ℝ)| < 2^53 := by exact_mod_cast hn
  have hnear := (isFinite_of_rounded (rounded_ofInt n)
    (hlt.trans (pow_lt_pow_right₀ one_lt_two (by decide)))).2
  exact hnear.exact n 0 hn (by decide) (by simp)

/-! What is no number, and the comparisons -/

/-- A zero or not a number: what an unordered or equal comparison with zero finds -/
def Vanishes (a : Float) : Prop := a.isNaN = true ∨ a.isFinite = true ∧ value a = 0

theorem cases (a : Float) : a.isNaN = true ∨ a.isInf = true ∨ a.isFinite = true := by
  rw [isNaN_eq,isInf_eq,isFinite_eq]
  cases a.toModel.unpack <;> simp [UnpackedFloat.isNaN,UnpackedFloat.isInf,UnpackedFloat.isFinite]

theorem Vanishes.not_isInf (h : Vanishes a) : ¬a.isInf = true := by
  rw [Vanishes,isNaN_eq,isFinite_eq] at h
  rw [isInf_eq]
  cases hu : a.toModel.unpack <;>
    simp [hu,UnpackedFloat.isNaN,UnpackedFloat.isInf,UnpackedFloat.isFinite] at h ⊢

theorem value_eq_zero_iff (h : a.isFinite = true) :
    value a = 0 ↔ ∃ s, a.toModel.unpack = .zero s := by
  rcases finite_cases h with ⟨s,hu,hv⟩ | ⟨s,m,e,hm,hu,hv,-,-⟩
  · exact ⟨fun _ => ⟨s,hu⟩,fun _ => hv⟩
  · constructor
    · intro hzero
      have hm0 : (m : ℝ) ≠ 0 := by exact_mod_cast hm.ne'
      rw [hv] at hzero
      exact absurd hzero (mul_ne_zero (mul_ne_zero (sgn_ne_zero s) hm0) (zpow_pos two_pos e).ne')
    · rintro ⟨s',hs'⟩
      rw [hs'] at hu
      cases hu

theorem lt_iff (a b : Float) : a < b ↔ (a.toModel.unpack.lt b.toModel.unpack) = true :=
  decide_eq_true_iff (p := a.toModel < b.toModel)

theorem vanishes_iff {z : Float} (hz : z.toModel.unpack = .zero .positive) :
    Vanishes a ↔ ¬z < a ∧ ¬a < z := by
  rw [lt_iff,lt_iff,hz,Vanishes]
  by_cases hfin : a.isFinite = true
  · rw [value_eq_zero_iff hfin,isNaN_eq,isFinite_eq]
    cases hu : a.toModel.unpack with
    | infinity s => rw [isFinite_eq,hu] at hfin; cases hfin
    | notANumber => rw [isFinite_eq,hu] at hfin; cases hfin
    | zero s =>
      cases s <;> simp [UnpackedFloat.isFinite,UnpackedFloat.lt,UnpackedFloat.compare]
    | finite s m e hm =>
      cases s <;> simp [UnpackedFloat.isNaN,UnpackedFloat.lt,UnpackedFloat.compare]
  · rw [isNaN_eq]
    rw [isFinite_eq] at hfin ⊢
    cases hu : a.toModel.unpack with
    | infinity s =>
      cases s <;> simp [UnpackedFloat.isNaN,UnpackedFloat.isFinite,UnpackedFloat.lt,
        UnpackedFloat.compare]
    | notANumber => simp [UnpackedFloat.isNaN,UnpackedFloat.lt,UnpackedFloat.compare]
    | zero s => rw [hu] at hfin; exact absurd rfl hfin
    | finite s m e hm => rw [hu] at hfin; exact absurd rfl hfin

/-! Infinity stays, and so does what vanishes. -/

theorem isNaN_iff : a.isNaN = true ↔ a.toModel.unpack = .notANumber := by
  rw [isNaN_eq]
  cases a.toModel.unpack <;> simp [UnpackedFloat.isNaN]

theorem isInf_iff : a.isInf = true ↔ ∃ s, a.toModel.unpack = .infinity s := by
  rw [isInf_eq]
  cases a.toModel.unpack <;> simp [UnpackedFloat.isInf]

theorem unpack_mul (a b : Float) : (a*b).toModel.unpack = UnpackedFloat.unpack binary64
    (UnpackedFloat.pack binary64 (UnpackedFloat.mul binary64 a.toModel.unpack b.toModel.unpack)) :=
  rfl

theorem unpack_div (a b : Float) : (a/b).toModel.unpack = UnpackedFloat.unpack binary64
    (UnpackedFloat.pack binary64 (UnpackedFloat.div binary64 a.toModel.unpack b.toModel.unpack)) :=
  rfl

theorem isInf_mul (ha : a.isInf = true) (hb : ¬Vanishes b) : (a*b).isInf = true := by
  obtain ⟨s,hs⟩ := isInf_iff.1 ha
  rw [isInf_eq,unpack_mul,hs]
  cases hu : b.toModel.unpack with
  | infinity t => simp [UnpackedFloat.mul,unpack_pack_infinity,UnpackedFloat.isInf]
  | notANumber => exact absurd (.inl (isNaN_iff.2 hu)) hb
  | zero t =>
    have hfin : b.isFinite = true := by rw [isFinite_eq,hu]; rfl
    exact absurd (.inr ⟨hfin,(value_eq_zero_iff hfin).2 ⟨t,hu⟩⟩) hb
  | finite t m e hm => simp [UnpackedFloat.mul,unpack_pack_infinity,UnpackedFloat.isInf]

theorem isInf_div (ha : a.isInf = true) (hb : b.isFinite = true) : (a/b).isInf = true := by
  obtain ⟨s,hs⟩ := isInf_iff.1 ha
  rw [isInf_eq,unpack_div,hs]
  rw [isFinite_eq] at hb
  cases hu : b.toModel.unpack with
  | infinity t => rw [hu] at hb; cases hb
  | notANumber => rw [hu] at hb; cases hb
  | zero t => simp [UnpackedFloat.div,unpack_pack_infinity,UnpackedFloat.isInf]
  | finite t m e hm => simp [UnpackedFloat.div,unpack_pack_infinity,UnpackedFloat.isInf]

theorem isNaN_mul (ha : a.isNaN = true) : (a*b).isNaN = true := by
  rw [isNaN_iff] at ha ⊢
  rw [unpack_mul,ha]
  simp [UnpackedFloat.mul,unpack_pack_notANumber]

theorem isNaN_mul_right (hb : b.isNaN = true) : (a*b).isNaN = true := by
  rw [isNaN_iff] at hb ⊢
  rw [unpack_mul,hb]
  cases a.toModel.unpack <;> simp [UnpackedFloat.mul,unpack_pack_notANumber]

theorem isNaN_div (ha : a.isNaN = true) : (a/b).isNaN = true := by
  rw [isNaN_iff] at ha ⊢
  rw [unpack_div,ha]
  simp [UnpackedFloat.div,unpack_pack_notANumber]

/-! Bounds of numbers -/

theorem exponent_le {hm : 0 < m} (h : a.toModel.unpack = .finite s m e hm) : e ≤ 971 := by
  rw [Float.Model.unpack,UnpackedFloat.unpack] at h
  dsimp only at h
  split at h
  · split at h <;> cases h
  · rename_i hmax
    have hlt := (exponentField a).isLt
    have hne : (exponentField a).toNat ≠ 2047 := fun heq => hmax (BitVec.eq_of_toNat_eq heq)
    change _ < 2048 at hlt
    split at h
    · rename_i hzero
      split at h <;> cases h
      rw [hzero]
      decide
    · cases h
      change ((exponentField a).toNat : ℤ) - ((1023 : ℕ) + (52 : ℕ)) ≤ 971
      omega

theorem value_lt (h : a.isFinite = true) : |value a| < 2^1024 := by
  rcases finite_cases h with ⟨s,-,hv⟩ | ⟨s,m,e,hm,hu,hv,-,-⟩
  · rw [hv,abs_zero]
    positivity
  · have hcan := canonical_unpack a
    rw [hu] at hcan
    have hlt : (m : ℝ) < 2^53 := by exact_mod_cast hcan.1
    have hpow : (2 : ℝ)^e ≤ 2^(971 : ℤ) := zpow_le_zpow_right₀ one_le_two (exponent_le hu)
    have hsplit : (2 : ℝ)^1024 = 2^53*2^(971 : ℤ) := by
      rw [← zpow_natCast,← zpow_natCast,← zpow_add₀ two_ne_zero]
      rfl
    rw [hv,abs_mul,abs_mul,abs_sgn,one_mul,Nat.abs_cast,abs_of_pos (zpow_pos two_pos e),hsplit]
    exact mul_lt_mul hlt hpow (zpow_pos two_pos e) (by positivity)

theorem Rounded.finite (h : Rounded q a) (ha : ¬ a.isInf = true) :
    a.isFinite = true ∧ Near q (value a) :=
  h.resolve_right fun hinf => ha hinf.isInf

theorem vanishes_of_rounded_zero (h : Rounded 0 a) : Vanishes a := by
  have hfin := isFinite_of_rounded h (by rw [abs_zero]; positivity)
  exact .inr ⟨hfin.1,hfin.2.exact 0 0 (by decide) (by decide) (by simp)⟩

theorem vanishes_mul (ha : Vanishes a) (hb : ¬ b.isInf = true) : Vanishes (a*b) := by
  rcases ha with hnan | ⟨hfin,hzero⟩
  · exact .inl (isNaN_mul hnan)
  · rcases cases b with hnan | hinf | hfin'
    · exact .inl (isNaN_mul_right hnan)
    · exact absurd hinf hb
    · have hmul := rounded_mul hfin hfin'
      rw [hzero,zero_mul] at hmul
      exact vanishes_of_rounded_zero hmul

theorem vanishes_div (ha : Vanishes a) (hb : b.isFinite = true) : Vanishes (a/b) := by
  rcases ha with hnan | ⟨hfin,hzero⟩
  · exact .inl (isNaN_div hnan)
  · by_cases hne : value b = 0
    · rcases (value_eq_zero_iff hfin).1 hzero with ⟨s,hs⟩
      rcases (value_eq_zero_iff hb).1 hne with ⟨t,ht⟩
      refine .inl (isNaN_iff.2 ?_)
      rw [unpack_div,hs,ht]
      exact unpack_pack_notANumber
    · have hdiv := rounded_div hfin hb hne
      rw [hzero,zero_div] at hdiv
      exact vanishes_of_rounded_zero hdiv

theorem not_isInf_of_finite (ha : a.isFinite = true) : ¬ a.isInf = true := by
  rw [isFinite_eq] at ha
  rw [isInf_eq]
  cases hu : a.toModel.unpack with
  | infinity s => rw [hu] at ha; cases ha
  | _ => exact Bool.false_ne_true

theorem not_isNaN_of_finite (ha : a.isFinite = true) : ¬ a.isNaN = true := by
  rw [isFinite_eq] at ha
  rw [isNaN_iff]
  intro hu
  rw [hu] at ha
  cases ha

theorem Vanishes.value_eq_zero (h : Vanishes a) (ha : a.isFinite = true) : value a = 0 :=
  (h.resolve_left (not_isNaN_of_finite ha)).2

theorem finite_of_not (ha : ¬ a.isInf = true) (hv : ¬ Vanishes a) : a.isFinite = true :=
  ((cases a).resolve_left fun h => hv (.inl h)).resolve_left ha

theorem Near.le_abs (h : Near q v) {c : ℝ} (hc : 2^(-1074 : ℤ) ≤ c) (hq : 2*c ≤ |q|) : c ≤ |v| := by
  have hpos : (0 : ℝ) < 2^(-1074 : ℤ) := zpow_pos two_pos _
  have hhalf := h.half_le_abs (by linarith)
  linarith

/-- What is halved often enough is 0 at last. -/
theorem value_eq_zero_of_halved {f : ℕ → Float} {k : ℕ} (hzero : |value (f 0)| ≤ 2^m)
    (hstep : ∀ j < k, |value (f (j+1))| ≤ |value (f j)|/2) (hk : m+1074 < k) : value (f k) = 0 := by
  have hshrink : ∀ j ≤ k, |value (f j)| ≤ 2^m/2^j := by
    intro j
    induction j with
    | zero => exact fun _ => hzero.trans (by simp)
    | succ j ih =>
      intro hj
      rw [pow_succ (2 : ℝ) j,← div_div]
      exact (hstep j hj).trans (div_le_div_of_nonneg_right (ih (Nat.le_of_succ_le hj)) two_pos.le)
  have hsmall : (2 : ℝ)^m/2^k < 2^(-1074 : ℤ) := by
    rw [div_lt_iff₀ (by positivity),← zpow_natCast,← zpow_natCast,← zpow_add₀ two_ne_zero]
    exact zpow_lt_zpow_right₀ one_lt_two (by omega)
  exact (near_self (canonical_unpack (f k))).eq_zero ((hshrink k le_rfl).trans_lt hsmall)

end FloatRounding
end SomeCode
