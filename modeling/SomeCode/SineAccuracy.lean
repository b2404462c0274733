import Mathlib.Analysis.SpecialFunctions.Trigonometric.Series
import SomeCode.SineSeries

/-! How near `my_sin` comes to the sine. The terms that it computes differ from those of the series
by what the five operations of a round lose, and little of that is left after the divisions. -/
namespace SomeCode
namespace SineSeries

open FloatRounding Finset Filter
open scoped Nat

/-! The series -/

noncomputable def sineTerm (r : ℝ) (n : ℕ) : ℝ := (-1)^n*r^(2*n+1)/(2*n+1)!

section Series

variable {r : ℝ} {n : ℕ}

theorem sineTerm_succ (r : ℝ) (n : ℕ) :
    sineTerm r (n+1) = sineTerm r n * -1 * r * r / (2*n+2 : ℕ) / (2*n+3 : ℕ) := by
  have hfactorial : (2*(n+1)+1)! = (2*n+3)*((2*n+2)*(2*n+1)!) := rfl
  rw [sineTerm,sineTerm,hfactorial]
  push_cast
  field_simp
  ring

theorem abs_next_le (hr : |r| ≤ 4) (n : ℕ) (y : ℝ) :
    |y * -1 * r * r / (2*n+2 : ℕ) / (2*n+3 : ℕ)| ≤ |y| * (16/((2*n+2)*(2*n+3))) := by
  have hsq : |r| * |r| ≤ 16 := by nlinarith [abs_nonneg r]
  have heq : |y * -1 * r * r / (2*n+2 : ℕ) / (2*n+3 : ℕ)| =
      |y| * (|r| * |r| / ((2*n+2)*(2*n+3))) := by
    rw [abs_div,abs_div,abs_mul,abs_mul,abs_mul,abs_neg,abs_one,Nat.abs_cast,Nat.abs_cast]
    rw [div_div]
    push_cast
    ring
  rw [heq]
  gcongr

theorem abs_next_le_mul (hr : |r| ≤ 4) (hn : 1 ≤ n) (y : ℝ) :
    |y * -1 * r * r / (2*n+2 : ℕ) / (2*n+3 : ℕ)| ≤ |y| * (4/5) := by
  have hcast : (1 : ℝ) ≤ n := by exact_mod_cast hn
  refine (abs_next_le hr n y).trans (mul_le_mul_of_nonneg_left ?_ (abs_nonneg y))
  rw [div_le_iff₀ (by positivity)]
  nlinarith

theorem abs_sineTerm_succ_le (hr : |r| ≤ 4) (hn : 1 ≤ n) :
    |sineTerm r (n+1)| ≤ |sineTerm r n| * (4/5) := by
  rw [sineTerm_succ]
  exact abs_next_le_mul hr hn _

theorem abs_sineTerm_le (hr : |r| ≤ 4) (n : ℕ) : |sineTerm r n| ≤ 11 := by
  have hzero : |sineTerm r 0| ≤ 4 := by simpa [sineTerm] using hr
  have hone := abs_next_le hr 0 (sineTerm r 0)
  rw [← sineTerm_succ] at hone
  induction n with
  | zero => linarith
  | succ n ih =>
    rcases n.eq_zero_or_pos with rfl | hn
    · norm_num at hone ⊢
      linarith
    · exact (abs_sineTerm_succ_le hr hn).trans (by linarith)

/-- The rest of the series is at most four times the last term. -/
theorem abs_sin_sub_le (hr : |r| ≤ 4) (hn : 1 ≤ n) :
    |∑ i ∈ range (n+1), sineTerm r i - Real.sin r| ≤ 4*|sineTerm r n| := by
  have hdecrease : ∀ j, |sineTerm r (n+1+j)| ≤ |sineTerm r n| * (4/5)*(4/5)^j := by
    intro j
    induction j with
    | zero => simpa using abs_sineTerm_succ_le hr hn
    | succ j ih =>
      rw [pow_succ,← mul_assoc]
      exact (abs_sineTerm_succ_le hr (n := n+1+j) (by omega)).trans
        (mul_le_mul_of_nonneg_right ih (by norm_num))
  have hdist : ∀ j, dist (∑ i ∈ range (n+1+j), sineTerm r i)
      (∑ i ∈ range (n+1+(j+1)), sineTerm r i) ≤ |sineTerm r n| * (4/5)*(4/5)^j := by
    intro j
    rw [← Nat.add_assoc,sum_range_succ,dist_self_add_right]
    exact hdecrease j
  have hlimit : Tendsto (fun j => ∑ i ∈ range (n+1+j), sineTerm r i) atTop (nhds (Real.sin r)) := by
    have hsum := (Real.hasSum_sin r).tendsto_sum_nat
    exact (tendsto_add_atTop_iff_nat (n+1)).2 hsum |>.congr fun j => by rw [Nat.add_comm]; rfl
  have hfirst := dist_le_of_le_geometric_of_tendsto₀ (4/5) _ (by norm_num) hdist hlimit
  rw [Real.dist_eq,Nat.add_zero] at hfirst
  exact hfirst.trans_eq (by ring)

theorem abs_sum_le (hr : |r| ≤ 4) (n : ℕ) : |∑ i ∈ range (n+1), sineTerm r i| ≤ 45 := by
  have hterm := abs_sineTerm_le hr n
  rcases n.eq_zero_or_pos with rfl | hpos
  · rw [sum_range_one]
    linarith
  · have htail := abs_sin_sub_le hr hpos
    have hsin := Real.abs_sin_le_one r
    have htri := abs_sub_abs_le_abs_sub (∑ i ∈ range (n+1), sineTerm r i) (Real.sin r)
    linarith

end Series

/-! The rounds -/

theorem near_of_rounded {q : ℝ} {a : Float} (h : Rounded q a) {k : ℕ} (hk : k ≤ 20)
    (hq : |q| ≤ 2^k) : a.isFinite = true ∧ Near q (value a) := by
  refine isFinite_of_rounded h (hq.trans_lt ?_)
  exact pow_lt_pow_right₀ one_lt_two (by omega)

structure SmallRound (t x c d p q r s v : ℝ) : Prop extends Round t x c d p q r s v where
  first_le : |t * -1| ≤ 2^4
  second_le : |p*x| ≤ 2^7
  third_le : |q*x| ≤ 2^10
  fourth_le : |r/c| ≤ 2^11
  fifth_le : |s/d| ≤ 2^12

theorem abs_mul_le_pow {x y : ℝ} (hx : |x| ≤ 2^2) {k : ℕ} (hy : |y| ≤ 2^k) :
    |y*x| ≤ 2^(k+2) := by
  rw [abs_mul,pow_add]
  exact mul_le_mul hy hx (abs_nonneg _) (by positivity)

theorem abs_div_le_pow {c y : ℝ} (hc : 1 ≤ c) {k : ℕ} (hy : |y| ≤ 2^k) : |y/c| ≤ 2^k := by
  rw [abs_div,abs_of_pos (one_pos.trans_le hc)]
  exact (div_le_self (abs_nonneg y) hc).trans hy

variable {x t : Float} {k : BitVec 64} {n : ℕ}

theorem nextTerm_round {c d : ℝ} (ht : t.isFinite = true) (hx : x.isFinite = true)
    (hT : |value t| ≤ 2^4) (hX : |value x| ≤ 2^2) (hc : value (floats.ofInt k) = c)
    (hd : value (floats.ofInt (k+1)) = d) (hc1 : 1 ≤ c) (hd1 : 1 ≤ d) :
    (nextTerm floats x t k).isFinite = true ∧
      ∃ p q r s, SmallRound (value t) (value x) c d p q r s (value (nextTerm floats x t k)) := by
  have hone : |value t * -1| ≤ 2^4 := by rwa [abs_mul,abs_neg,abs_one,mul_one]
  have hproduct := rounded_mul ht (ofInt_finite (-1))
  rw [value_ofInt_minus_one] at hproduct
  rcases near_of_rounded hproduct (by decide) hone with ⟨hpfin,hp⟩
  have hpx := abs_mul_le_pow hX (hp.abs_le_pow hone)
  rcases near_of_rounded (rounded_mul hpfin hx) (by decide) hpx with ⟨hqfin,hq⟩
  have hqx := abs_mul_le_pow hX (hq.abs_le_pow hpx)
  rcases near_of_rounded (rounded_mul hqfin hx) (by decide) hqx with ⟨hrfin,hr⟩
  have hrc := abs_div_le_pow hc1 (hr.abs_le_pow hqx)
  have hquotient := rounded_div hrfin (ofInt_finite k) (hc ▸ (one_pos.trans_le hc1).ne')
  rw [hc] at hquotient
  rcases near_of_rounded hquotient (by decide) hrc with ⟨hsfin,hs⟩
  have hsd := abs_div_le_pow hd1 (hs.abs_le_pow hrc)
  have hlast := rounded_div hsfin (ofInt_finite (k+1)) (hd ▸ (one_pos.trans_le hd1).ne')
  rw [hd] at hlast
  rcases near_of_rounded hlast (by decide) hsd with ⟨hvfin,hv⟩
  exact ⟨hvfin,_,_,_,_,⟨hp,hq,hr,hs,hv⟩,hone,hpx,hqx,hrc,hsd⟩

theorem SmallRound.error {t x c d p q r s v : ℝ} (h : SmallRound t x c d p q r s v) (hx : |x| ≤ 2^2)
    (hc : 1 ≤ c) (hd : 1 ≤ d) : |v - t * -1 * x * x / c / d| ≤ 1/2^40 := by
  have hmul : ∀ {y z e : ℝ}, |y-z| ≤ e → |y*x - z*x| ≤ e*2^2 := by
    intro y z e he
    rw [← sub_mul,abs_mul]
    exact mul_le_mul he hx (abs_nonneg _) ((abs_nonneg _).trans he)
  have hdiv : ∀ {y z e f : ℝ}, 1 ≤ f → |y-z| ≤ e → |y/f - z/f| ≤ e := by
    intro y z e f hf he
    rw [← sub_div,abs_div,abs_of_pos (one_pos.trans_le hf)]
    exact (div_le_self (abs_nonneg _) hf).trans he
  have hfirst : |p - t * -1| ≤ 1/2^49 :=
    (h.first.error_le (by decide) h.first_le).trans_eq (by norm_num)
  have hsecond : |q - p*x| ≤ 1/2^46 :=
    (h.second.error_le (by decide) h.second_le).trans_eq (by norm_num)
  have hthird : |r - q*x| ≤ 1/2^43 :=
    (h.third.error_le (by decide) h.third_le).trans_eq (by norm_num)
  have hfourth : |s - r/c| ≤ 1/2^42 :=
    (h.fourth.error_le (by decide) h.fourth_le).trans_eq (by norm_num)
  have hfifth : |v - s/d| ≤ 1/2^41 :=
    (h.fifth.error_le (by decide) h.fifth_le).trans_eq (by norm_num)
  have hq := (abs_sub_le q (p*x) (t * -1 * x)).trans (add_le_add hsecond (hmul hfirst))
  have hr := (abs_sub_le r (q*x) (t * -1 * x * x)).trans (add_le_add hthird (hmul hq))
  have hs := (abs_sub_le s (r/c) (t * -1 * x * x / c)).trans (add_le_add hfourth (hdiv hc hr))
  have hv := (abs_sub_le v (s/d) (t * -1 * x * x / c / d)).trans (add_le_add hfifth (hdiv hd hs))
  exact hv.trans (by norm_num)

/-! The run -/

section Run

variable (hx : x.isFinite = true) (hX : |value x| ≤ 2^2)
include hX

theorem abs_term_le (h : |value (term floats x n) - sineTerm (value x) n| ≤ 5/2^40) :
    |value (term floats x n)| ≤ 2^4 := by
  have hexact := abs_sineTerm_le (hX.trans (by norm_num)) n
  have htri := abs_sub_abs_le_abs_sub (value (term floats x n)) (sineTerm (value x) n)
  norm_num at h ⊢
  linarith

include hx

theorem round_after (hn : n ≤ 1100) (hfin : (term floats x n).isFinite = true)
    (herr : |value (term floats x n) - sineTerm (value x) n| ≤ 5/2^40) :
    (term floats x (n+1)).isFinite = true ∧ ∃ p q r s, SmallRound (value (term floats x n))
      (value x) (2*n+2 : ℕ) (2*n+3 : ℕ) p q r s (value (term floats x (n+1))) := by
  rcases value_counter (n := n) (by omega) with ⟨hc,hd⟩
  refine nextTerm_round hfin hx (abs_term_le hX herr) hX hc hd ?_ ?_
  · exact_mod_cast Nat.le_add_left 1 (2*n+1)
  · exact_mod_cast Nat.le_add_left 1 (2*n+2)

/-- The first terms are near those of the series. -/
theorem term_error (hn : n ≤ 1100) : (term floats x n).isFinite = true ∧
    |value (term floats x n) - sineTerm (value x) n| ≤ 5/2^40 := by
  have hzero : value (term floats x 0) = sineTerm (value x) 0 := by simp [sineTerm,term]
  induction n with
  | zero =>
    rw [hzero,sub_self,abs_zero]
    exact ⟨hx,by positivity⟩
  | succ n ih =>
    rcases ih (by omega) with ⟨hfin,herr⟩
    rcases round_after hx hX (by omega) hfin herr with ⟨hfin',p,q,r,s,hround⟩
    refine ⟨hfin',?_⟩
    have hlost := hround.error hX (by exact_mod_cast Nat.le_add_left 1 (2*n+1))
      (by exact_mod_cast Nat.le_add_left 1 (2*n+2))
    rw [sineTerm_succ]
    rcases n.eq_zero_or_pos with rfl | hpos
    · rw [← hzero]
      exact hlost.trans (by norm_num)
    · -- what a later round makes of the error before is smaller than that
      have hbefore := abs_next_le_mul (hX.trans (by norm_num)) hpos
        (value (term floats x n) - sineTerm (value x) n)
      simp only [sub_mul,sub_div] at hbefore
      refine (abs_sub_le _ _ _).trans ((add_le_add hlost hbefore).trans ?_)
      linarith

theorem term_eq_zero : value (term floats x 1100) = 0 := by
  have hlarge := abs_term_le hX (term_error hx hX (n := 16+0) (by decide)).2
  refine value_eq_zero_of_halved (f := fun j => term floats x (16+j)) (k := 1084) hlarge
    (fun j hj => ?_) (by decide)
  rcases term_error hx hX (n := 16+j) (by omega) with ⟨hfin,herr⟩
  rcases round_after hx hX (by omega) hfin herr with ⟨-,p,q,r,s,hround⟩
  have hdivisor : ∀ m : ℕ, 34 ≤ m → (34 : ℝ) ≤ m := fun m hm => by exact_mod_cast hm
  exact hround.halves hX (hdivisor _ (by omega)) (hdivisor _ (by omega)) (by norm_num)
    (by norm_num)

/-- The sums differ by the errors of the terms, and by what the additions lose. -/
theorem partialSum_error (hn : n ≤ 1100) : (partialSum floats x n).isFinite = true ∧
    |value (partialSum floats x n) - ∑ i ∈ range (n+1), sineTerm (value x) i| ≤ n * (6/2^40) := by
  induction n with
  | zero =>
    have heq : value (partialSum floats x 0) = ∑ i ∈ range 1, sineTerm (value x) i := by
      simp [sineTerm,partialSum]
    rw [heq,sub_self,abs_zero]
    exact ⟨hx,by positivity⟩
  | succ n ih =>
    rcases ih (by omega) with ⟨hfin,herr⟩
    rcases term_error hx hX hn with ⟨hfin',herr'⟩
    have hcast : (n : ℝ) ≤ 1100 := by exact_mod_cast (by omega : n ≤ 1100)
    have hsmall : |value (partialSum floats x n) + value (term floats x (n+1))| ≤ 2^6 := by
      have hsum := abs_sum_le (hX.trans (by norm_num)) n
      have htri := abs_sub_abs_le_abs_sub (value (partialSum floats x n))
        (∑ i ∈ range (n+1), sineTerm (value x) i)
      have hterm := abs_term_le hX herr'
      refine (abs_add_le _ _).trans ?_
      linarith
    rcases near_of_rounded (rounded_add hfin hfin') (by decide) hsmall with ⟨hsum,hnear⟩
    have hlost : |value (partialSum floats x (n+1)) - (value (partialSum floats x n) +
        value (term floats x (n+1)))| ≤ 1/2^47 :=
      (hnear.error_le (by decide) hsmall).trans_eq (by norm_num)
    refine ⟨hsum,?_⟩
    rw [sum_range_succ,Nat.cast_succ]
    have hadd := (abs_add_le _ _).trans (add_le_add herr herr')
    rw [← add_sub_add_comm] at hadd
    refine (abs_sub_le _ _ _).trans ((add_le_add hlost hadd).trans ?_)
    linarith

end Run

/-- For arguments up to 4 `my_sin` returns, and it returns the sine up to eight digits. -/
theorem mySin_near_sin (s : State Float) (hx : (s.xmm .xmm0).isFinite = true)
    (hX : |value (s.xmm .xmm0)| ≤ 4) : ∃ a t, (isa floats).Returns mySin s a t ∧
      |value (t.xmm .xmm0) - Real.sin (value (s.xmm .xmm0))| ≤ 1/2^27 := by
  have hX' : |value (s.xmm .xmm0)| ≤ 2^2 := hX.trans (by norm_num)
  have hlast : Ends floats (s.xmm .xmm0) 1099 :=
    ends_iff.2 (.inr ⟨(term_error hx hX' le_rfl).1,term_eq_zero hx hX'⟩)
  rcases returns_of_ends hlast with ⟨n,hn,hends,a,t,ht,hvalue⟩
  rcases term_error hx hX' (n := n+1) (by omega) with ⟨hfin,herr⟩
  rw [(ends_iff.1 hends).value_eq_zero hfin,zero_sub,abs_neg] at herr
  have hsum := (partialSum_error hx hX' (n := n+1) (by omega)).2
  have htail := abs_sin_sub_le hX (n := n+1) (by omega)
  refine ⟨a,t,ht,?_⟩
  rw [hvalue]
  refine (abs_sub_le _ _ _).trans ((add_le_add hsum htail).trans ?_)
  have hcast : ((n+1 : ℕ) : ℝ) ≤ 1100 := by exact_mod_cast (by omega : n+1 ≤ 1100)
  linarith

theorem mySin_near_sin_one : ∃ a t, (isa floats).Returns mySin
    ⟨⟨fun _ => 0,fun _ => 0,⟨false,false,false⟩⟩,fun _ => floats.ofInt 1⟩ a t ∧
      |value (t.xmm .xmm0) - Real.sin 1| ≤ 1/2^27 := by
  have hone : value (floats.ofInt 1) = 1 := (value_ofNat (m := 1) (by decide)).trans Nat.cast_one
  have hnear := mySin_near_sin
    ⟨⟨fun _ => 0,fun _ => 0,⟨false,false,false⟩⟩,fun _ => floats.ofInt 1⟩ (ofInt_finite 1)
    (by rw [hone,abs_one]; norm_num)
  rwa [hone] at hnear

end SineSeries
end SomeCode
