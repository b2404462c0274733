import SomeCode.X64
import SomeCode.FloatArithmetic

/-! `my_sin` of `inf06-1.s` sums the Taylor series of the sine until a term is zero. -/
namespace SomeCode
namespace SineSeries

open MachineCode X64 Isa

inductive Xmm
  | xmm0 | xmm1 | xmm2 | xmm3 | xmm4 | xmm5
  deriving DecidableEq

/-- What the processor computes with doubles; `same` is for two that are equal or unordered. -/
structure Doubles (F : Type) where
  mul : F → F → F
  div : F → F → F
  add : F → F → F
  ofInt : BitVec 64 → F
  same : F → F → Bool

structure State (F : Type) extends X64.State where
  xmm : Xmm → F

inductive Op
  | base (o : X64.Op)
  | movsd (d a : Xmm)
  | mulsd (d a : Xmm)
  | divsd (d a : Xmm)
  | addsd (d a : Xmm)
  | cvtsi2sd (d : Xmm) (r : Reg)
  | comisd (a b : Xmm)

inductive Cond
  | always | z

variable {F : Type} (D : Doubles F)

def State.setXmm (s : State F) (d : Xmm) (v : F) : State F :=
  { s with xmm := Function.update s.xmm d v }

def exec : Op → State F → State F
  | .base o, s => { s with toState := X64.exec o s.toState }
  | .movsd d a, s => s.setXmm d (s.xmm a)
  | .mulsd d a, s => s.setXmm d (D.mul (s.xmm d) (s.xmm a))
  | .divsd d a, s => s.setXmm d (D.div (s.xmm d) (s.xmm a))
  | .addsd d a, s => s.setXmm d (D.add (s.xmm d) (s.xmm a))
  | .cvtsi2sd d r, s => s.setXmm d (D.ofInt (s.reg r))
  | .comisd a b, s => { s with flags := ⟨D.same (s.xmm a) (s.xmm b),false,false⟩ }

def Cond.holds : Cond → State F → Bool
  | .always, _ => true
  | .z, s => s.flags.zf

def isa : Isa Op Cond (State F) (BitVec 64) where
  exec := exec D
  holds := Cond.holds
  leave s := ((X64.isa.leave s.toState).1,{ s with toState := (X64.isa.leave s.toState).2 })

def entry : List Op :=
  [.movsd .xmm5 .xmm0,.base (.mov .rax (.imm 0)),.base (.mov .rcx (.imm (-1))),
   .cvtsi2sd .xmm4 .rcx,.cvtsi2sd .xmm3 .rax,.base (.inc .rax),.movsd .xmm1 .xmm0]

/-- From `.summ` to the branch -/
def body : List Op :=
  [.mulsd .xmm1 .xmm4,.mulsd .xmm1 .xmm5,.mulsd .xmm1 .xmm5,
   .base (.add .rax (.imm 1)),.cvtsi2sd .xmm2 .rax,.divsd .xmm1 .xmm2,
   .base (.add .rax (.imm 1)),.cvtsi2sd .xmm2 .rax,.divsd .xmm1 .xmm2,
   .addsd .xmm0 .xmm1,.comisd .xmm3 .xmm1]

/-- `my_sin`; 7 is `.summ` and 20 is `.end`. -/
def mySin : List (Instr Op Cond) :=
  entry.map .op ++ (body.map .op ++ [.branch .z 20,.branch .always 7,.ret])

/-! The numbers that `my_sin` computes -/

/-- `rax` at `.summ`, after `n` rounds -/
def counter (n : ℕ) : BitVec 64 := BitVec.ofNat 64 (2*n+1)

def nextTerm (x t : F) (k : BitVec 64) : F :=
  D.div (D.div (D.mul (D.mul (D.mul t (D.ofInt (-1))) x) x) (D.ofInt k)) (D.ofInt (k+1))

def term (x : F) : ℕ → F
  | 0 => x
  | n+1 => nextTerm D x (term x n) (counter n + 1)

def partialSum (x : F) : ℕ → F
  | 0 => x
  | n+1 => D.add (partialSum x n) (term D x (n+1))

def Ends (x : F) (n : ℕ) : Prop := D.same (D.ofInt 0) (term D x (n+1)) = true

theorem counter_succ (n : ℕ) : counter (n+1) = counter n + 1 + 1 := by
  rw [counter,counter,Nat.mul_add,Nat.add_right_comm,BitVec.ofNat_add _ (2*1),BitVec.add_assoc]
  rfl

structure AtLoop (x : F) (n : ℕ) (s : State F) : Prop where
  xmm0 : s.xmm .xmm0 = partialSum D x n
  xmm1 : s.xmm .xmm1 = term D x n
  xmm3 : s.xmm .xmm3 = D.ofInt 0
  xmm4 : s.xmm .xmm4 = D.ofInt (-1)
  xmm5 : s.xmm .xmm5 = x
  rax : s.reg .rax = counter n
  open_ : ∀ i < n, ¬ Ends D x i

structure AtEnd (x : F) (n : ℕ) (s : State F) : Prop where
  xmm0 : s.xmm .xmm0 = partialSum D x (n+1)
  ends : Ends D x n
  open_ : ∀ i < n, ¬ Ends D x i

section Asm

variable {D} {s : State F} {x : F} {n : ℕ}

theorem entry_ops (s : State F) : AtLoop D (s.xmm .xmm0) 0 ((isa D).execAll entry s) := by
  constructor <;> simp [entry,execAll,isa,exec,State.setXmm,X64.exec,Operand.value,partialSum,term,
    counter]

theorem body_ops (h : AtLoop D x n s) :
    let t := (isa D).execAll body s
    t.xmm .xmm0 = partialSum D x (n+1) ∧ t.xmm .xmm1 = term D x (n+1) ∧ t.xmm .xmm3 = D.ofInt 0 ∧
      t.xmm .xmm4 = D.ofInt (-1) ∧ t.xmm .xmm5 = x ∧ t.reg .rax = counter (n+1) ∧
      t.flags.zf = D.same (D.ofInt 0) (term D x (n+1)) := by
  simp [body,execAll,isa,exec,State.setXmm,X64.exec,Operand.value,partialSum,term,nextTerm,
    counter_succ,h.xmm0,h.xmm1,h.xmm3,h.xmm4,h.xmm5,h.rax]

theorem round (h : AtLoop D x n s) : ∃ t, (isa D).Runs mySin (.inside 7 s) (.inside 18 t) ∧
    ((∃ u, (isa D).Runs mySin (.inside 18 t) (.inside 7 u) ∧ AtLoop D x (n+1) u ∧ ¬ Ends D x n) ∨
      ∃ u, (isa D).Runs mySin (.inside 18 t) (.inside 20 u) ∧ AtEnd D x n u) := by
  rcases body_ops h with ⟨hxmm0,hxmm1,hxmm3,hxmm4,hxmm5,hrax,hzf⟩
  have hrun : (isa D).Runs mySin (.inside 7 s) (.inside 18 ((isa D).execAll body s)) :=
    Runs.ops (i := 7) body ⟨_,rfl⟩
  generalize (isa D).execAll body s = t at *
  have hat : mySin[18]? = some (.branch .z 20) := rfl
  refine ⟨t,hrun,?_⟩
  by_cases hends : Ends D x n
  · have hz : (isa D).holds .z t = true := hzf.trans hends
    exact .inr ⟨t,Runs.taken hat hz,hxmm0,hends,h.open_⟩
  · have hz : (isa D).holds .z t = false := hzf.trans (Bool.eq_false_iff.2 hends)
    have hback : (isa D).Runs mySin (.inside 19 t) (.inside 7 t) := Runs.taken rfl rfl
    refine .inl ⟨t,(Runs.passed hat hz).trans hback,
      ⟨hxmm0,hxmm1,hxmm3,hxmm4,hxmm5,hrax,fun i hi => ?_⟩,hends⟩
    rcases Nat.lt_succ_iff_lt_or_eq.1 hi with hlt | rfl
    · exact h.open_ i hlt
    · exact hends

theorem enter (s : State F) : (isa D).Runs mySin (.inside 0 s)
    (.inside 7 ((isa D).execAll entry s)) :=
  Runs.ops (i := 0) entry ⟨_,rfl⟩

theorem leave (s : State F) : (isa D).Runs mySin (.inside 20 s)
    (.outside ((isa D).leave s).1 ((isa D).leave s).2) :=
  Runs.ret rfl

/-- What is returned is the sum up to the first term that ends the loop. -/
theorem returns_iff {y : F} : (∃ a t, (isa D).Returns mySin s a t ∧ t.xmm .xmm0 = y) ↔
    ∃ n, Ends D (s.xmm .xmm0) n ∧ (∀ i < n, ¬ Ends D (s.xmm .xmm0) i) ∧
      y = partialSum D (s.xmm .xmm0) (n+1) := by
  constructor
  · rintro ⟨a,t,ht,rfl⟩
    have hround : ∀ v, (∃ k, AtLoop D (s.xmm .xmm0) k v) → ∃ k w, k ≠ 7 ∧
        (isa D).Runs mySin (.inside 7 v) (.inside k w) ∧
        ((∃ u, (isa D).Runs mySin (.inside k w) (.inside 7 u) ∧
            ∃ k, AtLoop D (s.xmm .xmm0) k u) ∨
          ∃ u, (isa D).Runs mySin (.inside k w) (.inside 20 u) ∧
            ∃ n, AtEnd D (s.xmm .xmm0) n u) := by
      rintro v ⟨k,hv⟩
      rcases round hv with ⟨w,hw,⟨u,hu,hloop,-⟩ | ⟨u,hu,hend⟩⟩
      · exact ⟨18,w,by decide,hw,.inl ⟨u,hu,k+1,hloop⟩⟩
      · exact ⟨18,w,by decide,hw,.inr ⟨u,hu,k,hend⟩⟩
    rcases (Runs.rest ht (enter s)).exit_loop hround ⟨0,entry_ops s⟩ with ⟨u,hu,n,hend⟩
    have hleft := Runs.of_outside (Runs.rest hu (leave u))
    cases hleft
    exact ⟨n,hend.ends,hend.open_,hend.xmm0⟩
  · rintro ⟨n,hends,hopen,rfl⟩
    have hstep : ∀ k < n, ∀ v, AtLoop D (s.xmm .xmm0) k v →
        ∃ w, (isa D).Runs mySin (.inside 7 v) (.inside 7 w) ∧ AtLoop D (s.xmm .xmm0) (k+1) w := by
      intro k hk v hv
      rcases round hv with ⟨w,hw,⟨u,hu,hloop,-⟩ | ⟨u,-,hend⟩⟩
      · exact ⟨u,hw.trans hu,hloop⟩
      · exact absurd hend.ends (hopen k hk)
    rcases Runs.loop hstep (entry_ops s) with ⟨v,hv,hloop⟩
    rcases round hloop with ⟨w,hw,⟨u,-,-,hne⟩ | ⟨u,hu,hend⟩⟩
    · exact absurd hends hne
    · exact ⟨_,_,(enter s).trans (hv.trans (hw.trans (hu.trans (leave u)))),hend.xmm0⟩

theorem returns_of_ends {m : ℕ} (h : Ends D (s.xmm .xmm0) m) : ∃ n ≤ m, Ends D (s.xmm .xmm0) n ∧
    ∃ a t, (isa D).Returns mySin s a t ∧ t.xmm .xmm0 = partialSum D (s.xmm .xmm0) (n+1) := by
  classical
  have hends : ∃ n, Ends D (s.xmm .xmm0) n := ⟨m,h⟩
  have hspec := Nat.find_spec hends
  exact ⟨Nat.find hends,Nat.find_min' hends h,hspec,
    returns_iff.2 ⟨Nat.find hends,hspec,fun i hi => Nat.find_min hends hi,rfl⟩⟩

end Asm

/-! What the terms are in binary64 -/

open FloatRounding

/-- The operations on binary64 numbers -/
def floats : Doubles Float where
  mul := (· * ·)
  div := (· / ·)
  add := (· + ·)
  ofInt v := .ofModel (.ofInt v.toInt)
  same a b := !decide (a < b) && !decide (b < a)

variable {x t : Float} {k : BitVec 64} {n : ℕ}

theorem ends_iff : Ends floats x n ↔ Vanishes (term floats x (n+1)) := by
  have hzero : (floats.ofInt 0).toModel.unpack = .zero .positive := unpack_pack_zero
  rw [vanishes_iff hzero]
  simp [Ends,floats]

theorem ofInt_finite (k : BitVec 64) : (floats.ofInt k).isFinite = true := by
  refine ofInt_isFinite ?_
  have hlt := k.toInt_lt
  have hle := k.le_toInt
  rw [abs_le]
  omega

theorem value_ofInt_minus_one : value (floats.ofInt (-1)) = -1 := by
  have hint : (-1 : BitVec 64).toInt = -1 := by decide
  have hvalue : value (.ofModel (.ofInt (-1 : BitVec 64).toInt)) = ((-1 : ℤ) : ℝ) := by
    rw [hint]
    exact value_ofInt (by decide)
  exact hvalue.trans (by norm_num)

theorem value_ofNat {m : ℕ} (hm : m < 2^53) : value (floats.ofInt (BitVec.ofNat 64 m)) = m := by
  have hint : (BitVec.ofNat 64 m).toInt = m := by
    rw [BitVec.toInt_ofNat',Int.bmod_eq_of_le] <;> omega
  have hvalue : value (.ofModel (.ofInt (BitVec.ofNat 64 m).toInt)) = ((m : ℤ) : ℝ) := by
    rw [hint]
    exact value_ofInt (by rw [Nat.abs_cast]; omega)
  exact hvalue.trans (Int.cast_natCast m)

theorem value_counter (hn : 2*n+3 < 2^53) : value (floats.ofInt (counter n + 1)) = (2*n+2 : ℕ) ∧
    value (floats.ofInt (counter n + 1 + 1)) = (2*n+3 : ℕ) := by
  have hone : counter n + 1 = BitVec.ofNat 64 (2*n+2) := (BitVec.ofNat_add _ 1).symm
  have htwo : counter n + 1 + 1 = BitVec.ofNat 64 (2*n+3) := by
    rw [hone]
    exact (BitVec.ofNat_add _ 1).symm
  rw [htwo,hone]
  exact ⟨value_ofNat (by omega),value_ofNat hn⟩

theorem minus_one_not_vanishes : ¬ Vanishes (floats.ofInt (-1)) := by
  intro h
  have hzero := h.value_eq_zero (ofInt_finite (-1))
  rw [value_ofInt_minus_one] at hzero
  norm_num at hzero

theorem nextTerm_isInf (ht : t.isInf = true) (hx : ¬ Vanishes x) :
    (nextTerm floats x t k).isInf = true :=
  isInf_div (isInf_div (isInf_mul (isInf_mul (isInf_mul ht minus_one_not_vanishes) hx) hx)
    (ofInt_finite k)) (ofInt_finite (k+1))

theorem nextTerm_vanishes (ht : Vanishes t) (hx : ¬ x.isInf = true) :
    Vanishes (nextTerm floats x t k) :=
  vanishes_div (vanishes_div (vanishes_mul (vanishes_mul (vanishes_mul ht
    (not_isInf_of_finite (ofInt_finite (-1)))) hx) hx) (ofInt_finite k)) (ofInt_finite (k+1))

theorem term_isInf_of_le (hx : ¬ Vanishes x) {m : ℕ} (h : (term floats x m).isInf = true)
    (hmn : m ≤ n) : (term floats x n).isInf = true :=
  Nat.le_induction h (fun _ _ ih => nextTerm_isInf ih hx) n hmn

theorem term_vanishes_of_le (hx : ¬ x.isInf = true) {m : ℕ} (h : Vanishes (term floats x m))
    (hmn : m ≤ n) : Vanishes (term floats x n) :=
  Nat.le_induction h (fun _ _ ih => nextTerm_vanishes ih hx) n hmn

/-- The operations of a round, on the term `t` and with the divisors `c` and `d` -/
structure Round (t x c d p q r s v : ℝ) : Prop where
  first : Near (t * -1) p
  second : Near (p*x) q
  third : Near (q*x) r
  fourth : Near (r/c) s
  fifth : Near (s/d) v

theorem Round.halves {t x c d p q r s v X C : ℝ} (h : Round t x c d p q r s v) (hx : |x| ≤ X)
    (hc : C ≤ c) (hd : C ≤ d) (hC : 0 < C) (hXC : 8*X ≤ C) : |v| ≤ |t|/2 := by
  have hmul : ∀ y : ℝ, |y*x| ≤ |y| * X := fun y => by
    rw [abs_mul]
    exact mul_le_mul_of_nonneg_left hx (abs_nonneg y)
  have hdiv : ∀ {y f : ℝ}, C ≤ f → |y/f| ≤ |y|/C := by
    intro y f hf
    rw [abs_div,abs_of_pos (hC.trans_le hf)]
    exact div_le_div_of_nonneg_left (abs_nonneg y) hC hf
  have hX := (abs_nonneg x).trans hx
  have hp := h.first.abs_le_two_mul
  rw [abs_mul,abs_neg,abs_one,mul_one] at hp
  have hratio : (8*X/C)^2 ≤ 1 := pow_le_one₀ (by positivity) ((div_le_one hC).2 hXC)
  calc |v| ≤ 2*(|s|/C) := h.fifth.abs_le_two_mul.trans (by linarith [hdiv (y := s) hd])
    _ ≤ 2*(2*(|r|/C)/C) := by
      gcongr
      exact h.fourth.abs_le_two_mul.trans (by linarith [hdiv (y := r) hc])
    _ ≤ 2*(2*(2*(|q| * X)/C)/C) := by
      gcongr
      exact h.third.abs_le_two_mul.trans (by linarith [hmul q])
    _ ≤ 2*(2*(2*(2*(|p| * X)*X)/C)/C) := by
      gcongr
      exact h.second.abs_le_two_mul.trans (by linarith [hmul p])
    _ ≤ 2*(2*(2*(2*(2*|t| * X)*X)/C)/C) := by gcongr
    _ = |t|/2 * (8*X/C)^2 := by ring
    _ ≤ |t|/2 := mul_le_of_le_one_right (by positivity) hratio

theorem nextTerm_near {c d : ℝ} (ht : t.isFinite = true) (hx : x.isFinite = true)
    (hv : ¬ Vanishes x) (hc : value (floats.ofInt k) = c) (hd : value (floats.ofInt (k+1)) = d)
    (hc0 : c ≠ 0) (hd0 : d ≠ 0) (hinf : ¬ (nextTerm floats x t k).isInf = true) :
    ∃ p q r s, Round (value t) (value x) c d p q r s (value (nextTerm floats x t k)) := by
  have hfour : ¬ (floats.div (floats.mul (floats.mul (floats.mul t (floats.ofInt (-1))) x) x)
    (floats.ofInt k)).isInf = true := fun h => hinf (isInf_div h (ofInt_finite (k+1)))
  have hthree : ¬ (floats.mul (floats.mul (floats.mul t (floats.ofInt (-1))) x) x).isInf = true :=
    fun h => hfour (isInf_div h (ofInt_finite k))
  have htwo : ¬ (floats.mul (floats.mul t (floats.ofInt (-1))) x).isInf = true :=
    fun h => hthree (isInf_mul h hv)
  have hone : ¬ (floats.mul t (floats.ofInt (-1))).isInf = true := fun h => htwo (isInf_mul h hv)
  have hp := (rounded_mul ht (ofInt_finite (-1))).finite hone
  have hq := (rounded_mul hp.1 hx).finite htwo
  have hr := (rounded_mul hq.1 hx).finite hthree
  have hs := (rounded_div hr.1 (ofInt_finite k) (hc ▸ hc0)).finite hfour
  have hlast := (rounded_div hs.1 (ofInt_finite (k+1)) (hd ▸ hd0)).finite hinf
  rw [value_ofInt_minus_one] at hp
  rw [hc] at hs
  rw [hd] at hlast
  exact ⟨_,_,_,_,hp.2,hq.2,hr.2,hs.2,hlast.2⟩

section Terms

variable (hinf : ∀ n, ¬ (term floats x n).isInf = true)
  (hv : ∀ n, ¬ Vanishes (term floats x n))
include hinf hv

theorem term_near (hn : 2*n+3 < 2^53) : ∃ p q r s, Round (value (term floats x n)) (value x)
    (2*n+2 : ℕ) (2*n+3 : ℕ) p q r s (value (term floats x (n+1))) := by
  have hfin : ∀ n, (term floats x n).isFinite = true := fun n => finite_of_not (hinf n) (hv n)
  rcases value_counter hn with ⟨hc,hd⟩
  exact nextTerm_near (hfin n) (hfin 0) (hv 0) hc hd (by positivity) (by positivity) (hinf (n+1))

theorem term_halves (hx : |value x| ≤ 2^14) (hn : 2^17 ≤ n) (hn' : 2*n+3 < 2^53) :
    |value (term floats x (n+1))| ≤ |value (term floats x n)|/2 := by
  rcases term_near hinf hv hn' with ⟨p,q,r,s,hround⟩
  have hdivisor : ∀ m : ℕ, 2^18 ≤ m → (2^18 : ℝ) ≤ m := fun m hm => by exact_mod_cast hm
  exact hround.halves hx (hdivisor _ (by omega)) (hdivisor _ (by omega)) (by positivity)
    (by norm_num)

theorem term_doubles (hx : 2^14 ≤ |value x|) (hn : n ≤ 1010) (h : 1 ≤ |value (term floats x n)|) :
    2 * |value (term floats x n)| ≤ |value (term floats x (n+1))| := by
  rcases term_near hinf hv (n := n) (by omega) with ⟨p,q,r,s,hp,hq,hr,hs,hlast⟩
  have hsmall : (2 : ℝ)^(-1074 : ℤ) ≤ 1/2 := by
    rw [one_div,← zpow_neg_one]
    exact zpow_le_zpow_right₀ one_le_two (by decide)
  have hdivisor : ∀ m : ℕ, m ≤ 2^11 → 0 < m → ∀ y : ℝ, |y|/2^11 ≤ |y/m| := by
    intro m hm hpos y
    have hcast : (m : ℝ) ≤ 2^11 := by exact_mod_cast hm
    have hpos' : (0 : ℝ) < m := by exact_mod_cast hpos
    rw [abs_div,Nat.abs_cast]
    exact div_le_div_of_nonneg_left (abs_nonneg y) hpos' hcast
  have hfactor : ∀ y : ℝ, |y| * 2^14 ≤ |y * value x| := fun y => by
    rw [abs_mul]
    exact mul_le_mul_of_nonneg_left hx (abs_nonneg y)
  have hp' : |value (term floats x n)|/2 ≤ |p| := by
    refine hp.le_abs (by linarith) ?_
    rw [abs_mul,abs_neg,abs_one,mul_one]
    linarith
  have hq' : |value (term floats x n)| * 2^12 ≤ |q| :=
    hq.le_abs (by linarith) (by linarith [hfactor p])
  have hr' : |value (term floats x n)| * 2^25 ≤ |r| :=
    hr.le_abs (by linarith) (by linarith [hfactor q])
  have hs' : |value (term floats x n)| * 2^13 ≤ |s| :=
    hs.le_abs (by linarith) (by linarith [hdivisor (2*n+2) (by omega) (by omega) r])
  exact hlast.le_abs (by linarith) (by linarith [hdivisor (2*n+3) (by omega) (by omega) s])

theorem argument_lt : |value x| < 2^14 := by
  by_contra hge
  have hx := not_lt.1 hge
  have hgrow : ∀ n ≤ 1010, (2 : ℝ)^(14+n) ≤ |value (term floats x n)| := by
    intro n
    induction n with
    | zero => exact fun _ => hx
    | succ n ih =>
      intro hn
      have hone : (1 : ℝ) ≤ 2^(14+n) := one_le_pow₀ one_le_two
      have hterm := ih (by omega)
      have hdouble := term_doubles hinf hv hx (by omega) (hone.trans hterm)
      rw [← Nat.add_assoc,pow_succ]
      linarith
  have hlt := value_lt (finite_of_not (hinf 1010) (hv 1010))
  exact absurd (hgrow 1010 le_rfl) (not_le.2 hlt)

end Terms

theorem exists_vanishes (hinf : ∀ n, ¬ (term floats x n).isInf = true) :
    ∃ n, Vanishes (term floats x n) := by
  by_contra hnone
  have hv : ∀ n, ¬ Vanishes (term floats x n) := not_exists.1 hnone
  have hx := (argument_lt hinf hv).le
  obtain ⟨N,hN,hN'⟩ : ∃ N, 2^17 ≤ N ∧ N < 2^18 := ⟨2^17,by decide,by decide⟩
  have hlarge : |value (term floats x (N+0))| ≤ 2^1024 :=
    (value_lt (finite_of_not (hinf _) (hv _))).le
  have hzero : value (term floats x (N+2100)) = 0 :=
    value_eq_zero_of_halved (f := fun j => term floats x (N+j)) hlarge
      (fun j hj => term_halves hinf hv hx (n := N+j) (by omega) (by omega)) (by decide)
  exact hv _ (.inr ⟨finite_of_not (hinf _) (hv _),hzero⟩)

/-- The loop ends just when no term is too large. -/
theorem exists_ends_iff : (∃ n, Ends floats x n) ↔ ∀ n, ¬ (term floats x n).isInf = true := by
  simp only [ends_iff]
  constructor
  · rintro ⟨m,hm⟩ n hn
    by_cases hv : Vanishes x
    · exact (term_vanishes_of_le hv.not_isInf (m := 0) hv (Nat.zero_le n)).not_isInf hn
    · by_cases hx : x.isInf = true
      · exact hm.not_isInf (term_isInf_of_le hv (m := 0) hx (Nat.zero_le (m+1)))
      · rcases le_total n (m+1) with hle | hle
        · exact hm.not_isInf (term_isInf_of_le hv hn hle)
        · exact (term_vanishes_of_le hx hm hle).not_isInf hn
  · intro hinf
    rcases exists_vanishes hinf with ⟨n,hn⟩
    exact ⟨n,term_vanishes_of_le (hinf 0) hn (Nat.le_succ n)⟩

/-- `my_sin` returns just when no term is too large. -/
theorem mySin_returns_iff (s : State Float) : (∃ a t, (isa floats).Returns mySin s a t) ↔
    ∀ n, (term floats (s.xmm .xmm0) n).isInf = false := by
  simp only [← Bool.not_eq_true,← exists_ends_iff]
  constructor
  · rintro ⟨a,t,ht⟩
    rcases returns_iff.1 ⟨a,t,ht,rfl⟩ with ⟨n,hn,-,-⟩
    exact ⟨n,hn⟩
  · rintro ⟨n,hn⟩
    rcases returns_of_ends hn with ⟨-,-,-,a,t,ht,-⟩
    exact ⟨a,t,ht⟩

end SineSeries
end SomeCode
