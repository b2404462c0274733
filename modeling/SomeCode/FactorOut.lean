import SomeCode.Loops
import Mathlib.Data.Nat.Factors
import Mathlib.NumberTheory.LucasLehmer

/-! `primes_factor_out` of the Python module in `prime.c`. -/
namespace SomeCode
namespace FactorOut

open Loops

/-- What is returned to Python -/
inductive PyObject
  | list (items : List ℤ)
  | str (s : String)
  deriving DecidableEq

inductive PyErr
  | typeError (message : String)
  deriving DecidableEq

/-- The variables of the loops -/
structure Vars where
  number : ℤ
  d : ℤ
  answer : List ℤ

section Loops

-- `d++`, which may not be defined for every value
variable (increment : ℤ → Option ℤ)

/-- `while (number % d == 0)` -/
def divideOut : ℕ → Vars → Option Vars :=
  whileLoop (fun s => s.number.tmod s.d = 0) fun s =>
    some { s with number := s.number.tdiv s.d, answer := s.answer ++ [s.d] }

/-- `while (number > 1)` -/
def factorLoop (fuel : ℕ) : Vars → Option Vars :=
  whileLoop (fun s => s.number > 1) (fun s =>
    (divideOut fuel s).bind fun s => (increment s.d).map fun d => { s with d := d }) fuel

/-- `args` is what `PyArg_ParseTuple` makes of the arguments; each loop has `fuel` rounds. -/
def primesFactorOut (fuel : ℕ) (args : Option ℤ) : Option (Except PyErr PyObject) :=
  match args with
  | none => some (.error (.typeError "func_ret_str args error"))
  | some number =>
    if number < 1 then some (.error (.typeError "func_ret_str args error"))
    else (factorLoop increment fuel ⟨number,2,[1]⟩).map fun s =>
      if s.answer.length = 2 then .ok (.str "Prime!") else .ok (.list s.answer)

end Loops

def vars (ps : List ℕ) (m k : ℕ) : Vars := ⟨m,k,1 :: ps.map Nat.cast⟩

/-- They are the first of its prime factors, and no divisor of what remains is below `k`. -/
structure Progress (n : ℕ) (ps : List ℕ) (m k : ℕ) : Prop where
  pos : 0 < m
  le : m ≤ n
  two_le : 2 ≤ k
  factors : ps ++ m.primeFactorsList = n.primeFactorsList
  least : ∀ p, p.Prime → p ∣ m → k ≤ p

variable {n m k : ℕ} {ps : List ℕ}

theorem progress_start (hn : 0 < n) : Progress n [] n 2 :=
  ⟨hn,le_rfl,le_rfl,rfl,fun _ hp _ => hp.two_le⟩

/-- A divisor that no smaller prime divides is the least prime factor. -/
theorem Progress.primeFactorsList_eq (h : Progress n ps m k) (hdvd : k ∣ m) :
    m.primeFactorsList = k :: (m/k).primeFactorsList := by
  have hle : k ≤ m := Nat.le_of_dvd h.pos hdvd
  obtain ⟨j,rfl⟩ : ∃ j, m = j+2 := ⟨m-2,by have := h.two_le; omega⟩
  have hmin : (j+2).minFac = k := by
    refine le_antisymm (Nat.minFac_le_of_dvd h.two_le hdvd) ?_
    exact h.least _ (Nat.minFac_prime (by omega)) (Nat.minFac_dvd _)
  rw [Nat.primeFactorsList_add_two,hmin]

theorem Progress.divide (h : Progress n ps m k) (hdvd : k ∣ m) :
    Progress n (ps ++ [k]) (m/k) k where
  pos := Nat.div_pos (Nat.le_of_dvd h.pos hdvd) (by have := h.two_le; omega)
  le := (Nat.div_le_self m k).trans h.le
  two_le := h.two_le
  factors := by rw [List.append_assoc,List.singleton_append,← h.primeFactorsList_eq hdvd,h.factors]
  least p hp hpm := h.least p hp (hpm.trans (Nat.div_dvd_of_dvd hdvd))

theorem Progress.next (h : Progress n ps m k) (hno : ¬ k ∣ m) : Progress n ps m (k+1) where
  pos := h.pos
  le := h.le
  two_le := Nat.le_succ_of_le h.two_le
  factors := h.factors
  least p hp hpm := Nat.lt_of_le_of_ne (h.least p hp hpm) fun he => hno (he ▸ hpm)

theorem Progress.le_of_one_lt (h : Progress n ps m k) (hm : 1 < m) : k ≤ m :=
  (h.least _ (Nat.minFac_prime (by omega)) (Nat.minFac_dvd m)).trans (Nat.minFac_le h.pos)

theorem Progress.eq_factors (h : Progress n ps m k) (hm : ¬ 1 < m) : ps = n.primeFactorsList := by
  have hone : m = 1 := by have := h.pos; omega
  rw [← h.factors,hone,Nat.primeFactorsList_one,List.append_nil]

theorem divideOut_spec (h : Progress n ps m k) {fuel : ℕ} (hfuel : n < fuel) :
    ∃ ps' m', divideOut fuel (vars ps m k) = some (vars ps' m' k) ∧ m' ≤ m ∧ ¬ k ∣ m' ∧
      Progress n ps' m' k ∧ ∀ p ∈ ps', p ∈ ps ∨ p = k := by
  have htmod : ∀ m' : ℕ, ((m' : ℤ).tmod k = 0) ↔ k ∣ m' := fun m' => by
    rw [← Int.ofNat_tmod,Int.natCast_eq_zero,Nat.dvd_iff_mod_eq_zero]
  let J : Vars → Prop := fun t => ∃ ps' m', t = vars ps' m' k ∧ Progress n ps' m' k ∧ m' ≤ m ∧
    ∀ p ∈ ps', p ∈ ps ∨ p = k
  have hstep : ∀ t, J t → decide (t.number.tmod t.d = 0) = true →
      ∃ u, some { t with number := t.number.tdiv t.d, answer := t.answer ++ [t.d] } = some u ∧
        J u ∧ u.number.toNat < t.number.toNat := by
    rintro _ ⟨ps',m',rfl,hp,hle,hmem⟩ hc
    have hdvd : k ∣ m' := (htmod m').mp (of_decide_eq_true hc)
    have hlt : m'/k < m' := Nat.div_lt_self hp.pos hp.two_le
    refine ⟨vars (ps' ++ [k]) (m'/k) k,?_,⟨_,_,rfl,hp.divide hdvd,by omega,?_⟩,hlt⟩
    · simp [vars]
    · intro p hpk
      obtain hp' | hk := List.mem_append.mp hpk
      · exact hmem p hp'
      · exact .inr (List.mem_singleton.mp hk)
  have hstart : J (vars ps m k) := ⟨ps,m,rfl,h,le_rfl,fun p hp => .inl hp⟩
  obtain ⟨t,ht,⟨ps',m',rfl,hp,hle,hmem⟩,hc⟩ := whileLoop_inv (fun t : Vars => t.number.toNat) hstep
    hstart (h.le.trans_lt hfuel)
  refine ⟨ps',m',ht,hle,fun hdvd => ?_,hp,hmem⟩
  exact of_decide_eq_false hc ((htmod m').mpr hdvd)

def unbounded (d : ℤ) : Option ℤ := some (d+1)

/-- `d++` where `limit` is the greatest value -/
def upTo (limit d : ℤ) : Option ℤ := if d < limit then some (d+1) else none

theorem Progress.dvd_of_prime (h : Progress n ps m k) {p : ℕ} (hp : p.Prime) (hpm : p ∣ m) :
    p ∣ n := by
  refine Nat.dvd_of_mem_primeFactorsList ?_
  rw [← h.factors]
  exact List.mem_append_right _ ((Nat.mem_primeFactorsList h.pos.ne').mpr ⟨hp,hpm⟩)

/-- While something remains, some prime factor of the argument is not below `d`. -/
theorem Progress.exists_prime (h : Progress n ps m k) (hm : 1 < m) :
    ∃ p, p.Prime ∧ p ∣ n ∧ k ≤ p := by
  have hp := Nat.minFac_prime (show m ≠ 1 by omega)
  exact ⟨m.minFac,hp,h.dvd_of_prime hp (Nat.minFac_dvd m),h.least _ hp (Nat.minFac_dvd m)⟩

theorem factorLoop_spec {increment : ℤ → Option ℤ} (h : Progress n ps m k) {fuel : ℕ}
    (hfuel : n < fuel)
    (hinc : ∀ p j : ℕ, p.Prime → p ∣ n → j ≤ p → increment j = some ((j : ℤ)+1)) :
    ∃ k' : ℕ, factorLoop increment fuel (vars ps m k) = some (vars n.primeFactorsList 1 k') := by
  let J : Vars → Prop := fun t => ∃ ps m k, t = vars ps m k ∧ Progress n ps m k
  have hstep : ∀ t, J t → decide (t.number > 1) = true →
      ∃ u, ((divideOut fuel t).bind fun s => (increment s.d).map fun d => { s with d := d }) =
        some u ∧ J u ∧ (u.number+1-u.d).toNat < (t.number+1-t.d).toNat := by
    rintro _ ⟨ps,m,k,rfl,hp⟩ hc
    have hm : 1 < m := by
      have hgt : (m : ℤ) > 1 := of_decide_eq_true hc
      omega
    obtain ⟨ps',m',hdiv,hle,hno,hp',-⟩ := divideOut_spec hp hfuel
    have hkm := hp.le_of_one_lt hm
    obtain ⟨q,hq,hqn,hkq⟩ := hp.exists_prime hm
    refine ⟨vars ps' m' (k+1),?_,⟨_,_,_,rfl,hp'.next hno⟩,?_⟩
    · rw [hdiv]
      simp [hinc q k hq hqn hkq,vars]
    · simp only [vars]
      omega
  have hstart : J (vars ps m k) := ⟨ps,m,k,rfl,h⟩
  have hmeasure : ((m : ℤ)+1-k).toNat < fuel := by
    have hle := h.le
    have htwo := h.two_le
    omega
  obtain ⟨t,ht,⟨ps',m',k',rfl,hp⟩,hc⟩ :=
    whileLoop_inv (fun t : Vars => (t.number+1-t.d).toNat) hstep hstart hmeasure
  have hm : ¬ 1 < m' := by
    have hle : ¬ (m' : ℤ) > 1 := of_decide_eq_false hc
    omega
  obtain rfl := hp.eq_factors hm
  obtain rfl : m' = 1 := by have := hp.pos; omega
  exact ⟨k',ht⟩

theorem lt_of_factorLoop {limit : ℤ} (h : Progress n ps m k) {fuel : ℕ} (hfuel : n < fuel)
    (hps : ∀ p ∈ ps, p < k) (hk : k ≤ limit) {t : Vars}
    (hrun : factorLoop (upTo limit) fuel (vars ps m k) = some t) {p : ℕ} (hp : p.Prime)
    (hpn : p ∣ n) (hn : 0 < n) : (p : ℤ) < limit := by
  let J : Vars → Prop := fun t => ∃ ps m, ∃ k : ℕ, t = vars ps m k ∧ Progress n ps m k ∧
    (∀ p ∈ ps, p < k) ∧ (k : ℤ) ≤ limit
  have hstep : ∀ s u, J s → decide (s.number > 1) = true →
      ((divideOut fuel s).bind fun s => (upTo limit s.d).map fun d => { s with d := d }) = some u →
        J u := by
    rintro _ u ⟨ps,m,k,rfl,hp,hps,hk⟩ - hu
    obtain ⟨ps',m',hdiv,-,hno,hp',hmem⟩ := divideOut_spec hp hfuel
    rw [hdiv,Option.bind_some] at hu
    obtain ⟨d,hd,rfl⟩ := Option.map_eq_some_iff.mp hu
    obtain ⟨hlt,hsucc⟩ := Option.ite_none_right_eq_some.mp hd
    obtain rfl := Option.some.inj hsucc
    refine ⟨ps',m',k+1,rfl,hp'.next hno,fun p hpm => ?_,?_⟩
    · obtain hold | rfl := hmem p hpm
      · exact Nat.lt_succ_of_lt (hps p hold)
      · exact Nat.lt_succ_self p
    · simp only [vars] at hlt
      omega
  obtain ⟨⟨ps',m',k',rfl,hp',hps',hk'⟩,hc⟩ :=
    whileLoop_of_eq_some hstep (show J (vars ps m k) from ⟨ps,m,k,rfl,h,hps,hk⟩) hrun
  have hm : ¬ 1 < m' := by
    have hle : ¬ (m' : ℤ) > 1 := of_decide_eq_false hc
    omega
  have hlt := hps' p (by
    rw [hp'.eq_factors hm]
    exact (Nat.mem_primeFactorsList hn.ne').mpr ⟨hp,hpn⟩)
  omega

theorem primesFactorOut_error {increment : ℤ → Option ℤ} {fuel : ℕ} {args : Option ℤ}
    (h : ∀ number, args = some number → number < 1) :
    primesFactorOut increment fuel args = some (.error (.typeError "func_ret_str args error")) := by
  cases args with
  | none => rfl
  | some number => rw [primesFactorOut,if_pos (h number rfl)]

theorem primesFactorOut_eq {increment : ℤ → Option ℤ} {number : ℕ} (h : 0 < number) {fuel : ℕ}
    (hfuel : number < fuel)
    (hinc : ∀ p j : ℕ, p.Prime → p ∣ number → j ≤ p → increment j = some ((j : ℤ)+1)) :
    primesFactorOut increment fuel (some number) = some (.ok (if number.Prime then .str "Prime!"
      else .list (1 :: number.primeFactorsList.map Nat.cast))) := by
  obtain ⟨k,hk⟩ := factorLoop_spec (progress_start h) hfuel hinc
  have hrun : factorLoop increment fuel ⟨number,2,[1]⟩ = _ := hk
  have hprime : number.primeFactorsList.length = 1 ↔ number.Prime := by
    constructor
    · intro hlen
      obtain ⟨p,hp⟩ := List.length_eq_one_iff.mp hlen
      have hmem : p.Prime := Nat.prime_of_mem_primeFactorsList (n := number) (by simp [hp])
      have hprod := Nat.prod_primeFactorsList h.ne'
      rw [hp,List.prod_singleton] at hprod
      exact hprod ▸ hmem
    · exact fun hp => by rw [Nat.primeFactorsList_prime hp,List.length_singleton]
  have hpos : ¬ (number : ℤ) < 1 := by omega
  simp only [primesFactorOut,hpos,if_false,hrun,Option.map_some,vars,List.length_cons,
    List.length_map,Nat.reduceEqDiff,hprime]
  split_ifs <;> rfl

/-- Enough values for `d` are those beyond every prime factor. -/
theorem primesFactorOut_upTo_iff {limit : ℤ} (hlimit : 2 ≤ limit) {number : ℕ} (h : 0 < number)
    {fuel : ℕ} (hfuel : number < fuel) :
    (primesFactorOut (upTo limit) fuel (some number)).isSome ↔
      ∀ p : ℕ, p.Prime → p ∣ number → (p : ℤ) < limit := by
  constructor
  · intro hsome p hp hpn
    have hpos : ¬ (number : ℤ) < 1 := by omega
    rw [primesFactorOut,if_neg hpos,Option.isSome_map] at hsome
    obtain ⟨t,ht⟩ := Option.isSome_iff_exists.mp hsome
    exact lt_of_factorLoop (progress_start h) hfuel (by simp) hlimit ht hp hpn h
  · intro hlt
    have hinc : ∀ p j : ℕ, p.Prime → p ∣ number → j ≤ p → upTo limit j = some ((j : ℤ)+1) :=
      fun p j hp hpn hj => if_pos (by have := hlt p hp hpn; omega)
    rw [primesFactorOut_eq h hfuel hinc]
    rfl

/-- What is promised for `number` -/
def IsAnswer (number : ℤ) (answer : PyObject) : Prop :=
  (number.toNat.Prime ∧ answer = .str "Prime!") ∨
  (¬ number.toNat.Prime ∧ ∃ ps : List ℕ, answer = .list (1 :: ps.map Nat.cast) ∧
    (∀ p ∈ ps, p.Prime) ∧ ps.Pairwise (· ≤ ·) ∧ (ps.prod : ℤ) = number)

theorem primesFactorOut_correct {number : ℤ} (h : 1 ≤ number) :
    ∃ answer, (∀ fuel : ℕ, number < fuel →
      primesFactorOut unbounded fuel (some number) = some (.ok answer)) ∧
      IsAnswer number answer ∧ (number = 1 → answer = .list [1]) := by
  obtain ⟨n,rfl⟩ := Int.eq_ofNat_of_zero_le (by omega : 0 ≤ number)
  have hn : 0 < n := by omega
  refine ⟨_,fun fuel hfuel =>
    primesFactorOut_eq hn (by omega) fun _ _ _ _ _ => rfl,?_,fun hone => ?_⟩
  · by_cases hp : n.Prime
    · exact .inl ⟨hp,if_pos hp⟩
    · refine .inr ⟨hp,n.primeFactorsList,if_neg hp,fun p => Nat.prime_of_mem_primeFactorsList,?_,?_⟩
      · exact n.primeFactorsList_sorted.pairwise
      · exact_mod_cast Nat.prod_primeFactorsList hn.ne'
  · obtain rfl : n = 1 := by omega
    rw [if_neg Nat.not_prime_one,Nat.primeFactorsList_one]
    rfl

theorem primesFactorOut_correct_twelve :
    ∃ answer, (∀ fuel : ℕ, (12 : ℤ) < fuel →
      primesFactorOut unbounded fuel (some 12) = some (.ok answer)) ∧ IsAnswer 12 answer :=
  (primesFactorOut_correct (show (1 : ℤ) ≤ 12 by decide)).imp fun _ h => ⟨h.1,h.2.1⟩

def INT_MAX : ℤ := 2147483647

theorem prime_INT_MAX : Nat.Prime 2147483647 := by
  have h := lucas_lehmer_sufficiency 31 (by norm_num) (by norm_num)
  simpa [mersenne] using h

theorem factorOut_noOverflow_iff {number : ℤ} (hl : 1 ≤ number) (hu : number ≤ INT_MAX)
    {fuel : ℕ} (hfuel : number < fuel) :
    (primesFactorOut (upTo INT_MAX) fuel (some number)).isSome ↔ number ≠ INT_MAX := by
  obtain ⟨n,rfl⟩ := Int.eq_ofNat_of_zero_le (by omega : 0 ≤ number)
  rw [primesFactorOut_upTo_iff (by decide) (by omega) (by omega)]
  constructor
  · rintro hall hmax
    obtain rfl : n = 2147483647 := by rw [INT_MAX] at hmax; omega
    exact absurd (hall _ prime_INT_MAX dvd_rfl) (by decide)
  · intro hne p hp hpn
    have hle := Nat.le_of_dvd (by omega) hpn
    omega

theorem factorOut_noOverflow_iff_twelve :
    (primesFactorOut (upTo INT_MAX) 13 (some 12)).isSome ↔ (12 : ℤ) ≠ INT_MAX :=
  factorOut_noOverflow_iff (by decide) (by decide) (by decide)

/-- The greatest `int` is a prime, and `d` goes beyond it once it is found. -/
theorem factorOut_overflows (fuel : ℕ) (hfuel : 2147483647 < fuel) :
    primesFactorOut (upTo INT_MAX) fuel (some ((2147483647 : ℕ) : ℤ)) = none := by
  have htwo : 2 ≤ INT_MAX := by decide
  rw [← Option.not_isSome_iff_eq_none,primesFactorOut_upTo_iff htwo (by norm_num) hfuel]
  exact fun hall => absurd (hall _ prime_INT_MAX dvd_rfl) (by decide)

theorem factorOut_overflows_at_INT_MAX :
    primesFactorOut (upTo INT_MAX) 2147483648 (some INT_MAX) = none :=
  factorOut_overflows 2147483648 (by norm_num)

end FactorOut
end SomeCode
