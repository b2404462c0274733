import Mathlib.Data.Int.Basic
import Mathlib.Tactic.Common

/-! Loops whose body may fail, with the rules of invariants. For a counting loop over integers the
invariant speaks of the index, and the loop ends with the index at its bound; any other loop ends
by a measure. -/
namespace SomeCode
namespace Loops

variable {S : Type*}

def forUp (stop : ℤ) (body : ℤ → S → Option S) (i : ℤ) (s : S) : Option S :=
  if i < stop then (body i s).bind (forUp stop body (i+1)) else some s
termination_by (stop-i).toNat
decreasing_by omega

/-- `for (; i >= last; --i)` -/
def forDown (last : ℤ) (body : ℤ → S → Option S) (i : ℤ) (s : S) : Option S :=
  if last ≤ i then (body i s).bind (forDown last body (i-1)) else some s
termination_by (i+1-last).toNat
decreasing_by omega

variable {I : ℤ → S → Prop} {body : ℤ → S → Option S} {i : ℤ} {s : S}

theorem forUp_inv {stop : ℤ} (hi : i ≤ stop) (hs : I i s)
    (hstep : ∀ k s, i ≤ k → k < stop → I k s → ∃ t, body k s = some t ∧ I (k+1) t) :
    ∃ t, forUp stop body i s = some t ∧ I stop t := by
  fun_induction forUp stop body i s with
  | case1 i s h ih =>
    obtain ⟨t,ht,hit⟩ := hstep i s (Int.le_refl i) h hs
    rw [ht,Option.bind_some]
    exact ih t (by omega) hit fun k s hk => hstep k s (by omega)
  | case2 i s h =>
    obtain rfl : i = stop := by omega
    exact ⟨s,rfl,hs⟩

theorem forDown_inv {last : ℤ} (hi : last ≤ i+1) (hs : I i s)
    (hstep : ∀ k s, k ≤ i → last ≤ k → I k s → ∃ t, body k s = some t ∧ I (k-1) t) :
    ∃ t, forDown last body i s = some t ∧ I (last-1) t := by
  fun_induction forDown last body i s with
  | case1 i s h ih =>
    obtain ⟨t,ht,hit⟩ := hstep i s (Int.le_refl i) h hs
    rw [ht,Option.bind_some]
    exact ih t (by omega) hit fun k s hk => hstep k s (by omega)
  | case2 i s h =>
    obtain rfl : i = last-1 := by omega
    exact ⟨s,rfl,hs⟩

/-- The loop ends in the last of the states that its rounds lead through. -/
theorem forUp_states {σ : ℕ → S} {n : ℕ} (h : ∀ k : ℕ, k < n → body k (σ k) = some (σ (k+1))) :
    forUp n body 0 (σ 0) = some (σ n) := by
  have hstep : ∀ k s, 0 ≤ k → k < (n : ℤ) → s = σ k.toNat →
      ∃ t, body k s = some t ∧ t = σ (k+1).toNat := by
    rintro k _ hk hkn rfl
    obtain ⟨k,rfl⟩ := Int.eq_ofNat_of_zero_le hk
    exact ⟨_,h k (Int.ofNat_lt.mp hkn),rfl⟩
  obtain ⟨t,ht,rfl⟩ := forUp_inv (I := fun k s => s = σ k.toNat) (Int.natCast_nonneg n) rfl hstep
  exact ht

theorem forUp_of_eq_some {stop : ℤ} {t : S} (hi : i ≤ stop) (hs : I i s)
    (hstep : ∀ k s t, i ≤ k → k < stop → I k s → body k s = some t → I (k+1) t)
    (h : forUp stop body i s = some t) : I stop t := by
  fun_induction forUp stop body i s with
  | case1 i s hlt ih =>
    obtain ⟨u,hu,ht⟩ := Option.bind_eq_some_iff.mp h
    exact ih u (by omega) (hstep i s u (Int.le_refl _) hlt hs hu) (fun k s t hk => hstep k s t (by omega)) ht
  | case2 i s hlt =>
    obtain rfl := Option.some.inj h
    obtain rfl : i = stop := by omega
    exact hs

theorem forDown_of_eq_some {last : ℤ} {t : S} (hi : last ≤ i+1) (hs : I i s)
    (hstep : ∀ k s t, k ≤ i → last ≤ k → I k s → body k s = some t → I (k-1) t)
    (h : forDown last body i s = some t) : I (last-1) t := by
  fun_induction forDown last body i s with
  | case1 i s hle ih =>
    obtain ⟨u,hu,ht⟩ := Option.bind_eq_some_iff.mp h
    exact ih u (by omega) (hstep i s u (Int.le_refl _) hle hs hu) (fun k s t hk => hstep k s t (by omega)) ht
  | case2 i s hle =>
    obtain rfl := Option.some.inj h
    obtain rfl : i = last-1 := by omega
    exact hs

/-- What no round can restore has held all along. -/
theorem forUp_all {stop : ℤ} {t : S} {Q : S → Prop} {P : ℤ → Prop}
    (hstep : ∀ k s t, i ≤ k → k < stop → body k s = some t → Q t → Q s ∧ P k)
    (h : forUp stop body i s = some t) (ht : Q t) : Q s ∧ ∀ k, i ≤ k → k < stop → P k := by
  fun_induction forUp stop body i s with
  | case1 i s hlt ih =>
    obtain ⟨u,hu,htu⟩ := Option.bind_eq_some_iff.mp h
    obtain ⟨hqu,hall⟩ := ih u (fun k s t hk => hstep k s t (by omega)) htu
    obtain ⟨hqs,hpi⟩ := hstep i s u (Int.le_refl _) hlt hu hqu
    refine ⟨hqs,fun k hk hks => ?_⟩
    by_cases hik : k = i
    · exact hik ▸ hpi
    · exact hall k (by omega) hks
  | case2 i s hlt =>
    obtain rfl := Option.some.inj h
    exact ⟨ht,fun k hk hks => absurd (Int.lt_of_le_of_lt hk hks) hlt⟩

/-- `for (; i < stop; i++)` where the body may `break`: it is then `none`. -/
def forBreak (stop : ℤ) (body : ℤ → S → Option S) (i : ℤ) (s : S) : S :=
  if i < stop then
    match body i s with
    | some t => forBreak stop body (i+1) t
    | none => s
  else s
termination_by (stop-i).toNat
decreasing_by omega

theorem forBreak_inv {stop : ℤ} (hi : i ≤ stop) (hs : I i s)
    (hstep : ∀ k s t, i ≤ k → k < stop → I k s → body k s = some t → I (k+1) t) :
    ∃ k, i ≤ k ∧ k ≤ stop ∧ I k (forBreak stop body i s) ∧
      (k < stop → body k (forBreak stop body i s) = none) := by
  fun_induction forBreak stop body i s with
  | case1 i s hlt t ht ih =>
    obtain ⟨k,hk,hks,hI,hend⟩ :=
      ih (by omega) (hstep i s t (Int.le_refl _) hlt hs ht) fun k s t hk => hstep k s t (by omega)
    exact ⟨k,by omega,hks,hI,hend⟩
  | case2 i s hlt hnone => exact ⟨i,Int.le_refl i,hi,hs,fun _ => hnone⟩
  | case3 i s hlt => exact ⟨i,Int.le_refl i,hi,hs,fun h => absurd h hlt⟩

/-- `while`, in fewer than `n` rounds -/
def whileLoop (cond : S → Bool) (body : S → Option S) : ℕ → S → Option S
  | 0, _ => none
  | n+1, s => if cond s then (body s).bind (whileLoop cond body n) else some s

/-- As many rounds are enough as the measure says. -/
theorem whileLoop_inv {cond : S → Bool} {body : S → Option S} {J : S → Prop} (μ : S → ℕ)
    (hstep : ∀ s, J s → cond s = true → ∃ t, body s = some t ∧ J t ∧ μ t < μ s)
    {n : ℕ} {s : S} (hs : J s) (hn : μ s < n) :
    ∃ t, whileLoop cond body n s = some t ∧ J t ∧ cond t = false := by
  induction n generalizing s with
  | zero => exact absurd hn (Nat.not_lt_zero _)
  | succ n ih =>
    rw [whileLoop]
    split_ifs with hc
    · obtain ⟨t,ht,hjt,hlt⟩ := hstep s hs hc
      rw [ht,Option.bind_some]
      exact ih hjt (by omega)
    · exact ⟨s,rfl,hs,by simpa using hc⟩

theorem whileLoop_of_eq_some {cond : S → Bool} {body : S → Option S} {J : S → Prop}
    (hstep : ∀ s t, J s → cond s = true → body s = some t → J t)
    {n : ℕ} {s t : S} (hs : J s) (h : whileLoop cond body n s = some t) :
    J t ∧ cond t = false := by
  induction n generalizing s with
  | zero => cases h
  | succ n ih =>
    rw [whileLoop] at h
    split_ifs at h with hc
    · obtain ⟨u,hu,ht⟩ := Option.bind_eq_some_iff.mp h
      exact ih (hstep s u hs hc hu) ht
    · cases h
      exact ⟨hs,by simpa using hc⟩

end Loops
end SomeCode
