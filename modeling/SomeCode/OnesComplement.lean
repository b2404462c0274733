import Mathlib.Data.Nat.ModEq
import Mathlib.Tactic

/-! One's-complement sums in a base `B`: the carry out of the last digit is added at the
other end. Such a sum is determined by the ordinary sum modulo `B-1`, except that 0 has the
two forms 0 and `B-1`; the form 0 comes of zeros only. -/
namespace SomeCode
namespace OnesComplement

def fold (B s : ℕ) : ℕ := s/B + s%B

def add (B a b : ℕ) : ℕ := fold B (a+b)

def sum (B : ℕ) (l : List ℕ) : ℕ := l.foldl (add B) 0

def residue (B s : ℕ) : ℕ := if s = 0 then 0 else (s-1)%(B-1) + 1

variable {B s x : ℕ}

theorem fold_modEq (hB : 0 < B) (s : ℕ) : fold B s ≡ s [MOD B-1] := by
  obtain ⟨m,rfl⟩ := Nat.exists_eq_add_one_of_ne_zero hB.ne'
  have hs := Nat.div_add_mod s (m+1)
  have hcarry : s = fold (m+1) s + m*(s/(m+1)) := by
    unfold fold
    nlinarith
  nth_rewrite 2 [hcarry]
  simp [Nat.ModEq]

theorem fold_eq_zero_iff : fold B s = 0 ↔ s = 0 := by
  constructor
  · intro h
    obtain ⟨hq,hr⟩ := Nat.add_eq_zero_iff.mp h
    have hs := Nat.div_add_mod s B
    rw [hq,hr] at hs
    simpa using hs.symm
  · rintro rfl
    simp [fold]

theorem fold_lt (hB : 0 < B) (h : s < 2*B-1) : fold B s < B := by
  unfold fold
  by_cases hs : s < B
  · rw [Nat.div_eq_of_lt hs,Nat.mod_eq_of_lt hs]
    omega
  · have hlt : s-B < B := by omega
    rw [Nat.div_eq_sub_div hB (by omega),Nat.mod_eq_sub_mod (by omega),Nat.div_eq_of_lt hlt,
      Nat.mod_eq_of_lt hlt]
    omega

theorem eq_residue (hB : 1 < B) (hx : x < B) (hzero : x = 0 ↔ s = 0) (hmod : x ≡ s [MOD B-1]) :
    x = residue B s := by
  unfold residue
  split_ifs with hs
  · exact hzero.mpr hs
  · have hx0 : x ≠ 0 := fun h => hs (hzero.mp h)
    have hpred : x-1 ≡ s-1 [MOD B-1] := by
      refine Nat.ModEq.add_right_cancel' 1 ?_
      rwa [Nat.sub_add_cancel (by omega),Nat.sub_add_cancel (by omega)]
    have hval : x-1 = (s-1)%(B-1) := by
      rw [← hpred,Nat.mod_eq_of_lt (by omega)]
    omega

/-- Two folds are enough below `B^2`: after them no carry is left. -/
theorem fold_fold_lt (hB : 0 < B) (h : s < B*B) : fold B (fold B s) < B := by
  have hq : s/B < B := Nat.div_lt_of_lt_mul h
  have hr : s%B < B := Nat.mod_lt s hB
  exact fold_lt hB (by unfold fold; omega)

theorem fold_fold_eq (hB : 1 < B) (h : s < B*B) : fold B (fold B s) = residue B s := by
  have hpos : 0 < B := by omega
  refine eq_residue hB (fold_fold_lt hpos h) ?_ ((fold_modEq hpos _).trans (fold_modEq hpos s))
  rw [fold_eq_zero_iff,fold_eq_zero_iff]

theorem foldl_add (hB : 0 < B) {a : ℕ} {l : List ℕ} (ha : a < B) (hl : ∀ x ∈ l, x < B) :
    l.foldl (add B) a < B ∧ (l.foldl (add B) a = 0 ↔ a + l.sum = 0) ∧
      l.foldl (add B) a ≡ a + l.sum [MOD B-1] := by
  induction l generalizing a with
  | nil => exact ⟨ha,by simp,by simp [Nat.ModEq]⟩
  | cons b l ih =>
    have hb := hl b List.mem_cons_self
    obtain ⟨hlt,hzero,hmod⟩ := ih (a := add B a b) (fold_lt hB (by omega))
      fun x hx => hl x (List.mem_cons_of_mem _ hx)
    refine ⟨hlt,?_,?_⟩
    · have hab := fold_eq_zero_iff (B := B) (s := a+b)
      rw [List.foldl_cons,hzero,List.sum_cons]
      unfold add
      omega
    · rw [List.foldl_cons,List.sum_cons,← Nat.add_assoc]
      exact hmod.trans ((fold_modEq hB (a+b)).add_right _)

theorem sum_eq_residue (hB : 1 < B) {l : List ℕ} (hl : ∀ x ∈ l, x < B) :
    sum B l = residue B l.sum := by
  obtain ⟨hlt,hzero,hmod⟩ := foldl_add (by omega) (a := 0) (by omega) hl
  rw [Nat.zero_add] at hzero hmod
  exact eq_residue hB hlt hzero hmod

/-- The residue of a sum and its complement is all ones. -/
theorem residue_add_complement (hB : 1 < B) (s : ℕ) :
    residue B (s + (B-1-residue B s)) = B-1 := by
  have hle : residue B s ≤ B-1 := by
    unfold residue
    have := Nat.mod_lt (s-1) (show 0 < B-1 by omega)
    split_ifs <;> omega
  refine (eq_residue hB (by omega) ?_ ?_).symm
  · unfold residue
    split_ifs <;> omega
  · by_cases hs : s = 0
    · simp [hs,residue,Nat.ModEq]
    · have hval : residue B s = (s-1)%(B-1) + 1 := by simp [residue,hs]
      have hdiv := Nat.div_add_mod (s-1) (B-1)
      have htotal : s + (B-1-residue B s) = (B-1)*((s-1)/(B-1)) + (B-1) := by omega
      rw [htotal]
      simp [Nat.ModEq]

end OnesComplement
end SomeCode
