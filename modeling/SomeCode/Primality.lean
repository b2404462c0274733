import SomeCode.MachineInt
import Mathlib.Data.Nat.Prime.Basic
import Mathlib.Data.Nat.Sqrt

/-! Trial division as `is_prime` of `inf19-1.c` does it, with the rounding of `sqrt`
taken to be exact. -/
namespace SomeCode
namespace Primality

open MachineInt

/-- The `for` loop from divisor `i` on, with `steps` rounds left before `max`. -/
def hasDivisor (number : ℕ) : ℕ → ℕ → Bool
  | 0, _ => false
  | steps+1, i => if number % i = 0 then true else hasDivisor number steps (i+1)

/-- The comparison with `i` and the remainder are taken in `size_t`. -/
def isPrime (number : ℤ) : ℤ :=
  if number = 1 then 0
  else if number = 2 then 1
  else
    let max : ℕ := Nat.sqrt number.toNat + 1
    if hasDivisor (unsigned 64 number) (max-2) 2 then 0 else 1

theorem hasDivisor_iff (number steps i : ℕ) :
    hasDivisor number steps i = true ↔ ∃ d, i ≤ d ∧ d < i+steps ∧ d ∣ number := by
  induction steps generalizing i with
  | zero => simp [hasDivisor]; omega
  | succ steps ih =>
    simp only [hasDivisor]
    split_ifs with h
    · simp only [true_iff]
      exact ⟨i,le_rfl,by omega,Nat.dvd_of_mod_eq_zero h⟩
    · rw [ih]
      constructor
      · rintro ⟨d,hl,hu,hd⟩
        exact ⟨d,by omega,by omega,hd⟩
      · rintro ⟨d,hl,hu,hd⟩
        have hne : i ≠ d := by
          rintro rfl
          exact h (Nat.mod_eq_zero_of_dvd hd)
        exact ⟨d,by omega,by omega,hd⟩

theorem isPrime_eq_one_iff {number : ℤ} (hl : 1 ≤ number) (hu : number < 2^63) :
    isPrime number = 1 ↔ number.toNat.Prime := by
  obtain ⟨n,rfl⟩ := Int.eq_ofNat_of_zero_le (show 0 ≤ number by omega)
  have hun : unsigned 64 (n : ℤ) = n := by
    rw [unsigned_eq (by omega) (by omega),Int.toNat_natCast]
  simp only [isPrime,hun,Int.toNat_natCast]
  have h1 : ((n : ℤ) = 1) ↔ n = 1 := by omega
  have h2 : ((n : ℤ) = 2) ↔ n = 2 := by omega
  simp only [h1,h2]
  split_ifs with hone htwo hdiv
  · simp [hone,Nat.not_prime_one]
  · simp [htwo,Nat.prime_two]
  · obtain ⟨d,hd2,hds,hd⟩ := (hasDivisor_iff _ _ _).mp hdiv
    have hsq : d ≤ Nat.sqrt n := by omega
    have hlt : d < n := by
      have hdd : d*d ≤ n := Nat.le_sqrt.mp hsq
      nlinarith
    simpa using Nat.not_prime_of_dvd_of_lt hd hd2 hlt
  · refine iff_of_true rfl (Nat.prime_def_le_sqrt.mpr ⟨by omega,fun d hd hsq hdvd => hdiv ?_⟩)
    exact (hasDivisor_iff _ _ _).mpr ⟨d,hd,by omega,hdvd⟩

/-- The loop has no divisor to try below the root of 0. -/
theorem isPrime_zero : isPrime 0 = 1 := by decide

/-- The answer is wrong for 0 and for no other number. -/
theorem isPrime_exact_iff {number : ℤ} (hl : 0 ≤ number) (hu : number < 2^63) :
    (isPrime number = 1 ↔ number.toNat.Prime) ↔ number ≠ 0 := by
  constructor
  · rintro hexact rfl
    exact Nat.not_prime_zero (hexact.mp isPrime_zero)
  · intro hne
    exact isPrime_eq_one_iff (by omega) hu

theorem isPrime_exact_nine : (isPrime 9 = 1 ↔ (9 : ℤ).toNat.Prime) ↔ (9 : ℤ) ≠ 0 :=
  isPrime_exact_iff (by decide) (by decide)

end Primality
end SomeCode
