import Mathlib.Data.Int.Basic
import Mathlib.Tactic

/-! Two's-complement integers of a given width, as integers that are wrapped after
each operation. A value already in range is not changed by the wrap. -/
namespace SomeCode
namespace MachineInt

/-- The signed value of `x` in `w` bits. -/
def wrap (w : ℕ) (x : ℤ) : ℤ := x.bmod (2^w)

def unsigned (w : ℕ) (x : ℤ) : ℕ := (x % 2^w).toNat

theorem wrap_eq {w : ℕ} {x : ℤ} (hl : -2^w ≤ x) (hu : x < 2^w) : wrap (w+1) x = x := by
  have hpow : (0 : ℤ) < 2^w := by positivity
  apply Int.bmod_eq_of_le
  · rw [pow_succ]
    push_cast
    omega
  · rw [pow_succ]
    push_cast
    omega

theorem wrap_eq_sub {w : ℕ} {x : ℤ} (hl : 2^w ≤ x) (hu : x < 2^(w+1)) :
    wrap (w+1) x = x - 2^(w+1) := by
  have hshift : wrap (w+1) (x - 2^(w+1) + (2^(w+1) : ℕ)) = wrap (w+1) (x - 2^(w+1)) :=
    Int.add_bmod_right _ _
  rw [← wrap_eq (w := w) (x := x - 2^(w+1)) (by rw [pow_succ]; omega)
    (by rw [pow_succ] at *; omega),← hshift]
  congr 1
  push_cast
  omega

/-- What is added to a value in range goes unnoticed if it is a multiple of the modulus. -/
theorem wrap_add_eq_iff {w : ℕ} {s x : ℤ} (hl : -2^w ≤ x) (hu : x < 2^w) :
    wrap (w+1) (s+x) = x ↔ 2^(w+1) ∣ s := by
  have hx : wrap (w+1) (0+x) = x := by rw [Int.zero_add,wrap_eq hl hu]
  have hcancel := Int.bmod_add_cancel_right (x := s) (y := 0) (n := 2^(w+1)) x
  have hdvd := Int.dvd_iff_bmod_eq_zero (a := 2^(w+1)) (b := s)
  push_cast at hdvd
  rw [hdvd,← Int.zero_bmod (m := 2^(w+1)),← hcancel]
  nth_rewrite 2 [← hx]
  rfl

theorem wrap_lt (w : ℕ) (x : ℤ) : wrap (w+1) x < 2^w := by
  have h := Int.bmod_lt (x := x) (m := 2^(w+1)) (by positivity)
  rw [pow_succ] at h
  push_cast at h
  unfold wrap
  rw [pow_succ]
  omega

theorem wrap_wrap_add (w : ℕ) (x y : ℤ) : wrap w (wrap w x + y) = wrap w (x+y) :=
  Int.bmod_add_bmod

theorem unsigned_eq {w : ℕ} {x : ℤ} (hl : 0 ≤ x) (hu : x < 2^w) : unsigned w x = x.toNat := by
  rw [unsigned,Int.emod_eq_of_lt hl hu]

theorem wrap_unsigned {v w : ℕ} (h : v ≤ w) (x : ℤ) : wrap v (unsigned w x) = wrap v x := by
  have hcast : (unsigned w x : ℤ) = x % 2^w := Int.toNat_of_nonneg (Int.emod_nonneg x (by positivity))
  have hpow : ((2^v : ℕ) : ℤ) ∣ 2^w := by
    push_cast
    exact pow_dvd_pow 2 h
  rw [wrap,wrap,hcast,← Int.emod_bmod,Int.emod_emod_of_dvd x hpow,Int.emod_bmod]

end MachineInt
end SomeCode
