import Mathlib.Algebra.BigOperators.Fin
import Mathlib.Data.List.FinRange

/-! Lists and sums put together from the parts of finitely many contributors. -/
namespace SomeCode
namespace Contributors

/-- The parts of all contributors together are the whole list. -/
theorem flatMap_filter_perm {A : Type*} {n : ℕ} (owner : A → Fin n) (l : List A) :
    ((List.finRange n).flatMap fun t => l.filter fun x => owner x = t).Perm l := by
  classical
  apply List.perm_iff_count.mpr
  intro x
  have hpart : ∀ t, (l.filter fun y => owner y = t).count x = if owner x = t then l.count x else 0 := by
    intro t
    split_ifs with h
    · exact List.count_filter (by simpa using h)
    · exact List.count_eq_zero_of_not_mem fun hm => h (by simpa using (List.mem_filter.mp hm).2)
  have hsum := Fin.sum_univ_def fun t => if owner x = t then l.count x else 0
  rw [Finset.sum_ite_eq Finset.univ (owner x) fun _ => l.count x] at hsum
  simp only [List.count_flatMap,Function.comp_def,hpart,← hsum,Finset.mem_univ,if_true]

theorem flatMap_blocks (n k : ℕ) :
    ((List.finRange n).flatMap fun t : Fin n => (List.range k).map fun j => (t : ℕ)*k+j) =
      List.range (n*k) := by
  induction n with
  | zero => simp
  | succ n ih =>
    rw [List.finRange_succ_last,List.flatMap_append,List.flatMap_map,Nat.succ_mul,List.range_add,← ih]
    simp

section Sums

variable {T V : Type*} [DecidableEq T] [AddCommMonoid V]

/-- A sum follows the one contributor that changes its summand. -/
theorem add_sum_congr_of_mem {S : Finset T} {f g : T → V} {t : T} (hmem : t ∈ S) {a b : V}
    (hother : ∀ u ∈ S, u ≠ t → f u = g u) (ht : a + f t = b + g t) :
    a + ∑ u ∈ S, f u = b + ∑ u ∈ S, g u := by
  have hrest : ∑ u ∈ S.erase t, f u = ∑ u ∈ S.erase t, g u :=
    Finset.sum_congr rfl fun u hu => hother u (Finset.mem_of_mem_erase hu) (Finset.ne_of_mem_erase hu)
  rw [← Finset.add_sum_erase _ f hmem,← Finset.add_sum_erase _ g hmem,← add_assoc,← add_assoc,ht,
    hrest]

variable [Fintype T]

theorem add_sum_congr {f g : T → V} (t : T) {a b : V} (hother : ∀ u, u ≠ t → f u = g u)
    (ht : a + f t = b + g t) : a + ∑ u, f u = b + ∑ u, g u :=
  add_sum_congr_of_mem (Finset.mem_univ t) (fun u _ => hother u) ht

theorem sum_update {A : Type*} (w : A → V) (f : T → A) (t : T) (a : A) :
    w (f t) + ∑ u, w (Function.update f t a u) = w a + ∑ u, w (f u) := by
  apply add_sum_congr t
  · intro u hu
    rw [Function.update_of_ne hu]
  · rw [Function.update_self,add_comm]

end Sums

end Contributors
end SomeCode
