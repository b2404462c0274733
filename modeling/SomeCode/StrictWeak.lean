import Mathlib.Data.List.Basic
import Mathlib.Data.List.Pairwise
import Mathlib.Data.List.Sort
import Mathlib.Order.Lattice
import Mathlib.Order.Nat
import Mathlib.Tactic.Common

/-! Comparators that are strict weak orderings, sorts that respect them, and what the
first hit for a key is when the comparator has the greater rank first. -/
namespace SomeCode
namespace StrictWeak

variable {A K R : Type*}

/-- `lt` orders the elements up to incomparability. -/
structure IsStrictWeak (lt : A → A → Bool) : Prop where
  irrefl : ∀ a, lt a a = false
  trans : ∀ a b c, lt a b → lt b c → lt a c
  incomparable_trans : ∀ a b c, lt a b = false → lt b a = false → lt b c = false → lt c b = false →
    lt a c = false ∧ lt c a = false

/-- No element comes before one to its left. -/
def Sorted (lt : A → A → Bool) (l : List A) : Prop := l.Pairwise fun a b => lt b a = false

/-- What a sorting function promises for every strict weak ordering. -/
def IsSort (sort : (A → A → Bool) → List A → List A) : Prop :=
  ∀ lt, IsStrictWeak lt → ∀ l, (sort lt l).Perm l ∧ Sorted lt (sort lt l)

section MergeSort

variable {lt : A → A → Bool} {a b c : A}

theorem IsStrictWeak.asymm (h : IsStrictWeak lt) (hab : lt a b) : lt b a = false := by
  by_contra hne
  have haa := h.trans a b a hab (by simpa using hne)
  simp [h.irrefl a] at haa

theorem IsStrictWeak.not_lt_trans (h : IsStrictWeak lt) (hba : lt b a = false)
    (hcb : lt c b = false) : lt c a = false := by
  by_contra hne
  have hca : lt c a := by simpa using hne
  by_cases hab : lt a b
  · exact absurd (h.trans c a b hca hab) (by simp [hcb])
  · by_cases hbc : lt b c
    · exact absurd (h.trans b c a hbc hca) (by simp [hba])
    · have hac := h.incomparable_trans a b c (by simpa using hab) hba (by simpa using hbc) hcb
      simp [hca] at hac

theorem mergeSort_isSort : IsSort fun (lt : A → A → Bool) l => l.mergeSort fun a b => !lt b a := by
  intro lt h l
  have htrans : ∀ a b c : A, (!lt b a) = true → (!lt c b) = true → (!lt c a) = true := by
    intro a b c hba hcb
    simp only [Bool.not_eq_true'] at hba hcb ⊢
    exact h.not_lt_trans hba hcb
  have htotal : ∀ a b : A, ((!lt b a) || (!lt a b)) = true := by
    intro a b
    cases hab : lt a b
    · simp
    · simp [h.asymm hab]
  refine ⟨List.mergeSort_perm l _,?_⟩
  have hs := List.pairwise_mergeSort htrans htotal l
  exact hs.imp fun hab => by simpa using hab

/-- So does the insertion sort, which can be evaluated. -/
theorem insertionSort_isSort :
    IsSort fun (lt : A → A → Bool) l => l.insertionSort fun a b => lt b a = false := by
  intro lt h l
  have htotal : Std.Total fun a b : A => lt b a = false := ⟨fun a b => by
    cases hab : lt a b
    · exact .inr rfl
    · exact .inl (h.asymm hab)⟩
  have htrans : IsTrans A fun a b => lt b a = false := ⟨fun a b c => h.not_lt_trans⟩
  exact ⟨List.perm_insertionSort _ l,List.pairwise_insertionSort _ l⟩

end MergeSort

section Newest

variable [LinearOrder K] [LinearOrder R] (key : A → K) (rank : A → R)

def newestFirst (a b : A) : Bool :=
  decide (key a < key b) || decide (key a = key b) && decide (rank b < rank a)

theorem newestFirst_iff {a b : A} :
    newestFirst key rank a b ↔ key a < key b ∨ key a = key b ∧ rank b < rank a := by
  simp [newestFirst]

theorem newestFirst_eq_false_iff {a b : A} :
    newestFirst key rank a b = false ↔ key b ≤ key a ∧ (key a = key b → rank a ≤ rank b) := by
  simp [newestFirst]

theorem newestFirst_isStrictWeak : IsStrictWeak (newestFirst key rank) where
  irrefl a := by simp [newestFirst]
  trans a b c hab hbc := by
    rw [newestFirst_iff] at hab hbc ⊢
    obtain hab | ⟨hab,hr⟩ := hab
    · obtain hbc | ⟨hbc,-⟩ := hbc
      · exact .inl (hab.trans hbc)
      · exact .inl (hbc ▸ hab)
    · obtain hbc | ⟨hbc,hr'⟩ := hbc
      · exact .inl (hab ▸ hbc)
      · exact .inr ⟨hab.trans hbc,hr'.trans hr⟩
  incomparable_trans a b c hab hba hbc hcb := by
    rw [newestFirst_eq_false_iff] at hab hba hbc hcb
    have hkab : key a = key b := le_antisymm hba.1 hab.1
    have hkbc : key b = key c := le_antisymm hcb.1 hbc.1
    rw [newestFirst_eq_false_iff,newestFirst_eq_false_iff]
    exact ⟨⟨(hkab.trans hkbc).ge,fun _ => (hab.2 hkab).trans (hbc.2 hkbc)⟩,
      ⟨(hkab.trans hkbc).le,fun _ => (hcb.2 hkbc.symm).trans (hba.2 hkab.symm)⟩⟩

variable {key rank}

/-- In a sorted list the first element with a key has the greatest rank among those
with this key. -/
theorem Sorted.rank_le_first {l : List A} (hl : Sorted (newestFirst key rank) l) {i : ℕ}
    (hi : i < l.length) {k : K} (hk : key l[i] = k)
    (hfirst : ∀ j (hj : j < i), key (l.get ⟨j,hj.trans hi⟩) ≠ k) {b : A} (hb : b ∈ l)
    (hkb : key b = k) : rank b ≤ rank l[i] := by
  obtain ⟨j,hj,rfl⟩ := List.getElem_of_mem hb
  obtain hlt | rfl | hgt := lt_trichotomy j i
  · exact absurd hkb (hfirst j hlt)
  · exact le_rfl
  · have hsorted := List.pairwise_iff_getElem.mp hl i j hi hj hgt
    exact ((newestFirst_eq_false_iff key rank).mp hsorted).2 (hkb.trans hk.symm)

end Newest

end StrictWeak
end SomeCode
