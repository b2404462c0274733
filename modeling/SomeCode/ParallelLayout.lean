import SomeCode.Pages
import Mathlib

/-! The memory that `pmap_process` of `inf20-1.c` maps, divides and leaves to `pmap_free`. -/
namespace SomeCode
namespace ParallelLayout

open Pages

variable (count procCnt : UInt64)

/-- The length for `mmap`: an `int` has 4 bytes, a `double` 8, a `sem_t` 32. -/
def mapLength : UInt64 := (procCnt+1)*4 + (count+1)*8 + 32

def freeLength : UInt64 := (count+1)*8 + 32 + 4*procCnt

/-- `raw_mem + (count + 1) * sizeof (double)`, in bytes from `raw_mem` -/
def pidsOffset : ℕ := ((count+1)*8).toNat

/-- `buffer + (count + 1) * sizeof (double)`, where `buffer` points to `double` -/
def semaphoreOffset : ℕ := 8*((count+1)*8).toNat

def regions : List (Set ℕ) :=
  [Set.Ico 0 (8*count.toNat),
   Set.Ico (pidsOffset count) (pidsOffset count+4*procCnt.toNat),
   Set.Ico (semaphoreOffset count) (semaphoreOffset count+32)]

/-- They have their own places in the pages that are mapped. -/
structure LaidOut : Prop where
  inside : ∀ r ∈ regions count procCnt, r ⊆ Set.Ico 0 (pageUp (mapLength count procCnt).toNat)
  apart : (regions count procCnt).Pairwise Disjoint

/-- `pmap_free` takes the pages of `pmap_process` back, wherever they are. -/
structure Restores : Prop where
  pages_eq : pages (freeLength count procCnt).toNat = pages (mapLength count procCnt).toNat
  mappings : ∀ page mapped mapped', mmap page (mapLength count procCnt).toNat mapped = some mapped' →
    munmap page (freeLength count procCnt).toNat mapped' = mapped

def exactLength : ℕ := 4*(procCnt.toNat+1) + 8*(count.toNat+1) + 32

theorem toNat_mapLength : (mapLength count procCnt).toNat = exactLength count procCnt%2^64 := by
  simp only [mapLength,exactLength,UInt64.toNat_add,UInt64.toNat_mul,UInt64.reduceToNat]
  omega

theorem toNat_freeLength :
    (freeLength count procCnt).toNat = (exactLength count procCnt-4)%2^64 := by
  simp only [freeLength,exactLength,UInt64.toNat_add,UInt64.toNat_mul,UInt64.reduceToNat]
  omega

theorem pidsOffset_eq : pidsOffset count = 8*(count.toNat+1)%2^64 := by
  simp only [pidsOffset,UInt64.toNat_add,UInt64.toNat_mul,UInt64.reduceToNat]
  omega

theorem semaphoreOffset_eq : semaphoreOffset count = 8*pidsOffset count := rfl

theorem Ico_subset_zero {a b n : ℕ} : Set.Ico a b ⊆ Set.Ico 0 n ↔ b ≤ a ∨ b ≤ n := by
  by_cases h : a < b
  · rw [Set.Ico_subset_Ico_iff h]
    omega
  · rw [Set.Ico_eq_empty h]
    simp only [Set.empty_subset,true_iff]
    omega

variable {count procCnt}

theorem regions_subset_iff (hp : 0 < procCnt.toNat) {size : ℕ} :
    (∀ r ∈ regions count procCnt, r ⊆ Set.Ico 0 size) ↔ 8*count.toNat ≤ size ∧
      pidsOffset count+4*procCnt.toNat ≤ size ∧ 8*pidsOffset count+32 ≤ size := by
  simp only [regions,semaphoreOffset_eq,List.forall_mem_cons,Ico_subset_zero,List.not_mem_nil,
    false_imp_iff,implies_true,and_true]
  omega

theorem regions_pairwise_iff (hp : 0 < procCnt.toNat) : (regions count procCnt).Pairwise Disjoint ↔
    (count.toNat = 0 ∨ 8*count.toNat ≤ pidsOffset count) ∧
      pidsOffset count+4*procCnt.toNat ≤ 8*pidsOffset count := by
  simp only [regions,semaphoreOffset_eq,List.pairwise_cons,List.forall_mem_cons,
    Set.Ico_disjoint_Ico,List.not_mem_nil,false_imp_iff,implies_true,and_true,List.Pairwise.nil]
  omega

theorem laidOut_iff_offsets (hp : 0 < procCnt.toNat) : LaidOut count procCnt ↔
    let size := pageUp (mapLength count procCnt).toNat
    (8*count.toNat ≤ size ∧ pidsOffset count+4*procCnt.toNat ≤ size ∧
      8*pidsOffset count+32 ≤ size) ∧
    (count.toNat = 0 ∨ 8*count.toNat ≤ pidsOffset count) ∧
      pidsOffset count+4*procCnt.toNat ≤ 8*pidsOffset count :=
  ⟨fun h => ⟨(regions_subset_iff hp).mp h.inside,(regions_pairwise_iff hp).mp h.apart⟩,
    fun h => ⟨(regions_subset_iff hp).mpr h.1,(regions_pairwise_iff hp).mpr h.2⟩⟩

theorem laidOut_iff (hp : 1 ≤ procCnt) : LaidOut count procCnt ↔
    exactLength count procCnt < 2^64 ∧
      64*(count.toNat+1)+32 ≤ pageUp (exactLength count procCnt) ∧
      procCnt.toNat ≤ 14*(count.toNat+1) := by
  have hpos : 0 < procCnt.toNat := UInt64.le_iff_toNat_le.mp hp
  have hc := count.toNat_lt
  have hpl := procCnt.toNat_lt
  rw [laidOut_iff_offsets hpos,toNat_mapLength,pidsOffset_eq]
  simp only [pageUp,pages,exactLength]
  constructor
  · rintro ⟨⟨hr,hq,hs⟩,h1,h2⟩
    -- a length that is reduced leaves no room for the results or the process numbers
    have hlt : 4*(procCnt.toNat+1) + 8*(count.toNat+1) + 32 < 2^64 := by omega
    refine ⟨hlt,?_,?_⟩ <;> omega
  · rintro ⟨hlt,hin,hle⟩
    refine ⟨⟨?_,?_,?_⟩,?_,?_⟩ <;> omega

theorem laidOut_iff_small : LaidOut 10 4 ↔ exactLength 10 4 < 2^64 ∧
    64*(10+1)+32 ≤ pageUp (exactLength 10 4) ∧ 4 ≤ 14*(10+1) :=
  laidOut_iff (by decide)

/-- For 100 numbers and 8 processes a page is mapped, and the semaphore is behind it. -/
theorem not_laidOut : pageUp (mapLength 100 8).toNat = 4096 ∧ semaphoreOffset 100 = 6464 ∧
    ¬ LaidOut 100 8 := by
  refine ⟨by decide,by decide,fun h => ?_⟩
  have hin := h.inside (Set.Ico (semaphoreOffset 100) (semaphoreOffset 100+32)) (by simp [regions])
  exact absurd (Ico_subset_zero.mp hin) (by decide)

theorem restores_iff : Restores count procCnt ↔
    mapLength count procCnt ≠ 0 ∧ ¬ 4096 ∣ 8*(count.toNat+1) + 32 + 4*procCnt.toNat := by
  have hzero : mapLength count procCnt ≠ 0 ↔ exactLength count procCnt%2^64 ≠ 0 := by
    rw [← toNat_mapLength,ne_eq,ne_eq,← UInt64.toNat_inj,UInt64.toNat_zero]
  have hpages : pages (freeLength count procCnt).toNat = pages (mapLength count procCnt).toNat ↔
      mapLength count procCnt ≠ 0 ∧ ¬ 4096 ∣ 8*(count.toNat+1) + 32 + 4*procCnt.toNat := by
    rw [hzero,toNat_freeLength,toNat_mapLength]
    simp only [pages,exactLength]
    omega
  exact ⟨fun h => hpages.mp h.pages_eq,
    fun h => ⟨hpages.mpr h,fun _ _ _ hmap => munmap_mmap hmap (hpages.mpr h)⟩⟩

/-- For 126 numbers and 762 processes two pages are mapped and one is taken back. -/
theorem not_restores : LaidOut 126 762 ∧ pages (mapLength 126 762).toNat = 2 ∧
    pages (freeLength 126 762).toNat = 1 ∧ ¬ Restores 126 762 ∧
    ∃ mapped, mmap 0 (mapLength 126 762).toNat ∅ = some mapped ∧
      munmap 0 (freeLength 126 762).toNat mapped ≠ ∅ := by
  have hpages : pages (mapLength 126 762).toNat = 2 ∧ pages (freeLength 126 762).toNat = 1 := by
    decide
  have hmap : mmap 0 (mapLength 126 762).toNat ∅ = some (∅ ∪ run 0 (mapLength 126 762).toNat) :=
    if_pos ⟨by decide,Finset.disjoint_empty_left _⟩
  have hlaid : LaidOut 126 762 := (laidOut_iff_offsets (by decide)).mpr (by decide)
  refine ⟨hlaid,hpages.1,hpages.2,fun h => ?_,_,hmap,munmap_ne hmap (by omega)⟩
  have heq := h.pages_eq
  omega

end ParallelLayout
end SomeCode
