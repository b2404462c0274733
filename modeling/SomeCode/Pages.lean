import Mathlib.Order.Interval.Finset.Nat

/-! Memory that is mapped in whole pages of 4096 bytes. -/
namespace SomeCode
namespace Pages

def pages (length : ℕ) : ℕ := (length+4095)/4096

def pageUp (length : ℕ) : ℕ := 4096*pages length

def run (page length : ℕ) : Finset ℕ := Finset.Ico page (page+pages length)

/-- `mmap`, where the pages from `page` on are to be taken: they must be free. -/
def mmap (page length : ℕ) (mapped : Finset ℕ) : Option (Finset ℕ) :=
  if length ≠ 0 ∧ Disjoint mapped (run page length) then some (mapped ∪ run page length) else none

/-- `munmap`, where pages that are not mapped are let be -/
def munmap (page length : ℕ) (mapped : Finset ℕ) : Finset ℕ := mapped \ run page length

variable {page l l' : ℕ} {mapped mapped' : Finset ℕ}

theorem munmap_mmap (h : mmap page l mapped = some mapped') (hl : pages l' = pages l) :
    munmap page l' mapped' = mapped := by
  obtain ⟨⟨-,hfree⟩,hmap⟩ := Option.ite_none_right_eq_some.mp h
  obtain rfl := Option.some.inj hmap
  have hrun : run page l' = run page l := by rw [run,run,hl]
  rw [munmap,hrun,Finset.union_sdiff_right,Finset.sdiff_eq_self_of_disjoint hfree]

theorem munmap_ne (h : mmap page l mapped = some mapped') (hl : pages l' < pages l) :
    munmap page l' mapped' ≠ mapped := by
  obtain ⟨⟨-,hfree⟩,hmap⟩ := Option.ite_none_right_eq_some.mp h
  obtain rfl := Option.some.inj hmap
  have hlast : page+pages l' ∈ run page l := by
    rw [run,Finset.mem_Ico]
    omega
  intro heq
  have hnot := Finset.disjoint_right.mp hfree hlast
  rw [← heq,munmap,Finset.mem_sdiff,Finset.mem_union] at hnot
  refine hnot ⟨.inr hlast,fun hin => ?_⟩
  rw [run,Finset.mem_Ico] at hin
  omega

end Pages
end SomeCode
