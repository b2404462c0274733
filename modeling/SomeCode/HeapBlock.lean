import Mathlib.Data.List.TakeDrop
import Mathlib.Tactic

/-! Blocks of the heap as `realloc` and `memcpy` see them. A block is the list of its bytes, so its
length is the size that has been allocated; a buffer is a block with the number of its bytes that
are in use. -/
namespace SomeCode
namespace HeapBlock

variable {α : Type*}

/-- `realloc` when it succeeds: `fill` is what happens to be in the bytes that come in addition. -/
def realloc (fill : ℕ → α) (b : List α) (n : ℕ) : List α :=
  b.take n ++ (List.range' b.length (n-b.length)).map fill

/-- `memcpy` of `n` bytes to position `i`; undefined outside of either block. -/
def memcpy (b : List α) (i : ℕ) (src : List α) (n : ℕ) : Option (List α) :=
  if i+n ≤ b.length ∧ n ≤ src.length then some (b.take i ++ src.take n ++ b.drop (i+n)) else none

variable {fill : ℕ → α} {b b' src l : List α} {i j k n : ℕ}

@[simp] theorem length_realloc : (realloc fill b n).length = n := by
  simp only [realloc,List.length_append,List.length_take,List.length_map,List.length_range']
  omega

theorem getElem?_realloc_of_lt (hi : i < b.length) (hn : i < n) :
    (realloc fill b n)[i]? = b[i]? := by
  rw [realloc,List.getElem?_append_left (by simp; omega),List.getElem?_take_of_lt hn]

theorem getElem?_realloc_of_le (hi : b.length ≤ i) (hn : i < n) :
    (realloc fill b n)[i]? = some (fill i) := by
  have htake : (b.take n).length = b.length := by simp; omega
  rw [realloc,List.getElem?_append_right (by omega),htake,List.getElem?_map,
    List.getElem?_range' (by omega)]
  simp [Nat.add_sub_cancel' hi]

theorem getElem?_realloc_eq_some_iff {x : α} : (realloc fill b n)[i]? = some x ↔
    i < n ∧ (b[i]? = some x ∨ b.length ≤ i ∧ fill i = x) := by
  by_cases hn : i < n
  · by_cases hi : i < b.length
    · rw [getElem?_realloc_of_lt hi hn]
      simp [hn,Nat.not_le_of_lt hi]
    · have hle : b.length ≤ i := Nat.le_of_not_lt hi
      rw [getElem?_realloc_of_le hle hn,List.getElem?_eq_none hle]
      simp [hn,hle]
  · simp [hn]

theorem memcpy_eq_some_iff : memcpy b i src n = some b' ↔
    (i+n ≤ b.length ∧ n ≤ src.length) ∧ b.take i ++ src.take n ++ b.drop (i+n) = b' := by
  rw [memcpy,Option.ite_none_right_eq_some,Option.some_inj]

theorem memcpy_zero (hi : i ≤ b.length) : memcpy b i src 0 = some b :=
  memcpy_eq_some_iff.mpr ⟨⟨hi,Nat.zero_le _⟩,by simp⟩

theorem getElem?_of_memcpy (h : memcpy b i src n = some b') (hj : i+n ≤ j) : b'[j]? = b[j]? := by
  obtain ⟨⟨hb,hs⟩,rfl⟩ := memcpy_eq_some_iff.mp h
  have hlen : (b.take i ++ src.take n).length = i+n := by simp; omega
  rw [List.getElem?_append_right (by omega),hlen,List.getElem?_drop,Nat.add_sub_cancel' hj]

theorem length_of_memcpy (h : memcpy b i src n = some b') : b'.length = b.length := by
  obtain ⟨⟨hb,hs⟩,rfl⟩ := memcpy_eq_some_iff.mp h
  simp
  omega

/-- The first `k` bytes are in use and hold `l`. -/
def Holds (b : List α) (k : ℕ) (l : List α) : Prop := k ≤ b.length ∧ b.take k = l

theorem Holds.length (h : Holds b k l) : l.length = k := by
  rw [← h.2,List.length_take,Nat.min_eq_left h.1]

theorem Holds.realloc (h : Holds b k l) (hn : k ≤ n) : Holds (realloc fill b n) k l := by
  refine ⟨by simpa using hn,?_⟩
  rw [← h.2]
  refine List.ext_getElem? fun i => ?_
  by_cases hi : i < k
  · rw [List.getElem?_take_of_lt hi,List.getElem?_take_of_lt hi,
      getElem?_realloc_of_lt (hi.trans_le h.1) (hi.trans_le hn)]
  · rw [List.getElem?_take_eq_none (by omega),List.getElem?_take_eq_none (by omega)]

theorem Holds.memcpy (h : Holds b k l) (hc : memcpy b k src n = some b') :
    Holds b' (k+n) (l ++ src.take n) := by
  obtain ⟨⟨hb,hs⟩,rfl⟩ := memcpy_eq_some_iff.mp hc
  have hlen : (b.take k ++ src.take n).length = k+n := by simp; omega
  refine ⟨by simp; omega,?_⟩
  rw [List.take_left' hlen,h.2]

theorem Holds.exists_memcpy (h : Holds b k l) (hn : k+n ≤ b.length) (hs : n ≤ src.length) :
    ∃ b', HeapBlock.memcpy b k src n = some b' ∧ Holds b' (k+n) (l ++ src.take n) := by
  have hc : HeapBlock.memcpy b k src n = some (b.take k ++ src.take n ++ b.drop (k+n)) :=
    memcpy_eq_some_iff.mpr ⟨⟨hn,hs⟩,rfl⟩
  exact ⟨_,hc,h.memcpy hc⟩

end HeapBlock
end SomeCode
