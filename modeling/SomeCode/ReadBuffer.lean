import SomeCode.Stdio
import Mathlib.Tactic

/-! Arrays of bytes that are read into: by `read` the next piece of the input, and by `fgets` the
next line. What stood there before stays behind what was read. -/
namespace SomeCode
namespace ReadBuffer

open Stdio

abbrev Bytes (n : ℕ) := {bytes : List UInt8 // bytes.length = n}

/-- What one `read` returns when there is room for `n` bytes, before the end of the input -/
structure Piece (n : ℕ) where
  bytes : List UInt8
  nonempty : bytes ≠ []
  length_le : bytes.length ≤ n

variable {n : ℕ}

def joined (pieces : List (Piece n)) : List UInt8 := pieces.flatMap Piece.bytes

@[simp] theorem joined_nil : joined ([] : List (Piece n)) = [] := rfl

@[simp] theorem joined_cons (p : Piece n) (pieces : List (Piece n)) :
    joined (p :: pieces) = p.bytes ++ joined pieces := List.flatMap_cons

theorem joined_eq_flatten (pieces : List (Piece n)) :
    joined pieces = (pieces.map Piece.bytes).flatten := List.flatMap_def

/-- `read (fd, a, sizeof (a))` -/
def fill (a : Bytes n) (p : Piece n) : Bytes n :=
  ⟨p.bytes ++ a.1.drop p.bytes.length,by
    have hle := p.length_le
    rw [List.length_append,List.length_drop,a.2]
    omega⟩

theorem fill_of_length_eq (a : Bytes n) {p : Piece n} (h : p.bytes.length = n) :
    (fill a p).1 = p.bytes := by
  change p.bytes ++ a.1.drop p.bytes.length = p.bytes
  rw [List.drop_of_length_le (by rw [a.2,h]),List.append_nil]

def store (a : Bytes n) (line : List UInt8) (h : line.length < n) : Bytes n :=
  ⟨line ++ 0 :: a.1.drop (line.length+1),by
    have ha := a.2
    rw [List.length_append,List.length_cons,List.length_drop]
    omega⟩

/-- `fgets (a, sizeof (a), file)`, whose result is not looked at -/
def readLine (a : Bytes (n+1)) (input : List UInt8) : Bytes (n+1) :=
  if input = [] then a
  else store a (fgets n input).1 (Nat.lt_succ_of_le (fgets_length_le n input))

@[simp] theorem readLine_nil (a : Bytes (n+1)) : readLine a [] = a := rfl

theorem readLine_val (a : Bytes (n+1)) {input : List UInt8} (h : input ≠ []) :
    (readLine a input).1 =
      (fgets n input).1 ++ 0 :: a.1.drop ((fgets n input).1.length+1) := by
  rw [readLine,if_neg h,store]

/-- The bytes before the first zero -/
def cString (bytes : List UInt8) : List UInt8 := bytes.takeWhile (· ≠ 0)

def string (a : Bytes n) : Option (List UInt8) := if 0 ∈ a.1 then some (cString a.1) else none

theorem zero_notMem_cString (bytes : List UInt8) : 0 ∉ cString bytes := by
  intro h
  have hne := List.mem_takeWhile_imp h
  simp at hne

theorem cString_append_zero (l rest : List UInt8) : cString (l ++ 0 :: rest) = cString l := by
  induction l with
  | nil => rfl
  | cons c l ih =>
    by_cases hc : c = 0
    · simp [cString,hc]
    · simpa [cString,hc] using ih

theorem cString_eq_self {l : List UInt8} (h : 0 ∉ l) : cString l = l := takeWhile_ne_self h

theorem cString_length_le (l : List UInt8) : (cString l).length ≤ l.length :=
  (List.takeWhile_sublist _).length_le

theorem cString_length_eq_iff {l : List UInt8} : (cString l).length = l.length ↔ 0 ∉ l := by
  constructor
  · intro h hzero
    have hsub : (cString l).Sublist l := List.takeWhile_sublist _
    rw [← hsub.eq_of_length h] at hzero
    exact zero_notMem_cString l hzero
  · intro h
    rw [cString_eq_self h]

theorem cString_cons_ne {c : UInt8} (hc : c ≠ 0) (l : List UInt8) : cString (c :: l) ≠ l := by
  intro h
  have hzero : 0 ∉ l := h ▸ zero_notMem_cString (c :: l)
  rw [cString_eq_self (by simp [hzero,hc.symm])] at h
  exact List.cons_ne_self c l h

theorem string_eq_some_iff {a : Bytes n} {l : List UInt8} :
    string a = some l ↔ 0 ∉ l ∧ ∃ rest, a.1 = l ++ 0 :: rest := by
  rw [string]
  constructor
  · intro h
    by_cases hzero : 0 ∈ a.1
    · obtain ⟨front,rest,ha,hfront⟩ := List.eq_append_cons_of_mem hzero
      have hstring : cString a.1 = front := by
        rw [ha]
        exact takeWhile_ne_append hfront rest
      rw [if_pos hzero,hstring] at h
      obtain rfl := Option.some.inj h
      exact ⟨hfront,rest,ha⟩
    · rw [if_neg hzero] at h
      exact absurd h (by simp)
  · rintro ⟨hl,rest,ha⟩
    rw [ha,if_pos (by simp)]
    exact congrArg some (takeWhile_ne_append hl rest)

theorem string_readLine (a : Bytes (n+1)) {input : List UInt8} (h : input ≠ []) :
    string (readLine a input) = some (cString (fgets n input).1) := by
  rw [string,readLine_val a h,if_pos (by simp),cString_append_zero]

theorem cString_fgets_eq_nil_iff {c : UInt8} {rest : List UInt8} :
    cString (fgets (n+1) (c :: rest)).1 = [] ↔ c = 0 := by
  by_cases hc : c = 10
  · simp [fgets,cString,hc]
  · by_cases hzero : c = 0 <;> simp [fgets,cString,hc,hzero]

/-- `a[strlen (a) - 1] = '\0'`: this is outside of the array when the string is empty. -/
def cut (a : Bytes n) : Option (Bytes n) :=
  match string a with
  | none | some [] => none
  | some l => some ⟨a.1.set (l.length-1) 0,by rw [List.length_set,a.2]⟩

theorem cut_eq_none {a : Bytes n} (h : string a = none ∨ string a = some []) : cut a = none := by
  rcases h with h | h <;> simp [cut,h]

theorem exists_cut {a : Bytes n} {l : List UInt8} (h : string a = some l) (hne : l ≠ []) :
    ∃ b, cut a = some b ∧ string b = some l.dropLast := by
  obtain ⟨hl,rest,ha⟩ := string_eq_some_iff.mp h
  refine ⟨⟨a.1.set (l.length-1) 0,by rw [List.length_set,a.2]⟩,?_,?_⟩
  · rw [cut,h]
    split
    next heq => exact absurd heq (by simp)
    next heq => exact absurd (Option.some.inj heq) hne
    next heq => rw [Option.some.inj heq]
  · refine string_eq_some_iff.mpr ⟨fun hmem => hl (List.mem_of_mem_dropLast hmem),0 :: rest,?_⟩
    obtain ⟨front,c,rfl⟩ := List.eq_nil_or_concat l |>.resolve_left hne
    change a.1.set _ 0 = _
    rw [ha]
    simp

end ReadBuffer
end SomeCode
