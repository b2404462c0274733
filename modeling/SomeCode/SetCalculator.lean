import SomeCode.MachineInt
import SomeCode.MaskSet

/-! The calculator of `inf02-4.c`: sets of digits and letters as masks of 64 bits. -/
namespace SomeCode
namespace SetCalculator

open MachineInt MaskSet

/-- The value of a byte as a `char` -/
def char (b : UInt8) : ℤ := wrap 8 b.toNat

def symbolCoding (input : ℤ) : ℤ :=
  if input ≥ 48 ∧ input ≤ 57 then input-48
  else if input ≥ 97 ∧ input ≤ 122 then input-97+10+26
  else if input ≥ 65 ∧ input ≤ 90 then input-65+10
  else 127

def symbolDecoding (input : ℤ) : ℤ :=
  if input ≥ 0 ∧ input < 10 then input+48
  else if input ≥ 36 ∧ input < 62 then input+97-10-26
  else if input ≥ 10 ∧ input < 36 then input+65-10
  else 127

structure Masks where
  buffer : BitVec 64
  newSet : BitVec 64

/-- `new_set |= (1ull << symbol_coding (c))`, where the shift must be below the width -/
def add (c : ℤ) (s : Masks) : Option Masks :=
  if symbolCoding c < 64 then
    some { s with newSet := s.newSet ||| 1#64 <<< (symbolCoding c).toNat }
  else none

/-- A round of the loop: `&` is 38, `|` is 124, `^` is 94, `~` is 126. -/
def round (c : ℤ) (s : Masks) : Option Masks := do
  let s ← if c ≠ 38 ∧ c ≠ 126 ∧ c ≠ 124 ∧ c ≠ 94 then add c s else some s
  let s : Masks := if c = 38 then ⟨s.buffer &&& s.newSet,0⟩ else s
  let s : Masks := if c = 124 then ⟨s.buffer ||| s.newSet,0⟩ else s
  let s : Masks := if c = 94 then ⟨s.buffer ^^^ s.newSet,0⟩ else s
  let s : Masks := if c = 126 then ⟨~~~s.buffer,0⟩ else s
  return s

/-- The loop over `getchar`, which ends with a line or with the input -/
def readLine : List UInt8 → Masks → Option Masks
  | [], s => some s
  | b :: input, s =>
    if char b ≠ 10 ∧ char b ≠ -1 then (round (char b) s).bind (readLine input) else some s

def output (buffer : BitVec 64) : List UInt8 :=
  ((List.range 62).filter fun i : ℕ => (buffer >>> i) &&& 1#64 = 1#64).map fun i : ℕ =>
    UInt8.ofNat (symbolDecoding i).toNat

def main (input : List UInt8) : Option (List UInt8) :=
  (readLine input ⟨0,0⟩).map fun s => output s.buffer

/-- The digits, the upper-case letters and the lower-case letters, each in ascending order -/
def alphabet : List UInt8 :=
  (List.range' 48 10 ++ List.range' 65 26 ++ List.range' 97 26).map UInt8.ofNat

/-- The sets that are calculated with: `S` and the pending `T` -/
structure Sets where
  S : Finset UInt8
  T : Finset UInt8

def apply (s : Sets) (b : UInt8) : Sets :=
  if b = 38 then ⟨s.S ∩ s.T,∅⟩
  else if b = 124 then ⟨s.S ∪ s.T,∅⟩
  else if b = 94 then ⟨symmDiff s.S s.T,∅⟩
  else if b = 126 then ⟨alphabet.toFinset \ s.S,∅⟩
  else ⟨s.S,insert b s.T⟩

def calculate (line : List UInt8) : Finset UInt8 := (line.foldl apply ⟨∅,∅⟩).S

/-- A character of the alphabet or an operator -/
def IsInput (b : UInt8) : Prop := b ∈ alphabet ∨ b ∈ ([38,124,94,126] : List UInt8)

instance (b : UInt8) : Decidable (IsInput b) := inferInstanceAs (Decidable (_ ∨ _))

theorem length_alphabet : alphabet.length = 62 := rfl

def symbol (i : Fin 62) : UInt8 := alphabet.get (i.cast length_alphabet.symm)

theorem symbol_injective : Function.Injective symbol := by decide +kernel

theorem symbolDecoding_eq (i : Fin 62) : UInt8.ofNat (symbolDecoding i).toNat = symbol i := by
  revert i
  decide

theorem symbolCoding_eq (i : Fin 62) : symbolCoding (char (symbol i)) = i := by
  revert i
  decide

theorem char_symbol (i : Fin 62) : char (symbol i) ∉ ([38,124,94,126,10,-1] : List ℤ) ∧
    symbol i ∉ ([38,124,94,126] : List UInt8) := by
  revert i
  decide

theorem mem_alphabet_iff {b : UInt8} : b ∈ alphabet ↔ ∃ i, symbol i = b := by
  constructor
  · intro h
    obtain ⟨k,hk⟩ := List.mem_iff_get.mp h
    exact ⟨k.cast length_alphabet,hk⟩
  · rintro ⟨i,rfl⟩
    exact List.get_mem alphabet _

/-- The masks stand for the sets, which hold characters of the alphabet. -/
structure Agree (m : Masks) (s : Sets) : Prop where
  buffer : Represents symbol m.buffer s.S
  newSet : Represents symbol m.newSet s.T
  within : s.S ⊆ alphabet.toFinset
  pending : s.T ⊆ alphabet.toFinset

variable {m : Masks} {s : Sets}

theorem agree_start : Agree ⟨0,0⟩ ⟨∅,∅⟩ :=
  ⟨represents_empty,represents_empty,Finset.empty_subset _,Finset.empty_subset _⟩

theorem round_symbol (i : Fin 62) (m : Masks) : round (char (symbol i)) m =
    some { m with newSet := m.newSet ||| 1#64 <<< (i : ℕ) } := by
  obtain ⟨hchar,-⟩ := char_symbol i
  simp only [List.mem_cons,List.not_mem_nil,or_false,not_or] at hchar
  obtain ⟨h1,h2,h3,h4,-,-⟩ := hchar
  have hlt : (i : ℤ) < 64 := by omega
  simp [round,add,h1,h2,h3,h4,symbolCoding_eq,hlt]

theorem apply_symbol (i : Fin 62) (s : Sets) : apply s (symbol i) = ⟨s.S,insert (symbol i) s.T⟩ := by
  obtain ⟨-,hno⟩ := char_symbol i
  simp only [List.mem_cons,List.not_mem_nil,or_false,not_or] at hno
  rw [apply,if_neg hno.1,if_neg hno.2.1,if_neg hno.2.2.1,if_neg hno.2.2.2]

theorem round_operator (m : Masks) : round 38 m = some ⟨m.buffer &&& m.newSet,0⟩ ∧
    round 124 m = some ⟨m.buffer ||| m.newSet,0⟩ ∧ round 94 m = some ⟨m.buffer ^^^ m.newSet,0⟩ ∧
    round 126 m = some ⟨~~~m.buffer,0⟩ := by
  refine ⟨?_,?_,?_,?_⟩ <;> simp [round]

theorem apply_operator (s : Sets) : apply s 38 = ⟨s.S ∩ s.T,∅⟩ ∧ apply s 124 = ⟨s.S ∪ s.T,∅⟩ ∧
    apply s 94 = ⟨symmDiff s.S s.T,∅⟩ ∧ apply s 126 = ⟨alphabet.toFinset \ s.S,∅⟩ := by
  refine ⟨?_,?_,?_,?_⟩ <;> simp [apply]

theorem char_operator : char 38 = 38 ∧ char 124 = 124 ∧ char 94 = 94 ∧ char 126 = 126 := by decide

/-- A round does to the masks what the character means for the sets. -/
theorem Agree.round (h : Agree m s) {b : UInt8} (hb : IsInput b) :
    ∃ m', round (char b) m = some m' ∧ Agree m' (apply s b) := by
  obtain hb | hb := hb
  · obtain ⟨i,rfl⟩ := mem_alphabet_iff.mp hb
    rw [round_symbol,apply_symbol]
    refine ⟨_,rfl,h.buffer,h.newSet.insert (by decide) symbol_injective i,h.within,?_⟩
    exact Finset.insert_subset (List.mem_toFinset.mpr hb) h.pending
  · obtain ⟨hrand,hror,hrxor,hrnot⟩ := round_operator m
    obtain ⟨haand,haor,haxor,hanot⟩ := apply_operator s
    obtain ⟨hand,hor,hxor,hnot⟩ := char_operator
    simp only [List.mem_cons,List.not_mem_nil,or_false] at hb
    obtain rfl | rfl | rfl | rfl := hb
    · rw [hand,hrand,haand]
      exact ⟨_,rfl,h.buffer.and h.newSet,represents_empty,
        Finset.inter_subset_left.trans h.within,Finset.empty_subset _⟩
    · rw [hor,hror,haor]
      exact ⟨_,rfl,h.buffer.or h.newSet,represents_empty,
        Finset.union_subset h.within h.pending,Finset.empty_subset _⟩
    · rw [hxor,hrxor,haxor]
      exact ⟨_,rfl,h.buffer.xor h.newSet,represents_empty,
        symmDiff_le_sup.trans (Finset.union_subset h.within h.pending),Finset.empty_subset _⟩
    · have hU : ∀ i, symbol i ∈ alphabet.toFinset := fun i =>
        List.mem_toFinset.mpr (mem_alphabet_iff.mpr ⟨i,rfl⟩)
      rw [hnot,hrnot,hanot]
      exact ⟨_,rfl,h.buffer.not (by decide) hU,represents_empty,
        Finset.sdiff_subset,Finset.empty_subset _⟩

theorem char_ne_of_isInput {b : UInt8} (hb : IsInput b) : char b ≠ 10 ∧ char b ≠ -1 := by
  obtain hb | hb := hb
  · obtain ⟨i,rfl⟩ := mem_alphabet_iff.mp hb
    have hno := (char_symbol i).1
    simp only [List.mem_cons,List.not_mem_nil,or_false,not_or] at hno
    exact ⟨hno.2.2.2.2.1,hno.2.2.2.2.2⟩
  · simp only [List.mem_cons,List.not_mem_nil,or_false] at hb
    obtain rfl | rfl | rfl | rfl := hb <;> decide

theorem Agree.readLine (h : Agree m s) {line rest : List UInt8} (hline : ∀ b ∈ line, IsInput b)
    (hrest : rest = [] ∨ ∃ more, rest = 10 :: more) :
    ∃ m', readLine (line ++ rest) m = some m' ∧ Agree m' (line.foldl apply s) := by
  induction line generalizing m s with
  | nil =>
    refine ⟨m,?_,h⟩
    obtain rfl | ⟨more,rfl⟩ := hrest
    · rfl
    · have hend : char 10 = 10 := by decide
      rw [List.nil_append,SetCalculator.readLine,if_neg (fun hgo => hgo.1 hend)]
  | cons b line ih =>
    have hb := hline b List.mem_cons_self
    obtain ⟨m',hm,h'⟩ := h.round hb
    obtain ⟨m'',hm',h''⟩ := ih h' fun c hc => hline c (List.mem_cons_of_mem b hc)
    refine ⟨m'',?_,h''⟩
    rw [List.cons_append,SetCalculator.readLine,if_pos (char_ne_of_isInput hb),hm,Option.bind_some]
    exact hm'

theorem output_sublist (buffer : BitVec 64) : (output buffer).Sublist alphabet := by
  have hall : (List.range 62).map (fun i : ℕ => UInt8.ofNat (symbolDecoding i).toNat) = alphabet := by
    decide
  rw [← hall]
  exact List.filter_sublist.map _

theorem mem_output_iff {buffer : BitVec 64} {S : Finset UInt8}
    (h : Represents symbol buffer S) (hS : S ⊆ alphabet.toFinset) (b : UInt8) :
    b ∈ output buffer ↔ b ∈ S := by
  simp only [output,List.mem_map,List.mem_filter,List.mem_range,decide_eq_true_eq,
    shift_and_one_eq_one_iff buffer (by decide)]
  constructor
  · rintro ⟨k,⟨hk,hbit⟩,rfl⟩
    have hsymbol := symbolDecoding_eq ⟨k,hk⟩
    rw [hsymbol]
    exact (h ⟨k,hk⟩).mp hbit
  · intro hb
    obtain ⟨i,rfl⟩ := mem_alphabet_iff.mp (List.mem_toFinset.mp (hS hb))
    exact ⟨i,⟨i.isLt,(h i).mpr hb⟩,symbolDecoding_eq i⟩

structure Lists (printed : List UInt8) (S : Finset UInt8) : Prop where
  members : ∀ b, b ∈ printed ↔ b ∈ S
  once : printed.Nodup
  ordered : printed.Sublist alphabet

theorem main_lists {line rest : List UInt8} (hline : ∀ b ∈ line, IsInput b)
    (hrest : rest = [] ∨ ∃ more, rest = 10 :: more) :
    ∃ printed, main (line ++ rest) = some printed ∧ Lists printed (calculate line) := by
  obtain ⟨m,hm,h⟩ := agree_start.readLine hline hrest
  have hsub := output_sublist m.buffer
  have hnodup : alphabet.Nodup := by decide +kernel
  exact ⟨output m.buffer,by rw [main,hm]; rfl,mem_output_iff h.buffer h.within,
    hsub.nodup hnodup,hsub⟩

/-- The line `2b1|~` -/
theorem main_lists_sample : ∃ printed, main ([50,98,49,124,126] ++ [10]) = some printed ∧
    Lists printed (calculate [50,98,49,124,126]) :=
  main_lists (by decide +kernel) (.inr ⟨[],rfl⟩)

end SetCalculator
end SomeCode
