import SomeCode.HeapBlock
import SomeCode.Loops
import SomeCode.MachineInt
import SomeCode.ReadBuffer

/-! `inf08-0.c`: the digits of a file are written to one file, its other bytes to another one. -/
namespace SomeCode
namespace SplitDigits

open HeapBlock Loops MachineInt
open ReadBuffer (Bytes joined fill)

abbrev Block := Bytes 4096

abbrev Piece := ReadBuffer.Piece 4096

inductive Read
  | bytes (p : Piece)
  | error

structure Locals where
  buffer : Block
  numbers : Block
  notNumbers : Block
  numCounter : ℕ
  notNumCounter : ℕ

structure Outcome where
  code : ℕ
  first : List UInt8
  second : List UInt8
  deriving DecidableEq

def char (c : UInt8) : ℤ := wrap 8 c.toNat

/-- `b[i] = c` -/
def put (b : Block) (i : ℕ) (c : UInt8) : Option Block :=
  if i < 4096 then some ⟨b.1.set i c,by rw [List.length_set,b.2]⟩ else none

def examine (c : UInt8) (s : Locals) : Option Locals :=
  if char c ≤ 57 ∧ 48 ≤ char c then
    (put s.numbers s.numCounter c).map fun b =>
      { s with numbers := b, numCounter := s.numCounter+1 }
  else
    (put s.notNumbers s.notNumCounter c).map fun b =>
      { s with notNumbers := b, notNumCounter := s.notNumCounter+1 }

/-- A round of the loop over the buffer -/
def examineAt (i : ℤ) (s : Locals) : Option Locals := do
  let c ← s.buffer.1[i.toNat]?
  examine c s

/-- `main` when the files are open, up to the end of the input -/
def mainLoop : List Read → Locals → Option Outcome
  | [], s => some ⟨0,s.numbers.1.take s.numCounter,s.notNumbers.1.take s.notNumCounter⟩
  | .error :: _, _ => some ⟨3,[],[]⟩
  | .bytes p :: reads, s =>
    (forUp p.bytes.length examineAt 0 { s with buffer := fill s.buffer p }).bind (mainLoop reads)

def main (buffer numbers notNumbers : Block) (reads : List Read) : Option Outcome :=
  mainLoop reads ⟨buffer,numbers,notNumbers,0,0⟩

def isDigit (c : UInt8) : Bool := 48 ≤ c && c ≤ 57

def digits (l : List UInt8) : List UInt8 := l.filter isDigit

def others (l : List UInt8) : List UInt8 := l.filter (!isDigit ·)

theorem char_iff (c : UInt8) : char c ≤ 57 ∧ 48 ≤ char c ↔ isDigit c = true := by
  have hlt := c.toNat_lt
  have hdigit : isDigit c = true ↔ 48 ≤ c.toNat ∧ c.toNat ≤ 57 := by
    simp [isDigit,UInt8.le_iff_toNat_le]
  rw [hdigit,char]
  by_cases hlow : c.toNat < 128
  · rw [wrap_eq (by omega) (by omega)]
    omega
  · rw [wrap_eq_sub (by omega) (by omega)]
    omega

structure Collected (ds os : List UInt8) (s : Locals) : Prop where
  numbers : Holds s.numbers.1 s.numCounter ds
  notNumbers : Holds s.notNumbers.1 s.notNumCounter os

def Fits (ds os : List UInt8) : Prop := ds.length ≤ 4096 ∧ os.length ≤ 4096

instance (ds os : List UInt8) : Decidable (Fits ds os) := inferInstanceAs (Decidable (_ ∧ _))

theorem holds_put {b : Block} {k : ℕ} {l : List UInt8} (h : Holds b.1 k l) (c : UInt8) :
    if k < 4096 then ∃ b', put b k c = some b' ∧ Holds b'.1 (k+1) (l ++ [c])
    else put b k c = none := by
  rw [put]
  split
  · rename_i hk
    have hlen : k < b.1.length := by rwa [b.2]
    refine ⟨_,rfl,by rw [List.length_set]; exact hlen,?_⟩
    rw [← h.2,List.take_succ_eq_append_getElem (by simpa using hlen),List.getElem_set_self,
      List.take_set_of_le (le_refl k)]
  · rfl

variable {ds os : List UInt8} {s : Locals}

@[simp] theorem digits_append (l l' : List UInt8) : digits (l ++ l') = digits l ++ digits l' :=
  List.filter_append l l'

@[simp] theorem others_append (l l' : List UInt8) : others (l ++ l') = others l ++ others l' :=
  List.filter_append l l'

theorem Fits.of_append {l l' : List UInt8} (h : Fits (ds ++ l) (os ++ l')) : Fits ds os := by
  rw [Fits,List.length_append,List.length_append] at h
  exact ⟨by omega,by omega⟩

theorem examine_spec (h : Collected ds os s) (hfits : Fits ds os) (c : UInt8) :
    if Fits (ds ++ digits [c]) (os ++ others [c]) then
      ∃ t, examine c s = some t ∧ Collected (ds ++ digits [c]) (os ++ others [c]) t ∧
        t.buffer = s.buffer
    else examine c s = none := by
  have hds := h.numbers.length
  have hos := h.notNumbers.length
  rw [examine]
  by_cases hc : isDigit c = true
  · have hput := holds_put h.numbers c
    have hroom : Fits (ds ++ digits [c]) (os ++ others [c]) ↔ s.numCounter < 4096 := by
      simp [Fits,digits,others,hc,hds,hfits.2]
    rw [if_pos ((char_iff c).mpr hc)]
    simp only [hroom]
    split at hput
    · rename_i hk
      obtain ⟨b,hb,hholds⟩ := hput
      rw [if_pos hk,hb]
      exact ⟨_,rfl,⟨by simpa [digits,hc] using hholds,by simpa [others,hc] using h.notNumbers⟩,rfl⟩
    · rename_i hk
      rw [if_neg hk,hput]
      rfl
  · have hput := holds_put h.notNumbers c
    have hroom : Fits (ds ++ digits [c]) (os ++ others [c]) ↔ s.notNumCounter < 4096 := by
      simp [Fits,digits,others,hc,hos,hfits.1]
    rw [if_neg fun hchar => hc ((char_iff c).mp hchar)]
    simp only [hroom]
    split at hput
    · rename_i hk
      obtain ⟨b,hb,hholds⟩ := hput
      rw [if_pos hk,hb]
      exact ⟨_,rfl,⟨by simpa [digits,hc] using h.numbers,by simpa [others,hc] using hholds⟩,rfl⟩
    · rename_i hk
      rw [if_neg hk,hput]
      rfl

/-- The loop over the bytes `p` of the buffer, when those before them have been examined -/
theorem forUp_examine (h : Collected ds os s) (hfits : Fits ds os) {before p after : List UInt8}
    (hbuffer : s.buffer.1 = before ++ (p ++ after)) {stop : ℤ}
    (hstop : stop = before.length+p.length) :
    if Fits (ds ++ digits p) (os ++ others p) then
      ∃ t, forUp stop examineAt before.length s = some t ∧
        Collected (ds ++ digits p) (os ++ others p) t
    else forUp stop examineAt before.length s = none := by
  induction p generalizing ds os s before with
  | nil =>
    simp only [digits,others,List.filter_nil,List.append_nil]
    rw [List.length_nil] at hstop
    rw [if_pos hfits,forUp,if_neg (by omega)]
    exact ⟨s,rfl,h⟩
  | cons c p ih =>
    have hget : examineAt before.length s = examine c s := by
      simp [examineAt,hbuffer]
    have hcons : c :: p = [c] ++ p := rfl
    rw [List.length_cons,Nat.cast_add,Nat.cast_one] at hstop
    have hround : forUp stop examineAt before.length s =
        (examine c s).bind (forUp stop examineAt (before.length+1)) := by
      rw [forUp,if_pos (by omega),hget]
    rw [hround,hcons,digits_append,others_append,← List.append_assoc,← List.append_assoc]
    have hspec := examine_spec h hfits c
    by_cases hroom : Fits (ds ++ digits [c]) (os ++ others [c])
    · rw [if_pos hroom] at hspec
      obtain ⟨t,ht,hcollected,hsame⟩ := hspec
      have hnext : t.buffer.1 = (before ++ [c]) ++ (p ++ after) := by
        rw [hsame,hbuffer]
        simp
      have hrest := ih hcollected hroom hnext
        (by rw [List.length_append,List.length_singleton]; omega)
      rw [ht,Option.bind_some]
      simpa using hrest
    · rw [if_neg hroom] at hspec
      rw [if_neg fun hall => hroom hall.of_append,hspec]
      rfl

theorem mainLoop_spec (h : Collected ds os s) (hfits : Fits ds os) (pieces : List Piece) :
    mainLoop (pieces.map .bytes) s =
      if Fits (ds ++ digits (joined pieces)) (os ++ others (joined pieces)) then
        some ⟨0,ds ++ digits (joined pieces),os ++ others (joined pieces)⟩
      else none := by
  induction pieces generalizing ds os s with
  | nil =>
    simp only [ReadBuffer.joined_nil,digits,others,List.filter_nil,List.append_nil]
    rw [if_pos hfits,List.map_nil,mainLoop,h.numbers.2,h.notNumbers.2]
  | cons p pieces ih =>
    have hstored : Collected ds os { s with buffer := fill s.buffer p } := ⟨h.numbers,h.notNumbers⟩
    have hbuffer : (fill s.buffer p).1 = [] ++ (p.bytes ++ s.buffer.1.drop p.bytes.length) := rfl
    have hstop : (p.bytes.length : ℤ) = ([] : List UInt8).length+p.bytes.length := by simp
    have hloop := forUp_examine hstored hfits hbuffer hstop
    rw [List.map_cons,mainLoop,ReadBuffer.joined_cons,digits_append,others_append,← List.append_assoc,
      ← List.append_assoc]
    by_cases hroom : Fits (ds ++ digits p.bytes) (os ++ others p.bytes)
    · rw [if_pos hroom] at hloop
      obtain ⟨t,ht,hcollected⟩ := hloop
      have hforUp : forUp p.bytes.length examineAt 0 { s with buffer := fill s.buffer p } = some t :=
        ht
      rw [hforUp,Option.bind_some,ih hcollected hroom]
    · rw [if_neg hroom] at hloop
      have hforUp : forUp p.bytes.length examineAt 0 { s with buffer := fill s.buffer p } = none :=
        hloop
      rw [hforUp,if_neg fun hall => hroom hall.of_append]
      rfl

theorem main_eq (buffer numbers notNumbers : Block) (pieces : List Piece) :
    main buffer numbers notNumbers (pieces.map .bytes) =
      if Fits (digits (joined pieces)) (others (joined pieces)) then
        some ⟨0,digits (joined pieces),others (joined pieces)⟩
      else none := by
  have hempty : Collected [] [] ⟨buffer,numbers,notNumbers,0,0⟩ :=
    ⟨⟨Nat.zero_le _,rfl⟩,⟨Nat.zero_le _,rfl⟩⟩
  exact mainLoop_spec hempty ⟨Nat.zero_le _,Nat.zero_le _⟩ pieces

/-- Both arrays have room for the bytes of the whole file, or an index leaves one of them. -/
theorem main_splits_iff (buffer numbers notNumbers : Block) (pieces : List Piece) :
    (∃ o, main buffer numbers notNumbers (pieces.map .bytes) = some o ∧
      o.first = digits (joined pieces) ∧ o.second = others (joined pieces)) ↔
    (digits (joined pieces)).length ≤ 4096 ∧ (others (joined pieces)).length ≤ 4096 := by
  rw [main_eq]
  constructor
  · rintro ⟨o,ho,-⟩
    exact (Option.ite_none_right_eq_some.mp ho).1
  · intro hfits
    exact ⟨_,if_pos hfits,rfl,rfl⟩

/-! More digits than there is room for, in two reads -/

def zeros (n : ℕ) : List UInt8 := List.replicate n 48

theorem length_zeros (n : ℕ) : (zeros n).length = n := List.length_replicate

def someBlock : Block := ⟨zeros 4096,length_zeros 4096⟩

def zerosPiece (n : ℕ) (hpos : n ≠ 0) (hle : n ≤ 4096) : Piece where
  bytes := zeros n
  nonempty h := hpos (by rw [← length_zeros n,h,List.length_nil])
  length_le := (length_zeros n).trans_le hle

theorem main_leaves_array : main someBlock someBlock someBlock
    [.bytes (zerosPiece 4096 (by decide) le_rfl),.bytes (zerosPiece 1 (by decide) (by decide))] =
      none := by
  have hjoined : ∀ m n hm hm' hn hn',
      digits (joined [zerosPiece m hm hm',zerosPiece n hn hn']) = zeros (m+n) := by
    intro m n hm hm' hn hn'
    have hdigit : isDigit 48 = true := by decide
    simp [zerosPiece,zeros,digits,hdigit]
  refine (main_eq someBlock someBlock someBlock [zerosPiece 4096 _ _,zerosPiece 1 _ _]).trans
    (if_neg ?_)
  rintro ⟨hlen,-⟩
  rw [hjoined,length_zeros] at hlen
  omega

end SplitDigits
end SomeCode
