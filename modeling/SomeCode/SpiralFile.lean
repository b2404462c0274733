import SomeCode.Decimal
import SomeCode.Loops
import SomeCode.MachineInt
import Mathlib.Data.List.GetD
import Mathlib.Tactic

/-! The rendering of the array of `inf10-2.c` into the file that is mapped: each number in a field
of `format_len` bytes, each row in a line. -/
namespace SomeCode
namespace SpiralFile

open Decimal Loops MachineInt

/-- The bytes of the mapping, and how often each of them has been written -/
structure Mapped where
  buf : ℤ → UInt8
  writes : ℤ → ℕ

namespace Mapped

def blank : Mapped := ⟨fun _ => 0,fun _ => 0⟩

/-- `buf[x] = c`, in a file of that size -/
def store (size x : ℤ) (c : UInt8) (m : Mapped) : Option Mapped :=
  if 0 ≤ x ∧ x < size then
    some ⟨Function.update m.buf x c,Function.update m.writes x (m.writes x+1)⟩
  else none

end Mapped

section Render

-- the value of `format_len`
variable (height format_len : ℤ)

/-- A `size_t` from a value in `long long`, which is wrapped once for all its operations -/
def size : ℕ := unsigned 64 (wrap 64 (height*height*format_len + height))

/-- As an `off_t` a size from 2^63 on is negative: `ftruncate` and `mmap` refuse it. -/
def mappedSize : ℕ := if size height format_len < 2^63 then size height format_len else 0

/-- A round of the loop over `k`, with `num` -/
def putByte (i j k : ℤ) (s : Mapped × ℕ) : Option (Mapped × ℕ) :=
  let x := wrap 64 (i*(height*format_len+1) + j*format_len + k)
  if s.2/10 ≠ 0 ∨ s.2%10 ≠ 0 then
    (s.1.store (mappedSize height format_len) x (UInt8.ofNat (s.2%10+48))).map fun m => (m,s.2/10)
  else (s.1.store (mappedSize height format_len) x 32).map fun m => (m,s.2)

variable (array : ℤ → ℤ → ℤ)

def putField (i j : ℤ) (m : Mapped) : Option Mapped :=
  (forDown 0 (putByte height format_len i j) (format_len-1) (m,(array i j).toNat)).map Prod.fst

def putLine (i : ℤ) (m : Mapped) : Option Mapped :=
  (forUp height (putField height format_len array i) 0 m).bind
    (Mapped.store (mappedSize height format_len) (wrap 64 ((i+1)*(height*format_len+1)-1)) 10)

def render : Option Mapped := forUp height (putLine height format_len array) 0 Mapped.blank

end Render

namespace Mapped

def put (m : Mapped) (x : ℤ) (l : List UInt8) : Mapped where
  buf y := if x ≤ y ∧ y < x+l.length then l.getD (y-x).toNat 0 else m.buf y
  writes y := if x ≤ y ∧ y < x+l.length then m.writes y+1 else m.writes y

theorem put_nil (m : Mapped) (x : ℤ) : m.put x [] = m := by
  have hno : ∀ y : ℤ, ¬ (x ≤ y ∧ y < x+([] : List UInt8).length) := fun y h => by
    simp only [List.length_nil] at h
    omega
  simp only [put,hno,if_false]

theorem put_append (m : Mapped) (x : ℤ) (l l' : List UInt8) :
    (m.put x l).put (x+l.length) l' = m.put x (l ++ l') := by
  simp only [put,mk.injEq,List.length_append,Nat.cast_add]
  constructor
  · funext y
    by_cases h : x ≤ y ∧ y < x+l.length
    · have hno : ¬ (x+l.length ≤ y ∧ y < x+l.length+l'.length) := by omega
      have hin : x ≤ y ∧ y < x+(l.length+l'.length) := by omega
      rw [if_neg hno,if_pos h,if_pos hin,List.getD_append _ _ _ _ (by omega)]
    · by_cases h' : x+l.length ≤ y ∧ y < x+l.length+l'.length
      · have hin : x ≤ y ∧ y < x+(l.length+l'.length) := by omega
        have hidx : (y-(x+l.length)).toNat = (y-x).toNat-l.length := by omega
        rw [if_pos h',if_pos hin,List.getD_append_right _ _ _ _ (by omega),hidx]
      · have hno : ¬ (x ≤ y ∧ y < x+(l.length+l'.length)) := by omega
        rw [if_neg h',if_neg h,if_neg hno]
  · funext y
    split_ifs <;> omega

theorem update_eq_ite {V : Type} (f g : ℤ → V) (x : ℤ) :
    Function.update f x (g x) = fun y => if x ≤ y ∧ y < x+1 then g y else f y := by
  funext y
  by_cases h : y = x
  · subst h
    simp
  · rw [Function.update_of_ne h,if_neg (by omega)]

theorem store_eq {size x : ℤ} (hl : 0 ≤ x) (hu : x < size) (c : UInt8) (m : Mapped) :
    m.store size x c = some (m.put x [c]) := by
  rw [store,if_pos ⟨hl,hu⟩,Option.some.injEq,put,mk.injEq]
  simp only [List.length_singleton,Nat.cast_one]
  constructor
  · rw [← update_eq_ite m.buf fun y => [c].getD (y-x).toNat 0,Int.sub_self]
    rfl
  · rw [← update_eq_ite m.writes fun y => m.writes y+1]

theorem put_comm (m : Mapped) {x y : ℤ} {l l' : List UInt8} (h : x+l.length ≤ y) :
    (m.put y l').put x l = (m.put x l).put y l' := by
  have hnot : ∀ z, x ≤ z ∧ z < x+l.length → ¬ (y ≤ z ∧ z < y+l'.length) := by omega
  simp only [put,mk.injEq]
  constructor <;> funext z
  · by_cases hz : x ≤ z ∧ z < x+l.length
    · simp only [if_pos hz,if_neg (hnot z hz)]
    · simp only [if_neg hz]
  · by_cases hz : x ≤ z ∧ z < x+l.length
    · simp only [if_pos hz,if_neg (hnot z hz)]
    · simp only [if_neg hz]

theorem put_before (m : Mapped) (x : ℤ) (c : UInt8) (l : List UInt8) :
    (m.put (x+1) l).put x [c] = m.put x (c :: l) := by
  rw [put_comm m (by simp)]
  simpa using put_append m x [c] l

end Mapped

theorem putByte_eq (height format_len i j k : ℤ) (s : Mapped × ℕ) :
    putByte height format_len i j k s =
      (s.1.store (mappedSize height format_len) (wrap 64 (i*(height*format_len+1)+j*format_len+k))
        (glyph s.2)).map fun m => (m,s.2/10) := by
  by_cases h : s.2 = 0
  · have hno : ¬ (s.2/10 ≠ 0 ∨ s.2%10 ≠ 0) := by omega
    have hdiv : s.2 = s.2/10 := by omega
    rw [putByte,if_neg hno,glyph,if_pos h,← hdiv]
  · have hyes : s.2/10 ≠ 0 ∨ s.2%10 ≠ 0 := by omega
    rw [putByte,if_pos hyes,glyph,if_neg h,digit,Nat.add_comm]

/-- A loop whose rounds write texts one behind the other, of one length each -/
theorem forUp_put {body : ℤ → Mapped → Option Mapped} {x : ℤ} {w n : ℕ} {f : ℕ → List UInt8}
    (hlen : ∀ k, (f k).length = w)
    (hbody : ∀ k : ℕ, k < n → ∀ m, body k m = some (m.put (x+k*w) (f k))) (m : Mapped) :
    forUp n body 0 m = some (m.put x ((List.range n).flatMap f)) := by
  let σ : ℕ → Mapped := fun k => m.put x ((List.range k).flatMap f)
  have hstart : σ 0 = m := Mapped.put_nil m x
  have hstep : ∀ k : ℕ, k < n → body k (σ k) = some (σ (k+1)) := by
    intro k hk
    have hput := Mapped.put_append m x ((List.range k).flatMap f) (f k)
    have hsum : ((List.range k).flatMap f).length = k*w := by
      simp [List.length_flatMap,hlen,List.map_const']
    rw [hsum,Nat.cast_mul] at hput
    rw [hbody k hk]
    simp [σ,hput,List.range_succ]
  rw [← forUp_states hstep,hstart]

def lineText (N F : ℕ) (array : ℤ → ℤ → ℤ) (i : ℕ) : List UInt8 :=
  ((List.range N).flatMap fun j : ℕ => places F (array i j).toNat) ++ [10]

theorem length_fields (N F : ℕ) (f : ℕ → ℕ) :
    ((List.range N).flatMap fun j => places F (f j)).length = N*F := by
  simp [List.length_flatMap,length_places,List.map_const']

theorem length_lineText (N F : ℕ) (array : ℤ → ℤ → ℤ) (i : ℕ) :
    (lineText N F array i).length = N*F+1 := by
  rw [lineText,List.length_append,length_fields,List.length_singleton]

def fileText (N F : ℕ) (array : ℤ → ℤ → ℤ) : List UInt8 :=
  (List.range N).flatMap (lineText N F array)

variable {N F i j : ℕ} {array : ℤ → ℤ → ℤ}

theorem line_le_size (hi : i < N) : ((i : ℤ)+1)*(N*F+1) ≤ N*N*F+N := by
  have hle : ((i : ℤ)+1)*(N*F+1) ≤ N*(N*F+1) := by
    apply mul_le_mul_of_nonneg_right
    · omega
    · positivity
  calc ((i : ℤ)+1)*(N*F+1) ≤ N*(N*F+1) := hle
    _ = N*N*F+N := by ring

theorem field_le_line (hj : j < N) : ((j : ℤ)+1)*F ≤ N*F := by
  apply mul_le_mul_of_nonneg_right
  · omega
  · positivity

theorem mappedSize_eq (hfit : (N : ℤ)*N*F+N < 2^63) : (mappedSize N F : ℤ) = N*N*F+N := by
  have hnonneg : (0 : ℤ) ≤ N*N*F+N := by positivity
  have hsize : size N F = ((N : ℤ)*N*F+N).toNat := by
    rw [size,wrap_eq (w := 63) (by omega) (by omega),unsigned_eq hnonneg (by omega)]
  rw [mappedSize,hsize,if_pos (by omega),Int.toNat_of_nonneg hnonneg]

theorem store_wrap (hfit : (N : ℤ)*N*F+N < 2^63) {x : ℤ} (hl : 0 ≤ x) (hu : x < N*N*F+N)
    (c : UInt8) (m : Mapped) : m.store (mappedSize N F) (wrap 64 x) c = some (m.put x [c]) := by
  rw [wrap_eq (w := 63) (by omega) (by omega),mappedSize_eq hfit,Mapped.store_eq hl hu]

section Fits

variable (hfit : (N : ℤ)*N*F+N < 2^63)
include hfit

theorem putField_eq (hi : i < N) (hj : j < N) (m : Mapped) : putField N F array i j m =
    some (m.put (i*(N*F+1)+j*F) (places F (array i j).toNat)) := by
  obtain ⟨n,hn⟩ : ∃ n, n = (array i j).toNat := ⟨_,rfl⟩
  obtain ⟨x,hx⟩ : ∃ x : ℤ, x = i*(N*F+1)+j*F := ⟨_,rfl⟩
  have hl : 0 ≤ x := by rw [hx]; positivity
  have hu : x+F ≤ N*N*F+N := by
    have hline := line_le_size (F := F) hi
    have hfield := field_le_line (F := F) hj
    rw [hx]
    linarith only [hline,hfield]
  let I : ℤ → Mapped × ℕ → Prop := fun k s => ∃ r : ℕ, k = (F : ℤ)-1-r ∧
    s = (m.put (x+(k+1)) (places r n),n/10^r)
  have hstep : ∀ k s, k ≤ (F : ℤ)-1 → 0 ≤ k → I k s →
      ∃ t, putByte N F i j k s = some t ∧ I (k-1) t := by
    rintro k _ - hk ⟨r,hkr,rfl⟩
    refine ⟨(m.put (x+k) (places (r+1) n),n/10^(r+1)),?_,r+1,by omega,by rw [sub_add_cancel]⟩
    rw [putByte_eq,← hx,store_wrap hfit (by omega) (by omega),Option.map_some,← add_assoc,
      Mapped.put_before,Nat.div_div_eq_div_mul,← pow_succ]
    rfl
  have hstart : I ((F : ℤ)-1) (m,n) := ⟨0,by omega,by simp [places,Mapped.put_nil]⟩
  obtain ⟨s,hs,r,hr,rfl⟩ := forDown_inv (by omega) hstart hstep
  obtain rfl : r = F := by omega
  rw [putField,← hn,hs]
  simp [← hx]

theorem putLine_eq (hi : i < N) (m : Mapped) : putLine N F array i m =
    some (m.put (i*(N*F+1)) (lineText N F array i)) := by
  let fields : List UInt8 := (List.range N).flatMap fun j : ℕ => places F (array i j).toNat
  have hfields : forUp N (putField N F array i) 0 m = some (m.put (i*(N*F+1)) fields) :=
    forUp_put (fun j => length_places F _) (fun j hj m => putField_eq hfit hi hj m) m
  have hlen : fields.length = N*F := length_fields N F _
  have hend : ((i : ℤ)+1)*(N*F+1)-1 = i*(N*F+1)+fields.length := by
    rw [hlen]
    push_cast
    ring
  have hline := line_le_size (F := F) hi
  rw [putLine,hfields,Option.bind_some,store_wrap hfit (by rw [hend]; positivity) (by omega),hend,
    Mapped.put_append]
  rfl

theorem render_eq (array : ℤ → ℤ → ℤ) :
    render N F array = some (Mapped.blank.put 0 (fileText N F array)) :=
  forUp_put (length_lineText N F array) (fun i hi m => by
    rw [putLine_eq hfit hi m,zero_add]
    push_cast
    rfl) Mapped.blank

end Fits

theorem drop_flatMap_range {α : Type*} {f : ℕ → List α} {w n i : ℕ}
    (hw : ∀ k, (f k).length = w) (hi : i < n) :
    ∃ rest, ((List.range n).flatMap f).drop (i*w) = f i ++ rest := by
  obtain ⟨k,rfl⟩ : ∃ k, n = i+(k+1) := ⟨n-i-1,by omega⟩
  have hlen : ((List.range i).flatMap f).length = i*w := by
    simp [List.length_flatMap,hw,List.map_const']
  rw [List.range_add,List.flatMap_append,← hlen,List.drop_left,List.range_succ_eq_map]
  simp

def readField (N F : ℕ) (file : List UInt8) (i j : ℕ) : List UInt8 :=
  (file.drop (i*(N*F+1)+j*F)).take F

theorem readField_fileText (hi : i < N) (hj : j < N) :
    readField N F (fileText N F array) i j = places F (array i j).toNat := by
  obtain ⟨rest,hrest⟩ := drop_flatMap_range (length_lineText N F array) hi
  obtain ⟨rest',hrest'⟩ := drop_flatMap_range
    (f := fun j : ℕ => places F (array i j).toNat) (fun k => length_places F _) hj
  have hle : j*F ≤ ((List.range N).flatMap fun j : ℕ => places F (array i j).toNat).length := by
    rw [length_fields]
    exact Nat.mul_le_mul_right F hj.le
  rw [readField,← List.drop_drop,fileText,hrest,lineText,List.append_assoc,
    List.drop_append_of_le_length hle,hrest',List.append_assoc]
  exact List.take_left' (length_places F _)

def Mapped.file (m : Mapped) (length : ℕ) : List UInt8 :=
  (List.range length).map fun x : ℕ => m.buf x

/-- Each byte of the mapping is written once and no other, and the numbers stand in their fields:
where there is room for them, they are read back. -/
structure IsRendering (N F : ℕ) (array : ℤ → ℤ → ℤ) (m : Mapped) : Prop where
  once : ∀ x : ℤ, 0 ≤ x → x < N*N*F+N → m.writes x = 1
  nothingElse : ∀ x : ℤ, ¬ (0 ≤ x ∧ x < N*N*F+N) → m.writes x = 0
  lines : m.file (N*N*F+N) = (List.range N).flatMap fun i : ℕ =>
    ((List.range N).flatMap fun j : ℕ => aligned F (array i j).toNat) ++ [10]
  decode : (∀ i < N, ∀ j < N, (decimal (array i j).toNat).length ≤ F) → ∀ i < N, ∀ j < N,
    (value (readField N F (m.file (N*N*F+N)) i j) : ℤ) = array i j

theorem length_fileText (N F : ℕ) (array : ℤ → ℤ → ℤ) :
    (fileText N F array).length = N*N*F+N := by
  have hlen : (fileText N F array).length = N*(N*F+1) := by
    simp [fileText,List.length_flatMap,length_lineText,List.map_const']
  rw [hlen]
  ring

theorem file_put (l : List UInt8) : (Mapped.blank.put 0 l).file l.length = l := by
  refine List.ext_getElem (by simp [Mapped.file]) fun x hx hx' => ?_
  simp [Mapped.file,Mapped.put,hx']

theorem render_isRendering (hfit : N*N*F+N < 2^63) (hpos : ∀ i < N, ∀ j < N, 0 < array i j) :
    ∃ m, render N F array = some m ∧ IsRendering N F array m := by
  have hfitZ : (N : ℤ)*N*F+N < 2^63 := by exact_mod_cast hfit
  have hlen := length_fileText N F array
  have hfile : (Mapped.blank.put 0 (fileText N F array)).file (N*N*F+N) = fileText N F array := by
    rw [← hlen,file_put]
  have hin : ∀ x : ℤ, (0 ≤ x ∧ x < 0+(fileText N F array).length) ↔ (0 ≤ x ∧ x < N*N*F+N) := by
    intro x
    rw [hlen]
    push_cast
    rw [zero_add]
  refine ⟨_,render_eq hfitZ array,?_,?_,?_,?_⟩
  · intro x hl hu
    simp only [Mapped.put,if_pos ((hin x).mpr ⟨hl,hu⟩)]
    rfl
  · intro x hx
    simp only [Mapped.put,if_neg (mt (hin x).mp hx)]
    rfl
  · rw [hfile,fileText]
    refine congrArg List.flatten (List.map_congr_left fun i hi => ?_)
    refine congrArg (fun l => List.flatten l ++ [10]) (List.map_congr_left fun j hj => ?_)
    have hcell := hpos i (List.mem_range.mp hi) j (List.mem_range.mp hj)
    exact places_eq_aligned (by omega) F
  · intro hfits i hi j hj
    have hcell := hpos i hi j hj
    have hfit := hfits i hi j hj
    rw [hfile,readField_fileText hi hj,places_eq_aligned (by omega),value_aligned hfit]
    omega

def Confined (size : ℤ) (m : Mapped) : Prop := ∀ x, size ≤ x → m.writes x = 0

theorem Confined.store {size x : ℤ} {c : UInt8} {m m' : Mapped} (hm : Confined size m)
    (h : m.store size x c = some m') : Confined size m' := by
  rw [Mapped.store] at h
  split at h
  · rename_i hin
    cases h
    intro y hy
    exact (Function.update_of_ne (by omega) _ _).trans (hm y hy)
  · cases h

theorem Confined.putField {height format_len i j : ℤ} {m m' : Mapped} (hformat : 0 ≤ format_len)
    (hm : Confined (mappedSize height format_len) m)
    (h : putField height format_len array i j m = some m') :
    Confined (mappedSize height format_len) m' := by
  obtain ⟨s,hs,rfl⟩ := Option.map_eq_some_iff.mp h
  refine forDown_of_eq_some (I := fun _ s => Confined (mappedSize height format_len) s.1) (by omega)
    hm (fun k s t _ _ hin ht => ?_) hs
  rw [putByte_eq] at ht
  obtain ⟨u,hu,rfl⟩ := Option.map_eq_some_iff.mp ht
  exact hin.store hu

theorem Confined.putLine {height format_len i : ℤ} {m m' : Mapped} (hheight : 0 ≤ height)
    (hformat : 0 ≤ format_len) (hm : Confined (mappedSize height format_len) m)
    (h : putLine height format_len array i m = some m') :
    Confined (mappedSize height format_len) m' := by
  obtain ⟨u,hu,hend⟩ := Option.bind_eq_some_iff.mp h
  have hfields := forUp_of_eq_some (I := fun _ m => Confined (mappedSize height format_len) m)
    hheight hm (fun _ _ _ _ _ hin ht => hin.putField hformat ht) hu
  exact hfields.store hend

theorem render_confined {m : Mapped} (h : render N F array = some m) :
    Confined (mappedSize N F) m :=
  forUp_of_eq_some (I := fun _ m => Confined (mappedSize N F) m) (Int.natCast_nonneg N)
    (fun _ _ => rfl) (fun _ _ _ _ _ hin ht => hin.putLine (by omega) (by omega) ht) h

theorem mappedSize_lt (height format_len : ℤ) : mappedSize height format_len < 2^63 := by
  rw [mappedSize]
  split
  · assumption
  · decide

/-- A size that wraps is the size of a file in which a byte of the rendering has no place. -/
theorem fits_of_isRendering {m : Mapped} (h : render N F array = some m)
    (hm : IsRendering N F array m) : N*N*F+N < 2^63 := by
  by_contra hlarge
  have hlt := mappedSize_lt N F
  have hin : (mappedSize N F : ℤ) < N*N*F+N := by
    have hmapped : mappedSize N F < N*N*F+N := by omega
    exact_mod_cast hmapped
  have honce := hm.once _ (Int.natCast_nonneg _) hin
  rw [render_confined h _ (Int.le_refl _)] at honce
  cases honce

theorem render_isRendering_iff (hpos : ∀ i < N, ∀ j < N, 0 < array i j) :
    (∃ m, render N F array = some m ∧ IsRendering N F array m) ↔ N*N*F+N < 2^63 :=
  ⟨fun ⟨_,h,hm⟩ => fits_of_isRendering h hm,fun h => render_isRendering h hpos⟩

/-- The numbers 9, 10, 11 and 12 in fields of two bytes -/
theorem render_isRendering_iff_two : ∃ m, render (2 : ℕ) (2 : ℕ) (fun i j => 2*i+j+9) = some m ∧
    IsRendering 2 2 (fun i j => 2*i+j+9) m :=
  (render_isRendering_iff (by decide)).mpr (by decide)

/-- With fields of 2^62 bytes the file for 1, 2, 4 and 3 gets two bytes. -/
theorem render_not_isRendering : mappedSize (2 : ℕ) (2^62 : ℕ) = 2 ∧
    ¬ ∃ m, render (2 : ℕ) (2^62 : ℕ) (fun i j => if i = 0 then j+1 else 4-j) = some m ∧
      IsRendering 2 (2^62) (fun i j => if i = 0 then j+1 else 4-j) m := by
  refine ⟨by decide,?_⟩
  rintro ⟨m,h,hm⟩
  exact absurd (fits_of_isRendering h hm) (by decide)

end SpiralFile
end SomeCode
