import SomeCode.Decimal
import SomeCode.Loops
import SomeCode.MachineInt

/-! The text of numbers that `main` of `inf13-2.c` builds, and `find_size`, which counts the
numbers of such a text by its length. -/
namespace SomeCode
namespace NumberText

open Decimal Loops MachineInt

def item (i : ℕ) : List UInt8 := decimal i ++ [32]

def numbers (n : ℕ) : List UInt8 := (List.range n).flatMap item

structure Text where
  data : List UInt8
  cn : ℤ

/-- `snprintf` to `pos`, which returns the length of `out` whatever the size; `none` if a byte is
written outside. -/
def snprintf (data : List UInt8) (pos : ℤ) (size : ℕ) (out : List UInt8) :
    Option (List UInt8 × ℤ) :=
  let written := if size = 0 then [] else out.take (size-1) ++ [0]
  if 0 ≤ pos ∧ pos+written.length ≤ data.length then
    some (data.take pos.toNat ++ written ++ data.drop (pos.toNat+written.length),out.length)
  else none

/-- The size that is passed in -/
def sizeLeft (cn : ℤ) : ℕ := unsigned 64 (4096-cn)

def appendNumber (i : ℤ) (s : Text) : Option Text :=
  (snprintf s.data s.cn (sizeLeft s.cn) (item i.toNat)).map fun r => ⟨r.1,s.cn+r.2⟩

def emptyText : Text := ⟨List.replicate 4096 0,0⟩

structure Count where
  data_written_len : ℤ
  power : ℤ
  num : ℤ
  count : ℤ

/-- A round of the `for` loop, which ends with the length -/
def countNumber (s : Count) : Option Count :=
  if s.data_written_len > 0 then
    some { s with data_written_len := s.data_written_len-(s.num+1), count := s.count+1 }
  else none

/-- A round of the `while` loop, where `power` is an `int` -/
def countClass (s : Count) : Option Count :=
  let s := forBreak s.power (fun _ => countNumber) 0 s
  if s.power*10 < 2^31 then some { s with power := s.power*10, num := s.num+1 } else none

def countFrom (fuel : ℕ) (s : Count) : Option ℤ :=
  (whileLoop (fun s => s.data_written_len > 0) countClass fuel s).map Count.count

def findSize (fuel : ℕ) (data_written_len : ℤ) : Option ℤ :=
  countFrom fuel ⟨data_written_len,10,1,0⟩

/-- `k` numbers of a class of `power` are counted where `len` bytes are left. -/
structure Counted (power width len k : ℤ) : Prop where
  nonneg : 0 ≤ k
  le : k ≤ power
  enough : k < power → len ≤ k*width
  needed : 0 < k → (k-1)*width < len

theorem forBreak_countNumber {s : Count} (hpower : 0 ≤ s.power) :
    ∃ k, Counted s.power (s.num+1) s.data_written_len k ∧
      forBreak s.power (fun _ => countNumber) 0 s =
        { s with data_written_len := s.data_written_len-k*(s.num+1), count := s.count+k } := by
  let I : ℤ → Count → Prop := fun k t =>
    t = { s with data_written_len := s.data_written_len-k*(s.num+1), count := s.count+k } ∧
      (0 < k → (k-1)*(s.num+1) < s.data_written_len)
  have hstep : ∀ k t u, 0 ≤ k → k < s.power → I k t → countNumber t = some u → I (k+1) u := by
    rintro k _ u hk _ ⟨rfl,-⟩ hu
    obtain ⟨hlt,htu⟩ := Option.ite_none_right_eq_some.mp hu
    obtain rfl := Option.some.inj htu
    refine ⟨?_,fun _ => ?_⟩
    · simp only [Count.mk.injEq,true_and]
      exact ⟨by ring,by ring⟩
    · simp only at hlt
      rw [add_sub_cancel_right]
      omega
  have hstart : I 0 s := by simp [I]
  obtain ⟨k,hk,hks,⟨hI,hlast⟩,hend⟩ := forBreak_inv hpower hstart hstep
  refine ⟨k,⟨hk,hks,fun hlt => ?_,hlast⟩,hI⟩
  have hnone := hend hlt
  rw [hI] at hnone
  simpa [countNumber] using hnone

theorem countFrom_of_nonpos {s : Count} (h : s.data_written_len ≤ 0) (fuel : ℕ) :
    countFrom (fuel+1) s = some s.count := by
  have hcond : ¬ s.data_written_len > 0 := by omega
  simp [countFrom,whileLoop,hcond]

theorem countFrom_succ {s : Count} (hpower : 0 ≤ s.power) (hint : s.power*10 < 2^31)
    (fuel : ℕ) : ∃ k, Counted s.power (s.num+1) s.data_written_len k ∧
      countFrom (fuel+2) s = countFrom (fuel+1)
        ⟨s.data_written_len-k*(s.num+1),s.power*10,s.num+1,s.count+k⟩ := by
  obtain hle | hlt := le_or_gt s.data_written_len 0
  · refine ⟨0,⟨le_rfl,hpower,fun _ => by omega,fun h => absurd h (lt_irrefl 0)⟩,?_⟩
    rw [countFrom_of_nonpos hle,countFrom_of_nonpos (by simpa using hle),add_zero]
  · obtain ⟨k,hk,hfor⟩ := forBreak_countNumber hpower
    refine ⟨k,hk,?_⟩
    have hclass : countClass s = some
        ⟨s.data_written_len-k*(s.num+1),s.power*10,s.num+1,s.count+k⟩ := by
      simp only [countClass,hfor]
      exact if_pos hint
    rw [countFrom,whileLoop,if_pos (decide_eq_true hlt),hclass,Option.bind_some]
    rfl

/-- The first three classes are taken to have 4320 bytes. -/
theorem findSize_spec {len : ℤ} (h : len ≤ 4320) {fuel : ℕ} (hfuel : 4 ≤ fuel) :
    ∃ a b c, Counted 10 2 len a ∧ Counted 100 3 (len-a*2) b ∧ Counted 1000 4 (len-a*2-b*3) c ∧
      findSize fuel len = some (a+b+c) := by
  obtain ⟨n,rfl⟩ : ∃ n, fuel = n+4 := ⟨fuel-4,by omega⟩
  obtain ⟨a,(ha : Counted 10 2 len a),hruna⟩ :=
    countFrom_succ (s := ⟨len,10,1,0⟩) (by norm_num) (by norm_num) (n+2)
  obtain ⟨b,(hb : Counted 100 3 (len-a*2) b),hrunb⟩ :=
    countFrom_succ (s := ⟨len-a*2,100,2,0+a⟩) (by norm_num) (by norm_num) (n+1)
  obtain ⟨c,(hc : Counted 1000 4 (len-a*2-b*3) c),hrunc⟩ :=
    countFrom_succ (s := ⟨len-a*2-b*3,1000,3,0+a+b⟩) (by norm_num) (by norm_num) n
  refine ⟨a,b,c,ha,hb,hc,?_⟩
  have hend : len-a*2-b*3-c*4 ≤ 0 := by
    have hae := ha.enough
    have hal := ha.le
    have hbe := hb.enough
    have hbl := hb.le
    have hce := hc.enough
    have hcl := hc.le
    omega
  calc countFrom (n+4) ⟨len,10,1,0⟩
      = countFrom (n+3) ⟨len-a*2,100,2,0+a⟩ := hruna
    _ = countFrom (n+2) ⟨len-a*2-b*3,1000,3,0+a+b⟩ := hrunb
    _ = countFrom (n+1) ⟨len-a*2-b*3-c*4,10000,4,0+a+b+c⟩ := hrunc
    _ = some (0+a+b+c) := countFrom_of_nonpos hend n
    _ = some (a+b+c) := by rw [zero_add]

theorem length_item {i : ℕ} (h : i < 10000) : (item i).length =
    2+(if i < 10 then 0 else 1)+(if i < 100 then 0 else 1)+(if i < 1000 then 0 else 1) := by
  have h0 := length_decimal_pos i
  have h1 := length_decimal_le_iff (n := i) (show 0 < 1 by decide)
  have h2 := length_decimal_le_iff (n := i) (show 0 < 2 by decide)
  have h3 := length_decimal_le_iff (n := i) (show 0 < 3 by decide)
  have h4 := length_decimal_le_iff (n := i) (show 0 < 4 by decide)
  simp only [item,List.length_append,List.length_singleton]
  split_ifs <;> omega

theorem numbers_succ (n : ℕ) : numbers (n+1) = numbers n ++ item n := by
  simp [numbers,List.range_succ]

theorem length_numbers {n : ℕ} (h : n ≤ 10000) :
    (numbers n).length = 2*n+(n-10)+(n-100)+(n-1000) := by
  induction n with
  | zero => rfl
  | succ n ih =>
    rw [numbers_succ,List.length_append,ih (by omega),length_item (by omega)]
    split_ifs <;> omega

theorem length_numbers_mono {m n : ℕ} (h : m ≤ n) :
    (numbers m).length ≤ (numbers n).length := by
  induction n, h using Nat.le_induction with
  | base => exact le_rfl
  | succ n _ ih =>
    rw [numbers_succ,List.length_append]
    omega

theorem findSize_numbers_iff {k fuel : ℕ} (hfuel : 4 ≤ fuel)
    (h : (numbers (k+1)).length ≤ 4095) :
    findSize fuel (numbers (k+1)).length = some ((k : ℤ)+1) ↔ k ≤ 99 := by
  have hk : k+1 ≤ 10000 := by
    by_contra hgt
    have hmono := length_numbers_mono (show 10000 ≤ k+1 by omega)
    rw [length_numbers le_rfl] at hmono
    omega
  obtain ⟨a,b,c,ha,hb,hc,hrun⟩ :=
    findSize_spec (show ((numbers (k+1)).length : ℤ) ≤ 4320 by omega) hfuel
  rw [hrun,Option.some.injEq]
  rw [length_numbers hk] at h ha hb hc
  obtain ⟨ha0,hal,hae,han⟩ := ha
  obtain ⟨hb0,hbl,hbe,hbn⟩ := hb
  obtain ⟨hc0,hcl,hce,hcn⟩ := hc
  omega

theorem findSize_numbers_iff_ten :
    findSize 4 (numbers (10+1)).length = some (((10 : ℕ) : ℤ)+1) ↔ 10 ≤ 99 :=
  findSize_numbers_iff le_rfl (by rw [length_numbers (by decide)]; decide)

/-- `0 1 ... 100 ` has 294 bytes, of which 102 numbers are made. -/
theorem findSize_numbers_hundred :
    (numbers (100+1)).length ≤ 4095 ∧ findSize 4 (numbers (100+1)).length = some 102 := by
  obtain ⟨a,b,c,⟨ha0,hal,hae,han⟩,⟨hb0,hbl,hbe,hbn⟩,⟨hc0,hcl,hce,hcn⟩,hrun⟩ :=
    findSize_spec (show (294 : ℤ) ≤ 4320 by decide) (le_refl 4)
  have hlen : (numbers (100+1)).length = 294 := length_numbers (by decide)
  refine ⟨by omega,?_⟩
  rw [hlen,Nat.cast_ofNat,hrun,Option.some.injEq]
  omega

/-- `data` with the text of the first `n` numbers, as far as there is room for it -/
def page (n : ℕ) : List UInt8 :=
  (numbers n).take 4095 ++ List.replicate (4096-min (numbers n).length 4095) 0

theorem page_of_le {n : ℕ} (h : (numbers n).length ≤ 4095) :
    page n = numbers n ++ List.replicate (4096-(numbers n).length) 0 := by
  rw [page,List.take_of_length_le h,min_eq_left h]

theorem length_page (n : ℕ) : (page n).length = 4096 := by
  simp only [page,List.length_append,List.length_take,List.length_replicate]
  omega

theorem sizeLeft_eq {l : ℕ} (h : l ≤ 4096) : sizeLeft l = 4096-l := by
  rw [sizeLeft,unsigned_eq (by omega) (by omega)]
  omega

theorem appendNumber_eq {n : ℕ} (h : (numbers n).length ≤ 4095) :
    appendNumber n ⟨page n,(numbers n).length⟩ =
      some ⟨page (n+1),(numbers (n+1)).length⟩ := by
  obtain ⟨out,hout⟩ : ∃ out, out = (item n).take (4095-(numbers n).length) ++ [(0 : UInt8)] :=
    ⟨_,rfl⟩
  have hsize : sizeLeft (numbers n).length ≠ 0 := by
    rw [sizeLeft_eq (by omega)]
    omega
  have hone : sizeLeft (numbers n).length-1 = 4095-(numbers n).length := by
    rw [sizeLeft_eq (by omega)]
    omega
  have hlen : out.length = min (4095-(numbers n).length) (item n).length+1 := by
    rw [hout,List.length_append,List.length_take,List.length_singleton]
  have hfits : 0 ≤ ((numbers n).length : ℤ) ∧
      ((numbers n).length : ℤ)+out.length ≤ (page n).length := by
    rw [length_page]
    omega
  have hpage : (page n).take (numbers n).length ++ out ++
      (page n).drop ((numbers n).length+out.length) = page (n+1) := by
    have hzeros : 4096-min ((numbers n).length+(item n).length) 4095 =
        4096-(numbers n).length-((numbers n).length+out.length-(numbers n).length)+1 := by omega
    rw [page_of_le h,List.take_left,List.drop_append,List.drop_eq_nil_of_le (by omega),
      List.nil_append,List.drop_replicate,page,numbers_succ,List.take_append,
      List.take_of_length_le h,List.length_append,hzeros,List.replicate_succ,hout]
    simp only [List.append_assoc,List.singleton_append]
  rw [appendNumber,Int.toNat_natCast,snprintf]
  simp only [hsize,if_false,hone,← hout,if_pos hfits,Int.toNat_natCast,Option.map_some,hpage,
    numbers_succ,List.length_append,Nat.cast_add]

theorem forUp_appendNumber {n : ℕ} (h : ∀ m < n, (numbers m).length ≤ 4095) :
    forUp n appendNumber 0 emptyText = some ⟨page n,(numbers n).length⟩ :=
  let texts : ℕ → Text := fun k => ⟨page k,(numbers k).length⟩
  forUp_states (σ := texts) fun k hk => appendNumber_eq (h k hk)

/-- Before each round there is room for what is left of `data`, and nothing is written outside. -/
def StaysWithin (N : ℤ) : Prop :=
  ∀ i, 0 ≤ i → i ≤ N → ∃ s, forUp i appendNumber 0 emptyText = some s ∧
    0 ≤ s.cn ∧ s.cn ≤ 4096 ∧ s.cn+sizeLeft s.cn ≤ s.data.length ∧ (appendNumber i s).isSome

theorem length_numbers_le {n : ℕ} (h : n ≤ 1041) : (numbers n).length ≤ 4095 := by
  rw [length_numbers (by omega)]
  omega

theorem snprintf_of_lt {data out : List UInt8} {pos : ℤ} (h : data.length < pos) (size : ℕ) :
    snprintf data pos size out = none :=
  if_neg fun hin => absurd hin.2 (by omega)

/-- The text of 1042 numbers is the first one that does not fit. -/
theorem forUp_appendNumber_last :
    forUp (1042 : ℕ) appendNumber 0 emptyText = some ⟨page 1042,4100⟩ := by
  have hlen : (numbers 1042).length = 4100 := length_numbers (by decide)
  rw [forUp_appendNumber fun m hm => length_numbers_le (by omega),hlen]
  rfl

theorem staysWithin_iff (N : ℤ) : StaysWithin N ↔ N ≤ 1041 := by
  constructor
  · intro h
    by_contra hN
    obtain ⟨s,hs,-,hcn,-⟩ := h (1042 : ℕ) (by omega) (by omega)
    obtain rfl := Option.some.inj (forUp_appendNumber_last.symm.trans hs)
    exact absurd hcn (by decide)
  · intro h i hi hiN
    obtain ⟨i,rfl⟩ := Int.eq_ofNat_of_zero_le hi
    have hlen := length_numbers_le (show i ≤ 1041 by omega)
    refine ⟨_,forUp_appendNumber fun m hm => length_numbers_le (by omega),?_,?_,?_,?_⟩
    · exact Int.natCast_nonneg _
    · simp only
      omega
    · simp only [sizeLeft_eq (show (numbers i).length ≤ 4096 by omega),length_page]
      omega
    · rw [appendNumber_eq hlen]
      rfl

/-- When the number 1042 is to be written, the size that is left is almost 2^64. -/
theorem not_staysWithin : ¬ StaysWithin 1042 ∧
    ∃ s, forUp 1042 appendNumber 0 emptyText = some s ∧ s.cn = 4100 ∧
      sizeLeft s.cn = 2^64-4 ∧ appendNumber 1042 s = none := by
  refine ⟨fun h => ?_,_,forUp_appendNumber_last,rfl,by decide,?_⟩
  · obtain ⟨s,hs,-,hcn,-⟩ := h 1042 (by decide) (by decide)
    obtain rfl := Option.some.inj (forUp_appendNumber_last.symm.trans hs)
    exact absurd hcn (by decide)
  · rw [appendNumber,snprintf_of_lt (by rw [length_page]; decide)]
    rfl

end NumberText
end SomeCode
