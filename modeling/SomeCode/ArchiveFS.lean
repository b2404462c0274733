import SomeCode.CString
import SomeCode.MachineInt
import Mathlib

/-! The archive file system of `inf24-0.c`: the files of an archive lie one after the
other in one buffer, and `read_callback` finds the slice of a file by its name. -/
namespace SomeCode
namespace ArchiveFS

open CString MachineInt

def PATH_MAX : ℕ := 4096

def INT_MAX : ℕ := 2147483647

def ENOENT : ℤ := 2

def EIO : ℤ := 5

def EISDIR : ℤ := 21

def S_IFDIR : ℕ := 0o040000

def S_IFREG : ℕ := 0o100000

structure FileInfo where
  name : List UInt8
  size : UInt64
  noZero : 0 ∉ name
  deriving DecidableEq

/-- The parts of `configs_t` that the callbacks use. The buffer holds all the slices, and
like any object in memory it has less than 2^63 bytes. -/
structure Configs where
  files : List FileInfo
  data : List UInt8
  offset : UInt64
  small : data.length < 2^63
  holds : offset.toNat + (files.map fun f => f.size.toNat).sum ≤ data.length

/-- What `read_callback` returns and the bytes it puts into the buffer. -/
structure ReadResult where
  ret : ℤ
  bytes : List UInt8
  deriving DecidableEq

structure Stat where
  nlink : ℕ
  mode : ℕ
  size : ℤ
  deriving DecidableEq

def root : List UInt8 := [47]

/-- The test in the loops: the name is compared with `path + 1`. -/
def FileInfo.matches (f : FileInfo) (path : List UInt8) : Prop :=
  strncmp PATH_MAX path.tail f.name = 0

instance (f : FileInfo) (path : List UInt8) : Decidable (f.matches path) :=
  inferInstanceAs (Decidable (_ = _))

/-- The loop of `getattr_callback` from the counter `i` on. There is no result where the
counter, an `int`, overflows. -/
def getattrLoop (path : List UInt8) : ℕ → List FileInfo → Option (Except ℤ Stat)
  | _, [] => some (.error (-ENOENT))
  | i, f :: fs =>
    if f.matches path then some (.ok ⟨2,S_IFREG ||| 0o444,wrap 64 f.size.toNat⟩)
    else if i = INT_MAX then none
    else getattrLoop path (i+1) fs

def getattrCallback (c : Configs) (path : List UInt8) : Option (Except ℤ Stat) :=
  if path = root then some (.ok ⟨2,S_IFDIR ||| 0o755,0⟩) else getattrLoop path 0 c.files

/-- `memcpy` from the buffer; there is no result if it leaves the buffer. -/
def memcpy (data : List UInt8) (start size : ℕ) : Option (List UInt8) :=
  if start + size ≤ data.length then some ((data.drop start).take size) else none

/-- The body of the loop of `read_callback` where the name matches. The comparison takes
the signed offset as unsigned, and `int` is what becomes of the size. -/
def readFile (c : Configs) (f : FileInfo) (size : UInt64) (offset : Int64) (dataOffset : UInt64) :
    Option ReadResult :=
  if f.size < offset.toUInt64 then some ⟨0,[]⟩
  else
    let size := if f.size - offset.toUInt64 < size then f.size - offset.toUInt64 else size
    (memcpy c.data (c.offset.toNat + dataOffset.toNat + offset.toNatClampNeg) size.toNat).map
      fun bytes => ⟨wrap 32 size.toNat,bytes⟩

def readLoop (c : Configs) (path : List UInt8) (size : UInt64) (offset : Int64) :
    ℕ → UInt64 → List FileInfo → Option ReadResult
  | _, _, [] => some ⟨- EIO,[]⟩
  | i, dataOffset, f :: fs =>
    if f.matches path then readFile c f size offset dataOffset
    else if i = INT_MAX then none
    else readLoop c path size offset (i+1) (dataOffset + f.size) fs

def readCallback (c : Configs) (path : List UInt8) (size : UInt64) (offset : Int64) :
    Option ReadResult :=
  if path = root then some ⟨-EISDIR,[]⟩ else readLoop c path size offset 0 0 c.files

/-- Reads one after the other, each from where the one before has ended: the bytes joined
together, and the sum of what the reads return. -/
def readSequence (c : Configs) (path : List UInt8) : List UInt64 → Int64 → Option ReadResult
  | [], _ => some ⟨0,[]⟩
  | size :: sizes, offset =>
    (readCallback c path size offset).bind fun r =>
      (readSequence c path sizes (offset + Int64.ofInt r.ret)).map fun rest =>
        ⟨r.ret + rest.ret,r.bytes ++ rest.bytes⟩

def FileInfo.path (f : FileInfo) : List UInt8 := 47 :: f.name

/-- An archive whose names can be told apart by the callbacks. -/
structure Archive extends Configs where
  nonempty : ∀ f ∈ files, f.name ≠ []
  distinct : files.Pairwise fun f g => f.name.take PATH_MAX ≠ g.name.take PATH_MAX

/-- How much of a file of `fileSize` bytes a read of `size` bytes at `offset` delivers. -/
def count (fileSize size offset : ℕ) : ℕ := min size (fileSize-offset)

namespace Configs

variable (c : Configs)

def start (i : ℕ) : ℕ := c.offset.toNat + ((c.files.take i).map fun f => f.size.toNat).sum

def content (i : Fin c.files.length) : List UInt8 :=
  (c.data.drop (c.start i)).take c.files[i].size.toNat

end Configs

section Reading

variable {c : Configs} {f : FileInfo} {path : List UInt8} {size : UInt64} {offset : Int64}
  {i : Fin c.files.length}

theorem toNat_sum (l : List FileInfo) (h : (l.map fun f => f.size.toNat).sum < 2^64) :
    (l.map FileInfo.size).sum.toNat = (l.map fun f => f.size.toNat).sum := by
  induction l with
  | nil => rfl
  | cons f l ih =>
    simp only [List.map_cons,List.sum_cons] at h ⊢
    rw [UInt64.toNat_add,ih (by omega),Nat.mod_eq_of_lt h]

theorem Configs.split (c : Configs) (i : Fin c.files.length) :
    c.files = c.files.take i ++ c.files[i] :: c.files.drop (i+1) := by simp

theorem Configs.start_add_size_le (c : Configs) (i : Fin c.files.length) :
    c.start i + c.files[i].size.toNat ≤ c.data.length := by
  have hholds := c.holds
  rw [c.split i] at hholds
  simp only [List.map_append,List.map_cons,List.sum_append,List.sum_cons] at hholds
  rw [Configs.start]
  omega

theorem Configs.start_le (c : Configs) (i j : Fin c.files.length) (h : i < j) :
    c.start i + c.files[i].size.toNat ≤ c.start j := by
  have htake : c.files.take i ++ [c.files[i]] = c.files.take (i+1) := by simp
  have hprefix : c.files.take (i+1) <+: c.files.take j := List.take_prefix_take_left h
  obtain ⟨rest,hrest⟩ := hprefix
  rw [Configs.start,Configs.start,← hrest,← htake]
  simp only [List.map_append,List.sum_append,List.map_cons,List.map_nil,List.sum_cons,List.sum_nil]
  omega

theorem Configs.length_content (c : Configs) (i : Fin c.files.length) :
    (c.content i).length = c.files[i].size.toNat := by
  have h := c.start_add_size_le i
  rw [Configs.content,List.length_take,List.length_drop]
  omega

theorem Configs.size_lt (c : Configs) (i : Fin c.files.length) : c.files[i].size.toNat < 2^63 := by
  have h := c.start_add_size_le i
  have hs := c.small
  omega

/-- The slice starts after the files that do not match. -/
theorem readLoop_append (c : Configs) (size : UInt64) (offset : Int64) {pre : List FileInfo}
    (post : List FileInfo) (hpre : ∀ g ∈ pre, ¬ g.matches path) (hf : f.matches path) {k : ℕ}
    (hk : k + pre.length ≤ INT_MAX) (d : UInt64) :
    readLoop c path size offset k d (pre ++ f :: post) =
      readFile c f size offset (d + (pre.map FileInfo.size).sum) := by
  induction pre generalizing k d with
  | nil => simp [readLoop,hf]
  | cons g pre ih =>
    have hg := hpre g (by simp)
    rw [List.length_cons] at hk
    have hne : k ≠ INT_MAX := by omega
    have hrest := ih (fun g' hg' => hpre g' (by simp [hg'])) (by omega : k+1 + _ ≤ _) (d + g.size)
    simp only [List.cons_append,readLoop,hg,hne,if_false,hrest,List.map_cons,List.sum_cons,
      UInt64.add_assoc]

theorem getattrLoop_append {pre : List FileInfo} (post : List FileInfo)
    (hpre : ∀ g ∈ pre, ¬ g.matches path) (hf : f.matches path) {k : ℕ}
    (hk : k + pre.length ≤ INT_MAX) : getattrLoop path k (pre ++ f :: post) =
      some (.ok ⟨2,S_IFREG ||| 0o444,wrap 64 f.size.toNat⟩) := by
  induction pre generalizing k with
  | nil => simp [getattrLoop,hf]
  | cons g pre ih =>
    have hg := hpre g (by simp)
    rw [List.length_cons] at hk
    have hne : k ≠ INT_MAX := by omega
    have hrest := ih (fun g' hg' => hpre g' (by simp [hg'])) (by omega : k+1 + _ ≤ _)
    simp only [List.cons_append,getattrLoop,hg,hne,if_false,hrest]

theorem readLoop_overflow (c : Configs) (size : UInt64) (offset : Int64) {pre : List FileInfo}
    (post : List FileInfo) (hpre : ∀ g ∈ pre, ¬ g.matches path) {k : ℕ} (hle : k ≤ INT_MAX)
    (hk : INT_MAX < k + pre.length) (d : UInt64) :
    readLoop c path size offset k d (pre ++ post) = none := by
  induction pre generalizing k d with
  | nil => simp only [List.length_nil] at hk; omega
  | cons g pre ih =>
    have hg := hpre g (by simp)
    rw [List.length_cons] at hk
    simp only [List.cons_append,readLoop,hg,if_false]
    split_ifs with hmax
    · rfl
    · exact ih (fun g' hg' => hpre g' (by simp [hg'])) (by omega) (by omega) _

theorem slice_eq (data : List UInt8) {start fileSize offset n : ℕ} (h : n ≤ fileSize-offset) :
    (data.drop (start+offset)).take n = (((data.drop start).take fileSize).drop offset).take n := by
  rw [List.drop_take,List.take_take,List.drop_drop,min_eq_left h]

/-- The size that is left after the comparison in unsigned arithmetic. -/
theorem clipped_size (size : UInt64) {fileSize o : UInt64} (h : o ≤ fileSize) :
    (if fileSize - o < size then fileSize - o else size).toNat =
      count fileSize.toNat size.toNat o.toNat := by
  have hsub := UInt64.toNat_sub_of_le _ _ h
  rw [count]
  split_ifs with hlt
  · rw [UInt64.lt_iff_toNat_lt] at hlt
    omega
  · rw [UInt64.lt_iff_toNat_lt] at hlt
    omega

theorem readFile_eq (f : FileInfo) (size d : UInt64) (h0 : 0 ≤ offset)
    (hfit : c.offset.toNat + d.toNat + f.size.toNat ≤ c.data.length) :
    readFile c f size offset d = some
      ⟨wrap 32 (count f.size.toNat size.toNat offset.toNatClampNeg),
        (((c.data.drop (c.offset.toNat + d.toNat)).take f.size.toNat).drop offset.toNatClampNeg).take
          (count f.size.toNat size.toNat offset.toNatClampNeg)⟩ := by
  have hoff : offset.toUInt64.toNat = offset.toNatClampNeg := Int64.toNat_toUInt64_of_le h0
  by_cases hlt : f.size < offset.toUInt64
  · -- the offset is behind the end
    rw [readFile,if_pos hlt]
    rw [UInt64.lt_iff_toNat_lt,hoff] at hlt
    have hcount : count f.size.toNat size.toNat offset.toNatClampNeg = 0 := by
      rw [count]
      omega
    rw [hcount,List.take_zero]
    rfl
  · have hle : offset.toUInt64 ≤ f.size := UInt64.not_lt.mp hlt
    have hclip := clipped_size size hle
    rw [UInt64.le_iff_toNat_le,hoff] at hle
    rw [hoff] at hclip
    have hcount : count f.size.toNat size.toNat offset.toNatClampNeg ≤
        f.size.toNat - offset.toNatClampNeg := min_le_right _ _
    have hcopy : memcpy c.data (c.offset.toNat + d.toNat + offset.toNatClampNeg)
        (count f.size.toNat size.toNat offset.toNatClampNeg) =
          some ((c.data.drop (c.offset.toNat + d.toNat + offset.toNatClampNeg)).take
            (count f.size.toNat size.toNat offset.toNatClampNeg)) := if_pos (by omega)
    rw [slice_eq c.data hcount] at hcopy
    simp only [readFile,hlt,if_false,hclip,hcopy,Option.map_some]

end Reading

section Archives

variable (a : Archive) (i : Fin a.files.length)

theorem matches_path_iff (f g : FileInfo) :
    g.matches f.path ↔ f.name.take PATH_MAX = g.name.take PATH_MAX :=
  strncmp_eq_zero_iff f.noZero g.noZero

theorem matches_self (f : FileInfo) : f.matches f.path := (matches_path_iff f f).mpr rfl

theorem path_ne_root {f : FileInfo} (h : f.name ≠ []) : f.path ≠ root := by
  simpa [FileInfo.path,root] using h

theorem Archive.path_ne_root : a.files[i].path ≠ root :=
  ArchiveFS.path_ne_root (a.nonempty _ (List.getElem_mem i.isLt))

theorem Archive.not_matches_before : ∀ g ∈ a.files.take i, ¬ g.matches a.files[i].path := by
  intro g hg hm
  have hd := a.distinct
  rw [a.split i] at hd
  exact (List.pairwise_append.mp hd).2.2 g hg _ List.mem_cons_self
    ((matches_path_iff _ _).mp hm).symm

theorem Archive.length_before (hi : i ≤ INT_MAX) : 0 + (a.files.take i).length ≤ INT_MAX := by
  rw [List.length_take,Nat.zero_add]
  exact (min_le_left _ _).trans hi

theorem Archive.read_eq (hi : i ≤ INT_MAX) (size : UInt64) {offset : Int64} (h0 : 0 ≤ offset) :
    readCallback a.toConfigs a.files[i].path size offset = some
      ⟨wrap 32 (count a.files[i].size.toNat size.toNat offset.toNatClampNeg),
        ((a.content i).drop offset.toNatClampNeg).take
          (count a.files[i].size.toNat size.toNat offset.toNatClampNeg)⟩ := by
  have hfit := a.start_add_size_le i
  have hsmall := a.small
  have hsum := toNat_sum (a.files.take i) (by rw [Configs.start] at hfit; omega)
  have hfile := readFile_eq (c := a.toConfigs) a.files[i] size
    ((a.files.take i).map FileInfo.size).sum h0
    (by rw [hsum]; rwa [Configs.start] at hfit)
  rw [hsum] at hfile
  rw [readCallback,if_neg (a.path_ne_root i)]
  have hloop := readLoop_append a.toConfigs size offset (a.files.drop (i+1))
    (a.not_matches_before i) (matches_self a.files[i]) (a.length_before i hi) 0
  rw [← a.split i,UInt64.zero_add,hfile] at hloop
  exact hloop

theorem Archive.getattr_eq (hi : i ≤ INT_MAX) : getattrCallback a.toConfigs a.files[i].path =
    some (.ok ⟨2,S_IFREG ||| 0o444,a.files[i].size.toNat⟩) := by
  have hloop := getattrLoop_append (a.files.drop (i+1)) (a.not_matches_before i)
    (matches_self a.files[i]) (a.length_before i hi)
  rw [← a.split i] at hloop
  have hlt := a.size_lt i
  rw [getattrCallback,if_neg (a.path_ne_root i),hloop]
  simp only [wrap_eq (w := 63) (x := (a.files[i].size.toNat : ℤ)) (by omega) (by omega)]

theorem advance {offset : Int64} {n : ℕ} (h0 : 0 ≤ offset) (h : offset.toNatClampNeg + n < 2^63) :
    0 ≤ offset + Int64.ofInt n ∧ (offset + Int64.ofInt n).toNatClampNeg = offset.toNatClampNeg + n := by
  have hpos : 0 ≤ offset.toInt := Int64.le_iff_toInt_le.mp h0
  have hclamp : offset.toInt.toNat = offset.toNatClampNeg := rfl
  have hsize : Int64.size = 2^64 := rfl
  have hsum : (offset + Int64.ofInt n).toInt = offset.toInt + n := by
    rw [Int64.toInt_add,Int64.toInt_ofInt,hsize,Int.add_bmod_bmod]
    exact Int.bmod_eq_of_le (by omega) (by omega)
  refine ⟨Int64.le_iff_toInt_le.mpr ?_,?_⟩
  · rw [hsum]
    exact Int.add_nonneg hpos (Int.natCast_nonneg n)
  · rw [← Int64.toNat_toInt,hsum]
    omega

theorem Archive.readSequence_eq (hi : i ≤ INT_MAX) (sizes : List UInt64) (hsizes : ∀ size ∈ sizes, size.toNat < 2^31)
    {offset : Int64} (h0 : 0 ≤ offset) (hle : offset.toNatClampNeg ≤ a.files[i].size.toNat) :
    readSequence a.toConfigs a.files[i].path sizes offset = some
      ⟨(min (sizes.map UInt64.toNat).sum (a.files[i].size.toNat-offset.toNatClampNeg) : ℕ),
        ((a.content i).drop offset.toNatClampNeg).take (sizes.map UInt64.toNat).sum⟩ := by
  induction sizes generalizing offset with
  | nil => simp [readSequence]
  | cons size sizes ih =>
    have hsize := hsizes size (by simp)
    have hlt := a.size_lt i
    set k := offset.toNatClampNeg with hk
    set n := count a.files[i].size.toNat size.toNat k with hn
    have hn' : n = min size.toNat (a.files[i].size.toNat-k) := hn
    have hwrap : wrap 32 (n : ℤ) = n := wrap_eq (by omega) (by omega)
    obtain ⟨hpos,hnext⟩ := advance (n := n) h0 (by omega)
    have hrest := ih (fun x hx => hsizes x (by simp [hx])) hpos (by omega)
    have hlen : ((a.content i).drop k).length = a.files[i].size.toNat-k := by
      rw [List.length_drop,a.length_content i]
    have hbytes : ((a.content i).drop k).take n ++
        ((a.content i).drop (k+n)).take (sizes.map UInt64.toNat).sum =
          ((a.content i).drop k).take (size.toNat + (sizes.map UInt64.toNat).sum) := by
      rw [← List.drop_drop,← List.take_add]
      obtain hc | hc := Nat.le_total size.toNat (a.files[i].size.toNat-k)
      · rw [hn',min_eq_left hc]
      · rw [List.take_of_length_le (by omega),List.take_of_length_le (by omega)]
    rw [readSequence,a.read_eq i hi size h0,Option.bind_some,hwrap,hrest]
    have htotal : (n : ℤ) +
        (min (sizes.map UInt64.toNat).sum (a.files[i].size.toNat-(k+n)) : ℕ) =
          (min (size.toNat + (sizes.map UInt64.toNat).sum) (a.files[i].size.toNat-k) : ℕ) := by
      omega
    rw [hnext,Option.map_some,hbytes,htotal,List.map_cons,List.sum_cons]

end Archives

structure ReadsFile (a : Archive) (i : Fin a.files.length) : Prop where
  read : ∀ size offset, 0 ≤ offset → readCallback a.toConfigs a.files[i].path size offset = some
    ⟨wrap 32 (count a.files[i].size.toNat size.toNat offset.toNatClampNeg),
      ((a.content i).drop offset.toNatClampNeg).take
        (count a.files[i].size.toNat size.toNat offset.toNatClampNeg)⟩
  returned : ∀ size offset, 0 ≤ offset →
    min (size.toNat : ℤ) (a.files[i].size.toNat - offset.toInt) < 2^31 →
      (readCallback a.toConfigs a.files[i].path size offset).map ReadResult.ret =
        some (max 0 (min (size.toNat : ℤ) (a.files[i].size.toNat - offset.toInt)))
  slice : (a.content i).length = a.files[i].size.toNat
  disjoint : ∀ j : Fin a.files.length, i < j → a.start i + a.files[i].size.toNat ≤ a.start j
  getattr : getattrCallback a.toConfigs a.files[i].path =
    some (.ok ⟨2,S_IFREG ||| 0o444,a.files[i].size.toNat⟩)
  sequence : ∀ sizes : List UInt64, (∀ size ∈ sizes, size.toNat < 2^31) →
    readSequence a.toConfigs a.files[i].path sizes 0 = some
      ⟨(min (sizes.map UInt64.toNat).sum a.files[i].size.toNat : ℕ),
        (a.content i).take (sizes.map UInt64.toNat).sum⟩
  whole : ∀ sizes : List UInt64, (∀ size ∈ sizes, size.toNat < 2^31) →
    a.files[i].size.toNat ≤ (sizes.map UInt64.toNat).sum →
      readSequence a.toConfigs a.files[i].path sizes 0 = some ⟨a.files[i].size.toNat,a.content i⟩

theorem reads_file (a : Archive) (i : Fin a.files.length) (hi : i ≤ INT_MAX) : ReadsFile a i where
  read size offset h0 := a.read_eq i hi size h0
  returned size offset h0 hlt := by
    have hpos : 0 ≤ offset.toInt := Int64.le_iff_toInt_le.mp h0
    have hclamp : offset.toInt.toNat = offset.toNatClampNeg := rfl
    have hcount : (count a.files[i].size.toNat size.toNat offset.toNatClampNeg : ℤ) =
        max 0 (min (size.toNat : ℤ) (a.files[i].size.toNat - offset.toInt)) := by
      rw [count]
      omega
    rw [a.read_eq i hi size h0,Option.map_some,hcount,wrap_eq (w := 31) (by omega) (by omega)]
  slice := a.length_content i
  disjoint j hij := a.start_le i j hij
  getattr := a.getattr_eq i hi
  sequence sizes hsizes := a.readSequence_eq i hi sizes hsizes (by decide) (Nat.zero_le _)
  whole sizes hsizes hsum := by
    have h := a.readSequence_eq i hi sizes hsizes (show (0 : Int64) ≤ 0 by decide) (Nat.zero_le _)
    have hlen := a.length_content i
    have h0 : (0 : Int64).toNatClampNeg = 0 := rfl
    rw [h,h0,List.drop_zero,List.take_of_length_le (by omega),Nat.sub_zero,min_eq_right hsum]

/-- The sample archive with its two files -/
def sample : Archive where
  files := [⟨[97],2,by decide⟩,⟨[98],3,by decide⟩]
  data := [10,97,65,98,98,66]
  offset := 1
  small := by decide
  holds := by decide
  nonempty := by decide
  distinct := by decide

theorem reads_file_sample : ReadsFile sample ⟨1,by decide⟩ :=
  reads_file sample ⟨1,by decide⟩ (by decide)

example : readCallback sample.toConfigs [47,98] 100 1 = some ⟨2,[98,66]⟩ := by decide

/-- The count that a read is to return, taken for every configuration. -/
def ReturnsCount (c : Configs) : Prop :=
  ∀ (i : Fin c.files.length) (size : UInt64) (offset : Int64), 0 ≤ offset →
    (readCallback c c.files[i].path size offset).map ReadResult.ret =
      some (max 0 (min (size.toNat : ℤ) (c.files[i].size.toNat - offset.toInt)))

def NamesDistinct (c : Configs) : Prop := (c.files.map FileInfo.name).Nodup

def unnamed : Configs := ⟨[⟨[],1,by simp⟩],[7],0,by decide,by decide⟩

def longName (n : ℕ) (c : UInt8) : List UInt8 := List.replicate n 97 ++ [c]

theorem zero_notMem_longName {n : ℕ} {c : UInt8} (h : c ≠ 0) : 0 ∉ longName n c := by
  simp [longName,h.symm]

theorem take_longName (n : ℕ) (c : UInt8) : (longName n c).take n = List.replicate n 97 := by
  simp [longName]

def twins : Configs :=
  ⟨[⟨longName PATH_MAX 98,0,zero_notMem_longName (by decide)⟩,
    ⟨longName PATH_MAX 99,1,zero_notMem_longName (by decide)⟩],[7],0,by decide,by decide⟩

def zeros (n : ℕ) : List UInt8 := List.replicate n 0

theorem length_zeros (n : ℕ) : (zeros n).length = n := List.length_replicate

/-- One file that is too long for the count to be an `int` -/
def huge : Archive where
  files := [⟨[97],2147483648,by decide⟩]
  data := zeros 2147483648
  offset := 0
  small := by rw [length_zeros]; decide
  holds := by rw [length_zeros]; decide
  nonempty := by simp
  distinct := by simp

/-- Names of 32 bytes, one for each number below 2^32 -/
def bits (k : ℕ) : List UInt8 := List.ofFn fun j : Fin 32 => if k.testBit j then 98 else 97

theorem zero_notMem_bits (k : ℕ) : 0 ∉ bits k := by
  intro h
  obtain ⟨j,hj⟩ := List.mem_ofFn.mp h
  split_ifs at hj <;> exact absurd hj (by decide)

theorem length_bits (k : ℕ) : (bits k).length = 32 := List.length_ofFn

theorem take_bits (k : ℕ) : (bits k).take PATH_MAX = bits k :=
  List.take_of_length_le (by rw [length_bits]; decide)

theorem bits_injective {k l : ℕ} (hk : k < 2^32) (hl : l < 2^32) (h : bits k = bits l) : k = l := by
  have hfn := List.ofFn_injective h
  refine Nat.eq_of_testBit_eq fun j => ?_
  by_cases hj : j < 32
  · have hbit := congrFun hfn ⟨j,hj⟩
    cases hk' : k.testBit j <;> cases hl' : l.testBit j <;> simp_all
  · have hpow : 2^32 ≤ 2^j := Nat.pow_le_pow_right (by decide) (by omega)
    rw [Nat.testBit_lt_two_pow (hk.trans_le hpow),Nat.testBit_lt_two_pow (hl.trans_le hpow)]

/-- `n` empty files with names of their own -/
def numbered (n : ℕ) (hn : n ≤ 2^32) : Archive where
  files := (List.range n).map fun k => ⟨bits k,0,zero_notMem_bits k⟩
  data := []
  offset := 0
  small := by decide
  holds := by simp [Function.comp_def]
  nonempty f hf := by
    obtain ⟨k,_,rfl⟩ := List.mem_map.mp hf
    exact List.ne_nil_of_length_pos (by simp [length_bits])
  distinct := by
    refine List.pairwise_map.mpr (List.Pairwise.imp_of_mem ?_ List.pairwise_lt_range)
    intro k l hk hl hlt h
    rw [take_bits,take_bits] at h
    have hk := List.mem_range.mp hk
    have hl := List.mem_range.mp hl
    exact hlt.ne (bits_injective (by omega) (by omega) h)

theorem length_numbered (n : ℕ) (hn : n ≤ 2^32) : (numbered n hn).files.length = n := by
  simp [numbered]

theorem not_returnsCount_unnamed : ¬ ReturnsCount unnamed := fun h =>
  absurd (h ⟨0,by decide⟩ 1 0 (by decide)) (by decide)

theorem not_returnsCount_twins : ¬ ReturnsCount twins := by
  intro h
  have hret := h ⟨1,by decide⟩ 1 0 (by decide)
  set g := twins.files[(⟨1,by decide⟩ : Fin twins.files.length)]
  have hmatch : (twins.files.get ⟨0,by decide⟩).matches g.path :=
    (matches_path_iff _ _).mpr ((take_longName _ _).trans (take_longName _ _).symm)
  have hroot : g.path ≠ root := path_ne_root (List.append_ne_nil_of_right_ne_nil _ (by decide))
  have hread : readCallback twins g.path 1 0 = some ⟨0,[]⟩ := by
    rw [readCallback,if_neg hroot]
    have hloop := readLoop_append twins 1 0 [g] (List.forall_mem_nil _) hmatch (Nat.zero_le _) 0
    exact hloop.trans (by decide)
  rw [hread] at hret
  exact absurd hret (by decide)

theorem not_returnsCount_of_large (a : Archive) (i : Fin a.files.length) (hi : i ≤ INT_MAX)
    (h : 2^31 ≤ a.files[i].size.toNat) : ¬ ReturnsCount a.toConfigs := by
  intro hcount
  have hret := hcount i a.files[i].size 0 (by decide)
  have h0 : (0 : Int64).toInt = 0 := rfl
  rw [a.read_eq i hi _ (by decide),Option.map_some,Option.some.injEq,h0,sub_zero,min_self] at hret
  have hwrap : ∀ x, wrap 32 x < 2^31 := wrap_lt 31
  dsimp only at hret
  have hlt := hwrap (count a.files[i].size.toNat a.files[i].size.toNat (0 : Int64).toNatClampNeg)
  rw [hret] at hlt
  omega

theorem not_returnsCount_of_many (a : Archive) (i : Fin a.files.length) (hi : INT_MAX < i) :
    ¬ ReturnsCount a.toConfigs := by
  intro hcount
  have hret := hcount i 0 0 (by decide)
  have hlen : (a.files.take i).length = i := by
    rw [List.length_take]
    exact min_eq_left i.isLt.le
  have hloop := readLoop_overflow a.toConfigs 0 0 (a.files[i] :: a.files.drop (i+1))
    (a.not_matches_before i) (Nat.zero_le _) (by omega) 0
  rw [← a.split i] at hloop
  rw [readCallback,if_neg (a.path_ne_root i),hloop] at hret
  cases hret

theorem Archive.namesDistinct (a : Archive) : NamesDistinct a.toConfigs :=
  List.pairwise_map.mpr (a.distinct.imp fun h he => h (congrArg (List.take PATH_MAX) he))

/-- Distinct names are not enough for the reads to return the count. -/
theorem distinct_names_not_enough :
    (NamesDistinct unnamed ∧ ¬ ReturnsCount unnamed) ∧
    (NamesDistinct twins ∧ ¬ ReturnsCount twins) ∧
    (NamesDistinct huge.toConfigs ∧ ¬ ReturnsCount huge.toConfigs) ∧
    NamesDistinct (numbered (2^31+1) (by decide)).toConfigs ∧
      ¬ ReturnsCount (numbered (2^31+1) (by decide)).toConfigs := by
  have hne : longName PATH_MAX 98 ≠ longName PATH_MAX 99 := fun h =>
    absurd (List.append_cancel_left h) (by decide)
  have htwins : NamesDistinct twins :=
    List.nodup_cons.mpr ⟨fun hm => hne (List.mem_singleton.mp hm),List.nodup_singleton _⟩
  have hhuge : ¬ ReturnsCount huge.toConfigs :=
    not_returnsCount_of_large huge ⟨0,by decide⟩ (Nat.zero_le _) (by decide)
  have hmany : ¬ ReturnsCount (numbered (2^31+1) (by decide)).toConfigs :=
    not_returnsCount_of_many _ ⟨2^31,by rw [length_numbered]; decide⟩ (by decide : INT_MAX < 2^31)
  exact ⟨⟨List.nodup_singleton _,not_returnsCount_unnamed⟩,⟨htwins,not_returnsCount_twins⟩,
    ⟨huge.namesDistinct,hhuge⟩,Archive.namesDistinct _,hmany⟩

end ArchiveFS
end SomeCode
