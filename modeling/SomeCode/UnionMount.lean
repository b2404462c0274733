import SomeCode.MachineInt
import SomeCode.UnionLookup
import Mathlib

/-! The callbacks of the union file system in `fuse_c_example/main.c`, for a path under the
mount point. The lookup gives back the relative path itself when no input directory has it,
and the callbacks then take it against the working directory. -/
namespace SomeCode
namespace UnionMount

open FsPath MachineInt UnionLookup

def S_IFMT : ℕ := 0o170000

def S_IFREG : ℕ := 0o100000

def S_IFDIR : ℕ := 0o040000

def isReg (mode : ℕ) : Bool := mode &&& S_IFMT = S_IFREG

def isDir (mode : ℕ) : Bool := mode &&& S_IFMT = S_IFDIR

structure Node (Time : Type*) where
  mode : ℕ
  time : Time
  content : List UInt8
  small : content.length < 2^63

/-- What absolute paths lead to, and the working directory -/
structure World (Time : Type*) where
  node : Path → Option (Node Time)
  cwd : Path

structure Stat where
  mode : ℕ
  size : ℕ
  deriving DecidableEq

structure ReadResult where
  ret : ℤ
  bytes : List UInt8
  deriving DecidableEq

variable {Time : Type*}

/-- The path from the working directory on -/
def World.fromCwd (w : World Time) (p : Path) : Path :=
  if p.hasRootDirectory then p else w.cwd / p

/-- `std::filesystem::absolute`, which throws at the empty path -/
def World.absolute (w : World Time) (p : Path) : Except FilesystemError Path :=
  if p = Path.empty then .error ⟨p⟩ else .ok (w.fromCwd p)

/-- What a path leads to; the empty path leads nowhere. -/
def World.lookup (w : World Time) (p : Path) : Option (Node Time) :=
  if p = Path.empty then none else w.node (w.fromCwd p)

def World.times (w : World Time) : FileSystem Time := fun p => (w.lookup p).map Node.time

/-- `stat` fills the structure where it succeeds; its result is not looked at. -/
def World.stat (w : World Time) (p : Path) (stbuf : Stat) : Stat :=
  match w.lookup p with
  | some n => ⟨n.mode,n.content.length⟩
  | none => stbuf

variable [LT Time] [DecidableLT Time]

def skipSlash (path : List UInt8) : Path := ⟨path.tail⟩

def getAttrCallback (w : World Time) (epoch : Time) (inDirs : List Path) (path : List UInt8)
    (stbuf : Stat) : Except FilesystemError (ℤ × Stat) :=
  (getRealPathAndLastTime w.times epoch inDirs (skipSlash path)).bind fun realPath =>
    (w.absolute realPath).map fun full =>
      let stbuf := w.stat full stbuf
      let stbuf := if isReg stbuf.mode then { stbuf with mode := stbuf.mode &&& (S_IFREG ||| 0o444) }
        else stbuf
      let stbuf := if isDir stbuf.mode then { stbuf with mode := stbuf.mode &&& (S_IFDIR ||| 0o555) }
        else stbuf
      (0,stbuf)

/-- The comparison takes the offset as unsigned, and the size returned becomes an `int`. -/
def readFile (content : List UInt8) (size : UInt64) (offset : Int64) : ReadResult :=
  let len := UInt64.ofNat content.length
  if len ≤ offset.toUInt64 then ⟨0,[]⟩
  else
    let size := if offset.toUInt64 + size ≤ len then size else len - offset.toUInt64
    ⟨wrap 32 size.toNat,(content.drop offset.toNatClampNeg).take size.toNat⟩

def readCallback (w : World Time) (epoch : Time) (inDirs : List Path) (path : List UInt8)
    (size : UInt64) (offset : Int64) : Except FilesystemError ReadResult :=
  (getRealPathAndLastTime w.times epoch inDirs (skipSlash path)).map fun realPath =>
    match w.lookup realPath with
    | some n => if isReg n.mode then readFile n.content size offset else ⟨0,[]⟩
    | none => ⟨0,[]⟩

/-- No input directory has the path. -/
def Missing (w : World Time) (inDirs : List Path) (path : List UInt8) : Prop :=
  ∀ dir ∈ inDirs, pathExists w.times (absolutePath dir (skipSlash path)) = false

/-- The callbacks refuse the path: an error instead of the attributes, and no bytes. -/
structure Refused (w : World Time) (epoch : Time) (inDirs : List Path) (path : List UInt8) :
    Prop where
  attr : ∀ stbuf, ∃ r, getAttrCallback w epoch inDirs path stbuf = .ok r ∧ r.1 ≠ 0
  read : ∀ size offset, ∃ r, readCallback w epoch inDirs path size offset = .ok r ∧ r.bytes = []

section Missing

variable {w : World Time} {epoch : Time} {inDirs : List Path} {path : List UInt8}

theorem fold_missing {fs : FileSystem Time} {relativePath : Path} (s : Locals Time)
    (h : ∀ dir ∈ inDirs, pathExists fs (absolutePath dir relativePath) = false) :
    inDirs.foldlM (realPathStep fs relativePath) s = .ok s := by
  induction inDirs with
  | nil => rfl
  | cons dir inDirs ih =>
    have hdir := h dir (by simp)
    have hrest := ih fun d hd => h d (by simp [hd])
    rw [List.foldlM_cons,realPathStep,hdir]
    exact hrest

/-- The lookup falls back to the relative path. -/
theorem realPath_missing (h : Missing w inDirs path) :
    getRealPathAndLastTime w.times epoch inDirs (skipSlash path) = .ok (skipSlash path) := by
  rw [getRealPathAndLastTime,fold_missing _ h]
  rfl

theorem getAttr_missing (h : Missing w inDirs path) (hne : skipSlash path ≠ Path.empty)
    (stbuf : Stat) : ∃ st, getAttrCallback w epoch inDirs path stbuf = .ok (0,st) := by
  rw [getAttrCallback,realPath_missing h]
  simp only [Except.bind,World.absolute,if_neg hne]
  exact ⟨_,rfl⟩

theorem getAttr_root (h : Missing w inDirs path) (hroot : skipSlash path = Path.empty)
    (stbuf : Stat) : getAttrCallback w epoch inDirs path stbuf = .error ⟨Path.empty⟩ := by
  rw [getAttrCallback,realPath_missing h,hroot]
  rfl

theorem readFile_eq_nil_iff {content : List UInt8} (hlen : content.length < 2^63) (size : UInt64)
    {offset : Int64} (h0 : 0 ≤ offset) : (readFile content size offset).bytes = [] ↔
      content.length ≤ offset.toNatClampNeg ∨ size = 0 := by
  have hoff : offset.toUInt64.toNat = offset.toNatClampNeg := Int64.toNat_toUInt64_of_le h0
  have hl : (UInt64.ofNat content.length).toNat = content.length :=
    UInt64.toNat_ofNat_of_lt' (by rw [UInt64.size]; omega)
  by_cases hle : UInt64.ofNat content.length ≤ offset.toUInt64
  · rw [readFile,if_pos hle]
    rw [UInt64.le_iff_toNat_le,hoff,hl] at hle
    simp [hle]
  · rw [readFile,if_neg hle]
    rw [UInt64.le_iff_toNat_le,hoff,hl] at hle
    have hrest : (UInt64.ofNat content.length - offset.toUInt64).toNat ≠ 0 := by
      rw [UInt64.toNat_sub_of_le _ _ (by rw [UInt64.le_iff_toNat_le,hoff,hl]; omega),hoff,hl]
      omega
    simp only [List.take_eq_nil_iff,List.drop_eq_nil_iff]
    split_ifs with hfit
    · rw [← UInt64.toNat_inj,UInt64.toNat_zero]
      tauto
    · have hne : size ≠ 0 := by
        rintro rfl
        rw [UInt64.add_zero,UInt64.le_iff_toNat_le,hoff,hl] at hfit
        omega
      tauto

theorem read_missing (h : Missing w inDirs path) (size : UInt64) {offset : Int64}
    (h0 : 0 ≤ offset) :
    (∃ r, readCallback w epoch inDirs path size offset = .ok r ∧ r.bytes = []) ↔
      ∀ n, w.lookup (skipSlash path) = some n → isReg n.mode →
        n.content.length ≤ offset.toNatClampNeg ∨ size = 0 := by
  rw [readCallback,realPath_missing h]
  simp only [Except.map,Except.ok.injEq,exists_eq_left']
  cases hn : w.lookup (skipSlash path) with
  | none => simp
  | some n =>
    simp only [Option.some.injEq,forall_eq']
    split_ifs with hreg
    · simp only [hreg,forall_const]
      exact readFile_eq_nil_iff n.small size h0
    · simp [hreg]

end Missing

/-- What becomes of a path that no input directory has: no error is returned, and a read is empty
only as far as the working directory has nothing to read there. For the root of the mount, when no
input directory is left, an exception leaves the callback. -/
structure Fallback (w : World Time) (epoch : Time) (inDirs : List Path) (path : List UInt8) :
    Prop where
  refused : ¬ Refused w epoch inDirs path
  attr : skipSlash path ≠ Path.empty →
    ∀ stbuf, ∃ st, getAttrCallback w epoch inDirs path stbuf = .ok (0,st)
  root : skipSlash path = Path.empty →
    ∀ stbuf, getAttrCallback w epoch inDirs path stbuf = .error ⟨Path.empty⟩
  read : ∀ size offset, 0 ≤ offset →
    ((∃ r, readCallback w epoch inDirs path size offset = .ok r ∧ r.bytes = []) ↔
      ∀ n, w.lookup (skipSlash path) = some n → isReg n.mode →
        n.content.length ≤ offset.toNatClampNeg ∨ size = 0)

theorem never_refused (w : World Time) (epoch : Time) (inDirs : List Path) (path : List UInt8)
    (h : Missing w inDirs path) : Fallback w epoch inDirs path where
  refused hr := by
    obtain ⟨r,hr,hne⟩ := hr.attr ⟨0,0⟩
    by_cases hroot : skipSlash path = Path.empty
    · rw [getAttr_root h hroot] at hr
      cases hr
    · obtain ⟨st,hst⟩ := getAttr_missing h hroot ⟨0,0⟩
      rw [hst] at hr
      cases hr
      exact hne rfl
  attr := getAttr_missing h
  root := getAttr_root h
  read size _ h0 := read_missing h size h0

theorem small_nil : ([] : List UInt8).length < 2^63 := by decide

theorem small_sample : ([115] : List UInt8).length < 2^63 := by decide

def sampleWorld : World ℕ where
  node
    | ⟨[47,117]⟩ => some ⟨0o040755,1,[],small_nil⟩
    | ⟨[47,104,47,102]⟩ => some ⟨0o100644,1,[115],small_sample⟩
    | _ => none
  cwd := ⟨[47,104]⟩

theorem sample_missing : Missing sampleWorld [⟨[47,117]⟩] [47,102] := by
  intro dir hdir
  rw [List.mem_singleton.mp hdir]
  decide

theorem never_refused_sample : ¬ Refused sampleWorld 0 [⟨[47,117]⟩] [47,102] :=
  (never_refused sampleWorld 0 [⟨[47,117]⟩] [47,102] sample_missing).refused

/-- The file of the working directory can be read through the mount. -/
theorem reads_working_directory : Missing sampleWorld [⟨[47,117]⟩] [47,102] ∧
    getAttrCallback sampleWorld 0 [⟨[47,117]⟩] [47,102] ⟨0,0⟩ = .ok (0,⟨0o100444,1⟩) ∧
    (∃ r, readCallback sampleWorld 0 [⟨[47,117]⟩] [47,102] 1 0 = .ok r ∧ r.bytes = [115]) ∧
    ¬ Refused sampleWorld 0 [⟨[47,117]⟩] [47,102] := by
  have hattr : getAttrCallback sampleWorld 0 [⟨[47,117]⟩] [47,102] ⟨0,0⟩ =
      .ok (0,⟨0o100444,1⟩) := rfl
  refine ⟨sample_missing,hattr,⟨⟨1,[115]⟩,by decide,rfl⟩,fun h => ?_⟩
  obtain ⟨r,hr,hne⟩ := h.attr ⟨0,0⟩
  rw [hattr] at hr
  cases hr
  exact hne rfl

end UnionMount
end SomeCode
