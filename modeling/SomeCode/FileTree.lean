import SomeCode.FsPath
import Mathlib.Data.List.Nodup
import Mathlib.Tactic.Common

/-! Trees of regular files and directories, without links: what a path leads to, and what
the iterators of `std::filesystem` go over. The attributes of a node are any type. -/
namespace SomeCode
namespace FileTree

open FsPath

def dot : List UInt8 := [46]

def dotdot : List UInt8 := [46,46]

structure Name where
  bytes : List UInt8
  nonempty : bytes ≠ []
  noSlash : slash ∉ bytes
  ordinary : bytes ≠ dot ∧ bytes ≠ dotdot
  deriving DecidableEq

def Name.path (n : Name) : Path := ⟨n.bytes⟩

/-- The contents of a directory, entry by entry -/
inductive Forest (A : Type*)
  | nil
  | file (name : Name) (attr : A) (rest : Forest A)
  | dir (name : Name) (attr : A) (contents rest : Forest A)

inductive Entry (A : Type*)
  | file (attr : A)
  | dir (attr : A) (contents : Forest A)

variable {A : Type*}

namespace Forest

def names : Forest A → List Name
  | nil => []
  | file n _ rest => n :: rest.names
  | dir n _ _ rest => n :: rest.names

def get? (part : List UInt8) : Forest A → Option (Entry A)
  | nil => none
  | file n a rest => if n.bytes = part then some (.file a) else rest.get? part
  | dir n a contents rest => if n.bytes = part then some (.dir a contents) else rest.get? part

/-- What `recursive_directory_iterator` goes over, as names from the directory on -/
def walk : Forest A → List (List Name)
  | nil => []
  | file n _ rest => [n] :: rest.walk
  | dir n _ contents rest => [n] :: contents.walk.map (n :: ·) ++ rest.walk

/-- No name twice in any directory -/
def Ok : Forest A → Prop
  | nil => True
  | file n _ rest => n ∉ rest.names ∧ rest.Ok
  | dir n _ contents rest => n ∉ rest.names ∧ contents.Ok ∧ rest.Ok

end Forest

namespace Entry

def attr : Entry A → A
  | file a => a
  | dir a _ => a

def isDir : Entry A → Bool
  | file _ => false
  | dir _ _ => true

def child : Entry A → Name → Option (Entry A)
  | file _, _ => none
  | dir _ contents, n => contents.get? n.bytes

/-- What the names lead to, one after the other -/
def descend (e : Entry A) (names : List Name) : Option (Entry A) := names.foldlM child e

theorem descend_nil (e : Entry A) : e.descend [] = some e := rfl

theorem descend_cons (e : Entry A) (n : Name) (names : List Name) :
    e.descend (n :: names) = (e.child n).bind fun e' => e'.descend names := rfl

theorem descend_append (e : Entry A) (names names' : List Name) :
    e.descend (names ++ names') = (e.descend names).bind fun e' => e'.descend names' :=
  List.foldlM_append

end Entry

section Walk

variable {f : Forest A} {n : Name} {p : List Name}

theorem Name.bytes_injective {m n : Name} (h : m.bytes = n.bytes) : m = n := by
  cases m
  cases n
  cases h
  rfl

theorem Forest.head_mem_names (h : n :: p ∈ f.walk) : n ∈ f.names := by
  induction f with
  | nil => simp [walk] at h
  | file m a rest ih =>
    simp only [walk,List.mem_cons,List.cons.injEq] at h
    obtain ⟨rfl,-⟩ | h := h
    · exact List.mem_cons_self
    · exact List.mem_cons_of_mem _ (ih h)
  | dir m a contents rest _ ih =>
    simp only [walk,List.mem_cons,List.cons_append,List.mem_append,List.mem_map,List.cons.injEq] at h
    obtain ⟨rfl,-⟩ | ⟨q,-,rfl,-⟩ | h := h
    · exact List.mem_cons_self
    · exact List.mem_cons_self
    · exact List.mem_cons_of_mem _ (ih h)

theorem Forest.mem_names_iff : n ∈ f.names ↔ (f.get? n.bytes).isSome := by
  induction f with
  | nil => simp [names,get?]
  | file m a rest ih =>
    by_cases h : m.bytes = n.bytes
    · simp [names,get?,Name.bytes_injective h]
    · have hne : n ≠ m := fun he => h (he ▸ rfl)
      simp [names,get?,h,hne,ih]
  | dir m a contents rest _ ih =>
    by_cases h : m.bytes = n.bytes
    · simp [names,get?,Name.bytes_injective h]
    · have hne : n ≠ m := fun he => h (he ▸ rfl)
      simp [names,get?,h,hne,ih]

/-- The iterator goes over exactly what there is below the directory. -/
theorem Forest.mem_walk_iff (hf : f.Ok) (a : A) :
    p ∈ f.walk ↔ p ≠ [] ∧ ((Entry.dir a f).descend p).isSome := by
  induction f generalizing p a with
  | nil =>
    cases p with
    | nil => simp [walk]
    | cons n p => simp [walk,Entry.descend_cons,Entry.child,get?]
  | file m b rest ih =>
    obtain ⟨hm,hrest⟩ := hf
    cases p with
    | nil => simpa [walk] using ih hrest a (p := [])
    | cons n p =>
      by_cases h : m.bytes = n.bytes
      · obtain rfl := Name.bytes_injective h
        have hnot : m :: p ∉ rest.walk := fun hin => hm (head_mem_names hin)
        cases p with
        | nil => simp [walk,Entry.descend_cons,Entry.child,get?,Entry.descend_nil]
        | cons k p => simp [walk,hnot,Entry.descend_cons,Entry.child,get?]
      · have hne : n ≠ m := fun he => h (he ▸ rfl)
        have hih := ih hrest a (p := n :: p)
        simp only [Entry.descend_cons,Entry.child] at hih
        simp [walk,hne,Entry.descend_cons,Entry.child,get?,h,hih]
  | dir m b contents rest ihc ih =>
    obtain ⟨hm,hcontents,hrest⟩ := hf
    cases p with
    | nil => simpa [walk] using ih hrest a (p := [])
    | cons n p =>
      by_cases h : m.bytes = n.bytes
      · obtain rfl := Name.bytes_injective h
        have hnot : m :: p ∉ rest.walk := fun hin => hm (head_mem_names hin)
        have hih := ihc hcontents b (p := p)
        cases p with
        | nil => simp [walk,Entry.descend_cons,Entry.child,get?,Entry.descend_nil]
        | cons k p =>
          have hstep : (Entry.dir a (dir m b contents rest)).descend (m :: k :: p) =
              (Entry.dir b contents).descend (k :: p) := by
            rw [Entry.descend_cons]
            simp [Entry.child,get?]
          rw [hstep]
          simpa [walk,hnot] using hih
      · have hne : n ≠ m := fun he => h (he ▸ rfl)
        have hih := ih hrest a (p := n :: p)
        simp only [Entry.descend_cons,Entry.child] at hih
        simp [walk,hne,hne.symm,Entry.descend_cons,Entry.child,get?,h,hih]

end Walk

/-- The directory tree below a root -/
structure Volume (A : Type*) where
  attr : A
  contents : Forest A
  ok : contents.Ok

/-- An entry and the directories above it, the nearest first -/
structure Cursor (A : Type*) where
  entry : Entry A
  above : List (Entry A)

/-- One component of a path -/
def Cursor.step (c : Cursor A) (part : List UInt8) : Option (Cursor A) :=
  match c.entry with
  | .file _ => none
  | .dir _ contents =>
    if part = dot then some c
    else if part = dotdot then
      match c.above with
      | [] => some c
      | e :: above => some ⟨e,above⟩
    else (contents.get? part).map fun e => ⟨e,c.entry :: c.above⟩

/-- The components of a path as they are followed; a separator at the end asks for a
directory, as a dot would. -/
def parts (p : Path) : List (List UInt8) :=
  (p.native.splitOn slash).filter (· ≠ []) ++ if p.hasFilename then [] else [dot]

namespace Volume

/-- What an absolute path leads to -/
def lookup (t : Volume A) (p : Path) : Option (Entry A) :=
  if p.hasRootDirectory then
    ((parts p).foldlM Cursor.step ⟨.dir t.attr t.contents,[]⟩).map Cursor.entry
  else none

/-- The paths that `recursive_directory_iterator` gives for a directory, each one made by
appending a name -/
def walk (t : Volume A) (dir : Path) : List Path :=
  match t.lookup dir with
  | some (.dir _ contents) => contents.walk.map fun names => names.foldl (fun p n => p / n.path) dir
  | _ => []

end Volume

def relative (names : List Name) : Path := ⟨[slash].intercalate (names.map Name.bytes)⟩

/-- An absolute path that does not end in a separator -/
structure IsPlain (dir : Path) : Prop where
  absolute : dir.hasRootDirectory
  filename : dir.hasFilename

section Lookup

variable {t : Volume A} {dir : Path} {n : Name} {names : List Name}

theorem Name.getLast_ne_slash (n : Name) : n.bytes.getLast? ≠ some slash := fun h =>
  n.noSlash (List.mem_of_getLast? h)

theorem Name.path_hasRootDirectory (n : Name) : n.path.hasRootDirectory = false := by
  have hhead : n.bytes.head? ≠ some slash := fun hh => n.noSlash (List.mem_of_head? hh)
  simpa [Path.hasRootDirectory,Name.path] using hhead

theorem native_div (h : dir.hasFilename) (n : Name) :
    (dir / n.path).native = dir.native ++ slash :: n.bytes := by
  change (Path.append dir n.path).native = _
  rw [Path.append,if_neg (by simp [n.path_hasRootDirectory]),if_pos h]
  rfl

theorem length_lt_div (dir : Path) (n : Name) :
    dir.native.length < (dir / n.path).native.length := by
  have hpos := List.length_pos_of_ne_nil n.nonempty
  change _ < (Path.append dir n.path).native.length
  rw [Path.append,if_neg (by simp [n.path_hasRootDirectory])]
  split_ifs <;> simp only [List.length_append,List.length_cons,Name.path] <;> omega

theorem IsPlain.div (h : IsPlain dir) (n : Name) : IsPlain (dir / n.path) := by
  obtain ⟨c,rest,hcons⟩ := List.exists_cons_of_ne_nil (l := dir.native) (by
    intro he
    have hr := h.absolute
    simp [Path.hasRootDirectory,he] at hr)
  constructor
  · have hr := h.absolute
    simp only [Path.hasRootDirectory,native_div h.filename,hcons] at hr ⊢
    simpa using hr
  · obtain ⟨c,hc⟩ := Option.ne_none_iff_exists'.mp (mt List.getLast?_eq_none_iff.mp n.nonempty)
    have hne : c ≠ slash := fun he => n.getLast_ne_slash (he ▸ hc)
    simp [Path.hasFilename,native_div h.filename,List.getLast?_append,List.getLast?_cons,hc,hne]

theorem parts_div (h : IsPlain dir) (n : Name) : parts (dir / n.path) = parts dir ++ [n.bytes] := by
  rw [parts,parts,native_div h.filename,List.splitOn_append_cons_self,
    List.splitOn_eq_singleton n.noSlash,if_pos h.filename,if_pos (h.div n).filename]
  simp [n.nonempty]

theorem Cursor.step_name (c : Cursor A) (n : Name) :
    (c.step n.bytes).map Cursor.entry = c.entry.child n := by
  cases hc : c.entry with
  | file a => simp [step,hc,Entry.child]
  | dir a contents =>
    simp only [step,hc,n.ordinary.1,n.ordinary.2,if_false,Entry.child,Option.map_map]
    cases contents.get? n.bytes <;> rfl

theorem Volume.lookup_div (t : Volume A) (h : IsPlain dir) (n : Name) :
    t.lookup (dir / n.path) = (t.lookup dir).bind fun e => e.child n := by
  rw [lookup,lookup,if_pos (h.div n).absolute,if_pos h.absolute,parts_div h,List.foldlM_append]
  cases hc : (parts dir).foldlM Cursor.step ⟨.dir t.attr t.contents,[]⟩ with
  | none => simp
  | some c => simpa using c.step_name n

theorem IsPlain.foldl (h : IsPlain dir) (names : List Name) :
    IsPlain (names.foldl (fun p n => p / n.path) dir) := by
  induction names generalizing dir with
  | nil => exact h
  | cons n names ih => exact ih (h.div n)

theorem Volume.lookup_foldl (t : Volume A) (h : IsPlain dir) (names : List Name) :
    t.lookup (names.foldl (fun p n => p / n.path) dir) =
      (t.lookup dir).bind fun e => e.descend names := by
  induction names generalizing dir with
  | nil => simp [Entry.descend_nil]
  | cons n names ih =>
    rw [List.foldl_cons,ih (h.div n),t.lookup_div h,Option.bind_assoc]
    rfl

/-- With a separator at the end, a path leads to a directory or nowhere. -/
theorem Volume.lookup_div_empty (t : Volume A) (h : IsPlain dir) :
    t.lookup (dir / Path.empty) = (t.lookup dir).filter Entry.isDir := by
  have hnative : dir / Path.empty = ⟨dir.native ++ [slash]⟩ := by
    change Path.append dir Path.empty = _
    rw [Path.append,if_neg (by decide),if_pos h.filename]
    rfl
  have hroot : (⟨dir.native ++ [slash]⟩ : Path).hasRootDirectory := by
    have hr := h.absolute
    simp only [Path.hasRootDirectory] at hr ⊢
    cases hn : dir.native with
    | nil => simp [hn] at hr
    | cons c rest => simpa [hn] using hr
  have hparts : parts ⟨dir.native ++ [slash]⟩ = parts dir ++ [dot] := by
    rw [parts,parts,if_pos h.filename,List.splitOn_append_cons_self]
    simp [Path.hasFilename]
  rw [hnative,lookup,lookup,if_pos hroot,if_pos h.absolute,hparts,List.foldlM_append]
  cases hc : (parts dir).foldlM Cursor.step ⟨.dir t.attr t.contents,[]⟩ with
  | none => simp
  | some c => cases he : c.entry <;> simp [Cursor.step,he,Entry.isDir,Option.filter]

end Lookup

section Ok

theorem Forest.Ok.get? {f : Forest A} (hf : f.Ok) {part : List UInt8} {a : A}
    {contents : Forest A} (h : f.get? part = some (.dir a contents)) : contents.Ok := by
  induction f with
  | nil => cases h
  | file m b rest ih =>
    rw [Forest.get?] at h
    split_ifs at h
    · cases h
    · exact ih hf.2 h
  | dir m b sub rest _ ih =>
    rw [Forest.get?] at h
    split_ifs at h
    · cases h
      exact hf.2.1
    · exact ih hf.2.2 h

def Entry.Ok : Entry A → Prop
  | file _ => True
  | dir _ contents => contents.Ok

def Cursor.Ok (c : Cursor A) : Prop := c.entry.Ok ∧ ∀ e ∈ c.above, e.Ok

theorem Cursor.Ok.step {c c' : Cursor A} (hc : c.Ok) {part : List UInt8}
    (h : c.step part = some c') : c'.Ok := by
  obtain ⟨entry,above⟩ := c
  cases entry with
  | file a => cases h
  | dir a contents =>
    simp only [Cursor.step] at h
    split_ifs at h
    · cases h
      exact hc
    · cases above with
      | nil =>
        cases h
        exact hc
      | cons e above =>
        cases h
        exact ⟨hc.2 e (by simp),fun e' he => hc.2 e' (by simp [he])⟩
    · obtain ⟨e,he,rfl⟩ := Option.map_eq_some_iff.mp h
      refine ⟨?_,List.forall_mem_cons.mpr hc⟩
      cases e with
      | file b => trivial
      | dir b sub => exact Forest.Ok.get? hc.1 he

theorem Cursor.Ok.foldlM {c c' : Cursor A} (hc : c.Ok) {parts : List (List UInt8)}
    (h : parts.foldlM Cursor.step c = some c') : c'.Ok := by
  induction parts generalizing c with
  | nil =>
    cases h
    exact hc
  | cons part parts ih =>
    obtain ⟨d,hd,h⟩ := Option.bind_eq_some_iff.mp h
    exact ih (hc.step hd) h

theorem Volume.ok_of_lookup (t : Volume A) {p : Path} {a : A} {contents : Forest A}
    (h : t.lookup p = some (.dir a contents)) : contents.Ok := by
  rw [Volume.lookup] at h
  split_ifs at h
  obtain ⟨c,hc,he⟩ := Option.map_eq_some_iff.mp h
  have hok : Cursor.Ok (⟨.dir t.attr t.contents,[]⟩ : Cursor A) := ⟨t.ok,by simp⟩
  have hce := (hok.foldlM hc).1
  rw [he] at hce
  exact hce

end Ok

section Relative

variable {dir : Path} {n : Name} {names : List Name}

theorem relative_nil : relative [] = Path.empty := rfl

theorem native_foldl (h : IsPlain dir) (names : List Name) :
    (names.foldl (fun p n => p / n.path) dir).native =
      dir.native ++ names.flatMap fun n => slash :: n.bytes := by
  induction names generalizing dir with
  | nil => simp
  | cons n names ih =>
    rw [List.foldl_cons,ih (h.div n),native_div h.filename]
    simp

theorem slash_relative (n : Name) (names : List Name) :
    slash :: (relative (n :: names)).native = (n :: names).flatMap fun n => slash :: n.bytes := by
  induction names generalizing n with
  | nil => simp [relative]
  | cons m names ih =>
    rw [List.flatMap_cons,← ih m]
    simp [relative,List.intercalate_cons_cons]

theorem relative_head (n : Name) (names : List Name) :
    ∃ c rest, (relative (n :: names)).native = c :: rest ∧ c ≠ slash := by
  obtain ⟨c,rest,hc⟩ := List.exists_cons_of_ne_nil n.nonempty
  have hne : c ≠ slash := fun he => n.noSlash (by rw [hc,he]; exact List.mem_cons_self)
  cases names with
  | nil => exact ⟨c,rest,by simpa [relative] using hc,hne⟩
  | cons m names =>
    exact ⟨c,_,by simp [relative,List.intercalate_cons_cons,hc]; rfl,hne⟩

theorem relative_hasRootDirectory (names : List Name) :
    (relative names).hasRootDirectory = false := by
  cases names with
  | nil => rfl
  | cons n names =>
    obtain ⟨c,rest,hc,hne⟩ := relative_head n names
    simp [Path.hasRootDirectory,hc,hne]

theorem div_relative (h : IsPlain dir) (hn : names ≠ []) :
    dir / relative names = names.foldl (fun p n => p / n.path) dir := by
  obtain ⟨n,rest,rfl⟩ := List.exists_cons_of_ne_nil hn
  have hnative : (dir / relative (n :: rest)).native =
      dir.native ++ slash :: (relative (n :: rest)).native := by
    change (Path.append dir _).native = _
    rw [Path.append,if_neg (by simp [relative_hasRootDirectory]),if_pos h.filename]
  rw [slash_relative,← native_foldl h] at hnative
  exact congrArg FsPath.Path.mk hnative

theorem drop_foldl (h : IsPlain dir) (hn : names ≠ []) :
    (names.foldl (fun p n => p / n.path) dir).native.drop (dir.native.length+1) =
      (relative names).native := by
  obtain ⟨n,rest,rfl⟩ := List.exists_cons_of_ne_nil hn
  rw [native_foldl h,← slash_relative,← List.drop_drop,List.drop_left]
  rfl

theorem components_relative (names : List Name) :
    (relative names).components = names.map Name.bytes := by
  cases names with
  | nil => rfl
  | cons n names =>
    obtain ⟨c,rest,hc,hne⟩ := relative_head n names
    have hdrop : (relative (n :: names)).native.dropWhile (· == slash) =
        (relative (n :: names)).native := by
      rw [hc,List.dropWhile_cons_of_neg (by simpa using hne)]
    have hsplit : (relative (n :: names)).native.splitOn slash = (n :: names).map Name.bytes :=
      List.splitOn_intercalate slash (fun l hl => by
        obtain ⟨m,-,rfl⟩ := List.mem_map.mp hl
        exact m.noSlash) (by simp)
    rw [Path.components,hdrop]
    split
    · rename_i he
      rw [hc] at he
      cases he
    · rename_i hcons
      have hfilter : ((n :: names).map Name.bytes).dropLast.filter (· ≠ []) =
          ((n :: names).map Name.bytes).dropLast := by
        refine List.filter_eq_self.mpr fun l hl => ?_
        obtain ⟨m,-,rfl⟩ := List.mem_map.mp (List.dropLast_subset _ hl)
        simpa using m.nonempty
      simp only [hsplit,hfilter]
      rw [List.getLast?_eq_some_getLast (by simp),Option.toList_some,List.dropLast_append_getLast]

theorem equal_relative_iff {p q : List Name} : (relative p).Equal (relative q) ↔ p = q := by
  constructor
  · intro h
    have hkey := congrArg (fun k => (ofLex k).2) h
    simp only [Path.key,components_relative,ofLex_toLex,List.map_map] at hkey
    refine List.map_injective_iff.mpr (fun m n hmn => ?_) hkey
    exact Name.bytes_injective (List.map_injective_iff.mpr (fun _ _ => UInt8.toNat_inj.mp) hmn)
  · rintro rfl
    rfl

end Relative

end FileTree
end SomeCode
