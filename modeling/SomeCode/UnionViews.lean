import SomeCode.FileTree
import SomeCode.SnapshotTree
import SomeCode.UnionLookup

/-! On a tree that does not change, the sorted snapshot of `inf24-1.cpp` and the scan of
`fuse_c_example/main.c` find the same version of a path. The modification time is one of
the attributes of a node. -/
namespace SomeCode
namespace UnionViews

open FsPath FileTree SnapshotTree StrictWeak UnionLookup

variable {A Time : Type*} (stamp : A → Time)

def times (t : Volume A) : FileSystem Time := fun p => (t.lookup p).map fun e => stamp e.attr

/-- `last_write_time`; `missing` stands for what it throws where nothing is. -/
def lastWrite (t : Volume A) (missing : Time) (p : Path) : Time := (times stamp t p).getD missing

/-- The vector `file_tree` after `preprocess` has gone over the tree -/
def fileTree [LinearOrder Time] (sort : (Pathes → Pathes → Bool) → List Pathes → List Pathes) (t : Volume A)
    (missing : Time) (dirs : List Path) : List Pathes :=
  preprocess sort (lastWrite stamp t missing) t.walk dirs

/-- The input directories are absolute, end in a name, and exist. -/
def AreInputs (t : Volume A) (dirs : List Path) : Prop :=
  ∀ dir ∈ dirs, IsPlain dir ∧ ∃ a f, t.lookup dir = some (.dir a f)

/-- There is a version of the path with these names. -/
def HasVersion (t : Volume A) (dirs : List Path) (names : List Name) : Prop :=
  ∃ dir ∈ dirs, (t.lookup (absolutePath dir (relative names))).isSome

section Entries

variable {t : Volume A} {dirs : List Path} {dir : Path} {names : List Name}

theorem lookup_absolutePath (t : Volume A) (h : IsPlain dir) (names : List Name) :
    t.lookup (absolutePath dir (relative names)) =
      (t.lookup dir).bind fun e => e.descend names := by
  cases names with
  | nil =>
    have hempty : absolutePath dir (relative []) = dir := if_pos (Eq.refl Path.empty.key)
    rw [hempty]
    simp [Entry.descend_nil]
  | cons n names =>
    have hne : ¬ (relative (n :: names)).Equal Path.empty := by
      rw [← relative_nil,equal_relative_iff]
      simp
    rw [absolutePath,if_neg hne,div_relative h (by simp),t.lookup_foldl h]

/-- An entry of `dir` with a version behind it -/
structure IsVersion (t : Volume A) (dir : Path) (names : List Name) (e : Pathes) : Prop where
  orig : e.orig = relative names
  full : t.lookup e.full = t.lookup (absolutePath dir (relative names))
  found : (t.lookup e.full).isSome

theorem mem_entriesOf_iff {a : A} {f : Forest A}
    (hd : t.lookup dir = some (.dir a f)) {e : Pathes} : e ∈ entriesOf t.walk dir ↔
      (∃ names ∈ f.walk, e = ⟨deletePref (names.foldl (fun p n => p / n.path) dir) dir,
        names.foldl (fun p n => p / n.path) dir⟩) ∨ e = ⟨Path.empty,dir / Path.empty⟩ := by
  simp only [entriesOf,Volume.walk,hd,List.map_map,List.mem_append,List.mem_map,List.mem_singleton,
    Function.comp_apply,eq_comm]

theorem deletePref_foldl (h : IsPlain dir) (hn : names ≠ []) :
    deletePref (names.foldl (fun p n => p / n.path) dir) dir = relative names :=
  congrArg FsPath.Path.mk (drop_foldl h hn)

theorem isVersion_of_mem {e : Pathes} (hd : AreInputs t dirs) (he : e ∈ allFiles t.walk dirs) :
    ∃ dir ∈ dirs, ∃ names, IsVersion t dir names e := by
  obtain ⟨dir,hdir,he⟩ := List.mem_flatMap.mp he
  obtain ⟨hp,a,f,hl⟩ := hd dir hdir
  obtain ⟨names,hn,rfl⟩ | rfl := (mem_entriesOf_iff hl).mp he
  · have hwalk := (Forest.mem_walk_iff (t.ok_of_lookup hl) a).mp hn
    have hfull : t.lookup (names.foldl (fun p n => p / n.path) dir) =
        (Entry.dir a f).descend names := by rw [t.lookup_foldl hp,hl]; rfl
    refine ⟨dir,hdir,names,deletePref_foldl hp hwalk.1,?_,hfull ▸ hwalk.2⟩
    rw [lookup_absolutePath t hp,hfull,hl]
    rfl
  · have hfull := t.lookup_div_empty hp
    rw [hl] at hfull
    refine ⟨dir,hdir,[],rfl,?_,by rw [hfull]; rfl⟩
    rw [lookup_absolutePath t hp,hfull,hl]
    rfl

theorem exists_isVersion (hd : AreInputs t dirs) (hdir : dir ∈ dirs)
    (hv : (t.lookup (absolutePath dir (relative names))).isSome) :
    ∃ e ∈ allFiles t.walk dirs, IsVersion t dir names e := by
  obtain ⟨hp,a,f,hl⟩ := hd dir hdir
  have hpath := lookup_absolutePath t hp names
  rw [hl,Option.bind_some] at hpath
  by_cases hn : names = []
  · subst hn
    have hfull := t.lookup_div_empty hp
    rw [hl] at hfull
    refine ⟨⟨Path.empty,dir / Path.empty⟩,List.mem_flatMap.mpr ⟨dir,hdir,?_⟩,rfl,?_,by
      rw [hfull]; rfl⟩
    · exact (mem_entriesOf_iff hl).mpr (.inr rfl)
    · rw [hfull,hpath]
      rfl
  · have hfull : t.lookup (names.foldl (fun p n => p / n.path) dir) =
        (Entry.dir a f).descend names := by rw [t.lookup_foldl hp,hl]; rfl
    have hwalk : names ∈ f.walk :=
      (Forest.mem_walk_iff (t.ok_of_lookup hl) a).mpr ⟨hn,hpath ▸ hv⟩
    refine ⟨_,List.mem_flatMap.mpr ⟨dir,hdir,(mem_entriesOf_iff hl).mpr
      (.inl ⟨names,hwalk,rfl⟩)⟩,deletePref_foldl hp hn,hfull.trans hpath.symm,?_⟩
    rw [hfull,← hpath]
    exact hv

end Entries

/-- `p` leads to a version of the path with these names, modified at `time`, and no version
is newer. -/
structure Serves [LE Time] (t : Volume A) (dirs : List Path) (names : List Name) (p : Path)
    (time : Time) : Prop where
  version : ∃ dir ∈ dirs, t.lookup p = t.lookup (absolutePath dir (relative names))
  modified : times stamp t p = some time
  newest : ∀ dir ∈ dirs, ∀ other, times stamp t (absolutePath dir (relative names)) = some other →
    other ≤ time

variable {stamp}

section Agreement

variable {t : Volume A} {dirs : List Path} {names : List Name} {missing : Time}

theorem lastWrite_of_times {p : Path} {time : Time} (h : times stamp t p = some time) :
    lastWrite stamp t missing p = time := by
  rw [lastWrite,h,Option.getD_some]

theorem IsVersion.times_eq {dir : Path} {e : Pathes} (h : IsVersion t dir names e) :
    times stamp t e.full = times stamp t (absolutePath dir (relative names)) := by
  rw [times,times,h.full]

variable [LinearOrder Time]

/-- The first hit in the sorted entries is a newest version. -/
theorem snapshot_serves {tree : List Pathes} (hd : AreInputs t dirs)
    (hw : NewestWins (lastWrite stamp t missing) (allFiles t.walk dirs) tree)
    (hv : HasVersion t dirs names) :
    ∃ (i : ℕ) (hi : i < tree.length) (time : Time),
      getLastChangedName tree (relative names) = i ∧ Serves stamp t dirs names tree[i].full time := by
  obtain ⟨dir,hdir,hv⟩ := hv
  obtain ⟨e,he,hver⟩ := exists_isVersion hd hdir hv
  obtain ⟨i,hi,hindex,heq,hmax⟩ := hw.newest (relative names) ⟨e,he,by rw [hver.orig]; rfl⟩
  obtain ⟨dir',hdir',names',hver'⟩ :=
    isVersion_of_mem hd (hw.perm.mem_iff.mp (List.getElem_mem hi))
  rw [hver'.orig,equal_relative_iff] at heq
  subst heq
  obtain ⟨entry,hentry⟩ := Option.isSome_iff_exists.mp hver'.found
  have htime : times stamp t tree[i].full = some (stamp entry.attr) := by
    rw [times,hentry]
    rfl
  refine ⟨i,hi,stamp entry.attr,hindex,⟨dir',hdir',hver'.full⟩,htime,fun d hd' other ho => ?_⟩
  have hsome : (t.lookup (absolutePath d (relative names'))).isSome := by
    rw [times] at ho
    obtain ⟨x,hx,-⟩ := Option.map_eq_some_iff.mp ho
    rw [hx]
    rfl
  obtain ⟨e',he',hver''⟩ := exists_isVersion hd hd' hsome
  have hle := hmax e' he' (by rw [hver''.orig]; rfl)
  rwa [lastWrite_of_times htime,lastWrite_of_times (hver''.times_eq.trans ho)] at hle

theorem fileTree_newestWins {sort : (Pathes → Pathes → Bool) → List Pathes → List Pathes}
    (hsort : IsSort sort) (t : Volume A) (missing : Time) (dirs : List Path) :
    NewestWins (lastWrite stamp t missing) (allFiles t.walk dirs) (fileTree stamp sort t missing dirs) := by
  obtain ⟨hperm,hsorted⟩ := hsort _ (fileChecker_isStrictWeak (lastWrite stamp t missing))
    (allFiles t.walk dirs)
  exact newestWins_of_sorted hperm hsorted

theorem Serves.time_le {p q : Path} {time time' : Time} (hp : Serves stamp t dirs names p time)
    (hq : Serves stamp t dirs names q time') : time ≤ time' := by
  obtain ⟨dir,hdir,hl⟩ := hp.version
  exact hq.newest dir hdir time (by rw [times,← hl]; exact hp.modified)

theorem exists_serves (epoch : Time) (hv : HasVersion t dirs names) :
    ∃ q time, getRealPathAndLastTime (times stamp t) epoch dirs (relative names) = .ok q ∧
      Serves stamp t dirs names q time := by
  obtain ⟨dir,hdir,hv⟩ := hv
  obtain ⟨entry,hentry⟩ := Option.isSome_iff_exists.mp hv
  have htime : times stamp t (absolutePath dir (relative names)) = some (stamp entry.attr) := by
    rw [times,hentry]
    rfl
  obtain ⟨q,time,hq,htq,⟨d,hd,rfl⟩,hmax⟩ := realPath_newest epoch hdir htime
  exact ⟨_,time,hq,⟨d,hd,rfl⟩,htq,hmax⟩

end Agreement

theorem same_version [LinearOrder Time] (stamp : A → Time)
    (sort : (Pathes → Pathes → Bool) → List Pathes → List Pathes)
    (hsort : IsSort sort) (t : Volume A) (missing epoch : Time) (dirs : List Path)
    (hd : AreInputs t dirs) (names : List Name) (hv : HasVersion t dirs names) :
    ∃ (i : ℕ) (hi : i < (fileTree stamp sort t missing dirs).length) (q : Path) (time : Time),
      getLastChangedName (fileTree stamp sort t missing dirs) (relative names) = i ∧
      getRealPathAndLastTime (times stamp t) epoch dirs (relative names) = .ok q ∧
      Serves stamp t dirs names (fileTree stamp sort t missing dirs)[i].full time ∧
      Serves stamp t dirs names q time := by
  obtain ⟨i,hi,time,hindex,hsnap⟩ :=
    snapshot_serves hd (fileTree_newestWins hsort t missing dirs) hv
  obtain ⟨q,time',hq,hlive⟩ := exists_serves epoch hv
  obtain rfl : time = time' := le_antisymm (hsnap.time_le hlive) (hlive.time_le hsnap)
  exact ⟨i,hi,q,time,hindex,hq,hsnap,hlive⟩

def sampleName (c : UInt8) (h : c ≠ slash ∧ c ≠ 46) : Name :=
  ⟨[c],by simp,by simpa using h.1.symm,by simpa [dot] using h.2,by simp [dotdot]⟩

def sampleTree : Volume ℕ where
  attr := 0
  contents := .dir (sampleName 117 (by decide)) 3
    (.file (sampleName 102 (by decide)) 1 .nil)
    (.dir (sampleName 118 (by decide)) 4 (.file (sampleName 102 (by decide)) 2 .nil) .nil)
  ok := by simp [Forest.Ok,Forest.names,sampleName]

def sampleDirs : List Path := [⟨[47,117]⟩,⟨[47,118]⟩]

theorem sample_areInputs : AreInputs sampleTree sampleDirs := by
  intro dir hdir
  obtain rfl | rfl := by simpa [sampleDirs] using hdir
  · exact ⟨⟨by decide,by decide⟩,_,_,rfl⟩
  · exact ⟨⟨by decide,by decide⟩,_,_,rfl⟩

theorem same_version_sample : ∃ (i : ℕ) (q : Path),
    getLastChangedName (fileTree id (fun lt l => l.mergeSort fun a b => !lt b a) sampleTree 0
      sampleDirs) (relative [sampleName 102 (by decide)]) = i ∧
    getRealPathAndLastTime (times id sampleTree) 0 sampleDirs
      (relative [sampleName 102 (by decide)]) = .ok q := by
  obtain ⟨i,hi,q,time,hindex,hq,-⟩ := same_version id (fun lt l => l.mergeSort fun a b => !lt b a)
    mergeSort_isSort sampleTree 0 0 sampleDirs sample_areInputs [sampleName 102 (by decide)]
    ⟨⟨[47,117]⟩,by simp [sampleDirs],by decide⟩
  exact ⟨i,q,hindex,hq⟩

end UnionViews
end SomeCode
