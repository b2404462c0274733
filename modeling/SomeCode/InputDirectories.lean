import SomeCode.UnionViews

/-! The input directories of `inf24-1.cpp` as they are passed in, and the relative paths that
`preprocess` makes of what the iterator gives for them. -/
namespace SomeCode
namespace InputDirectories

open FsPath FileTree SnapshotTree

/-- The parts that are complete, and the one that is being read -/
abbrev Splitted := List (List UInt8) × List UInt8

def complete (s : Splitted) : Splitted := if s.2 ≠ [] then (s.1 ++ [s.2],[]) else s

def dirSplitter (inputString : List UInt8) (splitC : UInt8) : List (List UInt8) :=
  (complete (inputString.foldl (fun s c =>
    if c = splitC then complete s else (s.1,s.2 ++ [c])) ([],[]))).1

/-- `std::filesystem::absolute`, where `cwd` is the working directory -/
def getRealPath (cwd : Path) (pathStr : List UInt8) : Path :=
  if (⟨pathStr⟩ : Path).hasRootDirectory then ⟨pathStr⟩ else cwd / ⟨pathStr⟩

/-- What the iterator gives for the entry with these names below `dir` -/
def joined (dir : Path) (names : List Name) : Path := names.foldl (fun p n => p / n.path) dir

/-- The relative paths can take the place of the entries with the names in `walk`. -/
structure Faithful (dir : Path) (walk : List (List Name)) : Prop where
  join : ∀ names ∈ walk, dir / deletePref (joined dir names) dir = joined dir names
  distinct : ∀ names ∈ walk, ∀ names' ∈ walk, joined dir names ≠ joined dir names' →
    ¬ (deletePref (joined dir names) dir).Equal (deletePref (joined dir names') dir)
  notRoot : ∀ names ∈ walk, ¬ (deletePref (joined dir names) dir).Equal Path.empty

theorem complete_forall {P : List UInt8 → Prop} {s : Splitted} (h : ∀ l ∈ s.1, P l)
    (hlast : s.2 ≠ [] → P s.2) : ∀ l ∈ (complete s).1, P l := by
  intro l hl
  rw [complete] at hl
  split_ifs at hl with hne
  · obtain hl | hl := List.mem_append.mp hl
    · exact h l hl
    · obtain rfl := List.mem_singleton.mp hl
      exact hlast hne
  · exact h l hl

theorem ne_nil_of_mem_dirSplitter {inputString l : List UInt8} {splitC : UInt8}
    (h : l ∈ dirSplitter inputString splitC) : l ≠ [] := by
  have hparts : ∀ (cs : List UInt8) (s : Splitted), (∀ l ∈ s.1, l ≠ []) →
      ∀ l ∈ (cs.foldl (fun s c => if c = splitC then complete s else (s.1,s.2 ++ [c])) s).1,
        l ≠ [] := by
    intro cs
    induction cs with
    | nil => exact fun s hs => hs
    | cons c cs ih =>
      intro s hs
      rw [List.foldl_cons]
      refine ih _ ?_
      split_ifs
      · exact complete_forall hs id
      · exact hs
  exact complete_forall (hparts inputString ([],[]) (by simp)) id l h

variable {cwd dir : Path} {names : List Name} {walk : List (List Name)}

theorem getRealPath_hasFilename {s : List UInt8} (hs : s ≠ []) :
    (getRealPath cwd s).hasFilename = (⟨s⟩ : Path).hasFilename := by
  obtain ⟨c,hc⟩ := Option.ne_none_iff_exists'.mp (mt List.getLast?_eq_none_iff.mp hs)
  by_cases hroot : (⟨s⟩ : Path).hasRootDirectory
  · rw [getRealPath,if_pos hroot]
  · rw [getRealPath,if_neg hroot]
    change (Path.append cwd ⟨s⟩).hasFilename = _
    rw [Path.append,if_neg hroot]
    split_ifs <;> simp [Path.hasFilename,List.getLast?_append,List.getLast?_cons,hc]

theorem getRealPath_absolute (hcwd : cwd.hasRootDirectory) (s : List UInt8) :
    (getRealPath cwd s).hasRootDirectory := by
  by_cases hroot : (⟨s⟩ : Path).hasRootDirectory
  · rwa [getRealPath,if_pos hroot]
  · rw [getRealPath,if_neg hroot]
    change (Path.append cwd ⟨s⟩).hasRootDirectory
    obtain ⟨c,rest,hcons⟩ := List.exists_cons_of_ne_nil (l := cwd.native) (by
      intro he
      simp [Path.hasRootDirectory,he] at hcwd)
    rw [Path.append,if_neg hroot]
    simp only [Path.hasRootDirectory,hcons] at hcwd ⊢
    split_ifs <;> simpa using hcwd

theorem faithful_of_plain (h : IsPlain dir) (hwalk : ∀ names ∈ walk, names ≠ []) :
    Faithful dir walk where
  join names hn := by
    have hne := hwalk names hn
    rw [joined,UnionViews.deletePref_foldl h hne,div_relative h hne]
  distinct names hn names' hn' hdiff := by
    simp only [joined,UnionViews.deletePref_foldl h (hwalk names hn),
      UnionViews.deletePref_foldl h (hwalk names' hn'),equal_relative_iff]
    exact fun he => hdiff (by rw [he])
  notRoot names hn := by
    rw [joined,UnionViews.deletePref_foldl h (hwalk names hn),← relative_nil,equal_relative_iff]
    exact hwalk names hn

theorem length_append_le (h : ¬ dir.hasFilename) (p : Path) :
    (dir / p).native.length ≤ dir.native.length+p.native.length := by
  change (Path.append dir p).native.length ≤ _
  rw [Path.append]
  split_ifs
  · exact Nat.le_add_left _ _
  · rw [List.length_append]

theorem length_le_joined (dir : Path) (names : List Name) :
    dir.native.length ≤ (joined dir names).native.length := by
  induction names generalizing dir with
  | nil => exact le_rfl
  | cons n names ih => exact (length_lt_div dir n).le.trans (ih (dir / n.path))

/-- With a separator at the end of the directory, the first byte of the name is lost. -/
theorem join_ne (h : ¬ dir.hasFilename) (hn : names ≠ []) :
    dir / deletePref (joined dir names) dir ≠ joined dir names := by
  obtain ⟨n,names,rfl⟩ := List.exists_cons_of_ne_nil hn
  have hlt : dir.native.length < (joined dir (n :: names)).native.length :=
    (length_lt_div dir n).trans_le (length_le_joined (dir / n.path) names)
  intro heq
  have hle := length_append_le h (deletePref (joined dir (n :: names)) dir)
  rw [heq] at hle
  simp only [deletePref,List.length_drop] at hle
  omega

theorem faithful_iff (hcwd : cwd.hasRootDirectory) {raw s : List UInt8}
    (hs : s ∈ dirSplitter raw 58) (hwalk : ∀ names ∈ walk, names ≠ []) :
    Faithful (getRealPath cwd s) walk ↔ s.getLast? ≠ some slash ∨ walk = [] := by
  have hne := ne_nil_of_mem_dirSplitter hs
  have hfilename : (getRealPath cwd s).hasFilename ↔ s.getLast? ≠ some slash := by
    obtain ⟨c,hc⟩ := Option.ne_none_iff_exists'.mp (mt List.getLast?_eq_none_iff.mp hne)
    rw [getRealPath_hasFilename hne]
    simp [Path.hasFilename,hc]
  rw [← hfilename]
  constructor
  · intro h
    by_contra hnot
    obtain ⟨hno,hcons⟩ := not_or.mp hnot
    obtain ⟨names,hnames⟩ := List.exists_mem_of_ne_nil walk hcons
    exact join_ne hno (hwalk names hnames) (h.join names hnames)
  · rintro (hf | rfl)
    · exact faithful_of_plain ⟨getRealPath_absolute hcwd s,hf⟩ hwalk
    · exact ⟨by simp,by simp,by simp⟩

def nameB : Name := ⟨[98],by decide,by decide,by decide⟩

def nameC : Name := ⟨[99],by decide,by decide,by decide⟩

/-- The directory `a` below `/` with the entries `b` and `b/c` -/
theorem faithful_iff_sample : Faithful (getRealPath ⟨[47]⟩ [97]) [[nameB],[nameB,nameC]] ↔
    ([97] : List UInt8).getLast? ≠ some slash ∨ [[nameB],[nameB,nameC]] = [] :=
  have hs : [97] ∈ dirSplitter [97] 58 := by decide
  faithful_iff (by decide) hs (by simp)

/-- The entries `b` and `c` of the directory `/a/` both become the root. -/
theorem not_faithful : [47,97,47] ∈ dirSplitter [47,97,47] 58 ∧
    deletePref (joined (getRealPath ⟨[47]⟩ [47,97,47]) [nameB]) (getRealPath ⟨[47]⟩ [47,97,47]) =
      Path.empty ∧
    deletePref (joined (getRealPath ⟨[47]⟩ [47,97,47]) [nameC]) (getRealPath ⟨[47]⟩ [47,97,47]) =
      Path.empty ∧
    ¬ Faithful (getRealPath ⟨[47]⟩ [47,97,47]) [[nameB],[nameC]] := by
  refine ⟨by decide,by decide,by decide,fun h => ?_⟩
  exact absurd (h.notRoot [nameB] (by simp)) (by decide)

end InputDirectories
end SomeCode
