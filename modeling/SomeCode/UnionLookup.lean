import SomeCode.FsPath

/-! The two versions of the path resolution in the union file system of
`fuse_c_example`: `main.c` and `build/main.cpp` both look for the newest version of a
path under the input directories. -/
namespace SomeCode
namespace UnionLookup

open FsPath

variable {Time : Type*} [LT Time] [DecidableLT Time]

/-- The modification times of what exists -/
abbrev FileSystem (Time : Type*) := Path → Option Time

/-- What `last_write_time` and `absolute` throw -/
structure FilesystemError where
  path : Path
  deriving DecidableEq

def pathExists (fs : FileSystem Time) (p : Path) : Bool := (fs p).isSome

def lastWriteTime (fs : FileSystem Time) (p : Path) : Except FilesystemError Time :=
  match fs p with
  | some t => .ok t
  | none => .error ⟨p⟩

structure Locals (Time : Type*) where
  isExist : Bool
  lastTime : Time
  maxPath : Path

/-- The path in the input directory `dir`; the empty path stands for the directory. -/
def absolutePath (dir relativePath : Path) : Path :=
  if relativePath.Equal Path.empty then dir else dir / relativePath

/-- The body of the loop in `GetRealPathAndLastTime` -/
def realPathStep (fs : FileSystem Time) (relativePath : Path) (s : Locals Time) (dir : Path) :
    Except FilesystemError (Locals Time) :=
  let p := absolutePath dir relativePath
  if pathExists fs p then
    (lastWriteTime fs p).bind fun t =>
      if s.lastTime < t ∨ s.isExist = false then
        (lastWriteTime fs p).map fun lastTime => ⟨true,lastTime,p⟩
      else .ok s
  else .ok s

/-- The first operand of the disjunction in `time_from_absolute_path`: the conjunction asks
for the time only where the path exists. -/
def newerExists (fs : FileSystem Time) (s : Locals Time) (p : Path) : Except FilesystemError Bool :=
  if pathExists fs p then (lastWriteTime fs p).map fun t => decide (s.lastTime < t) else .ok false

/-- The body of the loop in `time_from_absolute_path` -/
def absolutePathStep (fs : FileSystem Time) (relativePath : Path) (s : Locals Time) (dir : Path) :
    Except FilesystemError (Locals Time) :=
  let p := absolutePath dir relativePath
  (newerExists fs s p).bind fun newer =>
    if newer ∨ s.isExist = false then
      (lastWriteTime fs p).map fun lastTime => ⟨true,lastTime,p⟩
    else .ok s

/-- `epoch` is the value that `last_time` starts with. -/
def getRealPathAndLastTime (fs : FileSystem Time) (epoch : Time) (inDirs : List Path)
    (relativePath : Path) : Except FilesystemError Path :=
  (inDirs.foldlM (realPathStep fs relativePath) ⟨false,epoch,relativePath⟩).map Locals.maxPath

def timeFromAbsolutePath (fs : FileSystem Time) (epoch : Time) (inDirs : List Path)
    (relativePath : Path) : Except FilesystemError Path :=
  (inDirs.foldlM (absolutePathStep fs relativePath) ⟨false,epoch,relativePath⟩).map Locals.maxPath

/-- Both functions return, and they return the same path. -/
def Agree (fs : FileSystem Time) (epoch : Time) (inDirs : List Path) (relativePath : Path) : Prop :=
  ∃ p, timeFromAbsolutePath fs epoch inDirs relativePath = .ok p ∧
    getRealPathAndLastTime fs epoch inDirs relativePath = .ok p

/-- There is a version of the path under the first input directory. -/
def InFirst (fs : FileSystem Time) (inDirs : List Path) (relativePath : Path) : Prop :=
  ∃ dir rest, inDirs = dir :: rest ∧ pathExists fs (absolutePath dir relativePath)

section Steps

variable {fs : FileSystem Time} {relativePath dir : Path} {s : Locals Time} {inDirs : List Path}
  {epoch : Time}

omit [LT Time] [DecidableLT Time] in
theorem lastWriteTime_of_exists {p : Path} (h : pathExists fs p) :
    ∃ t, lastWriteTime fs p = .ok t := by
  obtain ⟨t,ht⟩ := Option.isSome_iff_exists.mp h
  exact ⟨t,by simp [lastWriteTime,ht]⟩

omit [LT Time] [DecidableLT Time] in
theorem lastWriteTime_of_missing {p : Path} (h : ¬ pathExists fs p) :
    lastWriteTime fs p = .error ⟨p⟩ := by
  have hn : fs p = none := by simpa [pathExists] using h
  simp [lastWriteTime,hn]

/-- The loop of `main.c` asks for the times of what exists only, so it never throws. -/
theorem realPathStep_ok (fs : FileSystem Time) (relativePath : Path) (s : Locals Time) (dir : Path) :
    ∃ s', realPathStep fs relativePath s dir = .ok s' ∧
      (s.isExist ∨ pathExists fs (absolutePath dir relativePath) → s'.isExist) := by
  by_cases he : pathExists fs (absolutePath dir relativePath)
  · obtain ⟨t,ht⟩ := lastWriteTime_of_exists he
    by_cases hc : s.lastTime < t ∨ s.isExist = false
    · exact ⟨⟨true,t,absolutePath dir relativePath⟩,
        by simp [realPathStep,he,ht,hc,Except.bind,Except.map],fun _ => rfl⟩
    · exact ⟨s,by simp [realPathStep,he,ht,hc,Except.bind],
        fun _ => by simpa using (not_or.mp hc).2⟩
  · exact ⟨s,by simp [realPathStep,he],fun h => h.resolve_right he⟩

theorem absolutePathStep_eq (h : s.isExist ∨ pathExists fs (absolutePath dir relativePath)) :
    absolutePathStep fs relativePath s dir = realPathStep fs relativePath s dir := by
  by_cases he : pathExists fs (absolutePath dir relativePath)
  · obtain ⟨t,ht⟩ := lastWriteTime_of_exists he
    simp [absolutePathStep,realPathStep,newerExists,he,ht,Except.map,Except.bind]
  · have hs : s.isExist = true := h.resolve_right he
    simp [absolutePathStep,realPathStep,newerExists,he,hs,Except.bind]

theorem absolutePathStep_missing (hs : s.isExist = false)
    (he : ¬ pathExists fs (absolutePath dir relativePath)) :
    absolutePathStep fs relativePath s dir = .error ⟨absolutePath dir relativePath⟩ := by
  simp [absolutePathStep,newerExists,he,hs,lastWriteTime_of_missing he,Except.bind,Except.map]

theorem realPath_fold_ok (fs : FileSystem Time) (relativePath : Path) (inDirs : List Path) (s : Locals Time) :
    ∃ s', inDirs.foldlM (realPathStep fs relativePath) s = .ok s' := by
  induction inDirs generalizing s with
  | nil => exact ⟨s,rfl⟩
  | cons dir inDirs ih =>
    obtain ⟨t,ht,-⟩ := realPathStep_ok fs relativePath s dir
    obtain ⟨u,hu⟩ := ih t
    exact ⟨u,by rw [List.foldlM_cons,ht]; exact hu⟩

/-- Once something has been found the two loops go on alike. -/
theorem fold_eq (inDirs : List Path) (hs : s.isExist) :
    inDirs.foldlM (absolutePathStep fs relativePath) s =
      inDirs.foldlM (realPathStep fs relativePath) s := by
  induction inDirs generalizing s with
  | nil => rfl
  | cons dir inDirs ih =>
    obtain ⟨t,ht,hfound⟩ := realPathStep_ok fs relativePath s dir
    rw [List.foldlM_cons,List.foldlM_cons,absolutePathStep_eq (.inl hs),ht]
    exact ih (hfound (.inl hs))

theorem agree_of_first (h : InFirst fs inDirs relativePath) :
    Agree fs epoch inDirs relativePath := by
  obtain ⟨dir,rest,rfl,he⟩ := h
  obtain ⟨s',hs'⟩ := realPath_fold_ok fs relativePath (dir :: rest)
    ⟨false,epoch,relativePath⟩
  have heq : (dir :: rest).foldlM (absolutePathStep fs relativePath) ⟨false,epoch,relativePath⟩ =
      .ok s' := by
    obtain ⟨t,ht,hfound⟩ := realPathStep_ok fs relativePath ⟨false,epoch,relativePath⟩ dir
    rw [← hs',List.foldlM_cons,List.foldlM_cons,absolutePathStep_eq (.inr he),ht]
    exact fold_eq rest (hfound (.inr he))
  exact ⟨s'.maxPath,by rw [timeFromAbsolutePath,heq]; rfl,
    by rw [getRealPathAndLastTime,hs']; rfl⟩

end Steps

section Newest

variable {Time : Type*} [LinearOrder Time] {fs : FileSystem Time} {relativePath : Path}
  {epoch : Time} {inDirs : List Path}

/-- What the loop of `main.c` has found after the directories `seen`. -/
structure Found (fs : FileSystem Time) (relativePath : Path) (seen : List Path)
    (s : Locals Time) : Prop where
  missing : s.isExist = false → ∀ dir ∈ seen, fs (absolutePath dir relativePath) = none
  version : s.isExist → fs s.maxPath = some s.lastTime ∧
    ∃ dir ∈ seen, s.maxPath = absolutePath dir relativePath
  newest : s.isExist → ∀ dir ∈ seen, ∀ t, fs (absolutePath dir relativePath) = some t →
    t ≤ s.lastTime

theorem Found.step {seen : List Path} {s s' : Locals Time} {dir : Path}
    (hf : Found fs relativePath seen s) (h : realPathStep fs relativePath s dir = .ok s') :
    Found fs relativePath (seen ++ [dir]) s' := by
  cases ht : fs (absolutePath dir relativePath) with
  | none =>
    simp only [realPathStep,pathExists,ht] at h
    cases h
    refine ⟨fun he d hd => ?_,fun he => ?_,fun he d hd t hdt => ?_⟩
    · obtain hd | rfl := by simpa using hd
      · exact hf.missing he d hd
      · exact ht
    · obtain ⟨htime,d,hd,hpath⟩ := hf.version he
      exact ⟨htime,d,by simp [hd],hpath⟩
    · obtain hd | rfl := by simpa using hd
      · exact hf.newest he d hd t hdt
      · simp [ht] at hdt
  | some t =>
    simp only [realPathStep,pathExists,lastWriteTime,ht,Option.isSome_some,if_true,Except.bind,
      Except.map] at h
    split_ifs at h with hnew
    · -- a newer version, or the first one
      cases h
      refine ⟨by simp,fun _ => ⟨ht,dir,by simp,rfl⟩,fun _ d hd t' hdt => ?_⟩
      obtain hd | rfl := by simpa using hd
      · cases he : s.isExist with
        | false => simp [hf.missing he d hd] at hdt
        | true =>
          have hlt : s.lastTime < t := hnew.resolve_right (by simp [he])
          exact (hf.newest he d hd t' hdt).trans hlt.le
      · rw [ht] at hdt
        exact (Option.some.inj hdt).ge
    · cases h
      obtain ⟨hle,he⟩ := not_or.mp hnew
      simp only [Bool.not_eq_false] at he
      obtain ⟨htime,d,hd,hpath⟩ := hf.version he
      refine ⟨by simp [he],fun _ => ⟨htime,d,by simp [hd],hpath⟩,fun _ d' hd' t' hdt => ?_⟩
      obtain hd' | rfl := by simpa using hd'
      · exact hf.newest he d' hd' t' hdt
      · rw [ht] at hdt
        exact Option.some.inj hdt ▸ not_lt.mp hle

theorem Found.foldlM {seen : List Path} {s s' : Locals Time} (hf : Found fs relativePath seen s)
    (h : inDirs.foldlM (realPathStep fs relativePath) s = .ok s') :
    Found fs relativePath (seen ++ inDirs) s' := by
  induction inDirs generalizing seen s with
  | nil =>
    cases h
    simpa using hf
  | cons dir inDirs ih =>
    obtain ⟨t,ht,-⟩ := realPathStep_ok fs relativePath s dir
    rw [List.foldlM_cons,ht] at h
    simpa using ih (hf.step ht) h

theorem realPath_newest (epoch : Time) {dir : Path} {t : Time} (hd : dir ∈ inDirs)
    (ht : fs (absolutePath dir relativePath) = some t) :
    ∃ p time, getRealPathAndLastTime fs epoch inDirs relativePath = .ok p ∧ fs p = some time ∧
      (∃ d ∈ inDirs, p = absolutePath d relativePath) ∧
      ∀ d ∈ inDirs, ∀ t, fs (absolutePath d relativePath) = some t → t ≤ time := by
  obtain ⟨s,hs⟩ := realPath_fold_ok fs relativePath inDirs ⟨false,epoch,relativePath⟩
  have h0 : Found fs relativePath [] ⟨false,epoch,relativePath⟩ := ⟨by simp,by simp,by simp⟩
  have hf := h0.foldlM hs
  have he : s.isExist := by
    by_contra he
    simp [hf.missing (by simpa using he) dir hd] at ht
  exact ⟨s.maxPath,s.lastTime,by rw [getRealPathAndLastTime,hs]; rfl,(hf.version he).1,
    by simpa using (hf.version he).2,by simpa using hf.newest he⟩

end Newest

def sampleFs : FileSystem ℕ
  | ⟨[47,117,47,102]⟩ => some 1
  | ⟨[47,118,47,102]⟩ => some 2
  | _ => none

end UnionLookup
end SomeCode
