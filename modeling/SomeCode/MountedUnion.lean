import SomeCode.Transition
import SomeCode.UnionMount
import SomeCode.UnionViews

/-! The callbacks of `inf24-1.cpp` on a tree that changes while it is mounted: the vector of
entries is made once, at the start, and `readdir_callback` goes over the live directories. -/
namespace SomeCode
namespace MountedUnion

open FsPath FileTree SnapshotTree StrictWeak Transition UnionLookup UnionMount UnionViews

def ENOENT : ℤ := 2

def EISDIR : ℤ := 21

/-- What a node has besides its kind and its name -/
structure Attr (Time : Type*) where
  time : Time
  permissions : ℕ
  content : List UInt8

variable {Time : Type*}

/-- The tree under the mount, and `my_options` -/
structure State (Time : Type*) where
  tree : Volume (Attr Time)
  inputDirs : List Path
  fileTree : List Pathes

def statOf : Entry (Attr Time) → Stat
  | .file a => ⟨S_IFREG ||| a.permissions,a.content.length⟩
  | .dir a _ => ⟨S_IFDIR ||| a.permissions,a.content.length⟩

def stat (t : Volume (Attr Time)) (p : Path) (stbuf : Stat) : ℤ × Stat :=
  match t.lookup p with
  | some e => (0,statOf e)
  | none => (-1,stbuf)

/-- The entry that a path under the mount point is resolved to; both callbacks return
`-ENOENT` where the index is negative. -/
def resolve (s : State Time) (path : List UInt8) : Option Path :=
  let idx := getLastChangedName s.fileTree (skipSlash path)
  if idx < 0 then none else s.fileTree[idx.toNat]?.map Pathes.full

/-- The part of `getattr_callback` behind the lookup -/
def getattrFull (t : Volume (Attr Time)) (full : Path) (stbuf : Stat) : ℤ × Stat :=
  let r := stat t full stbuf
  if isReg r.2.mode then (r.1,{ r.2 with mode := S_IFREG ||| 0o444 })
  else if isDir r.2.mode then (r.1,{ r.2 with mode := S_IFDIR ||| 0o555 })
  else r

def getattrCallback (s : State Time) (path : List UInt8) (stbuf : Stat) : ℤ × Stat :=
  match resolve s path with
  | some full => getattrFull s.tree full stbuf
  | none => (-ENOENT,stbuf)

/-- The part of `read_callback` behind the lookup; where nothing is any more, the cleared
structure has the size 0. -/
def readFull (t : Volume (Attr Time)) (full : Path) (size : UInt64) (offset : Int64) :
    ReadResult :=
  match t.lookup full with
  | some (.dir _ _) => ⟨-EISDIR,[]⟩
  | some (.file a) => readFile a.content size offset
  | none => readFile [] size offset

def readCallback (s : State Time) (path : List UInt8) (size : UInt64) (offset : Int64) :
    ReadResult :=
  if path = [slash] then ⟨-EISDIR,[]⟩
  else match resolve s path with
    | some full => readFull s.tree full size offset
    | none => ⟨-ENOENT,[]⟩

/-- The directories among the versions of the path -/
def subdirs (s : State Time) (path : List UInt8) : List Path :=
  (s.inputDirs.map fun dir => dir / skipSlash path).filter fun p => (s.tree.lookup p).any Entry.isDir

def filenames (t : Volume (Attr Time)) (p : Path) : List (List UInt8) :=
  match t.lookup p with
  | some (.dir _ contents) => contents.names.map Name.bytes
  | _ => []

/-- The set `unique_filenames` grows by the names that are handed on. -/
def unique (names : List (List UInt8)) : List (List UInt8) :=
  names.foldl (fun seen fname => if fname ∈ seen then seen else seen ++ [fname]) []

/-- What is returned, and the names that are handed to `filler` -/
def readdirCallback (s : State Time) (path : List UInt8) : ℤ × List (List UInt8) :=
  if subdirs s path = [] then (-ENOENT,[])
  else (0,dot :: dotdot :: unique ((subdirs s path).flatMap (filenames s.tree)))

/-- The path under the mount point with the given names -/
def mountPath (names : List Name) : List UInt8 := slash :: (relative names).native

/-- The state when `fuse_main` starts -/
def mount [LinearOrder Time] (sort : (Pathes → Pathes → Bool) → List Pathes → List Pathes)
    (t : Volume (Attr Time)) (missing : Time) (dirs : List Path) : State Time :=
  ⟨t,dirs,fileTree Attr.time sort t missing dirs⟩

/-- Between two callbacks the tree becomes another one; the callbacks change nothing. -/
def system [LinearOrder Time] (sort : (Pathes → Pathes → Bool) → List Pathes → List Pathes)
    (t : Volume (Attr Time)) (missing : Time) (dirs : List Path) :
    System (State Time) (Volume (Attr Time)) :=
  ⟨mount sort t missing dirs,fun tree s => some { s with tree := tree }⟩

section Names

variable {names : List (List UInt8)} {s : State Time} {dirs : List Path}

theorem unique_fold (names seen : List (List UInt8)) (hs : seen.Nodup) :
    (names.foldl (fun seen fname => if fname ∈ seen then seen else seen ++ [fname]) seen).Nodup ∧
      ∀ x, x ∈ names.foldl (fun seen fname => if fname ∈ seen then seen else seen ++ [fname]) seen ↔
        x ∈ seen ∨ x ∈ names := by
  induction names generalizing seen with
  | nil => simpa using hs
  | cons a names ih =>
    rw [List.foldl_cons]
    split_ifs with ha
    · obtain ⟨hn,hm⟩ := ih seen hs
      refine ⟨hn,fun x => ?_⟩
      rw [hm,List.mem_cons]
      constructor
      · tauto
      · rintro (h | rfl | h)
        · exact .inl h
        · exact .inl ha
        · exact .inr h
    · have hnew : (seen ++ [a]).Nodup :=
        List.nodup_append.mpr ⟨hs,List.nodup_singleton a,fun x hx y hy hxy =>
          ha (by rw [← List.mem_singleton.mp hy,← hxy]; exact hx)⟩
      obtain ⟨hn,hm⟩ := ih _ hnew
      refine ⟨hn,fun x => ?_⟩
      rw [hm]
      simp [or_assoc]

theorem unique_nodup (names : List (List UInt8)) : (unique names).Nodup :=
  (unique_fold names [] List.nodup_nil).1

theorem mem_unique_iff {x : List UInt8} : x ∈ unique names ↔ x ∈ names := by
  rw [unique,(unique_fold names [] List.nodup_nil).2]
  simp

theorem filenames_ordinary {t : Volume (Attr Time)} {p : Path} {x : List UInt8}
    (h : x ∈ filenames t p) : x ≠ dot ∧ x ≠ dotdot := by
  rw [filenames] at h
  split at h
  · obtain ⟨n,-,rfl⟩ := List.mem_map.mp h
    exact n.ordinary
  · cases h

theorem readdir_nodup (s : State Time) (path : List UInt8) : (readdirCallback s path).2.Nodup := by
  rw [readdirCallback]
  split_ifs
  · exact List.nodup_nil
  · have hord : ∀ x ∈ unique ((subdirs s path).flatMap (filenames s.tree)),
        x ≠ dot ∧ x ≠ dotdot := by
      intro x hx
      obtain ⟨p,-,hx⟩ := List.mem_flatMap.mp (mem_unique_iff.mp hx)
      exact filenames_ordinary hx
    refine List.nodup_cons.mpr ⟨?_,List.nodup_cons.mpr ⟨fun h => (hord _ h).2 rfl,unique_nodup _⟩⟩
    intro h
    obtain h | h := List.mem_cons.mp h
    · exact absurd h (by decide)
    · exact (hord _ h).1 rfl

theorem descend_of_lookup_div {t : Volume (Attr Time)} {dir : Path} (h : IsPlain dir)
    {names : List Name} {a : Attr Time} {contents : Forest (Attr Time)}
    (hl : t.lookup (dir / relative names) = some (.dir a contents)) :
    (t.lookup dir).bind (fun e => e.descend names) = some (.dir a contents) := by
  by_cases hn : names = []
  · subst hn
    rw [relative_nil,t.lookup_div_empty h] at hl
    simp [(Option.filter_eq_some_iff.mp hl).1,Entry.descend_nil]
  · rwa [div_relative h hn,t.lookup_foldl h] at hl

theorem hasVersion_of_readdir {names : List Name} {n : Name} (hd : ∀ dir ∈ s.inputDirs, IsPlain dir)
    (h : n.bytes ∈ (readdirCallback s (mountPath names)).2) :
    HasVersion s.tree s.inputDirs (names ++ [n]) := by
  rw [readdirCallback] at h
  split_ifs at h
  · cases h
  · have hn : n.bytes ∈ (subdirs s (mountPath names)).flatMap (filenames s.tree) := by
      simpa [n.ordinary.1,n.ordinary.2,mem_unique_iff] using h
    obtain ⟨p,hp,hn⟩ := List.mem_flatMap.mp hn
    obtain ⟨dir,hdir,rfl⟩ := List.mem_map.mp (List.mem_filter.mp hp).1
    have hplain := hd dir hdir
    rw [filenames] at hn
    split at hn
    · rename_i a contents hl
      obtain ⟨m,hm,hmn⟩ := List.mem_map.mp hn
      obtain rfl := Name.bytes_injective hmn
      refine ⟨dir,hdir,?_⟩
      rw [lookup_absolutePath _ hplain]
      simp only [Entry.descend_append,← Option.bind_assoc,descend_of_lookup_div hplain hl]
      simpa [Entry.descend_cons,Entry.descend_nil,Entry.child] using Forest.mem_names_iff.mp hm
    · cases hn

theorem getattrFull_ne (t : Volume (Attr Time)) (full : Path) (stbuf : Stat) :
    (getattrFull t full stbuf).1 ≠ -ENOENT := by
  have hstat : (stat t full stbuf).1 = 0 ∨ (stat t full stbuf).1 = -1 := by
    rw [stat]
    split
    · exact .inl rfl
    · exact .inr rfl
  simp only [getattrFull]
  split_ifs <;> obtain h | h := hstat <;> simp [h,ENOENT]

end Names

section Snapshot

variable [LinearOrder Time] {sort : (Pathes → Pathes → Bool) → List Pathes → List Pathes}
  {t : Volume (Attr Time)} {missing : Time} {dirs : List Path} {s : State Time} {names : List Name}

/-- What every run leaves as it was at the start -/
theorem unchanged_invariant : (system sort t missing dirs).Invariant fun s =>
    s.inputDirs = dirs ∧ s.fileTree = fileTree Attr.time sort t missing dirs where
  step hs h := by
    cases h
    exact hs
  start := ⟨rfl,rfl⟩

omit [LinearOrder Time] in
theorem resolve_of_index {path : List UInt8} {i : ℕ} (hi : i < s.fileTree.length)
    (h : getLastChangedName s.fileTree (skipSlash path) = i) :
    resolve s path = some s.fileTree[i].full := by
  have hneg : ¬ (i : ℤ) < 0 := by omega
  simp only [resolve,h,hneg,if_false,Int.toNat_natCast,List.getElem?_eq_getElem hi,Option.map_some]

/-- A path is resolved to the newest version of the start. -/
theorem resolve_of_hasVersion (hsort : IsSort sort) (hd : AreInputs t dirs)
    (hs : s.fileTree = fileTree Attr.time sort t missing dirs) (hv : HasVersion t dirs names) :
    ∃ full time, resolve s (mountPath names) = some full ∧
      Serves Attr.time t dirs names full time := by
  obtain ⟨tree,inputDirs,entries⟩ := s
  subst hs
  obtain ⟨i,hi,time,hindex,hserves⟩ :=
    snapshot_serves hd (fileTree_newestWins hsort t missing dirs) hv
  exact ⟨_,time,resolve_of_index hi hindex,hserves⟩

theorem resolve_eq_none (hsort : IsSort sort) (hd : AreInputs t dirs)
    (hs : s.fileTree = fileTree Attr.time sort t missing dirs) (hv : ¬ HasVersion t dirs names) :
    resolve s (mountPath names) = none := by
  have hw : NewestWins (lastWrite Attr.time t missing) (allFiles t.walk dirs) s.fileTree :=
    hs ▸ fileTree_newestWins hsort t missing dirs
  have hidx : getLastChangedName s.fileTree (skipSlash (mountPath names)) = -1 := by
    refine (hw.missing (relative names)).mpr fun e he heq => hv ?_
    obtain ⟨dir,hdir,names',hver⟩ := isVersion_of_mem hd he
    rw [hver.orig,equal_relative_iff] at heq
    subst heq
    exact ⟨dir,hdir,hver.full ▸ hver.found⟩
  simp [resolve,hidx]

theorem getattr_ne_iff (hsort : IsSort sort) (hd : AreInputs t dirs)
    (hs : s.fileTree = fileTree Attr.time sort t missing dirs) (stbuf : Stat) :
    (getattrCallback s (mountPath names) stbuf).1 ≠ -ENOENT ↔ HasVersion t dirs names := by
  by_cases hv : HasVersion t dirs names
  · obtain ⟨full,time,hres,-⟩ := resolve_of_hasVersion hsort hd hs hv
    simp only [getattrCallback,hres,hv,iff_true]
    exact getattrFull_ne _ _ _
  · simp [getattrCallback,resolve_eq_none hsort hd hs hv,hv]

end Snapshot

/-- What the callbacks do in a state, in terms of the tree `t` that was mounted. -/
structure ServesSnapshot [LE Time] (t : Volume (Attr Time)) (dirs : List Path) (s : State Time) :
    Prop where
  nodup : ∀ path, (readdirCallback s path).2.Nodup
  found : ∀ names stbuf,
    (getattrCallback s (mountPath names) stbuf).1 ≠ -ENOENT ↔ HasVersion t dirs names
  resolved : ∀ names, HasVersion t dirs names →
    ∃ full time, Serves Attr.time t dirs names full time ∧
      (∀ stbuf, getattrCallback s (mountPath names) stbuf = getattrFull s.tree full stbuf) ∧
      (names ≠ [] → ∀ size offset, readCallback s (mountPath names) size offset =
        readFull s.tree full size offset)
  emitted : ∀ names (n : Name), n.bytes ∈ (readdirCallback s (mountPath names)).2 →
    HasVersion s.tree dirs (names ++ [n])

theorem serves_snapshot [LinearOrder Time]
    (sort : (Pathes → Pathes → Bool) → List Pathes → List Pathes) (hsort : IsSort sort)
    (t : Volume (Attr Time)) (missing : Time) (dirs : List Path) (hd : AreInputs t dirs) :
    ∀ s, (system sort t missing dirs).Reachable s → ServesSnapshot t dirs s := by
  intro s hr
  obtain ⟨hdirs,hs⟩ := unchanged_invariant.reachable hr
  refine ⟨readdir_nodup s,fun names stbuf => getattr_ne_iff hsort hd hs stbuf,
    fun names hv => ?_,fun names n hn => ?_⟩
  · obtain ⟨full,time,hres,hserves⟩ := resolve_of_hasVersion hsort hd hs hv
    refine ⟨full,time,hserves,fun stbuf => by rw [getattrCallback,hres],fun hn size offset => ?_⟩
    have hpath : mountPath names ≠ [slash] := by
      obtain ⟨n,rest,rfl⟩ := List.exists_cons_of_ne_nil hn
      obtain ⟨c,tail,hc,-⟩ := relative_head n rest
      simp [mountPath,hc]
    rw [readCallback,if_neg hpath,hres]
  · rw [← hdirs]
    exact hasVersion_of_readdir (fun dir hdir => (hd dir (hdirs ▸ hdir)).1) hn

theorem plain_u : (117 : UInt8) ≠ slash ∧ (117 : UInt8) ≠ 46 := by decide

theorem plain_v : (118 : UInt8) ≠ slash ∧ (118 : UInt8) ≠ 46 := by decide

theorem plain_f : (102 : UInt8) ≠ slash ∧ (102 : UInt8) ≠ 46 := by decide

def sampleTree (u v : Forest (Attr ℕ)) (hu : u.Ok) (hv : v.Ok) : Volume (Attr ℕ) where
  attr := ⟨0,0o755,[]⟩
  contents := .dir (sampleName 117 plain_u) ⟨0,0o755,[]⟩ u
    (.dir (sampleName 118 plain_v) ⟨0,0o755,[]⟩ v .nil)
  ok := by simp [Forest.Ok,Forest.names,sampleName,hu,hv]

def fileF (time : ℕ) (content : List UInt8) : Forest (Attr ℕ) :=
  .file (sampleName 102 plain_f) ⟨time,0o644,content⟩ .nil

theorem fileF_ok (time : ℕ) (content : List UInt8) : (fileF time content).Ok := by
  simp [fileF,Forest.Ok,Forest.names]

theorem sample_inputs (u v : Forest (Attr ℕ)) (hu : u.Ok) (hv : v.Ok) :
    AreInputs (sampleTree u v hu hv) sampleDirs := by
  intro dir hdir
  obtain rfl | rfl := by simpa [sampleDirs] using hdir
  · exact ⟨⟨by decide,by decide⟩,_,_,rfl⟩
  · exact ⟨⟨by decide,by decide⟩,_,_,rfl⟩

def sampleSort (lt : Pathes → Pathes → Bool) (l : List Pathes) : List Pathes :=
  l.insertionSort fun a b => lt b a = false

theorem serves_snapshot_sample :
    ∃ s, (system sampleSort (sampleTree (fileF 1 []) .nil (fileF_ok 1 []) trivial) 0
        sampleDirs).run [sampleTree .nil .nil trivial trivial]
        (system sampleSort (sampleTree (fileF 1 []) .nil (fileF_ok 1 []) trivial) 0
          sampleDirs).start = some s ∧
      ServesSnapshot (sampleTree (fileF 1 []) .nil (fileF_ok 1 []) trivial) sampleDirs s :=
  ⟨_,rfl,serves_snapshot sampleSort insertionSort_isSort
    (sampleTree (fileF 1 []) .nil (fileF_ok 1 []) trivial) 0 sampleDirs (sample_inputs _ _ _ _) _
    ⟨[sampleTree .nil .nil trivial trivial],rfl⟩⟩

/-- A file that is created is listed but not found, a file that is rewritten is not taken
for the newest, the two names that every directory has are not found, and neither is
anything below an input directory with a separator at the end. -/
theorem snapshot_goes_stale :
    (∃ s, (system sampleSort (sampleTree .nil .nil trivial trivial) 0 sampleDirs).Reachable s ∧
      [102] ∈ (readdirCallback s [47]).2 ∧ (getattrCallback s [47,102] ⟨0,0⟩).1 = -ENOENT) ∧
    (∃ s, (system sampleSort (sampleTree (fileF 1 []) (fileF 2 []) (fileF_ok 1 []) (fileF_ok 2 []))
        0 sampleDirs).Reachable s ∧
      resolve s [47,102] = some ⟨[47,118,47,102]⟩ ∧
      times Attr.time s.tree ⟨[47,118,47,102]⟩ = some 2 ∧
      times Attr.time s.tree ⟨[47,117,47,102]⟩ = some 3) ∧
    (∃ s, (system sampleSort (sampleTree .nil .nil trivial trivial) 0 sampleDirs).Reachable s ∧
      dot ∈ (readdirCallback s [47]).2 ∧ (getattrCallback s [47,46] ⟨0,0⟩).1 = -ENOENT) ∧
    ∃ s, (system sampleSort (sampleTree (fileF 1 []) .nil (fileF_ok 1 []) trivial) 0
        [⟨[47,117,47]⟩]).Reachable s ∧
      [102] ∈ (readdirCallback s [47]).2 ∧ (getattrCallback s [47,102] ⟨0,0⟩).1 = -ENOENT := by
  refine ⟨?_,?_,?_,?_⟩
  · exact ⟨_,⟨[sampleTree (fileF 1 []) .nil (fileF_ok 1 []) trivial],rfl⟩,by decide,by decide⟩
  · exact ⟨_,⟨[sampleTree (fileF 3 []) (fileF 2 []) (fileF_ok 3 []) (fileF_ok 2 [])],rfl⟩,
      by decide,by decide,by decide⟩
  · exact ⟨_,⟨[],rfl⟩,by decide,by decide⟩
  · exact ⟨_,⟨[],rfl⟩,by decide,by decide⟩

end MountedUnion
end SomeCode
