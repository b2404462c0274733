import SomeCode.FsPath
import SomeCode.StrictWeak
import Mathlib

/-! The snapshot of the union file system in `inf24-1.cpp`: all entries under the input
directories are sorted once, and a path is looked up by a linear search, whose first hit
is the newest version. -/
namespace SomeCode
namespace SnapshotTree

open FsPath StrictWeak

variable {Time : Type*} [LinearOrder Time]

structure Pathes where
  orig : Path
  full : Path
  deriving DecidableEq

/-- `file_checker::operator()`, with the times that `last_write_time` gives -/
def fileChecker (lastWriteTime : Path → Time) (lhs rhs : Pathes) : Bool :=
  decide (lhs.orig.Less rhs.orig) ||
    decide (lhs.orig.Equal rhs.orig) && decide (lastWriteTime rhs.full < lastWriteTime lhs.full)

/-- The text behind the prefix and one separator -/
def deletePref (path pref : Path) : Path := ⟨path.native.drop (pref.native.length+1)⟩

def entriesOf (walk : Path → List Path) (dir : Path) : List Pathes :=
  (walk dir).map (fun file => ⟨deletePref file dir,file⟩) ++ [⟨Path.empty,dir / Path.empty⟩]

def allFiles (walk : Path → List Path) (dirs : List Path) : List Pathes :=
  dirs.flatMap (entriesOf walk)

/-- `sort` is `std::sort`. -/
def preprocess (sort : (Pathes → Pathes → Bool) → List Pathes → List Pathes)
    (lastWriteTime : Path → Time) (walk : Path → List Path) (dirs : List Path) : List Pathes :=
  sort (fileChecker lastWriteTime) (allFiles walk dirs)

/-- The loop of `get_last_changed_name` from index `i` on -/
def search (path : Path) : ℕ → List Pathes → ℤ
  | _, [] => -1
  | i, e :: es => if e.orig.Equal path then i else search path (i+1) es

def getLastChangedName (fileTree : List Pathes) (path : Path) : ℤ := search path 0 fileTree

/-- The comparator is the general one for the key of `orig_` and the time of `full_`. -/
theorem fileChecker_eq (lastWriteTime : Path → Time) : fileChecker lastWriteTime =
    newestFirst (fun e => e.orig.key) fun e => lastWriteTime e.full := by
  funext lhs rhs
  apply Bool.eq_iff_iff.mpr
  rw [newestFirst_iff]
  simp only [fileChecker,Bool.or_eq_true,Bool.and_eq_true,decide_eq_true_eq]
  exact Iff.rfl

theorem fileChecker_isStrictWeak (lastWriteTime : Path → Time) :
    IsStrictWeak (fileChecker lastWriteTime) := by
  rw [fileChecker_eq]
  exact newestFirst_isStrictWeak _ _

theorem search_eq_neg_one_iff {path : Path} {i : ℕ} {es : List Pathes} :
    search path i es = -1 ↔ ∀ e ∈ es, ¬ e.orig.Equal path := by
  induction es generalizing i with
  | nil => simp [search]
  | cons e es ih =>
    by_cases he : e.orig.Equal path
    · simp only [search,he,if_true,List.forall_mem_cons,not_true,false_and,iff_false]
      omega
    · simp only [search,he,if_false,ih,List.forall_mem_cons,not_false_eq_true,true_and]

theorem search_hit {path : Path} {i : ℕ} {es : List Pathes} (h : ∃ e ∈ es, e.orig.Equal path) :
    ∃ (j : ℕ) (hj : j < es.length), search path i es = (i+j : ℕ) ∧ es[j].orig.Equal path ∧
      ∀ k (hk : k < j), ¬ (es.get ⟨k,hk.trans hj⟩).orig.Equal path := by
  induction es generalizing i with
  | nil => simp at h
  | cons e es ih =>
    by_cases he : e.orig.Equal path
    · exact ⟨0,by simp,by simp [search,he],he,by simp⟩
    · have hrest : ∃ e' ∈ es, e'.orig.Equal path := by simpa [he] using h
      obtain ⟨j,hj,hs,heq,hfirst⟩ := ih (i := i+1) hrest
      refine ⟨j+1,Nat.succ_lt_succ hj,?_,heq,fun k hk => ?_⟩
      · rw [search,if_neg he,hs,Nat.add_assoc,Nat.add_comm 1 j]
      · cases k with
        | zero => exact he
        | succ k => exact hfirst k (Nat.lt_of_succ_lt_succ hk)

/-- The snapshot `fileTree` of the collected entries, and what a search in it finds. -/
structure NewestWins (lastWriteTime : Path → Time) (entries fileTree : List Pathes) : Prop where
  strictWeak : IsStrictWeak (fileChecker lastWriteTime)
  perm : fileTree.Perm entries
  missing : ∀ path, getLastChangedName fileTree path = -1 ↔ ∀ e ∈ entries, ¬ e.orig.Equal path
  newest : ∀ path, (∃ e ∈ entries, e.orig.Equal path) →
    ∃ (i : ℕ) (hi : i < fileTree.length), getLastChangedName fileTree path = i ∧
      fileTree[i].orig.Equal path ∧ ∀ e ∈ entries, e.orig.Equal path →
        lastWriteTime e.full ≤ lastWriteTime fileTree[i].full

theorem newestWins_of_sorted {lastWriteTime : Path → Time} {entries fileTree : List Pathes}
    (hperm : fileTree.Perm entries) (hsorted : Sorted (fileChecker lastWriteTime) fileTree) :
    NewestWins lastWriteTime entries fileTree where
  strictWeak := fileChecker_isStrictWeak lastWriteTime
  perm := hperm
  missing path := by
    rw [getLastChangedName,search_eq_neg_one_iff]
    exact ⟨fun h e he => h e (hperm.mem_iff.mpr he),fun h e he => h e (hperm.mem_iff.mp he)⟩
  newest path h := by
    obtain ⟨e,he,heq⟩ := h
    obtain ⟨i,hi,hs,hpath,hfirst⟩ := search_hit (i := 0) ⟨e,hperm.mem_iff.mpr he,heq⟩
    refine ⟨i,hi,by rw [getLastChangedName,hs,Nat.zero_add],hpath,fun e' he' heq' => ?_⟩
    rw [fileChecker_eq] at hsorted
    exact hsorted.rank_le_first hi hpath hfirst (hperm.mem_iff.mpr he') heq'

theorem preprocess_newestWins (sort : (Pathes → Pathes → Bool) → List Pathes → List Pathes)
    (hsort : IsSort sort) (lastWriteTime : Path → Time) (walk : Path → List Path)
    (dirs : List Path) :
    NewestWins lastWriteTime (allFiles walk dirs) (preprocess sort lastWriteTime walk dirs) := by
  obtain ⟨hperm,hsorted⟩ := hsort _ (fileChecker_isStrictWeak lastWriteTime) (allFiles walk dirs)
  exact newestWins_of_sorted hperm hsorted

/-- The directories `/u` and `/v` with a file `f` each, the one in `/v` the newer one, and a
merge sort in the place of `std::sort`. -/
theorem preprocess_newestWins_sample :
    NewestWins (fun p : Path => (p.native.map UInt8.toNat).sum)
      (allFiles (fun dir => [dir / ⟨[102]⟩]) [⟨[47,117]⟩,⟨[47,118]⟩])
      (preprocess (fun lt l => l.mergeSort fun a b => !lt b a)
        (fun p : Path => (p.native.map UInt8.toNat).sum) (fun dir => [dir / ⟨[102]⟩])
        [⟨[47,117]⟩,⟨[47,118]⟩]) :=
  preprocess_newestWins _ mergeSort_isSort _ _ _

end SnapshotTree
end SomeCode
