import SomeCode.HttpServer
import SomeCode.FileTree

/-! Where the path that `read_and_write` of `inf16-1.c` opens may lead to. The name in the request
goes into the path as it is, so that `..` in it leads out of the served directory. -/
namespace SomeCode
namespace HttpServer

open Stdio PathWalk FsPath FileTree

/-- A component of a path; an empty one and `.` stay where they are. -/
def component (c : List UInt8) : Step Name :=
  if h : c ≠ [] ∧ slash ∉ c ∧ c ≠ dot ∧ c ≠ dotdot then .into ⟨c,h.1,h.2.1,h.2.2⟩
  else if c = dotdot then .up else .here

def steps (path : List UInt8) : List (Step Name) := (path.splitOn slash).map component

/-- A path begins at the root, or where the process is. -/
def start (cwd : List Name) (path : List UInt8) : List Name :=
  if path.head? = some slash then [] else cwd

/-- What the system finds for a path, in a tree without links -/
def find (t : Tree Name Bool Regular) (cwd : List Name) (path : List UInt8) : Option Found :=
  if path = [] then none else t.lookup (start cwd path) (steps path)

def place (cwd : List Name) (path : List UInt8) : List Name :=
  resolve (start cwd path) (steps path)

def Contains (t : Tree Name Bool Regular) (cwd : List Name) (directory : List UInt8) : Prop :=
  ∃ readable, find t cwd directory = some (.directory readable)

/-- The trees are the same from the directory on. -/
def SameBelow (cwd : List Name) (directory : List UInt8) (t₁ t₂ : Tree Name Bool Regular) : Prop :=
  ∀ q, place cwd directory <+: q → t₁.node q = t₂.node q

theorem steps_fullPath (directory fileName : List UInt8) : steps (fullPath directory fileName) =
    steps directory ++ steps (fileName.takeWhile (· ≠ 0)) := by
  simp only [steps,fullPath,List.splitOn_eq_splitOnP]
  rw [List.splitOnP_append_cons _ _ (by decide),List.map_append]

theorem start_fullPath {directory : List UInt8} (h : directory ≠ []) (cwd : List Name)
    (fileName : List UInt8) : start cwd (fullPath directory fileName) = start cwd directory := by
  obtain ⟨c,directory,rfl⟩ := List.exists_cons_of_ne_nil h
  rfl

theorem find_fullPath {directory : List UInt8} (h : directory ≠ []) (t : Tree Name Bool Regular)
    (cwd : List Name) (fileName : List UInt8) : find t cwd (fullPath directory fileName) =
      t.lookup (start cwd directory)
        (steps directory ++ steps (fileName.takeWhile (· ≠ 0))) := by
  have hne : fullPath directory fileName ≠ [] := by simp [fullPath]
  rw [find,if_neg hne,start_fullPath h,steps_fullPath]

theorem place_fullPath {directory : List UInt8} (h : directory ≠ []) (cwd : List Name)
    (fileName : List UInt8) : place cwd (fullPath directory fileName) =
      resolve (place cwd directory) (steps (fileName.takeWhile (· ≠ 0))) := by
  rw [place,start_fullPath h,steps_fullPath,resolve_append,place]

theorem Contains.lookup {t : Tree Name Bool Regular} {cwd : List Name} {directory : List UInt8}
    (h : Contains t cwd directory) :
    ∃ readable, t.lookup (start cwd directory) (steps directory) = some (.directory readable) := by
  obtain ⟨readable,hfind⟩ := h
  rw [find] at hfind
  split at hfind
  · cases hfind
  · exact ⟨readable,hfind⟩

theorem contains_of_lookup {t : Tree Name Bool Regular} {cwd : List Name} {directory : List UInt8}
    (hne : directory ≠ []) {readable : Bool}
    (h : t.lookup (start cwd directory) (steps directory) = some (.directory readable)) :
    Contains t cwd directory :=
  ⟨readable,by rw [find,if_neg hne,h]⟩

theorem component_eq_up {c : List UInt8} (h : component c = .up) : c = dotdot := by
  unfold component at h
  split_ifs at h with hname hup
  exact hup

theorem confined_of_no_dotdot {cwd : List Name} {directory fileName : List UInt8}
    (h : dotdot ∉ fileName.splitOn slash) :
    Confined (start cwd directory) (steps directory) (steps fileName) := by
  refine confined_of_no_up fun hup => ?_
  obtain ⟨c,hc,hcomponent⟩ := List.mem_map.mp hup
  exact h (component_eq_up hcomponent ▸ hc)

/-- The path stays in the served directory, and the answer depends on nothing else, if and only if
the components of the name pass that directory's own subtree and directories known from its path
alone, and end in the subtree, as those of every name without `..` do. -/
theorem inside_iff {cwd : List Name} {directory token stale input : List UInt8}
    (hdir : directory ≠ []) (htoken : (words input)[1]? = some token) (hfits : Fits input) :
    ((place cwd directory <+: place cwd (fullPath directory token) ∧
      ∀ t₁ t₂, Contains t₁ cwd directory → Contains t₂ cwd directory →
        SameBelow cwd directory t₁ t₂ →
        readAndWrite (find t₁ cwd) directory stale input =
          readAndWrite (find t₂ cwd) directory stale input) ↔
      Confined (start cwd directory) (steps directory) (steps (token.takeWhile (· ≠ 0)))) ∧
    (dotdot ∉ (token.takeWhile (· ≠ 0)).splitOn slash →
      Confined (start cwd directory) (steps directory) (steps (token.takeWhile (· ≠ 0)))) := by
  have hname : (words input).getD 1 stale = token := by
    rw [List.getD_eq_getElem?_getD,htoken,Option.getD_some]
  have hanswer : ∀ t, readAndWrite (find t cwd) directory stale input =
      answer (t.lookup (start cwd directory)
        (steps directory ++ steps (token.takeWhile (· ≠ 0)))) := by
    intro t
    rw [readAndWrite_eq,if_pos hfits,hname,find_fullPath hdir]
  simp only [hanswer,place_fullPath hdir]
  refine ⟨⟨?_,?_⟩,confined_of_no_dotdot⟩
  · rintro ⟨hinside,hsame⟩
    refine ⟨fun q hq => ?_,hinside⟩
    by_contra hout
    obtain ⟨hbelow,hknown⟩ := not_or.mp hout
    obtain ⟨t₁,t₂,h₁,h₂,hagree,hfirst,hsecond⟩ := exists_apart hq hbelow hknown false
    have hequal := hsame t₁ t₂ (contains_of_lookup hdir h₁) (contains_of_lookup hdir h₂) hagree
    rw [hfirst,hsecond] at hequal
    exact absurd hequal (by decide)
  · intro h
    refine ⟨h.inside,fun t₁ t₂ hc₁ hc₂ hagree => ?_⟩
    obtain ⟨r₁,h₁⟩ := hc₁.lookup
    obtain ⟨r₂,h₂⟩ := hc₂.lookup
    rw [h.lookup_eq h₁ h₂ hagree]

theorem inside_iff_sample :
    place [] (text "/srv") <+: place [] (fullPath (text "/srv") (text "txt1.txt")) ∧
      ∀ t₁ t₂, Contains t₁ [] (text "/srv") → Contains t₂ [] (text "/srv") →
        SameBelow [] (text "/srv") t₁ t₂ →
        readAndWrite (find t₁ []) (text "/srv") [] sample.bytes =
          readAndWrite (find t₂ []) (text "/srv") [] sample.bytes := by
  have hinside := @inside_iff [] (text "/srv") (text "txt1.txt") [] sample.bytes (by decide)
    (by decide) (by decide)
  exact hinside.1.mpr (hinside.2 (by decide))

def srv : Name := ⟨text "srv",by decide,by decide,by decide⟩

def etc : Name := ⟨text "etc",by decide,by decide,by decide⟩

def passwd : Name := ⟨text "passwd",by decide,by decide,by decide⟩

def emptyDirectories : Tree Name Bool Regular := directories true [[srv],[etc]]

def withPasswd : Tree Name Bool Regular :=
  emptyDirectories.addFile [etc] passwd ⟨true,text "root:x:0:0"⟩ ⟨true,by decide⟩ (by decide)

/-- The file of a directory that is not served is sent. -/
theorem passwd_sent :
    Contains emptyDirectories [] (text "/srv") ∧ Contains withPasswd [] (text "/srv") ∧
    SameBelow [] (text "/srv") emptyDirectories withPasswd ∧
    ¬ place [] (text "/srv") <+: place [] (fullPath (text "/srv") (text "../etc/passwd")) ∧
    (words (text "GET ../etc/passwd HTTP/1.1\r\n\r\n"))[1]? = some (text "../etc/passwd") ∧
    readAndWrite (find withPasswd []) (text "/srv") [] (text "GET ../etc/passwd HTTP/1.1\r\n\r\n") =
      some (text "HTTP/1.1 200 OK\r\nContent-Length: 10\r\n\r\nroot:x:0:0") ∧
    readAndWrite (find emptyDirectories []) (text "/srv") []
        (text "GET ../etc/passwd HTTP/1.1\r\n\r\n") =
      some (text "HTTP/1.1 404 Not Found\r\nContent-Length: 0\r\n\r\n\r\n") := by
  refine ⟨⟨true,by decide⟩,⟨true,by decide⟩,fun q hq => ?_,by decide,by decide,?_,?_⟩
  · have hne : q ≠ [etc] ++ [passwd] := by
      rintro rfl
      exact absurd hq (by decide)
    exact (if_neg hne).symm
  · rw [readAndWrite_eq,if_pos (by decide)]
    decide
  · rw [readAndWrite_eq,if_pos (by decide)]
    decide

end HttpServer
end SomeCode
