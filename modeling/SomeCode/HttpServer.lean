import SomeCode.Stdio
import SomeCode.MachineInt
import SomeCode.FsPath
import SomeCode.PathWalk

/-! `read_and_write` of `inf16-1.c`: a request is read with `fscanf` and `fgets`, and the file that
it names is sent back. The header lines of a request stay unread. -/
namespace SomeCode
namespace HttpServer

open Stdio PathWalk

def crlf : List UInt8 := [13,10]

def text (s : String) : List UInt8 := s.toList.map fun c => UInt8.ofNat c.toNat

/-- The loop over `fgets`, up to what it leaves unread -/
def skipHeaders (input : List UInt8) : List UInt8 :=
  if _h : input = [] then []
  else if (fgets 4095 input).1.getD 0 0 = 13 ∧ (fgets 4095 input).1.getD 1 0 = 10 then
    (fgets 4095 input).2
  else skipHeaders (fgets 4095 input).2
termination_by input.length
decreasing_by exact fgets_length_lt (by decide) _h

structure Scanned where
  fileName : List UInt8
  unread : List UInt8

/-- The first part of `read_and_write`: `stale` is the text in `file_name` when no second word
comes, and there is no result where a word does not fit in its buffer. -/
def readRequest (stale input : List UInt8) : Option Scanned :=
  (fscanfString 4096 [] input).bind fun get =>
    (fscanfString 4096 stale get.2).bind fun fileName =>
      (fscanfString 4096 [] fileName.2).bind fun http =>
        some ⟨fileName.1,skipHeaders http.2⟩

structure Regular where
  readable : Bool
  content : List UInt8
  deriving DecidableEq

/-- What a path leads to; of a directory it is known whether it can be read. -/
abbrev Found := Node Bool Regular

/-- `access (directory,R_OK)` -/
def accessible : Found → Bool
  | .directory readable => readable
  | .file f => f.readable

/-- The array of `n` bytes after the two calls of `fread`; the second one goes on behind the first. -/
def readTwice (content : List UInt8) (n : ℕ) : List UInt8 :=
  (content.drop n).take n ++ (content.take n).drop ((content.drop n).take n).length

/-- The branch that sends a file. What `ftell` says of a directory is up to the file system, and
there is no array of a negative size. -/
def sendFile : Found → Option (List UInt8)
  | .directory _ => none
  | .file f =>
    let sz := MachineInt.wrap 32 f.content.length
    if sz < 0 then none
    else some (text "HTTP/1.1 200 OK\r\n" ++
      (text "Content-Length: " ++ text (toString sz) ++ crlf) ++ crlf ++ readTwice f.content sz.toNat)

/-- What is written back about the path -/
def answer : Option Found → Option (List UInt8)
  | some node =>
    if accessible node then sendFile node
    else some ((text "HTTP/1.1 403 Forbidden\r\nContent-Length: 0\r\n\r\n\r\n").take 47)
  | none => some ((text "HTTP/1.1 404 Not Found\r\nContent-Length: 0\r\n\r\n\r\n").take 47)

/-- The two calls of `strcat`: the file name goes up to a zero in it. -/
def fullPath (directory fileName : List UInt8) : List UInt8 :=
  directory ++ FsPath.slash :: fileName.takeWhile (· ≠ 0)

def readAndWrite (find : List UInt8 → Option Found) (directory stale input : List UInt8) :
    Option (List UInt8) :=
  (readRequest stale input).bind fun request => answer (find (fullPath directory request.fileName))

/-- The words of the request that are read into buffers fit. -/
def Fits (input : List UInt8) : Prop := ∀ w ∈ (words input).take 3, w.length < 4096

instance (input : List UInt8) : Decidable (Fits input) := inferInstanceAs (Decidable (∀ w ∈ _, _))

theorem fits_iff (input : List UInt8) : Fits input ↔
    (∀ w ∈ (words input).head?, w.length < 4096) ∧
    (∀ w ∈ (words (scanToken input).2).head?, w.length < 4096) ∧
    ∀ w ∈ (words (scanToken (scanToken input).2).2).head?, w.length < 4096 := by
  simp only [words_scanToken,Fits]
  generalize words input = ws
  obtain _ | ⟨a,_ | ⟨b,_ | ⟨c,ws⟩⟩⟩ := ws <;> simp

theorem readRequest_eq (stale input : List UInt8) : readRequest stale input =
    if Fits input then some ⟨(words input).getD 1 stale,
      skipHeaders (scanToken (scanToken (scanToken input).2).2).2⟩ else none := by
  have hname : (words (scanToken input).2).headD stale = (words input).getD 1 stale := by
    rw [words_scanToken]
    obtain _ | ⟨a,_ | ⟨b,ws⟩⟩ := words input <;> rfl
  by_cases hfits : Fits input
  · obtain ⟨hget,hfile,hhttp⟩ := (fits_iff input).mp hfits
    rw [if_pos hfits,readRequest,fscanfString_eq,if_pos hget,Option.bind_some,fscanfString_eq,
      if_pos hfile,Option.bind_some,fscanfString_eq,if_pos hhttp,Option.bind_some,hname]
  · rw [if_neg hfits,readRequest,fscanfString_eq]
    by_cases hget : ∀ w ∈ (words input).head?, w.length < 4096
    swap
    · rw [if_neg hget,Option.bind_none]
    rw [if_pos hget,Option.bind_some,fscanfString_eq]
    by_cases hfile : ∀ w ∈ (words (scanToken input).2).head?, w.length < 4096
    swap
    · rw [if_neg hfile,Option.bind_none]
    have hhttp := fun h => hfits ((fits_iff input).mpr ⟨hget,hfile,h⟩)
    rw [if_pos hfile,Option.bind_some,fscanfString_eq,if_neg hhttp,Option.bind_none]

theorem readAndWrite_eq (find : List UInt8 → Option Found) (directory stale input : List UInt8) :
    readAndWrite find directory stale input =
      if Fits input then answer (find (fullPath directory ((words input).getD 1 stale)))
      else none := by
  rw [readAndWrite,readRequest_eq]
  split <;> rfl

/-! Requests -/

structure Request where
  method : List UInt8
  path : List UInt8
  version : List UInt8
  headers : List (List UInt8)
  body : List UInt8

def Request.tail (r : Request) : List UInt8 :=
  crlf ++ (r.headers.flatMap (· ++ crlf) ++ crlf ++ r.body)

def Request.bytes (r : Request) : List UInt8 :=
  r.method ++ 32 :: (r.path ++ 32 :: (r.version ++ r.tail))

structure Request.WellFormed (r : Request) : Prop where
  method : r.method ≠ [] ∧ ∀ c ∈ r.method, isSpace c = false
  path : r.path ≠ [] ∧ ∀ c ∈ r.path, isSpace c = false
  version : r.version ≠ [] ∧ ∀ c ∈ r.version, isSpace c = false
  headers : ∀ line ∈ r.headers, line ≠ [] ∧ 10 ∉ line

theorem Request.WellFormed.scan_method {r : Request} (h : r.WellFormed) :
    scanToken r.bytes = (r.method,32 :: (r.path ++ 32 :: (r.version ++ r.tail))) :=
  scanToken_append h.method.2 h.method.1 (by simp; decide)

theorem Request.WellFormed.scan_path {r : Request} (h : r.WellFormed) :
    scanToken (32 :: (r.path ++ 32 :: (r.version ++ r.tail))) =
      (r.path,32 :: (r.version ++ r.tail)) := by
  rw [scanToken_space (by decide)]
  exact scanToken_append h.path.2 h.path.1 (by simp; decide)

theorem Request.WellFormed.scan_version {r : Request} (h : r.WellFormed) :
    scanToken (32 :: (r.version ++ r.tail)) = (r.version,r.tail) := by
  rw [scanToken_space (by decide)]
  refine scanToken_append h.version.2 h.version.1 fun c hc => ?_
  obtain rfl : 13 = c := by simpa [Request.tail,crlf] using hc
  decide

theorem Request.WellFormed.words_bytes {r : Request} (h : r.WellFormed) :
    words r.bytes = r.method :: r.path :: r.version :: words r.tail := by
  rw [words_of_scanToken h.scan_method h.method.1,words_of_scanToken h.scan_path h.path.1,
    words_of_scanToken h.scan_version h.version.1]

theorem skipHeaders_crlf (rest : List UInt8) : skipHeaders (crlf ++ rest) = rest := by
  have hline : fgets 4095 (crlf ++ rest) = (crlf,rest) := rfl
  rw [skipHeaders,hline]
  simp [crlf]

/-- The loop takes the end of the request line for the empty line. -/
theorem readRequest_bytes {r : Request} (h : r.WellFormed) (hfits : Fits r.bytes)
    (stale : List UInt8) : readRequest stale r.bytes =
      some ⟨r.path,r.headers.flatMap (· ++ crlf) ++ crlf ++ r.body⟩ := by
  rw [readRequest_eq,if_pos hfits,h.words_bytes,h.scan_method,h.scan_path,h.scan_version,
    Request.tail,skipHeaders_crlf]
  rfl

/-- What is left unread is never what follows the empty line. -/
theorem never_at_body {r : Request} (h : r.WellFormed) (stale : List UInt8) :
    ¬ ∃ fileName, readRequest stale r.bytes = some ⟨fileName,r.body⟩ := by
  rintro ⟨fileName,hread⟩
  by_cases hfits : Fits r.bytes
  · rw [readRequest_bytes h hfits] at hread
    have hunread := congrArg (fun s => s.map fun q => q.unread.length) hread
    simp [crlf] at hunread
    omega
  · rw [readRequest_eq,if_neg hfits] at hread
    cases hread

/-- The request of `inf16-1-tester.c` -/
def sample : Request :=
  ⟨text "GET",text "txt1.txt",text "HTTP/1.1",[text "aa"],[]⟩

theorem sample_wellFormed : sample.WellFormed where
  method := by simp [sample,text,isSpace]
  path := by simp [sample,text,isSpace]
  version := by simp [sample,text,isSpace]
  headers := by decide

theorem never_at_body_sample :
    ¬ ∃ fileName, readRequest [] sample.bytes = some ⟨fileName,sample.body⟩ :=
  never_at_body sample_wellFormed []

/-- The header line and the empty line are left. -/
theorem header_left_unread : sample.bytes = text "GET txt1.txt HTTP/1.1\r\naa\r\n\r\n" ∧
    readRequest [] sample.bytes = some ⟨text "txt1.txt",text "aa\r\n\r\n"⟩ ∧ sample.body = [] :=
  ⟨rfl,readRequest_bytes sample_wellFormed (by decide) [],rfl⟩

end HttpServer
end SomeCode
