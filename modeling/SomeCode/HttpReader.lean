import SomeCode.HttpServer
import Mathlib.Data.List.DropRight

/-! The readers of a response in `inf23-0.c`, `inf23-1.c` and `another-inf23-0.c`: lines are skipped
up to an empty one, and the rest is written to the standard output as strings. The programs differ
in the size of their buffer. -/
namespace SomeCode
namespace HttpReader

open Stdio

abbrev crlf : List UInt8 := HttpServer.crlf

/-- What the string functions see of the bytes that were read -/
def cString (piece : List UInt8) : List UInt8 := piece.takeWhile (· ≠ 0)

/-- The first loop, up to what it leaves unread; `room` is what `fgets` takes at most. -/
def skipHeader (room : ℕ+) (input : List UInt8) : List UInt8 :=
  if _h : input = [] then []
  else if cString (fgets room input).1 = crlf then (fgets room input).2
  else skipHeader room (fgets room input).2
termination_by input.length
decreasing_by exact fgets_length_lt room.ne_zero _h

/-- The second loop, up to what it writes -/
def copyRest (room : ℕ+) (input : List UInt8) : List UInt8 :=
  if _h : input = [] then []
  else cString (fgets room input).1 ++ copyRest room (fgets room input).2
termination_by input.length
decreasing_by exact fgets_length_lt room.ne_zero _h

def readResponse (room : ℕ+) (input : List UInt8) : List UInt8 :=
  copyRest room (skipHeader room input)

/-- `main` of `inf23-0.c`, with a buffer of 1048576 bytes -/
def getMain (input : List UInt8) : List UInt8 := readResponse 1048575 input

/-- `main` of `inf23-1.c`, with a buffer of 4096 bytes -/
def postMain (input : List UInt8) : List UInt8 := readResponse 4095 input

/-- `PrintHTTPFile` of `another-inf23-0.c`, with a buffer of 1000000 bytes -/
def printHTTPFile (input : List UInt8) : List UInt8 := readResponse 999999 input

/-! Responses -/

/-- The line goes up to the first CRLF from its beginning. -/
structure Line where
  bytes : List UInt8
  nonempty : bytes ≠ []
  unbroken : ¬ crlf <:+: bytes

structure Response where
  status : Line
  headers : List Line
  body : List UInt8

def lineBytes (lines : List Line) : List UInt8 := lines.flatMap fun line => line.bytes ++ crlf

def Response.bytes (r : Response) : List UInt8 :=
  lineBytes (r.status :: r.headers) ++ (crlf ++ r.body)

def lastPart (bytes : List UInt8) : List UInt8 := bytes.rtakeWhile (· ≠ 10)

/-- The end of the line is read on its own. -/
def Cut (room : ℕ) (bytes : List UInt8) : Prop := room ∣ (lastPart bytes).length

instance (room : ℕ) (bytes : List UInt8) : Decidable (Cut room bytes) :=
  inferInstanceAs (Decidable (_ ∣ _))

/-! Lines that are cut -/

theorem lastPart_line (a b : List UInt8) : lastPart (a ++ 10 :: b) = lastPart b := by
  rw [lastPart,List.rtakeWhile,List.reverse_append,List.reverse_cons,List.append_assoc,
    List.takeWhile_append,lastPart,List.rtakeWhile]
  split
  · rename_i hlen
    rw [(List.takeWhile_prefix _).eq_of_length hlen]
    simp
  · rfl

theorem lastPart_of_notMem {bytes : List UInt8} (h : 10 ∉ bytes) : lastPart bytes = bytes :=
  List.rtakeWhile_eq_self_iff.mpr fun c hc => by
    simpa using ne_of_mem_of_not_mem hc h

theorem cut_line (room : ℕ) (a b : List UInt8) : Cut room (a ++ 10 :: b) ↔ Cut room b := by
  rw [Cut,lastPart_line,Cut]

theorem cut_nil (room : ℕ) : Cut room [] := Nat.dvd_zero room

theorem cut_append {room : ℕ} {part : List UInt8} (h : 10 ∉ part) (hpart : part.length = room)
    (bytes : List UInt8) : Cut room (part ++ bytes) ↔ Cut room bytes := by
  by_cases hmem : 10 ∈ bytes
  · obtain ⟨a,b,rfl⟩ := List.append_of_mem hmem
    rw [← List.append_assoc,cut_line,cut_line]
  · have hnot : 10 ∉ part ++ bytes := by simp [h,hmem]
    rw [Cut,lastPart_of_notMem hnot,Cut,lastPart_of_notMem hmem,List.length_append,hpart,
      Nat.dvd_add_right (Nat.dvd_refl room)]

theorem cString_ne_of_notMem {piece : List UInt8} (h : 10 ∉ piece) : cString piece ≠ crlf := by
  intro heq
  have hmem : 10 ∈ cString piece := by rw [heq]; decide
  exact h ((List.takeWhile_prefix _).subset hmem)

theorem cString_line_ne {line : List UInt8} (h : 10 ∉ line) (hne : line ≠ [13]) :
    cString (line ++ [10]) ≠ crlf := by
  intro heq
  obtain ⟨t,ht⟩ := List.takeWhile_prefix (l := line ++ [10]) (· ≠ (0 : UInt8))
  rw [show List.takeWhile (· ≠ (0 : UInt8)) (line ++ [10]) = crlf from heq] at ht
  obtain rfl | ⟨t,c,rfl⟩ := List.eq_nil_or_concat t
  · rw [List.append_nil] at ht
    exact hne (List.append_inj_left' (ht.symm : line ++ [10] = [13] ++ [10]) rfl)
  · rw [List.concat_eq_append,← List.append_assoc] at ht
    have hline := List.append_inj_left' ht rfl
    exact h (hline ▸ by simp [crlf,HttpServer.crlf])

section Skip

variable {room : ℕ+}

theorem skipHeader_step {input piece rest : List UInt8} (hne : input ≠ [])
    (hget : fgets room input = (piece,rest)) (hpiece : cString piece ≠ crlf) :
    skipHeader room input = skipHeader room rest := by
  rw [skipHeader,dif_neg hne,hget,if_neg hpiece]

theorem skipHeader_crlf (hroom : 1 < (room : ℕ)) (rest : List UInt8) :
    skipHeader room (crlf ++ rest) = rest := by
  have hget : fgets room (crlf ++ rest) = (crlf,rest) :=
    fgets_line (show (10 : UInt8) ∉ [13] by decide) hroom rest
  have hnonzero : cString crlf = crlf := by decide
  rw [skipHeader,dif_neg (by simp [crlf,HttpServer.crlf]),hget,if_pos hnonzero]

theorem skipHeader_short {line : List UInt8} (hlf : 10 ∉ line) (hne : line ≠ [])
    (hlen : line.length < room) (rest : List UInt8) :
    skipHeader room (line ++ (crlf ++ rest)) = skipHeader room rest := by
  have hcr : 10 ∉ line ++ [13] := by simp [hlf]
  have hsplit : line ++ (crlf ++ rest) = (line ++ [13]) ++ 10 :: rest := by
    simp [crlf,HttpServer.crlf]
  have hinput : (line ++ [13]) ++ 10 :: rest ≠ [] := by simp
  rw [hsplit]
  obtain hfits | hfull : (line ++ [13]).length < (room : ℕ) ∨
      (line ++ [13]).length = (room : ℕ) := by
    rw [List.length_append,List.length_singleton]
    omega
  · exact skipHeader_step hinput (fgets_line hcr hfits rest)
      (cString_line_ne hcr (by simpa using hne))
  · rw [skipHeader_step hinput (hfull ▸ fgets_full hcr _) (cString_ne_of_notMem hcr)]
    exact skipHeader_step (by simp) (fgets_line List.not_mem_nil room.pos rest) (by decide)

theorem skipHeader_line (hroom : 1 < (room : ℕ)) {line : List UInt8} (h : ¬ crlf <:+: line)
    (rest : List UInt8) : skipHeader room (line ++ (crlf ++ rest)) =
      if Cut room line then rest else skipHeader room rest := by
  induction hn : line.length using Nat.strongRecOn generalizing line with
  | ind n ih =>
    have hsuffix : ∀ a b, line = a ++ b → ¬ crlf <:+: b := fun a b he hb =>
      h (he ▸ hb.trans (List.suffix_append a b).isInfix)
    by_cases hmem : 10 ∈ line.take room
    · -- an LF ends a piece within the line
      obtain ⟨a,b,htake,ha⟩ := List.eq_append_cons_of_mem hmem
      have hline : line = a ++ 10 :: (b ++ line.drop room) := by
        rw [← List.cons_append,← List.append_assoc,← htake,List.take_append_drop]
      have halen : a.length < room := by
        have hlen := congrArg List.length htake
        simp only [List.length_take,List.length_append,List.length_cons] at hlen
        omega
      generalize b ++ line.drop room = b' at hline
      subst hline
      have hcr : a ≠ [13] := by
        rintro rfl
        exact h ⟨[],b',rfl⟩
      rw [List.append_assoc,List.cons_append,skipHeader_step (by simp) (fgets_line ha halen _)
        (cString_line_ne ha hcr),ih b'.length (by rw [← hn]; simp; omega)
        (hsuffix (a ++ [10]) b' (by simp)) rfl]
      exact if_congr (cut_line _ a b').symm rfl rfl
    · by_cases hlong : (room : ℕ) ≤ line.length
      · -- a piece full of bytes of the line
        have hlen : (line.take room).length = room := List.length_take_of_le hlong
        have hget := fgets_full hmem (line.drop room ++ (crlf ++ rest))
        rw [hlen,← List.append_assoc,List.take_append_drop] at hget
        have hpos := room.pos
        rw [skipHeader_step (by simp [crlf,HttpServer.crlf]) hget (cString_ne_of_notMem hmem),
          ih _ (by rw [List.length_drop]; omega)
            (hsuffix (line.take room) _ (List.take_append_drop _ _).symm) rfl]
        have hcut := cut_append hmem hlen (line.drop room)
        rw [List.take_append_drop] at hcut
        exact if_congr hcut.symm rfl rfl
      · rw [List.take_of_length_le (Nat.le_of_not_le hlong)] at hmem
        by_cases hempty : line = []
        · subst hempty
          rw [List.nil_append,skipHeader_crlf hroom,if_pos (cut_nil _)]
        · have hcut : ¬ Cut room line := by
            rw [Cut,lastPart_of_notMem hmem]
            exact Nat.not_dvd_of_pos_of_lt (List.length_pos_of_ne_nil hempty)
              (Nat.lt_of_not_le hlong)
          rw [skipHeader_short hmem hempty (Nat.lt_of_not_le hlong),if_neg hcut]

end Skip

/-! What is written -/

@[simp] theorem copyRest_nil (room : ℕ+) : copyRest room [] = [] := by
  rw [copyRest,dif_pos rfl]

theorem copyRest_step (room : ℕ+) {input piece rest : List UInt8} (hne : input ≠ [])
    (hget : fgets room input = (piece,rest)) :
    copyRest room input = cString piece ++ copyRest room rest := by
  rw [copyRest,dif_neg hne,hget]

theorem zero_notMem_copyRest (room : ℕ+) (input : List UInt8) : 0 ∉ copyRest room input := by
  fun_induction copyRest room input with
  | case1 => simp
  | case2 input hne ih =>
    have hpiece : 0 ∉ cString (fgets room input).1 := fun h => by
      simpa using List.mem_takeWhile_imp h
    simp [hpiece,ih]

theorem copyRest_of_nonzero (room : ℕ+) {input : List UInt8} (h : 0 ∉ input) :
    copyRest room input = input := by
  fun_induction copyRest room input with
  | case1 => rfl
  | case2 input hne ih =>
    have happend := fgets_append room input
    rw [← happend,List.mem_append,not_or] at h
    have hpiece : cString (fgets room input).1 = (fgets room input).1 := takeWhile_ne_self h.1
    rw [hpiece,ih h.2,happend]

theorem copyRest_line (room : ℕ+) (a b : List UInt8) :
    copyRest room (a ++ 10 :: b) = copyRest room (a ++ [10]) ++ copyRest room b := by
  induction hn : a.length using Nat.strongRecOn generalizing a with
  | ind n ih =>
    have hget : fgets room (a ++ [10]) = (_,_) := rfl
    have happend := fgets_append room (a ++ [10])
    have hless := fgets_length_lt room.ne_zero (show a ++ [10] ≠ [] by simp)
    rw [copyRest_step room (by simp) (fgets_append_line room a b),
      copyRest_step room (by simp) hget,List.append_assoc]
    congr 1
    obtain hnil | ⟨q,c,hq⟩ := List.eq_nil_or_concat (fgets room (a ++ [10])).2
    · rw [hnil,copyRest_nil,List.nil_append,List.nil_append]
    · rw [List.concat_eq_append] at hq
      rw [hq,← List.append_assoc] at happend
      obtain rfl : c = 10 := by simpa using (List.append_inj_right' happend rfl)
      rw [hq] at hless ⊢
      rw [List.append_assoc]
      exact ih q.length (by simp at hless; omega) q rfl

@[simp] theorem lineBytes_nil : lineBytes [] = [] := rfl

@[simp] theorem lineBytes_cons (line : Line) (lines : List Line) :
    lineBytes (line :: lines) = line.bytes ++ (crlf ++ lineBytes lines) := by
  simp [lineBytes]

theorem skipHeader_lines {room : ℕ+} (hroom : 1 < (room : ℕ)) (lines : List Line)
    (body : List UInt8) :
    (∀ line ∈ lines, ¬ Cut room line.bytes) ∧
      skipHeader room (lineBytes lines ++ (crlf ++ body)) = body ∨
    (∃ line ∈ lines, Cut room line.bytes) ∧
      ∃ rest, skipHeader room (lineBytes lines ++ (crlf ++ body)) =
        lineBytes rest ++ (crlf ++ body) := by
  induction lines with
  | nil => exact Or.inl ⟨by simp,skipHeader_crlf hroom body⟩
  | cons line lines ih =>
    have hline := skipHeader_line hroom line.unbroken (lineBytes lines ++ (crlf ++ body))
    rw [lineBytes_cons,List.append_assoc,List.append_assoc,hline]
    by_cases hcut : Cut room line.bytes
    · exact Or.inr ⟨⟨line,List.mem_cons_self,hcut⟩,lines,by rw [if_pos hcut]⟩
    · rw [if_neg hcut]
      obtain ⟨hall,heq⟩ | ⟨⟨bad,hbad,hcutbad⟩,hrest⟩ := ih
      · exact Or.inl ⟨by simpa [hcut] using hall,heq⟩
      · exact Or.inr ⟨⟨bad,List.mem_cons_of_mem _ hbad,hcutbad⟩,hrest⟩

/-- An empty line is written as well when the loop stops too early. -/
theorem copyRest_lines {room : ℕ+} (hroom : 1 < (room : ℕ)) (lines : List Line)
    (body : List UInt8) : copyRest room (lineBytes lines ++ (crlf ++ body)) =
      copyRest room (lineBytes lines) ++ (crlf ++ copyRest room body) := by
  induction lines with
  | nil =>
    have hget : fgets room (crlf ++ body) = (crlf,body) :=
      fgets_line (show (10 : UInt8) ∉ [13] by decide) hroom body
    have hnonzero : cString crlf = crlf := by decide
    rw [lineBytes_nil,List.nil_append,copyRest_step room (by simp [crlf,HttpServer.crlf]) hget,
      hnonzero,copyRest_nil,List.nil_append]
  | cons line lines ih =>
    have hsplit : ∀ x, line.bytes ++ (crlf ++ x) = (line.bytes ++ [13]) ++ 10 :: x := by
      simp [crlf,HttpServer.crlf]
    rw [lineBytes_cons,List.append_assoc,List.append_assoc,hsplit,copyRest_line,ih,hsplit,
      copyRest_line room _ (lineBytes lines),List.append_assoc (copyRest room _)]

/-- The body is written when no line is cut at its end and no byte of the body ends a string. -/
theorem readResponse_iff {room : ℕ+} (hroom : 1 < (room : ℕ)) (r : Response) :
    readResponse room r.bytes = r.body ↔
      (∀ line ∈ r.status :: r.headers, ¬ Cut room line.bytes) ∧ 0 ∉ r.body := by
  rw [readResponse,Response.bytes]
  obtain ⟨hall,hskip⟩ | ⟨⟨bad,hbad,hcut⟩,rest,hskip⟩ :=
    skipHeader_lines hroom (r.status :: r.headers) r.body
  · rw [hskip]
    constructor
    · intro heq
      exact ⟨hall,heq ▸ zero_notMem_copyRest room r.body⟩
    · rintro ⟨-,hzero⟩
      exact copyRest_of_nonzero room hzero
  · rw [hskip]
    constructor
    · intro heq
      have hzero : 0 ∉ r.body := heq ▸ zero_notMem_copyRest room _
      have hlen := congrArg List.length heq
      rw [copyRest_lines hroom,copyRest_of_nonzero room hzero] at hlen
      simp [crlf,HttpServer.crlf] at hlen
      omega
    · rintro ⟨hnone,-⟩
      exact absurd hcut (hnone bad hbad)

theorem readers_write_body_iff (r : Response) :
    (getMain r.bytes = r.body ↔
      (∀ line ∈ r.status :: r.headers, ¬ Cut 1048575 line.bytes) ∧ 0 ∉ r.body) ∧
    (postMain r.bytes = r.body ↔
      (∀ line ∈ r.status :: r.headers, ¬ Cut 4095 line.bytes) ∧ 0 ∉ r.body) ∧
    (printHTTPFile r.bytes = r.body ↔
      (∀ line ∈ r.status :: r.headers, ¬ Cut 999999 line.bytes) ∧ 0 ∉ r.body) :=
  ⟨readResponse_iff (by decide) r,readResponse_iff (by decide) r,readResponse_iff (by decide) r⟩

/-- Without an LF in it -/
def Line.ofNoLf (bytes : List UInt8) (hne : bytes ≠ []) (hlf : 10 ∉ bytes) : Line :=
  ⟨bytes,hne,fun h => hlf (h.subset (by decide))⟩

def okText : List UInt8 := HttpServer.text "HTTP/1.1 200 OK"

theorem okText_line : okText ≠ [] ∧ 10 ∉ okText := by decide

def binary : Response := ⟨.ofNoLf okText okText_line.1 okText_line.2,[],[65,0,66]⟩

def longLine (n : ℕ) : Line := .ofNoLf (List.replicate (n+1) 97) (by simp) (by simp)

theorem longLine_cut (n : ℕ) : Cut (n+1) (longLine n).bytes := by
  have hpart : lastPart (List.replicate (n+1) 97) = List.replicate (n+1) 97 :=
    lastPart_of_notMem (by simp)
  rw [longLine,Line.ofNoLf,Cut,hpart,List.length_replicate]

/-- A header line that fills the buffer of `inf23-1.c` -/
def longHeader : Response := ⟨.ofNoLf okText okText_line.1 okText_line.2,[longLine 4094],[65]⟩

theorem body_not_written :
    (getMain binary.bytes ≠ binary.body ∧ postMain binary.bytes ≠ binary.body ∧
      printHTTPFile binary.bytes ≠ binary.body) ∧
    postMain longHeader.bytes ≠ longHeader.body := by
  have hbinary : ∀ room : ℕ+, 1 < (room : ℕ) → readResponse room binary.bytes ≠ binary.body :=
    fun room hroom h => ((readResponse_iff hroom binary).mp h).2 (by decide)
  refine ⟨⟨hbinary _ (by decide),hbinary _ (by decide),hbinary _ (by decide)⟩,fun h => ?_⟩
  have hall := ((readResponse_iff (by decide) longHeader).mp h).1
  exact hall (longLine 4094) (List.mem_cons_of_mem _ List.mem_cons_self) (longLine_cut 4094)

end HttpReader
end SomeCode
