import SomeCode.ReadBuffer
import SomeCode.HttpServer

/-! `inf09-2.c`: of the paths on the standard input those are printed that can be executed, but
are neither an ELF file nor a script whose interpreter can be executed. The first line is read
into one buffer for all files. -/
namespace SomeCode
namespace ScriptChecker

open Stdio ReadBuffer
open HttpServer (text)

abbrev Path := List UInt8

/-- `executable` is `access` with `X_OK`, and `content` what can be read when `fopen` succeeds:
nothing of a directory. The files are not closed, and `openMax` of them can be open. -/
structure FileSystem where
  executable : Path → Bool
  content : Path → Option (List UInt8)
  openMax : ℕ+

/-- `buffer` of `PATH_MAX + 3` bytes, which starts with anything in it -/
abbrev Buffer := Bytes 4099

/-- `path`, after the byte that `memchr` finds was cleared -/
def pathOf (piece : List UInt8) : Path := cString (piece.takeWhile (· ≠ 10))

/-- The paths that the loop reads into an array of 4096 bytes -/
def paths (input : List UInt8) : List Path :=
  if _h : input = [] then [] else pathOf (fgets 4095 input).1 :: paths (fgets 4095 input).2
termination_by input.length
decreasing_by exact fgets_length_lt (by decide) _h

/-- `check` -/
def check (fs : FileSystem) (buffer : Buffer) : Bool :=
  !(buffer.1.take 4 == [0x7f,69,76,70]) &&
    !(buffer.1.take 2 == [35,33] && fs.executable (cString (buffer.1.drop 2)))

/-- From `fopen` on; none where the behaviour is undefined -/
def judge (fs : FileSystem) (opened : ℕ) (buffer : Buffer) (path : Path) :
    Option (Buffer × Bool) := do
  let content ← if opened < fs.openMax then fs.content path else none
  let buffer ← cut (readLine buffer content)
  return (buffer,check fs buffer)

structure State where
  buffer : Buffer
  opened : ℕ
  printed : List Path

def start (buffer : Buffer) : State := ⟨buffer,0,[]⟩

def examine (fs : FileSystem) (s : State) (path : Path) : Option State :=
  if fs.executable path then
    (judge fs s.opened s.buffer path).map fun r =>
      ⟨r.1,s.opened+1,if r.2 then s.printed ++ [path] else s.printed⟩
  else some s

def main (fs : FileSystem) (buffer : Buffer) (input : List UInt8) : Option State :=
  (paths input).foldlM (examine fs) (start buffer)

/-! The verdict on a string -/

def accepts (fs : FileSystem) (l : List UInt8) : Bool :=
  !(l.take 4 == [0x7f,69,76,70]) && !(l.take 2 == [35,33] && fs.executable (l.drop 2))

theorem take_append_zero_eq_iff {p l : List UInt8} (hp : 0 ∉ p) (rest : List UInt8) :
    (l ++ 0 :: rest).take p.length = p ↔ l.take p.length = p := by
  rcases Nat.lt_or_ge l.length p.length with hlt | hge
  · have hshort : l.take p.length ≠ p := fun heq => by
      have hlen := congrArg List.length heq
      rw [List.length_take] at hlen
      omega
    have hzero : (l ++ 0 :: rest).take p.length ≠ p := fun heq => hp (by
      rw [← heq,List.take_append,List.mem_append]
      right
      obtain ⟨k,hk⟩ := Nat.exists_eq_add_of_lt hlt
      rw [hk,Nat.add_assoc,Nat.add_sub_cancel_left,List.take_succ_cons]
      exact List.mem_cons_self)
    exact iff_of_false hzero hshort
  · rw [List.take_append_of_le_length hge]

theorem check_eq_accepts (fs : FileSystem) {buffer : Buffer} {l : List UInt8}
    (h : string buffer = some l) : check fs buffer = accepts fs l := by
  obtain ⟨hl,rest,hbuffer⟩ := string_eq_some_iff.mp h
  have helf : ((l ++ 0 :: rest).take 4 == [0x7f,69,76,70]) = (l.take 4 == [0x7f,69,76,70]) := by
    rw [Bool.eq_iff_iff,beq_iff_eq,beq_iff_eq]
    exact take_append_zero_eq_iff (p := [0x7f,69,76,70]) (by decide) rest
  have hmark : ((l ++ 0 :: rest).take 2 == [35,33]) = (l.take 2 == [35,33]) := by
    rw [Bool.eq_iff_iff,beq_iff_eq,beq_iff_eq]
    exact take_append_zero_eq_iff (p := [35,33]) (by decide) rest
  rw [check,accepts,hbuffer,helf,hmark]
  rcases hscript : l.take 2 == [35,33] with _ | _
  · rfl
  · have hlen := congrArg List.length (beq_iff_eq.mp hscript)
    have hpast : 2 ≤ l.length := by
      rw [List.length_take,List.length_cons,List.length_singleton] at hlen
      omega
    have hrest : 0 ∉ l.drop 2 := fun hmem => hl (List.mem_of_mem_drop hmem)
    rw [List.drop_append_of_le_length hpast,cString_append_zero,cString_eq_self hrest]

theorem exists_judge {fs : FileSystem} {opened : ℕ} {path : Path} {content l : List UInt8}
    {buffer : Buffer} (hopen : opened < fs.openMax) (hcontent : fs.content path = some content)
    (hstring : string (readLine buffer content) = some l) (hne : l ≠ []) :
    ∃ b, judge fs opened buffer path = some (b,accepts fs l.dropLast) := by
  obtain ⟨b,hcut,hb⟩ := exists_cut hstring hne
  refine ⟨b,?_⟩
  rw [judge,if_pos hopen,hcontent,← check_eq_accepts fs hb]
  simp [hcut]

theorem judge_eq_none {fs : FileSystem} {opened : ℕ} {path : Path} {content : List UInt8}
    {buffer : Buffer} (hcontent : fs.content path = some content)
    (hstring : string (readLine buffer content) = some []) :
    judge fs opened buffer path = none := by
  rw [judge,hcontent]
  by_cases hopen : opened < fs.openMax
  · simp [hopen,cut_eq_none (Or.inr hstring)]
  · simp [hopen]

/-! Two runs -/

/-- `q` is the next path in a run, and another file can be opened. -/
def Reaches (fs : FileSystem) (q : Path) (s : State) : Prop :=
  ∃ buffer input before after, paths input = before ++ q :: after ∧
    before.foldlM (examine fs) (start buffer) = some s ∧ s.opened < fs.openMax

/-- `q` is examined, and printed or not. -/
def Judged (fs : FileSystem) (s : State) (q : Path) (verdict : Bool) : Prop :=
  ∃ t, examine fs s q = some t ∧ t.printed = if verdict then s.printed ++ [q] else s.printed

theorem judged_iff {fs : FileSystem} {s : State} {q : Path} (hexec : fs.executable q)
    {verdict : Bool} : Judged fs s q verdict ↔
      ∃ b, judge fs s.opened s.buffer q = some (b,verdict) := by
  rw [Judged,examine,if_pos hexec]
  constructor
  · rintro ⟨t,ht,hprinted⟩
    obtain ⟨⟨b,v⟩,hjudge,rfl⟩ := Option.map_eq_some_iff.mp ht
    refine ⟨b,?_⟩
    have hv : v = verdict := by
      cases v <;> cases verdict <;> simp at hprinted ⊢
    rw [hjudge,hv]
  · rintro ⟨b,hjudge⟩
    rw [hjudge]
    exact ⟨_,rfl,rfl⟩

theorem Judged.unique {fs : FileSystem} {s : State} {q : Path} (hexec : fs.executable q)
    {v w : Bool} (hv : Judged fs s q v) (hw : Judged fs s q w) : v = w := by
  obtain ⟨b,hb⟩ := (judged_iff hexec).mp hv
  obtain ⟨c,hc⟩ := (judged_iff hexec).mp hw
  exact (Prod.mk.inj (Option.some.inj (hb.symm.trans hc))).2

/-- What a line can hold without its end -/
structure Fits (q : Path) : Prop where
  unbroken : 10 ∉ q
  unended : 0 ∉ q
  length_le : q.length ≤ 4095

theorem pathOf_fits {piece : List UInt8} (h : piece.length ≤ 4095) : Fits (pathOf piece) where
  unbroken hmem := by
    have hline := List.mem_takeWhile_imp ((List.takeWhile_sublist _).mem hmem)
    simp at hline
  unended := zero_notMem_cString _
  length_le :=
    ((List.takeWhile_sublist _).trans (List.takeWhile_sublist _)).length_le.trans h

theorem fits_of_mem {q : Path} {input : List UInt8} (h : q ∈ paths input) : Fits q := by
  fun_induction paths input with
  | case1 => simp at h
  | case2 input hne ih =>
    rcases List.mem_cons.mp h with rfl | hrest
    · exact pathOf_fits (fgets_length_le 4095 input)
    · exact ih hrest

theorem pathOf_eq {q : Path} (h : Fits q) {piece : List UInt8}
    (hpiece : piece.takeWhile (· ≠ 10) = q) : pathOf piece = q := by
  rw [pathOf,hpiece,cString_eq_self h.unended]

theorem exists_paths {q : Path} (h : Fits q) : ∃ input, paths input = [q] := by
  rcases Nat.lt_or_eq_of_le h.length_le with hlt | hfull
  · refine ⟨q ++ [10],?_⟩
    rw [paths,dif_neg (by simp),fgets_line h.unbroken hlt,
      pathOf_eq h (takeWhile_ne_append h.unbroken []),paths,dif_pos rfl]
  · refine ⟨q,?_⟩
    have hne : q ≠ [] := fun he => by rw [he] at hfull; simp at hfull
    have hget := fgets_full h.unbroken []
    rw [List.append_nil,hfull] at hget
    rw [paths,dif_neg hne,hget,pathOf_eq h (takeWhile_ne_self h.unbroken),paths,dif_pos rfl]

theorem reaches_start (fs : FileSystem) {q : Path} (h : Fits q) (buffer : Buffer) :
    Reaches fs q (start buffer) := by
  obtain ⟨input,hinput⟩ := exists_paths h
  exact ⟨buffer,input,[],[],hinput,rfl,fs.openMax.pos⟩

def filled (l : List UInt8) (h : l.length < 4099) : Buffer :=
  store ⟨List.replicate 4099 0,List.length_replicate⟩ l h

/-- Before the first file there may be any string in the buffer, and it decides on an empty file. -/
theorem judged_empty {fs : FileSystem} {q : Path} (hexec : fs.executable q)
    (hcontent : fs.content q = some []) {l : List UInt8} (h : l.length < 4099) (hl : 0 ∉ l)
    (hne : l ≠ []) : Judged fs (start (filled l h)) q (accepts fs l.dropLast) :=
  (judged_iff hexec).mpr (exists_judge fs.openMax.pos hcontent
    (string_eq_some_iff.mpr ⟨hl,_,rfl⟩) hne)

/-- The verdict on a file is the same in every two runs that come to it exactly if the file begins
with a byte other than zero. -/
theorem verdict_independent_iff {fs : FileSystem} {q : Path} {content : List UInt8}
    (hexec : fs.executable q) (hcontent : fs.content q = some content)
    (hread : ∃ input, q ∈ paths input) :
    (∀ s s', Reaches fs q s → Reaches fs q s' →
      ∃ verdict, Judged fs s q verdict ∧ Judged fs s' q verdict) ↔
    ∃ c rest, content = c :: rest ∧ c ≠ 0 := by
  constructor
  · intro h
    obtain ⟨input,hinput⟩ := hread
    have hstart : ∀ buffer, Reaches fs q (start buffer) := reaches_start fs (fits_of_mem hinput)
    rcases content with _ | ⟨c,rest⟩
    · obtain ⟨v,hv,hw⟩ := h _ _ (hstart (filled [0x7f,69,76,70,10] (by decide)))
        (hstart (filled [97,10] (by decide)))
      have helf := hv.unique hexec (judged_empty hexec hcontent _ (by decide) (by decide))
      have htext := hw.unique hexec (judged_empty hexec hcontent _ (by decide) (by decide))
      exact absurd (helf.symm.trans htext) (by simp [accepts])
    · refine ⟨c,rest,rfl,fun hc => ?_⟩
      let buffer := filled [] (by decide)
      obtain ⟨v,hv,-⟩ := h _ _ (hstart buffer) (hstart buffer)
      obtain ⟨b,hb⟩ := (judged_iff hexec).mp hv
      have hstring := string_readLine buffer (List.cons_ne_nil c rest)
      rw [cString_fgets_eq_nil_iff.mpr hc] at hstring
      rw [start,judge_eq_none hcontent hstring] at hb
      exact absurd hb (by simp)
  · rintro ⟨c,rest,rfl,hc⟩ s s' ⟨-,-,-,-,-,-,hopen⟩ ⟨-,-,-,-,-,-,hopen'⟩
    have hne : cString (fgets 4098 (c :: rest)).1 ≠ [] := fun h => hc (cString_fgets_eq_nil_iff.mp h)
    refine ⟨accepts fs (cString (fgets 4098 (c :: rest)).1).dropLast,?_,?_⟩
    · exact (judged_iff hexec).mpr (exists_judge hopen hcontent
        (string_readLine s.buffer (List.cons_ne_nil c rest)) hne)
    · exact (judged_iff hexec).mpr (exists_judge hopen' hcontent
        (string_readLine s'.buffer (List.cons_ne_nil c rest)) hne)

/-- An ELF file, a text and an empty file, all of them executable -/
def folder : FileSystem where
  executable path := path = text "elf" || path = text "text" || path = text "empty"
  content path :=
    if path = text "elf" then some [0x7f,69,76,70,2,1,1,0]
    else if path = text "text" then some (text "hello\n")
    else if path = text "empty" then some []
    else none
  openMax := 1021

theorem verdict_independent_text :
    (∀ s s', Reaches folder (text "text") s → Reaches folder (text "text") s' →
      ∃ verdict, Judged folder s (text "text") verdict ∧ Judged folder s' (text "text") verdict) ↔
    ∃ c rest, text "hello\n" = c :: rest ∧ c ≠ 0 :=
  verdict_independent_iff (by decide) (by decide) ⟨text "text\n",by decide +kernel⟩

/-- The empty file is printed behind the text, and not behind the ELF file. -/
theorem empty_not_independent :
    folder.executable (text "empty") ∧ folder.content (text "empty") = some [] ∧
    (main folder (filled [] (by decide)) (text "elf\nempty\n")).map State.printed = some [] ∧
    (main folder (filled [] (by decide)) (text "text\nempty\n")).map State.printed =
      some [text "text",text "empty"] := by
  decide +kernel

end ScriptChecker
end SomeCode
