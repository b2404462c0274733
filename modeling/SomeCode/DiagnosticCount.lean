import SomeCode.Transition
import SomeCode.CString
import SomeCode.ScanDecimal
import SomeCode.MachineInt
import Mathlib.Data.List.Destutter

/-! `inf15-2.c` runs `gcc` with a pipe behind its standard error output, waits for its end, and
counts the lines of the program that it has reported: behind a line with "error" or "warning" it
reads the number that the quoted line of the program begins with. -/
namespace SomeCode
namespace DiagnosticCount

open Stdio ScanInt CString Decimal Transition MachineInt

abbrev Bytes := List UInt8

/-- "error" -/
def error : Bytes := [101,114,114,111,114]

/-- "warning" -/
def warning : Bytes := [119,97,114,110,105,110,103]

/-- The variables for one of the two words -/
structure Tally where
  counter : ℤ
  prev : ℤ
  curr : ℤ
  deriving DecidableEq

def Tally.start : Tally := ⟨0,-1,-1⟩

/-- What is done in the loop for one of the words, with what is left of the input -/
def Tally.see (word current_string : Bytes) (t : Tally) (input : Bytes) : Tally × Bytes :=
  if strstr word current_string ≠ none then
    let curr := (scanInt input).assign t.curr
    (⟨if curr ≠ t.prev then wrap 32 (t.counter+1) else t.counter,curr,curr⟩,(scanInt input).rest)
  else (t,input)

theorem length_rest_le (input : Bytes) : (scanInt input).rest.length ≤ input.length := by
  have hspace : (input.dropWhile isSpace).length ≤ input.length := List.length_dropWhile_le ..
  have hdigits : ∀ minus l, (scanDigits minus l).rest.length ≤ l.length := by
    intro minus l
    rw [scanDigits]
    split
    · exact Nat.le_refl _
    · exact List.length_dropWhile_le ..
  rw [scanInt]
  split
  · exact Nat.zero_le _
  · rename_i c rest hc
    rw [hc,List.length_cons] at hspace
    split
    · exact (hdigits _ rest).trans (by omega)
    · exact (hdigits _ (c :: rest)).trans (by rw [List.length_cons]; omega)

theorem Tally.length_see_le (word line : Bytes) (t : Tally) (input : Bytes) :
    (t.see word line input).2.length ≤ input.length := by
  unfold see
  split
  · exact length_rest_le input
  · exact Nat.le_refl _

/-- The loop of `main`; a string ends with its first zero. -/
def count (errors warnings : Tally) (input : Bytes) : Tally × Tally :=
  if _h : input = [] then (errors,warnings)
  else
    let line := fgets 4095 input
    let current_string := line.1.takeWhile (· ≠ 0)
    let e := errors.see error current_string line.2
    let w := warnings.see warning current_string e.2
    count e.1 w.1 w.2
termination_by input.length
decreasing_by
  have hline := fgets_length_lt (n := 4095) (by decide) _h
  have he := Tally.length_see_le error ((fgets 4095 input).1.takeWhile (· ≠ 0)) errors
    (fgets 4095 input).2
  have hw := Tally.length_see_le warning ((fgets 4095 input).1.takeWhile (· ≠ 0)) warnings
    (errors.see error ((fgets 4095 input).1.takeWhile (· ≠ 0)) (fgets 4095 input).2).2
  omega

/-! What `gcc` writes -/

/-- A line that says neither word, or a report: a line that says one, the line of the program behind
its number and a bar, and a line with marks behind a bar. -/
inductive Block
  | other (line : Bytes)
  | report (header blanks : Bytes) (n : ℕ) (gap code margin marks : Bytes)

def Block.render : Block → Bytes
  | .other line => line ++ [10]
  | .report header blanks n gap code margin marks =>
    header ++ 10 :: (blanks ++ (decimal n ++ (gap ++ 124 :: (code ++ 10 ::
      (margin ++ 124 :: (marks ++ [10]))))))

def Says (word line : Bytes) : Prop := word <:+: line

instance (word line : Bytes) : Decidable (Says word line) := inferInstanceAs (Decidable (_ <:+: _))

/-- A line that fits in `current_string` -/
structure Fits (line : Bytes) : Prop where
  newline : 10 ∉ line
  zero : 0 ∉ line
  length : line.length < 4095

instance (line : Bytes) : Decidable (Fits line) :=
  decidable_of_iff (10 ∉ line ∧ 0 ∉ line ∧ line.length < 4095)
    ⟨fun h => ⟨h.1,h.2.1,h.2.2⟩,fun h => ⟨h.newline,h.zero,h.length⟩⟩

/-- The quoted line may say anything. -/
def Block.WellFormed : Block → Prop
  | .other line => Fits line ∧ ¬Says error line ∧ ¬Says warning line
  | .report header blanks n gap code margin marks =>
    Fits header ∧ (Says error header ∨ Says warning header) ∧ n < 2^31 ∧
    (∀ b ∈ blanks ++ gap ++ margin, b = 32) ∧ Fits (gap ++ 124 :: code) ∧
    Fits (margin ++ 124 :: marks) ∧ ¬Says error (margin ++ 124 :: marks) ∧
    ¬Says warning (margin ++ 124 :: marks)

instance (b : Block) : Decidable b.WellFormed := by
  cases b <;> unfold Block.WellFormed <;> infer_instance

/-- The numbers of the lines with an error; a header that says both words counts as one. -/
def errors (blocks : List Block) : List ℕ :=
  blocks.filterMap fun
    | .report header _ n _ _ _ _ => if Says error header then some n else none
    | .other _ => none

/-- The numbers of the lines with a warning -/
def warnings (blocks : List Block) : List ℕ :=
  blocks.filterMap fun
    | .report header _ n _ _ _ _ => if Says error header then none else some n
    | .other _ => none

/-- How many runs of equal numbers there are -/
def runs (l : List ℕ) : ℕ := (l.destutter (· ≠ ·)).length

variable {word line gap rest : Bytes} {t e w : Tally}

theorem strstr_ne_none : strstr word line ≠ none ↔ Says word line := by
  unfold Says
  induction line with
  | nil =>
    rw [strstr,List.infix_nil]
    split <;> simp_all
  | cons c line ih =>
    rw [strstr,List.infix_cons_iff,← ih]
    split <;> simp_all

theorem says_newline (hw : 10 ∉ word) (hne : word ≠ []) :
    Says word (line ++ [10]) ↔ Says word line := by
  unfold Says
  rw [List.infix_concat_iff]
  constructor
  · rintro (h | h)
    · rcases List.suffix_concat_iff.1 h with rfl | ⟨l,rfl,-⟩
      · exact absurd rfl hne
      · simp at hw
    · exact h
  · exact .inr

theorem says_of_suffix {l : Bytes} (h : l <:+ line) (hl : Says word l) : Says word line :=
  hl.trans h.isInfix

theorem Fits.suffix {l : Bytes} (h : Fits line) (hl : l <:+ line) : Fits l where
  newline hm := h.newline (hl.subset hm)
  zero hm := h.zero (hl.subset hm)
  length := hl.length_le.trans_lt h.length

theorem says_error_newline : Says error (line ++ [10]) ↔ Says error line :=
  says_newline (by decide) (by decide)

theorem says_warning_newline : Says warning (line ++ [10]) ↔ Says warning line :=
  says_newline (by decide) (by decide)

/-! One word in one line -/

def Tally.note (t : Tally) (v : ℤ) : Tally :=
  ⟨if v ≠ t.prev then wrap 32 (t.counter+1) else t.counter,v,v⟩

def Tally.notes (t : Tally) (l : List ℕ) : Tally := l.foldl (fun (t : Tally) (n : ℕ) => t.note n) t

/-- No number has been read since the last line was counted. -/
def Tally.Settled (t : Tally) : Prop := t.curr = t.prev

theorem Tally.settled_note (t : Tally) (v : ℤ) : (t.note v).Settled := rfl

theorem Tally.see_of_not (h : ¬Says word line) (rest : Bytes) : t.see word line rest = (t,rest) :=
  if_neg fun hs => h (strstr_ne_none.1 hs)

theorem Tally.see_value {v : ℤ} {input : Bytes} (h : Says word line)
    (hscan : scanInt input = .value v rest) : t.see word line input = (t.note v,rest) := by
  rw [see,if_pos (strstr_ne_none.2 h),hscan]
  rfl

theorem scanInt_bar (h : ∀ b ∈ gap, b = 32) (rest : Bytes) :
    scanInt (gap ++ 124 :: rest) = .mismatch (124 :: rest) := by
  rw [scanInt_blanks fun b hb => by rw [h b hb]; rfl]
  exact scanInt_mismatch rfl rfl rfl rest

/-- Before a bar there is nothing to read, and at most the blanks are taken. -/
theorem Tally.see_bar (ht : t.Settled) (h : ∀ b ∈ gap, b = 32) (word line rest : Bytes) :
    ∃ gap', gap' <:+ gap ∧ t.see word line (gap ++ 124 :: rest) = (t,gap' ++ 124 :: rest) := by
  by_cases hs : Says word line
  · refine ⟨[],List.nil_suffix,?_⟩
    rcases t with ⟨counter,prev,curr⟩
    obtain rfl : curr = prev := ht
    rw [see,if_pos (strstr_ne_none.2 hs),scanInt_bar h]
    simp [Result.assign,Result.rest]
  · exact ⟨gap,List.suffix_rfl,see_of_not hs _⟩

/-! One line -/

theorem count_line (h : Fits line) (e w : Tally) (rest : Bytes) :
    count e w (line ++ 10 :: rest) =
      count (e.see error (line ++ [10]) rest).1
        (w.see warning (line ++ [10]) (e.see error (line ++ [10]) rest).2).1
        (w.see warning (line ++ [10]) (e.see error (line ++ [10]) rest).2).2 := by
  have hzero : (line ++ [10]).takeWhile (· ≠ 0) = line ++ [10] :=
    takeWhile_ne_self (by simpa using h.zero)
  rw [count,dif_neg (by simp),fgets_line h.newline h.length]
  simp only [hzero]

theorem count_plain (h : Fits line) (he : ¬Says error line) (hw : ¬Says warning line) (e w : Tally)
    (rest : Bytes) : count e w (line ++ 10 :: rest) = count e w rest := by
  rw [count_line h,Tally.see_of_not (mt says_error_newline.1 he),
    Tally.see_of_not (mt says_warning_newline.1 hw)]

theorem count_quoted (h : Fits line) (he : e.Settled) (hw : w.Settled) (hgap : ∀ b ∈ gap, b = 32)
    (rest : Bytes) : ∃ gap', gap' <:+ gap ∧
      count e w (line ++ 10 :: (gap ++ 124 :: rest)) = count e w (gap' ++ 124 :: rest) := by
  rcases e.see_bar he hgap error (line ++ [10]) rest with ⟨gap₁,h₁,hs₁⟩
  rcases w.see_bar hw (fun b hb => hgap b (h₁.subset hb)) warning (line ++ [10]) rest with
    ⟨gap₂,h₂,hs₂⟩
  exact ⟨gap₂,h₂.trans h₁,by rw [count_line h,hs₁,hs₂]⟩

theorem count_header {n : ℕ} {blanks : Bytes} (h : Fits line) (hn : n < 2^31)
    (hwords : Says error line ∨ Says warning line) (hw : w.Settled) (hblanks : ∀ b ∈ blanks, b = 32)
    (hgap : ∀ b ∈ gap, b = 32) (rest : Bytes) : ∃ gap', gap' <:+ gap ∧
      count e w (line ++ 10 :: (blanks ++ (decimal n ++ (gap ++ 124 :: rest)))) =
        count (if Says error line then e.note n else e) (if Says error line then w else w.note n)
          (gap' ++ 124 :: rest) := by
  have hscan : scanInt (blanks ++ (decimal n ++ (gap ++ 124 :: rest))) =
      .value n (gap ++ 124 :: rest) := by
    rw [scanInt_blanks fun b hb => by rw [hblanks b hb]; rfl]
    apply scanInt_decimal hn
    intro c hc
    cases gap with
    | nil =>
      cases hc
      rfl
    | cons b gap =>
      cases hc
      rw [hgap c List.mem_cons_self]
      rfl
  by_cases he : Says error line
  · rcases w.see_bar hw hgap warning (line ++ [10]) rest with ⟨gap',h',hs⟩
    refine ⟨gap',h',?_⟩
    rw [count_line h,Tally.see_value (says_error_newline.2 he) hscan,hs,if_pos he,if_pos he]
  · refine ⟨gap,List.suffix_rfl,?_⟩
    rw [count_line h,Tally.see_of_not (mt says_error_newline.1 he),
      Tally.see_value (says_warning_newline.2 (hwords.resolve_left he)) hscan,if_neg he,if_neg he]

/-! A whole text -/

theorem count_block {b : Block} (h : b.WellFormed) (he : e.Settled) (hw : w.Settled)
    (rest : Bytes) : count e w (b.render ++ rest) =
      count (e.notes (errors [b])) (w.notes (warnings [b])) rest := by
  cases b with
  | other line =>
    rcases h with ⟨hfits,hne,hnw⟩
    simpa [Block.render,errors,warnings,Tally.notes] using count_plain hfits hne hnw e w rest
  | report header blanks n gap code margin marks =>
    rcases h with ⟨hheader,hwords,hn,hblanks,hcode,hmarks,hne,hnw⟩
    have hall : (∀ b ∈ blanks, b = 32) ∧ (∀ b ∈ gap, b = 32) ∧ ∀ b ∈ margin, b = 32 := by
      simpa [or_imp,forall_and] using hblanks
    rcases count_header (e := e) hheader hn hwords hw hall.1 hall.2.1
      (code ++ 10 :: (margin ++ 124 :: (marks ++ 10 :: rest))) with ⟨gap₁,h₁,hfirst⟩
    have he' : (if Says error header then e.note n else e).Settled := by
      split
      · rfl
      · exact he
    have hw' : (if Says error header then w else w.note n).Settled := by
      split
      · exact hw
      · rfl
    have hsuffix : gap₁ ++ 124 :: code <:+ gap ++ 124 :: code := by
      rcases h₁ with ⟨l,rfl⟩
      exact ⟨l,by simp⟩
    rcases count_quoted (hcode.suffix hsuffix) he' hw' hall.2.2 (marks ++ 10 :: rest) with
      ⟨margin₁,h₂,hsecond⟩
    have hlast : margin₁ ++ 124 :: marks <:+ margin ++ 124 :: marks := by
      rcases h₂ with ⟨l,rfl⟩
      exact ⟨l,by simp⟩
    have hthird := count_plain (hmarks.suffix hlast) (mt (says_of_suffix hlast) hne)
      (mt (says_of_suffix hlast) hnw) (if Says error header then e.note n else e)
      (if Says error header then w else w.note n) rest
    have htext : (Block.report header blanks n gap code margin marks).render ++ rest =
        header ++ 10 :: (blanks ++ (decimal n ++ (gap ++ 124 :: (code ++ 10 ::
          (margin ++ 124 :: (marks ++ 10 :: rest)))))) := by
      simp [Block.render]
    simp only [List.append_assoc,List.cons_append] at hsecond hthird
    rw [htext,hfirst,hsecond,hthird]
    by_cases hs : Says error header <;> simp [errors,warnings,Tally.notes,hs]

theorem errors_cons (b : Block) (blocks : List Block) :
    errors (b :: blocks) = errors [b] ++ errors blocks :=
  List.filterMap_append (l := [b])

theorem warnings_cons (b : Block) (blocks : List Block) :
    warnings (b :: blocks) = warnings [b] ++ warnings blocks :=
  List.filterMap_append (l := [b])

theorem Tally.notes_append (t : Tally) (l l' : List ℕ) : t.notes (l ++ l') = (t.notes l).notes l' :=
  List.foldl_append

theorem settled_notes (ht : t.Settled) (l : List ℕ) : (t.notes l).Settled := by
  induction l generalizing t with
  | nil => exact ht
  | cons n l ih => exact ih (t.settled_note n)

theorem count_render {blocks : List Block} (h : ∀ b ∈ blocks, b.WellFormed) (he : e.Settled)
    (hw : w.Settled) : count e w (blocks.flatMap Block.render) =
      (e.notes (errors blocks),w.notes (warnings blocks)) := by
  induction blocks generalizing e w with
  | nil =>
    rw [List.flatMap_nil,count,dif_pos rfl]
    rfl
  | cons b blocks ih =>
    rw [List.flatMap_cons,count_block (h b List.mem_cons_self) he hw,
      ih (fun b hb => h b (List.mem_cons_of_mem _ hb)) (settled_notes he _) (settled_notes hw _),
      ← Tally.notes_append,← Tally.notes_append,← errors_cons,← warnings_cons]

theorem counter_notes (l : List ℕ) (c n : ℕ) :
    (Tally.notes ⟨wrap 32 (c+1),n,n⟩ l).counter =
      wrap 32 (c + (l.destutter' (· ≠ ·) n).length : ℕ) := by
  induction l generalizing c n with
  | nil => simp [Tally.notes]
  | cons m l ih =>
    rw [Tally.notes,List.foldl_cons,← Tally.notes]
    by_cases hm : n = m
    · subst hm
      have hnote : Tally.note ⟨wrap 32 (c+1),n,n⟩ n = ⟨wrap 32 (c+1),n,n⟩ := by simp [Tally.note]
      rw [hnote,ih,List.destutter'_cons_neg _ (by simp)]
    · have hnote : Tally.note ⟨wrap 32 (c+1),n,n⟩ m = ⟨wrap 32 ((c+1 : ℕ)+1),m,m⟩ := by
        simp [Tally.note,Ne.symm hm,wrap_wrap_add]
      rw [hnote,ih,List.destutter'_cons_pos _ hm,List.length_cons]
      congr 2
      omega

theorem counter_start (l : List ℕ) : (Tally.start.notes l).counter = wrap 32 (runs l) := by
  cases l with
  | nil => rfl
  | cons n l =>
    have hnote : Tally.start.note n = ⟨wrap 32 ((0 : ℕ)+1),n,n⟩ := by
      have hne : (n : ℤ) ≠ -1 := by omega
      simp [Tally.note,Tally.start,hne]
    rw [Tally.notes,List.foldl_cons,hnote,← Tally.notes,runs,List.destutter_cons',counter_notes,
      Nat.zero_add]

theorem wrap_runs {l : List ℕ} (h : runs l < 2^31) : wrap 32 (runs l) = runs l :=
  wrap_eq (w := 31) (by omega) (by exact_mod_cast h)

/-- In a list that goes up every number has one run. -/
theorem runs_of_sorted {l : List ℕ} (h : l.Pairwise (· ≤ ·)) : runs l = l.toFinset.card := by
  cases l with
  | nil => rfl
  | cons n l =>
    rw [runs,List.destutter_cons']
    induction l generalizing n with
    | nil => simp
    | cons m l ih =>
      rcases List.pairwise_cons.1 h with ⟨hn,hm⟩
      by_cases hnm : n = m
      · subst hnm
        rw [List.destutter'_cons_neg _ (by simp),ih n hm]
        simp
      · have hlt : ∀ k ∈ m :: l, n < k := by
          intro k hk
          have hmk : m ≤ k := by
            rcases List.mem_cons.1 hk with rfl | hk
            · exact le_rfl
            · exact (List.pairwise_cons.1 hm).1 k hk
          exact (lt_of_le_of_ne (hn m List.mem_cons_self) hnm).trans_le hmk
        have hnot : n ∉ (m :: l).toFinset := fun hk => (hlt n (List.mem_toFinset.1 hk)).false
        rw [List.destutter'_cons_pos _ hnm,List.length_cons,ih m hm,List.toFinset_cons (a := n),
          Finset.card_insert_of_notMem hnot]

/-- The counters are the numbers of the runs of reports on one line of the program, as 32-bit
integers: of the lines with an error, and of those with a warning, if they come in order. -/
theorem counts_reported {blocks : List Block} (h : ∀ b ∈ blocks, b.WellFormed) :
    (count .start .start (blocks.flatMap Block.render)).1.counter = wrap 32 (runs (errors blocks)) ∧
    (count .start .start (blocks.flatMap Block.render)).2.counter =
      wrap 32 (runs (warnings blocks)) ∧
    (runs (errors blocks) < 2^31 → wrap 32 (runs (errors blocks)) = runs (errors blocks)) ∧
    (runs (warnings blocks) < 2^31 → wrap 32 (runs (warnings blocks)) = runs (warnings blocks)) ∧
    ((errors blocks).Pairwise (· ≤ ·) → runs (errors blocks) = (errors blocks).toFinset.card) ∧
    ((warnings blocks).Pairwise (· ≤ ·) →
      runs (warnings blocks) = (warnings blocks).toFinset.card) := by
  have hstart : Tally.start.Settled := rfl
  rw [count_render h hstart hstart]
  exact ⟨counter_start _,counter_start _,wrap_runs,wrap_runs,runs_of_sorted,runs_of_sorted⟩

/-- A report on line 3 that is both an error and quotes the word, and a warning on the same line -/
def sampleBlocks : List Block :=
  [.other [102,58],.report (102 :: 58 :: error) [32] 3 [32] error [32,32] [94],
    .report (102 :: 58 :: error) [32] 3 [32] [120] [32,32] [94],
    .report warning [32] 3 [32] [120] [32,32] [94]]

theorem counts_sample :
    (count .start .start (sampleBlocks.flatMap Block.render)).1.counter = 1 ∧
    (count .start .start (sampleBlocks.flatMap Block.render)).2.counter = 1 := by
  have h : ∀ b ∈ sampleBlocks, b.WellFormed := by decide +kernel
  have hcounts := counts_reported h
  exact ⟨hcounts.1.trans (by decide),hcounts.2.1.trans (by decide)⟩

/-! The two processes -/

/-- The room in the pipe, whether `gcc` can be executed, what it writes to its standard error
output, and the standard input -/
structure Config where
  capacity : ℕ
  execs : Bool
  stderr : Bytes
  stdin : Bytes

/-- In `main` it goes on behind the `execlp` that has failed. -/
inductive Child
  | started
  | gcc (todo : Bytes)
  | main
  | ended

inductive Parent
  | waiting
  | reading
  | ended

structure State where
  child : Child
  parent : Parent
  pipe : Bytes
  stdout : Bytes

/-- The child may write `n` bytes. -/
inductive Action
  | child (n : ℕ)
  | parent

def printed (input : Bytes) : Bytes :=
  intText (count .start .start input).1.counter ++ 32 ::
    intText (count .start .start input).2.counter

/-- The child without `gcc` has closed the pipe, so that its `dup2` fails and it reads the standard
input. -/
def step (cfg : Config) : Action → State → Option State
  | .child n, s =>
    match s.child with
    | .started => some { s with child := if cfg.execs then .gcc cfg.stderr else .main }
    | .gcc [] => some { s with child := .ended }
    | .gcc (b :: todo) =>
      if 1 ≤ n ∧ n ≤ (b :: todo).length ∧ s.pipe.length + n ≤ cfg.capacity then
        some { s with child := .gcc ((b :: todo).drop n), pipe := s.pipe ++ (b :: todo).take n }
      else none
    | .main => some { s with child := .ended, stdout := s.stdout ++ printed cfg.stdin }
    | .ended => none
  | .parent, s =>
    match s.parent, s.child with
    | .waiting, .ended => some { s with parent := .reading }
    | .reading, _ =>
      some { s with parent := .ended, pipe := [], stdout := s.stdout ++ printed s.pipe }
    | _, _ => none

def system (cfg : Config) : System State Action where
  start := ⟨.started,.waiting,[],[]⟩
  step := step cfg

def Config.output (cfg : Config) : Bytes := if cfg.execs then cfg.stderr else []

def Config.childPrinted (cfg : Config) : Bytes := if cfg.execs then [] else printed cfg.stdin

/-- Where the two processes stand; the parent moves when the child has ended. -/
inductive Inv (cfg : Config) : State → Prop
  | started : Inv cfg ⟨.started,.waiting,[],[]⟩
  | gcc (pipe todo : Bytes) (hexecs : cfg.execs = true) (happend : pipe ++ todo = cfg.stderr)
      (hroom : pipe.length ≤ cfg.capacity) : Inv cfg ⟨.gcc todo,.waiting,pipe,[]⟩
  | main (hexecs : cfg.execs = false) : Inv cfg ⟨.main,.waiting,[],[]⟩
  | waiting (hroom : cfg.output.length ≤ cfg.capacity) :
      Inv cfg ⟨.ended,.waiting,cfg.output,cfg.childPrinted⟩
  | reading (hroom : cfg.output.length ≤ cfg.capacity) :
      Inv cfg ⟨.ended,.reading,cfg.output,cfg.childPrinted⟩
  | ended (hroom : cfg.output.length ≤ cfg.capacity) :
      Inv cfg ⟨.ended,.ended,[],cfg.childPrinted ++ printed cfg.output⟩

def work (cfg : Config) (s : State) : ℕ :=
  (match s.child with
    | .started => cfg.stderr.length + 2
    | .gcc todo => todo.length + 1
    | .main => 1
    | .ended => 0) +
  match s.parent with
    | .waiting => 2
    | .reading => 1
    | .ended => 0

variable {cfg : Config} {s s' : State} {a : Action}

theorem Inv.step (hi : Inv cfg s) (h : step cfg a s = some s') :
    Inv cfg s' ∧ work cfg s' < work cfg s := by
  cases a with
  | child n =>
    cases hi with
    | started =>
      cases h
      by_cases hexecs : cfg.execs = true
      · rw [if_pos hexecs]
        exact ⟨.gcc [] cfg.stderr hexecs rfl (Nat.zero_le _),by simp [work]⟩
      · rw [if_neg hexecs]
        exact ⟨.main (by simpa using hexecs),by simp [work]⟩
    | gcc pipe todo hexecs happend hroom =>
      cases todo with
      | nil =>
        cases h
        have hpipe : pipe = cfg.output := by
          rw [Config.output,if_pos hexecs,← happend,List.append_nil]
        have hprinted : cfg.childPrinted = [] := by simp [Config.childPrinted,hexecs]
        refine ⟨?_,by simp [work]⟩
        have hw : Inv cfg _ := .waiting (hpipe ▸ hroom)
        rwa [hprinted,← hpipe] at hw
      | cons b todo =>
        simp only [DiagnosticCount.step,Option.ite_none_right_eq_some,Option.some.injEq] at h
        rcases h with ⟨⟨hn,hle,hfull⟩,rfl⟩
        constructor
        · refine .gcc _ _ hexecs ?_ ?_
          · rw [List.append_assoc,List.take_append_drop]
            exact happend
          · rw [List.length_append,List.length_take]
            omega
        · simp only [work,List.length_drop]
          rw [List.length_cons] at hle ⊢
          omega
    | main hexecs =>
      cases h
      have hnone : cfg.output = [] := by simp [Config.output,hexecs]
      have hprinted : cfg.childPrinted = printed cfg.stdin := by simp [Config.childPrinted,hexecs]
      refine ⟨?_,by simp [work]⟩
      have hw : Inv cfg _ := .waiting (by simp [hnone])
      rwa [hnone,hprinted] at hw
    | waiting hroom => cases h
    | reading hroom => cases h
    | ended hroom => cases h
  | parent =>
    cases hi with
    | started => cases h
    | gcc pipe todo hexecs happend hroom => cases h
    | main hexecs => cases h
    | waiting hroom =>
      cases h
      exact ⟨.reading hroom,by simp [work]⟩
    | reading hroom =>
      cases h
      exact ⟨.ended hroom,by simp [work]⟩
    | ended hroom => cases h

theorem invariant (cfg : Config) : (system cfg).Invariant (Inv cfg) where
  start := .started
  step hi h := (hi.step h).1

theorem Inv.stuck (hi : Inv cfg s) (hs : (system cfg).Stuck s) :
    s.parent = .ended ∨ cfg.execs = true ∧ cfg.capacity < cfg.stderr.length := by
  cases hi with
  | started => cases hs (.child 0)
  | gcc pipe todo hexecs happend hroom =>
    cases todo with
    | nil => cases hs (.child 0)
    | cons b todo =>
      refine .inr ⟨hexecs,?_⟩
      rw [← happend,List.length_append,List.length_cons]
      by_contra hlt
      have hone : (if 1 ≤ 1 ∧ 1 ≤ (b :: todo).length ∧ pipe.length + 1 ≤ cfg.capacity then
          some (⟨.gcc ((b :: todo).drop 1),.waiting,pipe ++ (b :: todo).take 1,[]⟩ : State)
        else none) = none := hs (.child 1)
      rw [if_pos ⟨le_rfl,by simp,by omega⟩] at hone
      cases hone
  | main hexecs => cases hs (.child 0)
  | waiting hroom => cases hs .parent
  | reading hroom => cases hs .parent
  | ended hroom => exact .inl rfl

/-- Every run is bounded; `main` comes to its end in all of them exactly if what `gcc` writes fits
in the pipe, and has then printed the counts. -/
theorem finishes_iff (cfg : Config) :
    (∀ as s, (system cfg).run as (system cfg).start = some s → as.length ≤ cfg.stderr.length + 4) ∧
    ((∀ s, (system cfg).Reachable s → (system cfg).Stuck s → s.parent = .ended) ↔
      (cfg.execs = true → cfg.stderr.length ≤ cfg.capacity)) ∧
    ∀ s, (system cfg).Reachable s → s.parent = .ended →
      s.stdout = cfg.childPrinted ++ printed cfg.output := by
  have hbound : ∀ as s, (system cfg).run as (system cfg).start = some s →
      as.length ≤ cfg.stderr.length + 4 := by
    intro as s h
    rcases System.run_length_le_of_rank ((invariant cfg).rank_step (work cfg) fun hi h =>
      (hi.step h).2) ⟨(invariant cfg).start,rfl⟩ h with ⟨n,-,hle⟩
    exact (Nat.le_of_add_right_le hle).trans (by simp [work,system])
  refine ⟨hbound,⟨?_,?_⟩,?_⟩
  · intro hall hexecs
    rcases System.exists_stuck_of_bounded hbound .start with ⟨as,s,hrun,hs⟩
    have hr : (system cfg).Reachable s := ⟨as,hrun⟩
    have hended := hall s hr hs
    cases (invariant cfg).reachable hr with
    | ended hroom => simpa [Config.output,hexecs] using hroom
    | _ => cases hended
  · intro hfits s hr hs
    refine (((invariant cfg).reachable hr).stuck hs).resolve_right ?_
    rintro ⟨hexecs,hlt⟩
    exact absurd (hfits hexecs) (not_le.2 hlt)
  · intro s hr hended
    cases (invariant cfg).reachable hr with
    | ended hroom => rfl
    | _ => cases hended

end DiagnosticCount
end SomeCode
