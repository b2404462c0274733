import Mathlib.Data.List.TakeWhile
import Mathlib.Tactic

/-! Reading from a stream of bytes with `fscanf` and `fgets`. The texts that `%s` takes are the
words of the stream. -/
namespace SomeCode
namespace Stdio

section TakeWhile

variable {α : Type} [DecidableEq α] {c : α} {l : List α}

theorem takeWhile_ne_self (h : c ∉ l) : l.takeWhile (· ≠ c) = l :=
  List.takeWhile_eq_self_iff.mpr fun d hd => by simpa using ne_of_mem_of_not_mem hd h

theorem takeWhile_ne_append (h : c ∉ l) (rest : List α) :
    (l ++ c :: rest).takeWhile (· ≠ c) = l := by
  rw [List.takeWhile_append_of_pos fun d hd => by simpa using ne_of_mem_of_not_mem hd h]
  simp

end TakeWhile

def isSpace (c : UInt8) : Bool := c == 32 || (9 ≤ c && c ≤ 13)

/-- White space is passed over, and the text ends before the next one. -/
def scanToken (input : List UInt8) : List UInt8 × List UInt8 :=
  ((input.dropWhile isSpace).takeWhile fun c => !isSpace c,
    (input.dropWhile isSpace).dropWhile fun c => !isSpace c)

/-- `fscanf` with `%s`, into a buffer of that size with some text in it: nothing is stored at the
end of the stream, and a longer text goes past the buffer. -/
def fscanfString (size : ℕ) (old input : List UInt8) : Option (List UInt8 × List UInt8) :=
  if (scanToken input).1 = [] then some (old,(scanToken input).2)
  else if (scanToken input).1.length < size then some (scanToken input) else none

/-- `fgets` takes at most `n` bytes, and none after the end of a line. -/
def fgets : ℕ → List UInt8 → List UInt8 × List UInt8
  | 0, rest => ([],rest)
  | _+1, [] => ([],[])
  | n+1, c :: rest => if c = 10 then ([c],rest) else (c :: (fgets n rest).1,(fgets n rest).2)

theorem fgets_append (n : ℕ) (input : List UInt8) :
    (fgets n input).1 ++ (fgets n input).2 = input := by
  fun_induction fgets n input with
  | case1 rest => rfl
  | case2 n => rfl
  | case3 n rest => rfl
  | case4 n c rest hne ih => simp [ih]

theorem fgets_length_lt {n : ℕ} (hn : n ≠ 0) {input : List UInt8} (h : input ≠ []) :
    (fgets n input).2.length < input.length := by
  have happend := congrArg List.length (fgets_append n input)
  have hsome : (fgets n input).1 ≠ [] := by
    obtain ⟨m,rfl⟩ := Nat.exists_eq_add_one_of_ne_zero hn
    obtain ⟨c,rest,rfl⟩ := List.exists_cons_of_ne_nil h
    rw [fgets]
    split <;> simp
  have hpos := List.length_pos_of_ne_nil hsome
  rw [List.length_append] at happend
  omega

theorem fgets_length_le (n : ℕ) (input : List UInt8) : (fgets n input).1.length ≤ n := by
  fun_induction fgets n input with
  | case1 rest => exact Nat.le_refl 0
  | case2 n => exact Nat.zero_le _
  | case3 n rest => exact Nat.le_add_left 1 n
  | case4 n c rest hne ih => exact Nat.succ_le_succ ih

theorem fgets_of_notMem {n : ℕ} {input : List UInt8} (h : 10 ∉ input.take n) :
    (fgets n input).1 = input.take n := by
  fun_induction fgets n input with
  | case1 rest => rfl
  | case2 n => rfl
  | case3 n rest => simp at h
  | case4 n c rest hne ih =>
    rw [List.take_succ_cons] at h ⊢
    rw [ih fun hmem => h (List.mem_cons_of_mem _ hmem)]

theorem fgets_line {n : ℕ} {line : List UInt8} (h : 10 ∉ line) (hn : line.length < n)
    (rest : List UInt8) : fgets n (line ++ 10 :: rest) = (line ++ [10],rest) := by
  induction line generalizing n with
  | nil =>
    obtain ⟨n,rfl⟩ := Nat.exists_eq_add_one_of_ne_zero (Nat.ne_of_gt hn)
    simp [fgets]
  | cons c line ih =>
    obtain ⟨n,rfl⟩ := Nat.exists_eq_add_one_of_ne_zero (Nat.ne_of_gt (Nat.zero_lt_of_lt hn))
    have hc : c ≠ 10 := fun he => h (he ▸ List.mem_cons_self)
    have hline := ih (fun hm => h (List.mem_cons_of_mem _ hm)) (Nat.lt_of_succ_lt_succ hn)
    simp [fgets,hc,hline]

theorem fgets_full {part : List UInt8} (h : 10 ∉ part) (rest : List UInt8) :
    fgets part.length (part ++ rest) = (part,rest) := by
  induction part with
  | nil => rfl
  | cons c part ih =>
    have hc : c ≠ 10 := fun he => h (he ▸ List.mem_cons_self)
    have hpart := ih fun hm => h (List.mem_cons_of_mem _ hm)
    simp [fgets,hc,hpart]

theorem fgets_append_line (n : ℕ) (a b : List UInt8) :
    fgets n (a ++ 10 :: b) = ((fgets n (a ++ [10])).1,(fgets n (a ++ [10])).2 ++ b) := by
  induction a generalizing n with
  | nil => cases n <;> simp [fgets]
  | cons c a ih =>
    cases n with
    | zero => simp [fgets]
    | succ n =>
      by_cases hc : c = 10
      · simp [fgets,hc]
      · simp [fgets,hc,ih]

def words (input : List UInt8) : List (List UInt8) :=
  (input.splitOnP isSpace).filter (· ≠ [])

@[simp] theorem words_nil : words [] = [] := rfl

theorem words_cons_space {c : UInt8} (h : isSpace c) (l : List UInt8) :
    words (c :: l) = words l := by
  simp [words,List.splitOnP_cons_eq_if_modifyHead,h]

theorem words_dropWhile (l : List UInt8) : words (l.dropWhile isSpace) = words l := by
  induction l with
  | nil => rfl
  | cons c l ih =>
    by_cases h : isSpace c
    · rw [List.dropWhile_cons_of_pos h,ih,words_cons_space h]
    · rw [List.dropWhile_cons_of_neg h]

theorem words_append {w l : List UInt8} (hw : ∀ c ∈ w, isSpace c = false) (hne : w ≠ [])
    (hl : ∀ c ∈ l.head?, isSpace c) : words (w ++ l) = w :: words l := by
  obtain _ | ⟨c,l⟩ := l
  · simp [words,List.splitOnP_eq_singleton hw,hne]
  · have hc : isSpace c := hl c rfl
    rw [words_cons_space hc,words,List.splitOnP_append_cons_of_forall_mem hw c hc,
      List.filter_cons_of_pos (by simpa)]
    rfl

theorem head_dropWhile {p : UInt8 → Bool} {l : List UInt8} {c : UInt8}
    (h : c ∈ (l.dropWhile p).head?) : p c = false := by
  have hnot := List.head?_dropWhile_not p l
  rwa [Option.mem_def.mp h] at hnot

theorem scanToken_nil {input : List UInt8} (h : (scanToken input).1 = []) :
    words input = [] ∧ (scanToken input).2 = [] := by
  have hrest : input.dropWhile isSpace = [] := by
    by_contra hne
    obtain ⟨c,rest,hc⟩ := List.exists_cons_of_ne_nil hne
    have hspace : isSpace c = false := head_dropWhile (by rw [hc]; rfl)
    simp [scanToken,hc,hspace] at h
  constructor
  · rw [← words_dropWhile,hrest,words_nil]
  · simp [scanToken,hrest]

theorem scanToken_words {input : List UInt8} (h : (scanToken input).1 ≠ []) :
    words input = (scanToken input).1 :: words (scanToken input).2 := by
  have happend := List.takeWhile_append_dropWhile (p := fun c => !isSpace c)
    (l := input.dropWhile isSpace)
  rw [← words_dropWhile,← happend]
  refine words_append (fun c hc => ?_) h fun c hc => ?_
  · simpa using List.mem_takeWhile_imp hc
  · simpa using head_dropWhile hc

theorem words_of_scanToken {input w rest : List UInt8} (h : scanToken input = (w,rest))
    (hne : w ≠ []) : words input = w :: words rest := by
  have hwords := scanToken_words (by rwa [h] : (scanToken input).1 ≠ [])
  rwa [h] at hwords

theorem scanToken_append {w l : List UInt8} (hw : ∀ c ∈ w, isSpace c = false) (hne : w ≠ [])
    (hl : ∀ c ∈ l.head?, isSpace c) : scanToken (w ++ l) = (w,l) := by
  obtain ⟨c,w,rfl⟩ := List.exists_cons_of_ne_nil hne
  have hc : isSpace c = false := hw c List.mem_cons_self
  have hdrop : ((c :: w) ++ l).dropWhile isSpace = (c :: w) ++ l := by simp [hc]
  have hall : ∀ x ∈ c :: w, (!isSpace x) = true := fun x hx => by simp [hw x hx]
  rw [scanToken,hdrop,List.takeWhile_append_of_pos hall,List.dropWhile_append_of_pos hall]
  obtain _ | ⟨d,l⟩ := l
  · simp
  · have hd : isSpace d := hl d rfl
    simp [hd]

theorem scanToken_space {c : UInt8} (h : isSpace c) (l : List UInt8) :
    scanToken (c :: l) = scanToken l := by
  rw [scanToken,List.dropWhile_cons_of_pos h,scanToken]

theorem words_scanToken (input : List UInt8) :
    words (scanToken input).2 = (words input).tail := by
  by_cases h : (scanToken input).1 = []
  · obtain ⟨hwords,hrest⟩ := scanToken_nil h
    rw [hrest,hwords,words_nil,List.tail_nil]
  · rw [scanToken_words h,List.tail_cons]

theorem fscanfString_eq (size : ℕ) (old input : List UInt8) : fscanfString size old input =
    if ∀ w ∈ (words input).head?, w.length < size then
      some ((words input).headD old,(scanToken input).2) else none := by
  by_cases h : (scanToken input).1 = []
  · simp [fscanfString,h,(scanToken_nil h).1]
  · simp [fscanfString,h,scanToken_words h]

end Stdio
end SomeCode
