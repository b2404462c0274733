import SomeCode.MachineInt
import SomeCode.Stdio

/-! `scanf` with `%d`, byte by byte: it stores a number, finds none, or comes to the end of the
input. Where it finds none it takes a sign at most. -/
namespace SomeCode
namespace ScanInt

open MachineInt Stdio

def isDigit (c : UInt8) : Bool := 48 ≤ c && c ≤ 57

def isSign (c : UInt8) : Bool := c == 43 || c == 45

def number (digits : List UInt8) : ℕ := digits.foldl (fun v c => 10*v + (c.toNat-48)) 0

/-- As a `long`, at its ends if it is out of its range, and then as an `int` -/
def store (x : ℤ) : ℤ := wrap 32 (max (-2^63) (min (2^63-1) x))

def EOF : ℤ := -1

inductive Result
  | value (v : ℤ) (rest : List UInt8)
  | mismatch (rest : List UInt8)
  | eof
  deriving DecidableEq

def Result.ret : Result → ℤ
  | value _ _ => 1
  | mismatch _ => 0
  | eof => EOF

@[simp] theorem Result.ret_eq_EOF {r : Result} : r.ret = EOF ↔ r = .eof := by
  cases r <;> simp [ret,EOF]

/-- What is in the variable after the call, when `old` has been in it -/
def Result.assign (old : ℤ) : Result → ℤ
  | value v _ => v
  | _ => old

def Result.rest : Result → List UInt8
  | value _ rest => rest
  | mismatch rest => rest
  | eof => []

/-- The digits of a number that begins here -/
def scanDigits (minus : Bool) (input : List UInt8) : Result :=
  if input.takeWhile isDigit = [] then .mismatch input
  else .value (store (if minus then -number (input.takeWhile isDigit)
    else number (input.takeWhile isDigit))) (input.dropWhile isDigit)

def scanInt (input : List UInt8) : Result :=
  match input.dropWhile isSpace with
  | [] => .eof
  | c :: rest => if isSign c then scanDigits (c == 45) rest else scanDigits false (c :: rest)

/-- White space, digits, and signs that have a digit right behind them -/
def numeric : List UInt8 → Bool
  | [] => true
  | c :: rest =>
    (isSpace c || isDigit c || isSign c && rest.head?.any isDigit) && numeric rest

theorem numeric_dropWhile {p : UInt8 → Bool} (hp : ∀ c, p c → isSpace c ∨ isDigit c)
    (input : List UInt8) : numeric (input.dropWhile p) = numeric input := by
  induction input with
  | nil => rfl
  | cons c rest ih =>
    by_cases hc : p c
    · rw [List.dropWhile_cons_of_pos hc,ih,numeric]
      rcases hp c hc with h | h <;> simp [h]
    · rw [List.dropWhile_cons_of_neg hc]

/-- What is known of a call: a number takes some of the input, and the rest is as numeric as the
input was; numeric input is never refused, and other input never at its end. -/
inductive Scanned (input : List UInt8) : Result → Prop
  | value {v : ℤ} {rest : List UInt8} (hlt : rest.length < input.length)
      (hnum : numeric rest = numeric input) : Scanned input (.value v rest)
  | mismatch {rest : List UInt8} (hnot : numeric input = false) : Scanned input (.mismatch rest)
  | eof (hnum : numeric input = true) : Scanned input .eof

theorem isDigit_of_isSign {c : UInt8} (h : isSign c) : isDigit c = false := by
  simp only [isSign,Bool.or_eq_true,beq_iff_eq] at h
  rcases h with rfl | rfl <;> rfl

theorem takeWhile_eq_nil_iff {p : UInt8 → Bool} {l : List UInt8} :
    l.takeWhile p = [] ↔ l.head?.any p = false := by
  cases l with
  | nil => simp
  | cons c l => by_cases hc : p c <;> simp [hc]

theorem scanDigits_scanned {minus : Bool} {l input : List UInt8}
    (hlt : l.head?.any isDigit → (l.dropWhile isDigit).length < input.length)
    (hnum : l.head?.any isDigit → numeric l = numeric input)
    (hnot : l.head?.any isDigit = false → numeric input = false) :
    Scanned input (scanDigits minus l) := by
  rw [scanDigits]
  split
  · rename_i h
    exact .mismatch (hnot (takeWhile_eq_nil_iff.mp h))
  · rename_i h
    rw [takeWhile_eq_nil_iff,Bool.not_eq_false] at h
    exact .value (hlt h) ((numeric_dropWhile (fun c hc => .inr hc) l).trans (hnum h))

theorem scanInt_scanned (input : List UInt8) : Scanned input (scanInt input) := by
  have hnum := numeric_dropWhile (p := isSpace) (fun c hc => .inl hc) input
  have hle : (input.dropWhile isSpace).length ≤ input.length := List.length_dropWhile_le ..
  rw [scanInt]
  cases hinput : input.dropWhile isSpace with
  | nil =>
    rw [hinput] at hnum
    exact .eof hnum.symm
  | cons c rest =>
    rw [hinput] at hnum hle
    have hspace : isSpace c = false := head_dropWhile (by rw [hinput]; rfl)
    have hdrop : (rest.dropWhile isDigit).length ≤ rest.length := List.length_dropWhile_le ..
    rw [numeric,hspace,Bool.false_or] at hnum
    rw [List.length_cons] at hle
    dsimp only
    split
    · rename_i hsign
      rw [isDigit_of_isSign hsign,hsign,Bool.false_or,Bool.true_and] at hnum
      refine scanDigits_scanned (fun _ => by omega) (fun h => ?_) fun h => ?_
      · simpa [h] using hnum
      · simpa [h] using hnum.symm
    · rename_i hsign
      rw [Bool.not_eq_true] at hsign
      rw [hsign,Bool.false_and,Bool.or_false] at hnum
      refine scanDigits_scanned (fun h => ?_) (fun h => ?_) fun h => ?_
      · rw [List.dropWhile_cons_of_pos (by simpa using h)]
        omega
      · rw [← hnum,numeric,hspace,hsign]
        simp
      · have hdigit : isDigit c = false := by simpa using h
        rw [← hnum,hdigit,Bool.false_and]

def values (input : List UInt8) : List ℤ :=
  match _h : scanInt input with
  | .value v rest => v :: values rest
  | .mismatch _ | .eof => []
termination_by input.length
decreasing_by
  have hs := scanInt_scanned input
  rw [_h] at hs
  cases hs
  assumption

theorem values_of_value {input rest : List UInt8} {v : ℤ} (h : scanInt input = .value v rest) :
    values input = v :: values rest := by
  rw [values]
  split
  · rename_i heq
    cases h.symm.trans heq
    rfl
  · rename_i heq
    cases h.symm.trans heq
  · rename_i heq
    cases h.symm.trans heq

theorem values_of_eof {input : List UInt8} (h : scanInt input = .eof) : values input = [] := by
  rw [values]
  split
  · rename_i heq
    cases h.symm.trans heq
  · rfl
  · rfl

end ScanInt
end SomeCode
