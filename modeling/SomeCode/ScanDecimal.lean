import SomeCode.ScanInt
import SomeCode.Decimal

/-! `scanf` with `%d` on numerals as `printf` writes them, behind white space and before anything
that is no digit. -/
namespace SomeCode
namespace ScanInt

open MachineInt Stdio Decimal

variable {blanks rest : List UInt8} {c : UInt8} {n : ℕ}

theorem isDigit_digit {d : ℕ} (h : d < 10) : isDigit (digit d) = true := by
  have hlow : (48 : UInt8) ≤ digit d := by
    rw [UInt8.le_iff_toNat_le,toNat_digit h]
    exact Nat.le_add_right 48 d
  have hhigh : digit d ≤ 57 := by
    rw [UInt8.le_iff_toNat_le,toNat_digit h]
    exact Nat.add_le_add_left (Nat.le_of_lt_succ h) 48
  simp [isDigit,hlow,hhigh]

theorem isDigit_of_mem_decimal (h : c ∈ decimal n) : isDigit c = true := by
  induction n using Nat.strong_induction_on with
  | _ n ih =>
    rcases lt_or_ge n 10 with hlt | hle
    · rw [decimal_of_lt hlt,List.mem_singleton] at h
      rw [h,isDigit_digit hlt]
    · rw [decimal_of_le hle,List.mem_append,List.mem_singleton] at h
      rcases h with h | rfl
      · exact ih (n/10) (by omega) h
      · exact isDigit_digit (Nat.mod_lt n (by decide))

theorem not_isSpace_of_isDigit (h : isDigit c = true) : isSpace c = false := by
  simp only [isDigit,Bool.and_eq_true,decide_eq_true_eq,UInt8.le_iff_toNat_le,
    UInt8.reduceToNat] at h
  rw [← Bool.not_eq_true]
  intro hs
  simp only [isSpace,Bool.or_eq_true,beq_iff_eq,Bool.and_eq_true,decide_eq_true_eq,
    UInt8.le_iff_toNat_le,UInt8.reduceToNat] at hs
  rcases hs with rfl | hs
  · simp at h
  · omega

theorem number_decimal (n : ℕ) : number (decimal n) = n := by
  induction n using Nat.strong_induction_on with
  | _ n ih =>
    rcases lt_or_ge n 10 with hlt | hle
    · simp [decimal_of_lt hlt,number,toNat_digit hlt]
    · have hrest := ih (n/10) (by omega)
      rw [number] at hrest
      rw [decimal_of_le hle,number,List.foldl_append,hrest]
      simp only [List.foldl_cons,List.foldl_nil,toNat_digit (Nat.mod_lt n (by decide : 0 < 10))]
      omega

theorem store_natCast (h : n < 2^31) : store n = n := by
  rw [store,max_eq_right (by omega),wrap_eq] <;> omega

theorem scanInt_blanks (h : ∀ b ∈ blanks, isSpace b) (rest : List UInt8) :
    scanInt (blanks ++ rest) = scanInt rest := by
  have hdrop : (blanks ++ rest).dropWhile isSpace = rest.dropWhile isSpace := by
    rw [List.dropWhile_append_of_pos h]
  rw [scanInt,scanInt,hdrop]

theorem scanInt_decimal (hn : n < 2^31) (hrest : ∀ c ∈ rest.head?, isDigit c = false) :
    scanInt (decimal n ++ rest) = .value n rest := by
  have hhead : rest.takeWhile isDigit = [] ∧ rest.dropWhile isDigit = rest := by
    cases rest with
    | nil => exact ⟨rfl,rfl⟩
    | cons c rest => simp [hrest c rfl]
  have htake : (decimal n ++ rest).takeWhile isDigit = decimal n := by
    rw [List.takeWhile_append_of_pos fun c hc => isDigit_of_mem_decimal hc,hhead.1,List.append_nil]
  have hdrop : (decimal n ++ rest).dropWhile isDigit = rest := by
    rw [List.dropWhile_append_of_pos fun c hc => isDigit_of_mem_decimal hc,hhead.2]
  rcases List.exists_cons_of_ne_nil (List.ne_nil_of_length_pos (length_decimal_pos n)) with
    ⟨c,digits,hd⟩
  have hc : isDigit c = true := isDigit_of_mem_decimal (hd ▸ List.mem_cons_self)
  have hsign : isSign c = false := by
    rw [← Bool.not_eq_true]
    intro hs
    rw [isDigit_of_isSign hs] at hc
    cases hc
  have hscan : scanInt (decimal n ++ rest) = scanDigits false (decimal n ++ rest) := by
    rw [scanInt,hd,List.cons_append,
      List.dropWhile_cons_of_neg (by simp [not_isSpace_of_isDigit hc])]
    simp [hsign]
  rw [hscan,scanDigits,htake,hdrop,if_neg (List.ne_nil_of_length_pos (length_decimal_pos n)),
    number_decimal]
  simp [store_natCast hn]

theorem scanInt_mismatch (hspace : isSpace c = false) (hdigit : isDigit c = false)
    (hsign : isSign c = false) (rest : List UInt8) :
    scanInt (c :: rest) = .mismatch (c :: rest) := by
  rw [scanInt,List.dropWhile_cons_of_neg (by simp [hspace])]
  simp [hsign,scanDigits,hdigit]

end ScanInt
end SomeCode
