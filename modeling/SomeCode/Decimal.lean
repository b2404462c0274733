import Mathlib.Tactic.IntervalCases

/-! Decimal numerals as bytes, the fields that hold one aligned to the right, and the numbers that
are read from them. -/
namespace SomeCode
namespace Decimal

def digit (d : ℕ) : UInt8 := UInt8.ofNat (48+d)

/-- The numeral of `n`, with the highest digit first -/
def decimal (n : ℕ) : List UInt8 := (Nat.toDigits 10 n).map fun c => UInt8.ofNat c.toNat

/-- An int as `%d` prints it -/
def intText (v : ℤ) : List UInt8 := if v < 0 then 45 :: decimal v.natAbs else decimal v.natAbs

theorem toNat_digitChar {d : ℕ} (h : d < 10) : (Nat.digitChar d).toNat = 48+d := by
  interval_cases d <;> rfl

theorem decimal_of_lt {n : ℕ} (h : n < 10) : decimal n = [digit n] := by
  rw [decimal,Nat.toDigits_of_lt_base h,List.map_singleton,toNat_digitChar h,digit]

theorem decimal_of_le {n : ℕ} (h : 10 ≤ n) : decimal n = decimal (n/10) ++ [digit (n%10)] := by
  have hlt : n%10 < 10 := Nat.mod_lt n (by decide)
  rw [decimal,Nat.toDigits_of_base_le (by decide) h,List.map_append,List.map_singleton,
    toNat_digitChar hlt]
  rfl

theorem length_decimal_le_iff {n k : ℕ} (hk : 0 < k) : (decimal n).length ≤ k ↔ n < 10^k := by
  rw [decimal,List.length_map,Nat.length_toDigits_le_iff (by decide) hk]

theorem length_decimal_pos (n : ℕ) : 0 < (decimal n).length := by
  rw [decimal,List.length_map]
  exact Nat.length_toDigits_pos

/-- The numeral on the right of `width` bytes, or its last digits if it is longer -/
def aligned (width n : ℕ) : List UInt8 :=
  List.replicate (width-(decimal n).length) 32 ++ (decimal n).drop ((decimal n).length-width)

def glyph (n : ℕ) : UInt8 := if n = 0 then 32 else digit (n%10)

/-- Byte by byte, each digit where its power of ten has its place -/
def places : ℕ → ℕ → List UInt8
  | 0, _ => []
  | width+1, n => glyph (n/10^width) :: places width n

theorem length_places (width n : ℕ) : (places width n).length = width := by
  induction width with
  | zero => rfl
  | succ width ih => rw [places,List.length_cons,ih]

theorem places_succ (width n : ℕ) : places (width+1) n = places width (n/10) ++ [glyph n] := by
  induction width with
  | zero => simp [places]
  | succ width ih =>
    have hdiv : n/10^(width+1) = n/10/10^width := by rw [Nat.div_div_eq_div_mul,pow_succ']
    rw [places,ih,places,hdiv,List.cons_append]

theorem places_zero (width : ℕ) : places width 0 = List.replicate width 32 := by
  induction width with
  | zero => rfl
  | succ width ih => rw [places,ih,Nat.zero_div,List.replicate_succ]; rfl

theorem places_eq_aligned {n : ℕ} (hn : 0 < n) (width : ℕ) : places width n = aligned width n := by
  induction width generalizing n with
  | zero => simp [places,aligned]
  | succ width ih =>
    rw [places_succ]
    obtain hlt | hle := lt_or_ge n 10
    · have hglyph : glyph n = digit n := by rw [glyph,if_neg hn.ne',Nat.mod_eq_of_lt hlt]
      simp [aligned,decimal_of_lt hlt,Nat.div_eq_of_lt hlt,places_zero,hglyph]
    · have hglyph : glyph n = digit (n%10) := if_neg hn.ne'
      rw [ih (Nat.div_pos hle (by decide)),aligned,aligned,decimal_of_le hle,hglyph,
        List.length_append,List.length_singleton,Nat.add_sub_add_right,Nat.add_sub_add_right,
        List.drop_append_of_le_length (Nat.sub_le _ _),List.append_assoc]

/-- The number that is read from digits and blanks -/
def value (l : List UInt8) : ℕ := (l.filter (· ≠ 32)).foldl (fun v c => 10*v+(c.toNat-48)) 0

theorem toNat_digit {d : ℕ} (h : d < 10) : (digit d).toNat = 48+d := by
  rw [digit,UInt8.toNat_ofNat']
  omega

theorem value_append_digit (l : List UInt8) {d : ℕ} (h : d < 10) :
    value (l ++ [digit d]) = 10*value l+d := by
  have hne : digit d ≠ 32 := fun he => by
    have hnat := congrArg UInt8.toNat he
    rw [toNat_digit h] at hnat
    simp at hnat
    omega
  simp [value,hne,toNat_digit h]

theorem value_blanks (k : ℕ) (l : List UInt8) : value (List.replicate k 32 ++ l) = value l := by
  simp [value]

theorem value_decimal (n : ℕ) : value (decimal n) = n := by
  induction n using Nat.strong_induction_on with
  | _ n ih =>
    obtain hlt | hle := lt_or_ge n 10
    · rw [decimal_of_lt hlt]
      simpa [value] using value_append_digit [] hlt
    · rw [decimal_of_le hle,value_append_digit _ (Nat.mod_lt n (by decide)),
        ih (n/10) (by omega)]
      omega

theorem value_aligned {width n : ℕ} (h : (decimal n).length ≤ width) :
    value (aligned width n) = n := by
  rw [aligned,value_blanks,Nat.sub_eq_zero_of_le h,List.drop_zero,value_decimal]

end Decimal
end SomeCode
