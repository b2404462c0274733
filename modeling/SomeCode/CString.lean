import Mathlib.Data.List.Basic
import Mathlib.Data.Int.Basic
import Mathlib.Tactic.Common

/-! Zero-terminated strings, in memory and as lists of bytes. -/
namespace SomeCode
namespace CString

/-- The bytes from `i` on up to the first zero, at most `n` of them. -/
def read (mem : ℕ → UInt8) : ℕ → ℕ → List UInt8
  | 0, _ => []
  | n+1, i => if mem i = 0 then [] else mem i :: read mem n (i+1)

/-- The memory from `i` on holds the string `l` with its terminating zero. -/
def Holds (mem : ℕ → UInt8) (i : ℕ) (l : List UInt8) : Prop :=
  ∀ j, j ≤ l.length → mem (i+j) = l.getD j 0

theorem Holds.tail {mem : ℕ → UInt8} {i : ℕ} {c : UInt8} {l : List UInt8}
    (h : Holds mem i (c :: l)) : Holds mem (i+1) l := by
  intro j hj
  have hs := h (j+1) (by simpa using hj)
  rwa [show i+1+j = i+(j+1) by omega]

theorem Holds.read_eq {mem : ℕ → UInt8} {i n : ℕ} {l : List UInt8} (h : Holds mem i l)
    (hzero : 0 ∉ l) (hn : l.length < n) : read mem n i = l := by
  induction l generalizing i n with
  | nil =>
    obtain ⟨n,rfl⟩ := Nat.exists_eq_add_one_of_ne_zero (Nat.ne_of_gt hn)
    have h0 : mem i = 0 := h 0 (Nat.le_refl _)
    simp [read,h0]
  | cons c l ih =>
    obtain ⟨n,rfl⟩ := Nat.exists_eq_add_one_of_ne_zero (Nat.ne_of_gt (Nat.zero_lt_of_lt hn))
    have hc : mem i = c := h 0 (Nat.zero_le _)
    have hne : c ≠ 0 := fun he => hzero (he ▸ List.mem_cons_self)
    have hrest := ih h.tail (fun hm => hzero (List.mem_cons_of_mem _ hm))
      (Nat.lt_of_succ_lt_succ hn)
    simp [read,hc,hne,hrest]

/-- `strncmp` on strings without their terminating zeros. -/
def strncmp : ℕ → List UInt8 → List UInt8 → ℤ
  | 0, _, _ => 0
  | _+1, [], [] => 0
  | _+1, [], b :: _ => -b.toNat
  | _+1, a :: _, [] => a.toNat
  | n+1, a :: as, b :: bs => if a = b then strncmp n as bs else (a.toNat : ℤ) - b.toNat

theorem toNat_pos {c : UInt8} (h : c ≠ 0) : 0 < c.toNat :=
  Nat.pos_of_ne_zero fun h0 => h (UInt8.toNat_inj.mp h0)

theorem strncmp_eq_zero_iff {n : ℕ} {a b : List UInt8} (ha : 0 ∉ a) (hb : 0 ∉ b) :
    strncmp n a b = 0 ↔ a.take n = b.take n := by
  induction n, a, b using strncmp.induct with
  | case1 a b => simp [strncmp]
  | case2 n => simp [strncmp]
  | case3 n c l =>
    have hc := toNat_pos fun h => hb (h ▸ List.mem_cons_self)
    simp only [strncmp,List.take_nil,List.take_succ_cons,reduceCtorEq,iff_false]
    omega
  | case4 n c l =>
    have hc := toNat_pos fun h => ha (h ▸ List.mem_cons_self)
    simp only [strncmp,List.take_nil,List.take_succ_cons,reduceCtorEq,iff_false]
    omega
  | case5 n l c m ih =>
    have hrest := ih (fun h => ha (List.mem_cons_of_mem _ h)) fun h => hb (List.mem_cons_of_mem _ h)
    simp [strncmp,hrest]
  | case6 n c l d m hne =>
    have hval : c.toNat ≠ d.toNat := fun h => hne (UInt8.toNat_inj.mp h)
    simp only [strncmp,hne,if_false,List.take_succ_cons,List.cons.injEq,false_and,iff_false]
    omega

/-- `strstr` on such strings: where `needle` begins for the first time -/
def strstr (needle : List UInt8) : List UInt8 → Option ℕ
  | [] => if needle = [] then some 0 else none
  | c :: l => if needle <+: c :: l then some 0 else (strstr needle l).map (·+1)

theorem strstr_eq_some_iff {needle l : List UInt8} {i : ℕ} :
    strstr needle l = some i ↔ needle <+: l.drop i ∧ ∀ j, j < i → ¬ needle <+: l.drop j := by
  induction l generalizing i with
  | nil =>
    by_cases h : needle = []
    · subst h
      simp only [strstr,if_true,Option.some.injEq,List.drop_nil,List.prefix_rfl,true_and]
      constructor
      · rintro rfl j hj
        exact absurd hj (Nat.not_lt_zero j)
      · intro hno
        by_contra hne
        exact hno 0 (Nat.pos_of_ne_zero (Ne.symm hne)) trivial
    · simp [strstr,h]
  | cons c l ih =>
    rw [strstr]
    split_ifs with h
    · constructor
      · rintro ⟨⟩
        exact ⟨h,fun j hj => absurd hj (Nat.not_lt_zero j)⟩
      · rintro ⟨-,hno⟩
        by_contra hne
        exact hno 0 (Nat.pos_of_ne_zero fun h0 => hne (by rw [h0])) h
    · rw [Option.map_eq_some_iff]
      constructor
      · rintro ⟨k,hk,rfl⟩
        obtain ⟨hat,hno⟩ := ih.mp hk
        refine ⟨hat,?_⟩
        rintro (_ | j) hj
        · exact h
        · exact hno j (by omega)
      · rintro ⟨hat,hno⟩
        obtain _ | k := i
        · exact absurd hat h
        · exact ⟨k,ih.mpr ⟨hat,fun j hj => hno (j+1) (by omega)⟩,rfl⟩

end CString
end SomeCode
