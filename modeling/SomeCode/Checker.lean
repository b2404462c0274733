import SomeCode.MachineInt
import SomeCode.PrefixCode
import Mathlib.Tactic

/-! The checker of `inf02-5.c`: the standard input is read as groups of a lead byte and the
bytes it announces, and the groups are counted up to the first byte that fits none. -/
namespace SomeCode
namespace Checker

open MachineInt PrefixCode

/-- What `getchar` returns at the end of the input -/
def EOF : ℤ := -1

/-- The stream and the counters; `printed` has one entry for each call of `printf`. -/
structure Process where
  input : List UInt8
  asciiCounter : ℤ
  notAsciiCounter : ℤ
  printed : List (ℤ × ℤ)

def getchar (p : Process) : ℤ × Process :=
  match p.input with
  | [] => (EOF,p)
  | b :: rest => (b.toNat,{ p with input := rest })

def increment (x : ℤ) : ℤ := wrap 32 (x+1)

def Process.printf (p : Process) : Process :=
  { p with printed := p.printed ++ [(p.asciiCounter,p.notAsciiCounter)] }

/-- The loop of `checker`, with `n` rounds to go -/
def checkerLoop : ℕ → Process → ℤ × Process
  | 0, p => (0,{ p with notAsciiCounter := increment p.notAsciiCounter })
  | n+1, p =>
    let (c,p) := getchar p
    if c.shiftRight 6 = 2 then checkerLoop n p else (1,p.printf)

/-- `for (int i = 0; i <= slides; i++)` -/
def checker (slides : ℕ) (p : Process) : ℤ × Process := checkerLoop (slides+1) p

/-- The body of the loop of `main`, up to the next `getchar`; 1 means that `main` returns 1. -/
def body (c : ℤ) (p : Process) : ℤ × Process :=
  if c.shiftRight 7 = 0 then (0,{ p with asciiCounter := increment p.asciiCounter })
  else if c.shiftRight 5 = 6 then checker 0 p
  else if c.shiftRight 4 = 14 then checker 1 p
  else if c.shiftRight 3 = 30 then checker 2 p
  else (1,p.printf)

theorem getchar_input_le (p : Process) : (getchar p).2.input.length ≤ p.input.length := by
  unfold getchar
  split
  · exact Nat.le_refl _
  · rename_i h
    simp [h]

theorem checkerLoop_input_le (n : ℕ) (p : Process) :
    (checkerLoop n p).2.input.length ≤ p.input.length := by
  induction n generalizing p with
  | zero => exact Nat.le_refl _
  | succ n ih =>
    have hget := getchar_input_le p
    simp only [checkerLoop]
    split
    · exact (ih _).trans hget
    · exact hget

theorem body_input_le (c : ℤ) (p : Process) : (body c p).2.input.length ≤ p.input.length := by
  unfold body checker
  split_ifs <;> first | exact checkerLoop_input_le _ _ | exact Nat.le_refl _

theorem getchar_progress (p : Process) : (getchar p).1 = EOF ∨
    (getchar p).2.input.length < p.input.length := by
  unfold getchar
  split
  · exact .inl rfl
  · rename_i h
    exact .inr (by simp [h])

def mainLoop (c : ℤ) (p : Process) : ℤ × Process :=
  if c = EOF then (0,p.printf)
  else if (body c p).1 = 1 then (1,(body c p).2)
  else mainLoop (getchar (body c p).2).1 (getchar (body c p).2).2
termination_by p.input.length + if c = EOF then 0 else 1
decreasing_by
  have hbody := body_input_le c p
  have hget := getchar_input_le (body c p).2
  obtain h | h := getchar_progress (body c p).2
  · rw [if_pos h,if_neg ‹_›]
    omega
  · rw [if_neg ‹¬ c = EOF›]
    split_ifs <;> omega

/-- What `main` returns, and what it has printed -/
def main (input : List UInt8) : ℤ × List (ℤ × ℤ) :=
  let (c,p) := getchar ⟨input,0,0,[]⟩
  let (code,p) := mainLoop c p
  (code,p.printed)

def Tail (b : UInt8) : Prop := 0x80 ≤ b.toNat ∧ b.toNat < 0xC0

/-- A byte that `n` further ones must follow: `0xxxxxxx`, `110xxxxx`, `1110xxxx`, `11110xxx` -/
def Lead (n : ℕ) (b : UInt8) : Prop :=
  match n with
  | 0 => b.toNat < 0x80
  | 1 => 0xC0 ≤ b.toNat ∧ b.toNat < 0xE0
  | 2 => 0xE0 ≤ b.toNat ∧ b.toNat < 0xF0
  | 3 => 0xF0 ≤ b.toNat ∧ b.toNat < 0xF8
  | _ => False

def Group (g : List UInt8) : Prop :=
  ∃ b tail, g = b :: tail ∧ Lead tail.length b ∧ ∀ c ∈ tail, Tail c

def singles (groups : List (List UInt8)) : ℕ := groups.countP fun g => g.length = 1

def multis (groups : List (List UInt8)) : ℕ := groups.countP fun g => g.length ≠ 1

theorem Lead.unique {m n : ℕ} {b : UInt8} (hm : Lead m b) (hn : Lead n b) : m = n := by
  unfold Lead at hm hn
  split at hm <;> split at hn <;> first | rfl | contradiction | omega

theorem group_isPrefixCode : IsPrefixCode Group where
  nonempty := by
    rintro w ⟨b,tail,rfl,-⟩
    exact List.cons_ne_nil _ _
  free := by
    rintro v w ⟨b,tail,rfl,hb,-⟩ ⟨c,tail',rfl,hc,-⟩ hp
    obtain ⟨rfl,hp'⟩ := List.cons_prefix_cons.mp hp
    rw [hp'.eq_of_length (hb.unique hc)]

/-- `n` bytes of the form `10xxxxxx` come next. -/
def Follows (n : ℕ) (l : List UInt8) : Prop := n ≤ l.length ∧ ∀ c ∈ l.take n, Tail c

theorem follows_succ {n : ℕ} {c : UInt8} {l : List UInt8} :
    Follows (n+1) (c :: l) ↔ Tail c ∧ Follows n l := by
  simp [Follows]
  tauto

theorem tail_iff (c : UInt8) : (c.toNat : ℤ).shiftRight 6 = 2 ↔ Tail c := by
  rw [← Int.shiftRight_eq,Int.shiftRight_eq_div_pow,Tail]
  omega

theorem checkerLoop_accepts {n : ℕ} {p : Process} (h : Follows n p.input) :
    checkerLoop n p = (0,{ p with
      input := p.input.drop n
      notAsciiCounter := increment p.notAsciiCounter }) := by
  induction n generalizing p with
  | zero => rfl
  | succ n ih =>
    obtain ⟨input,a,m,printed⟩ := p
    cases input with
    | nil => simp [Follows] at h
    | cons c rest =>
      obtain ⟨hc,hrest⟩ := follows_succ.mp h
      simp only [checkerLoop,getchar,(tail_iff c).mpr hc,if_true]
      exact ih hrest

theorem checkerLoop_refuses {n : ℕ} {p : Process} (h : ¬ Follows n p.input) :
    (checkerLoop n p).1 = 1 ∧
      (checkerLoop n p).2.printed = p.printed ++ [(p.asciiCounter,p.notAsciiCounter)] := by
  induction n generalizing p with
  | zero => exact absurd ⟨Nat.zero_le _,by simp⟩ h
  | succ n ih =>
    obtain ⟨input,a,m,printed⟩ := p
    cases input with
    | nil => exact ⟨rfl,rfl⟩
    | cons c rest =>
      by_cases hc : Tail c
      · simp only [checkerLoop,getchar,(tail_iff c).mpr hc,if_true]
        exact ih fun hrest => h (follows_succ.mpr ⟨hc,hrest⟩)
      · simp [checkerLoop,getchar,tail_iff,hc,Process.printf]

def Process.count (p : Process) : ℕ → Process
  | 0 => { p with asciiCounter := increment p.asciiCounter }
  | _+1 => { p with notAsciiCounter := increment p.notAsciiCounter }

theorem lead_cases (b : UInt8) : ((b.toNat : ℤ).shiftRight 7 = 0 ↔ Lead 0 b) ∧
    ((b.toNat : ℤ).shiftRight 5 = 6 ↔ Lead 1 b) ∧ ((b.toNat : ℤ).shiftRight 4 = 14 ↔ Lead 2 b) ∧
    ((b.toNat : ℤ).shiftRight 3 = 30 ↔ Lead 3 b) := by
  have hb := b.toNat_lt
  simp only [← Int.shiftRight_eq,Int.shiftRight_eq_div_pow,Lead]
  omega

theorem body_accepts {n : ℕ} {b : UInt8} {p : Process} (hb : Lead n b) (h : Follows n p.input) :
    body b.toNat p = (0,{ p.count n with input := p.input.drop n }) := by
  obtain ⟨h0,h1,h2,h3⟩ := lead_cases b
  have hne : ∀ m, m ≠ n → ¬ Lead m b := fun m hm hl => hm (hl.unique hb)
  match n with
  | 0 => simp [body,h0.mpr hb,Process.count]
  | 1 =>
    simp only [body,h0,h1,hne 0 (by decide),hb,if_true,if_false]
    exact checkerLoop_accepts h
  | 2 =>
    simp only [body,h0,h1,h2,hne 0 (by decide),hne 1 (by decide),hb,if_true,if_false]
    exact checkerLoop_accepts h
  | 3 =>
    simp only [body,h0,h1,h2,h3,hne 0 (by decide),hne 1 (by decide),hne 2 (by decide),hb,if_true,
      if_false]
    exact checkerLoop_accepts h

theorem body_refuses {b : UInt8} {p : Process} (h : ∀ n, Lead n b → ¬ Follows n p.input) :
    (body b.toNat p).1 = 1 ∧
      (body b.toNat p).2.printed = p.printed ++ [(p.asciiCounter,p.notAsciiCounter)] := by
  obtain ⟨h0,h1,h2,h3⟩ := lead_cases b
  unfold body
  split_ifs with hl hl hl hl
  · exact absurd ⟨Nat.zero_le _,by simp⟩ (h 0 (h0.mp hl))
  · exact checkerLoop_refuses (h 1 (h1.mp hl))
  · exact checkerLoop_refuses (h 2 (h2.mp hl))
  · exact checkerLoop_refuses (h 3 (h3.mp hl))
  · exact ⟨rfl,rfl⟩

/-- A group comes next where a lead byte is followed by what it announces. -/
theorem group_prefix_iff {b : UInt8} {l : List UInt8} :
    (∃ g, Group g ∧ g <+: b :: l) ↔ ∃ n, Lead n b ∧ Follows n l := by
  constructor
  · rintro ⟨-,⟨c,tail,rfl,hc,htail⟩,hp⟩
    obtain ⟨rfl,rest,rfl⟩ := List.cons_prefix_cons.mp hp
    exact ⟨tail.length,hc,by simp,by simpa using htail⟩
  · rintro ⟨n,hb,hn,htail⟩
    refine ⟨b :: l.take n,⟨b,_,rfl,?_,htail⟩,?_⟩
    · rwa [List.length_take_of_le hn]
    · exact List.cons_prefix_cons.mpr ⟨rfl,List.take_prefix _ _⟩

def fromHere (p : Process) : ℤ × Process := mainLoop (getchar p).1 (getchar p).2

theorem fromHere_nil {p : Process} (h : p.input = []) : fromHere p = (0,p.printf) := by
  rw [fromHere,mainLoop,getchar]
  simp [h]

theorem fromHere_cons {p : Process} {b : UInt8} {l : List UInt8} (h : p.input = b :: l) :
    fromHere p =
      let r := body b.toNat { p with input := l }
      if r.1 = 1 then (1,r.2) else fromHere r.2 := by
  have hne : ((b.toNat : ℕ) : ℤ) ≠ EOF := by
    unfold EOF
    omega
  rw [fromHere,mainLoop,getchar]
  simp [h,hne,fromHere]

/-- What the program makes of the bytes that are left: it reads as many groups as there are,
and it is content where nothing is left after them. -/
structure Reads (p : Process) (groups : List (List UInt8)) (rest : List UInt8) : Prop where
  input : p.input = groups.flatten ++ rest
  words : ∀ g ∈ groups, Group g
  stuck : ∀ g, Group g → ¬ g <+: rest
  code : (fromHere p).1 = 0 ↔ rest = []
  printed : (fromHere p).2.printed = p.printed ++
    [(increment^[singles groups] p.asciiCounter,increment^[multis groups] p.notAsciiCounter)]

theorem Reads.nil {p : Process} (h : p.input = []) : Reads p [] [] where
  input := h
  words := by simp
  stuck := by
    intro g hg hp
    exact group_isPrefixCode.nonempty hg (List.prefix_nil.mp hp)
  code := by simp [fromHere_nil h]
  printed := by simp [fromHere_nil h,Process.printf,singles,multis]

theorem Reads.refused {p : Process} {b : UInt8} {l : List UInt8} (h : p.input = b :: l)
    (hno : ∀ n, Lead n b → ¬ Follows n l) : Reads p [] (b :: l) where
  input := h
  words := by simp
  stuck := by
    intro g hg hp
    obtain ⟨n,hb,hl⟩ := group_prefix_iff.mp ⟨g,hg,hp⟩
    exact hno n hb hl
  code := by
    obtain ⟨hone,-⟩ := body_refuses (p := { p with input := l }) hno
    simp [fromHere_cons h,hone]
  printed := by
    obtain ⟨hone,hprint⟩ := body_refuses (p := { p with input := l }) hno
    simpa [fromHere_cons h,hone,singles,multis] using hprint

theorem Reads.cons {p : Process} {b : UInt8} {l rest : List UInt8} {n : ℕ}
    {groups : List (List UInt8)} (h : p.input = b :: l) (hb : Lead n b) (hl : Follows n l)
    (hr : Reads { p.count n with input := l.drop n } groups rest) :
    Reads p ((b :: l.take n) :: groups) rest := by
  have hbody := body_accepts (p := { p with input := l }) hb hl
  have hrun : fromHere p = fromHere { p.count n with input := l.drop n } := by
    simp only [fromHere_cons h,hbody]
    cases n <;> simp [Process.count]
  have hgroup : Group (b :: l.take n) :=
    ⟨b,_,rfl,by rwa [List.length_take_of_le hl.1],hl.2⟩
  refine ⟨?_,?_,hr.stuck,by rw [hrun]; exact hr.code,?_⟩
  · have hin : l.drop n = groups.flatten ++ rest := hr.input
    rw [h,List.flatten_cons,List.append_assoc,← hin,List.cons_append,List.take_append_drop]
  · intro g hg
    obtain rfl | hg := List.mem_cons.mp hg
    · exact hgroup
    · exact hr.words g hg
  · have hlen : (b :: l.take n).length = n+1 := by simp [hl.1]
    rw [hrun,hr.printed]
    cases n with
    | zero => simp [Process.count,singles,multis]
    | succ n => simp [Process.count,singles,multis,hlen]

/-- Read on from any state: by induction on the bytes that are left. -/
theorem exists_reads (p : Process) : ∃ groups rest, Reads p groups rest := by
  induction hn : p.input.length using Nat.strongRecOn generalizing p with
  | ind k ih =>
    cases h : p.input with
    | nil => exact ⟨[],[],.nil h⟩
    | cons b l =>
      by_cases hex : ∃ n, Lead n b ∧ Follows n l
      · obtain ⟨n,hb,hl⟩ := hex
        have hlt : (l.drop n).length < k := by
          rw [← hn,h,List.length_drop,List.length_cons]
          omega
        obtain ⟨groups,rest,hr⟩ := ih _ hlt { p.count n with input := l.drop n } rfl
        exact ⟨_,rest,hr.cons h hb hl⟩
      · exact ⟨[],b :: l,.refused h fun n hb hl => hex ⟨n,hb,hl⟩⟩

theorem iterate_increment (n : ℕ) : increment^[n] 0 = wrap 32 n := by
  induction n with
  | zero => rfl
  | succ n ih =>
    rw [Function.iterate_succ_apply',ih,increment,wrap_wrap_add,Nat.cast_succ]

/-- The program prints once, and what it prints and returns is settled by the longest
prefix of the input that is a sequence of groups. -/
theorem main_eq (input : List UInt8) : ∃ groups rest,
    input = groups.flatten ++ rest ∧ (∀ g ∈ groups, Group g) ∧
    (∀ g, Group g → ¬ g <+: rest) ∧ ((main input).1 = 0 ↔ rest = []) ∧
    (main input).2 = [(wrap 32 (singles groups),wrap 32 (multis groups))] := by
  obtain ⟨groups,rest,hr⟩ := exists_reads ⟨input,0,0,[]⟩
  refine ⟨groups,rest,hr.input,hr.words,hr.stuck,hr.code,?_⟩
  have hp := hr.printed
  rwa [iterate_increment,iterate_increment] at hp

theorem main_of_longest {input : List UInt8} {groups : List (List UInt8)}
    (h : Longest Group input groups) :
    (main input).2 = [(wrap 32 (singles groups),wrap 32 (multis groups))] := by
  obtain ⟨gs,rest,rfl,hgs,hstuck,-,hprint⟩ := main_eq input
  rwa [group_isPrefixCode.longest_unique hgs hstuck h]

/-- It returns 0 exactly on the sequences of groups, and prints once how many groups of one
byte and of several bytes the longest prefix has that is such a sequence, as `int`. -/
theorem counts_groups (input : List UInt8) :
    ((main input).1 = 0 ↔ IsConcat Group input) ∧
    ∃ groups, Longest Group input groups ∧
      (∀ groups', Longest Group input groups' → groups' = groups) ∧
      (main input).2 = [(wrap 32 (singles groups),wrap 32 (multis groups))] ∧
      (singles groups < 2^31 → wrap 32 (singles groups) = singles groups) ∧
      (multis groups < 2^31 → wrap 32 (multis groups) = multis groups) := by
  obtain ⟨groups,rest,rfl,hgs,hstuck,hcode,hprint⟩ := main_eq input
  refine ⟨?_,groups,group_isPrefixCode.longest_of_stuck hgs hstuck,?_,hprint,?_,?_⟩
  · rw [hcode,group_isPrefixCode.isConcat_iff hgs hstuck]
  · exact fun groups' h => group_isPrefixCode.longest_unique hgs hstuck h
  · exact fun h => wrap_eq (w := 31) (by omega) (by omega)
  · exact fun h => wrap_eq (w := 31) (by omega) (by omega)

theorem longest_replicate (n : ℕ) :
    Longest Group (List.replicate n 65) (List.replicate n [65]) := by
  have hstuck : ∀ g, Group g → ¬ g <+: [] := fun g hg hp =>
    group_isPrefixCode.nonempty hg (List.prefix_nil.mp hp)
  have hgs : ∀ g ∈ List.replicate n [65], Group g := by
    intro g hg
    obtain rfl := List.eq_of_mem_replicate hg
    exact ⟨65,[],rfl,by simp [Lead],by simp⟩
  have h := group_isPrefixCode.longest_of_stuck hgs hstuck
  simpa using h

theorem counts_replicate (n : ℕ) :
    singles (List.replicate n [65]) = n ∧ multis (List.replicate n [65]) = 0 := by
  simp [singles,multis,List.countP_replicate]

/-- The letter `A`, 2^31 times: the number of groups is not an `int`. -/
theorem counter_overflows :
    Longest Group (List.replicate (2^31) 65) (List.replicate (2^31) [65]) ∧
    singles (List.replicate (2^31) [65]) = 2^31 ∧
    (main (List.replicate (2^31) 65)).2 = [(-2^31,0)] := by
  have hl := longest_replicate (2^31)
  obtain ⟨hs,hm⟩ := counts_replicate (2^31)
  refine ⟨hl,hs,?_⟩
  rw [main_of_longest hl,hs,hm]
  decide

/-! What the standard asks of the groups, beyond what the program tests -/

/-- The bytes are the encoding of a sequence of Unicode scalar values. -/
def WellFormed (input : List UInt8) : Prop :=
  ∃ text : List Char, text.flatMap String.utf8EncodeChar = input

/-- The bits of a lead byte with `n` bytes after it that are not fixed -/
def leadBits (n : ℕ) (b : UInt8) : ℕ := if n = 0 then b.toNat else b.toNat % 2^(6-n)

/-- The number that a group stands for -/
def codePoint : List UInt8 → ℕ
  | [] => 0
  | b :: tail => tail.foldl (fun v c => 64*v + c.toNat%64) (leadBits tail.length b)

/-- The first number that needs so many bytes -/
def firstOf : ℕ → ℕ
  | 0 | 1 => 0
  | 2 => 0x80
  | 3 => 0x800
  | _ => 0x10000

def Overlong (g : List UInt8) : Prop := codePoint g < firstOf g.length

def Surrogate (g : List UInt8) : Prop := 0xD800 ≤ codePoint g ∧ codePoint g ≤ 0xDFFF

def TooLarge (g : List UInt8) : Prop := 0x10FFFF < codePoint g

instance (g : List UInt8) : Decidable (Overlong g) := inferInstanceAs (Decidable (_ < _))

instance (g : List UInt8) : Decidable (Surrogate g) := inferInstanceAs (Decidable (_ ∧ _))

instance (g : List UInt8) : Decidable (TooLarge g) := inferInstanceAs (Decidable (_ < _))

/-- A group that the standard forbids -/
def Forbidden (g : List UInt8) : Prop := Overlong g ∨ Surrogate g ∨ TooLarge g

theorem group_cases {g : List UInt8} (h : Group g) :
    (∃ b, g = [b] ∧ Lead 0 b) ∨ (∃ b c, g = [b,c] ∧ Lead 1 b ∧ Tail c) ∨
    (∃ b c d, g = [b,c,d] ∧ Lead 2 b ∧ Tail c ∧ Tail d) ∨
    (∃ b c d e, g = [b,c,d,e] ∧ Lead 3 b ∧ Tail c ∧ Tail d ∧ Tail e) := by
  rcases h with ⟨b,tail,rfl,hb,htail⟩
  rcases tail with _ | ⟨c,_ | ⟨d,_ | ⟨e,_ | ⟨f,rest⟩⟩⟩⟩
  · exact .inl ⟨b,rfl,hb⟩
  · exact .inr (.inl ⟨b,c,rfl,hb,by simpa using htail⟩)
  · exact .inr (.inr (.inl ⟨b,c,d,rfl,hb,by simpa using htail⟩))
  · exact .inr (.inr (.inr ⟨b,c,d,e,rfl,hb,by simpa using htail⟩))
  · exact absurd hb (by simp [Lead])

/-- The encoding of a character is a group that stands for it, and no longer than it must be. -/
theorem encode_group (c : Char) : Group (String.utf8EncodeChar c) ∧
    codePoint (String.utf8EncodeChar c) = c.toNat ∧
    firstOf (String.utf8EncodeChar c).length ≤ c.toNat := by
  have hc : c.toNat < 0xD800 ∨ 0xDFFF < c.toNat ∧ c.toNat < 0x110000 := c.valid
  have hv : c.val.toNat = c.toNat := rfl
  rw [String.utf8EncodeChar,hv]
  split_ifs with h1 h2 h3
  all_goals
    refine ⟨⟨_,_,rfl,?_⟩,?_⟩
    all_goals
      simp [Lead,Tail,codePoint,leadBits,firstOf]
      omega

theorem ofNat_eq {n : ℕ} {b : UInt8} (h : n = b.toNat) : UInt8.ofNat n = b := by
  rw [h,UInt8.ofNat_toNat]

theorem encode_codePoint {g : List UInt8} (h : Group g) (hf : ¬ Forbidden g) :
    ∃ c, String.utf8EncodeChar c = g := by
  simp only [Forbidden,Overlong,Surrogate,TooLarge,not_or,not_and,not_lt,not_le] at hf
  obtain ⟨hfirst,hsur,hlarge⟩ := hf
  have hvalid : (codePoint g).isValidChar := by
    simp only [Nat.isValidChar]
    omega
  refine ⟨Char.ofNatAux (codePoint g) hvalid,?_⟩
  have hval : (Char.ofNatAux (codePoint g) hvalid).val.toNat = codePoint g := rfl
  rw [String.utf8EncodeChar,hval]
  clear hval hvalid hsur
  rcases group_cases h with ⟨b,rfl,hb⟩ | ⟨b,c,rfl,hb,hc⟩ | ⟨b,c,d,rfl,hb,hc,hd⟩ |
    ⟨b,c,d,e,rfl,hb,hc,hd,he⟩
  · have hv : codePoint [b] = b.toNat := rfl
    have hlow : b.toNat < 0x80 := hb
    simp only [hv]
    rw [if_pos (by omega),ofNat_eq rfl]
  · have hv : codePoint [b,c] = 64*(b.toNat%32)+c.toNat%64 := rfl
    have hlow : 0x80 ≤ codePoint [b,c] := hfirst
    simp only [Lead,Tail,hv] at *
    rw [if_neg (by omega),if_pos (by omega),ofNat_eq (b := b) (by omega),
      ofNat_eq (b := c) (by omega)]
  · have hv : codePoint [b,c,d] = 64*(64*(b.toNat%16)+c.toNat%64)+d.toNat%64 := rfl
    have hlow : 0x800 ≤ codePoint [b,c,d] := hfirst
    simp only [Lead,Tail,hv] at *
    rw [if_neg (by omega),if_neg (by omega),if_pos (by omega),ofNat_eq (b := b) (by omega),
      ofNat_eq (b := c) (by omega),ofNat_eq (b := d) (by omega)]
  · have hv : codePoint [b,c,d,e] =
        64*(64*(64*(b.toNat%8)+c.toNat%64)+d.toNat%64)+e.toNat%64 := rfl
    have hlow : 0x10000 ≤ codePoint [b,c,d,e] := hfirst
    simp only [Lead,Tail,hv] at *
    rw [if_neg (by omega),if_neg (by omega),if_neg (by omega),ofNat_eq (b := b) (by omega),
      ofNat_eq (b := c) (by omega),ofNat_eq (b := d) (by omega),ofNat_eq (b := e) (by omega)]

theorem encode_iff {g : List UInt8} :
    (∃ c, String.utf8EncodeChar c = g) ↔ Group g ∧ ¬ Forbidden g := by
  constructor
  · rintro ⟨c,rfl⟩
    obtain ⟨hg,hcode,hfirst⟩ := encode_group c
    have hc : c.toNat < 0xD800 ∨ 0xDFFF < c.toNat ∧ c.toNat < 0x110000 := c.valid
    refine ⟨hg,?_⟩
    rw [Forbidden,Overlong,Surrogate,TooLarge,hcode]
    omega
  · rintro ⟨hg,hf⟩
    exact encode_codePoint hg hf

theorem wellFormed_flatten_iff {groups : List (List UInt8)} (h : ∀ g ∈ groups, Group g) :
    WellFormed groups.flatten ↔ ∀ g ∈ groups, ¬ Forbidden g := by
  constructor
  · rintro ⟨text,htext⟩
    have hencoded : ∀ g ∈ text.map String.utf8EncodeChar, Group g ∧ ¬ Forbidden g := by
      intro g hg
      obtain ⟨c,-,hc⟩ := List.mem_map.mp hg
      exact encode_iff.mp ⟨c,hc⟩
    rw [List.flatMap] at htext
    rw [← group_isPrefixCode.flatten_inj (fun g hg => (hencoded g hg).1) h htext]
    exact fun g hg => (hencoded g hg).2
  · intro hf
    have hall : groups ∈ {l : List (List UInt8) | ∀ g ∈ l, g ∈ Set.range String.utf8EncodeChar} :=
      fun g hg => encode_iff.mpr ⟨h g hg,hf g hg⟩
    rw [← Set.range_list_map] at hall
    obtain ⟨text,rfl⟩ := hall
    exact ⟨text,rfl⟩

/-- What it returns 0 for is read as groups in one way, and it is well-formed UTF-8 if none of
them is an overlong form, a surrogate or above the last code point. -/
theorem accepted_utf8 (input : List UInt8) (h : (main input).1 = 0) :
    ∃ groups : List (List UInt8), (∀ g ∈ groups, Group g) ∧ groups.flatten = input ∧
      (∀ gs : List (List UInt8), (∀ g ∈ gs, Group g) → gs.flatten = input → gs = groups) ∧
      (WellFormed input ↔ ∀ g ∈ groups, ¬ Overlong g ∧ ¬ Surrogate g ∧ ¬ TooLarge g) := by
  obtain ⟨groups,rest,rfl,hgs,-,hcode,-⟩ := main_eq input
  obtain rfl := hcode.mp h
  rw [List.append_nil]
  refine ⟨groups,hgs,rfl,fun gs hg hl => group_isPrefixCode.flatten_inj hg hgs hl,?_⟩
  simp only [wellFormed_flatten_iff hgs,Forbidden,not_or]

theorem accepted_utf8_surrogate : ∃ groups : List (List UInt8), (∀ g ∈ groups, Group g) ∧
    groups.flatten = [195,169,237,160,128] ∧
    (∀ gs : List (List UInt8), (∀ g ∈ gs, Group g) → gs.flatten = [195,169,237,160,128] →
      gs = groups) ∧
    (WellFormed [195,169,237,160,128] ↔
      ∀ g ∈ groups, ¬ Overlong g ∧ ¬ Surrogate g ∧ ¬ TooLarge g) :=
  accepted_utf8 [195,169,237,160,128] (by decide +kernel)

theorem not_wellFormed {g : List UInt8} (h : Group g) (hf : Forbidden g) : ¬ WellFormed g := by
  have hone : ∀ w ∈ [g], Group w := by simpa using h
  intro hg
  have hflat : WellFormed [g].flatten := by simpa using hg
  exact (wellFormed_flatten_iff hone).mp hflat g List.mem_cons_self hf

/-- NUL in two bytes, the first surrogate, and the number after the last one -/
theorem forbidden_accepted :
    ((main [0xC0,0x80]).1 = 0 ∧ ¬ WellFormed [0xC0,0x80]) ∧
    ((main [0xED,0xA0,0x80]).1 = 0 ∧ ¬ WellFormed [0xED,0xA0,0x80]) ∧
    (main [0xF4,0x90,0x80,0x80]).1 = 0 ∧ ¬ WellFormed [0xF4,0x90,0x80,0x80] := by
  refine ⟨⟨by decide +kernel,not_wellFormed ⟨_,_,rfl,?_⟩ (.inl ?_)⟩,
    ⟨by decide +kernel,not_wellFormed ⟨_,_,rfl,?_⟩ (.inr (.inl ?_))⟩,
    by decide +kernel,not_wellFormed ⟨_,_,rfl,?_⟩ (.inr (.inr ?_))⟩
  all_goals first | decide | simp [Lead,Tail]

end Checker
end SomeCode
