import SomeCode.CString
import SomeCode.Transition

/-! The search loop of `inf10-0.c`, which prints where a pattern occurs in a file. -/
namespace SomeCode
namespace PatternSearch

open CString Transition

/-- `memmem` from `slide` on to the end of the file: `none` within if nothing is found. The bytes
behind the file are not known, but an empty pattern is found wherever the range starts. -/
def memmem (file pattern : List UInt8) (slide : ℕ) : Option (Option ℕ) :=
  if pattern = [] then some (some slide)
  else if slide ≤ file.length then
    some ((strstr pattern (file.drop slide)).map fun i => slide+i)
  else none

/-- The loop runs until nothing is found. -/
structure State where
  slide : ℕ
  printed : List ℕ
  running : Bool
  deriving DecidableEq

def step (file pattern : List UInt8) (_ : Unit) (s : State) : Option State :=
  if s.running then
    (memmem file pattern s.slide).map fun curr_pos =>
      match curr_pos with
      | some pos => ⟨pos+1,s.printed ++ [pos],true⟩
      | none => { s with running := false }
  else none

def system (file pattern : List UInt8) : System State Unit := ⟨⟨0,[],true⟩,step file pattern⟩

def occurrences (file pattern : List UInt8) : List ℕ :=
  (List.range (file.length+1)).filter fun p => pattern <+: file.drop p

/-- The loop ends, what is left of the file has a length, and all occurrences are printed. -/
structure FindsAll (file pattern : List UInt8) : Prop where
  ends : ∃ bound, ∀ as s, (system file pattern).run as (system file pattern).start = some s →
    as.length ≤ bound
  remaining : ∀ s, (system file pattern).Reachable s → s.slide ≤ file.length
  printed : ∀ s, (system file pattern).Reachable s → (system file pattern).Stuck s →
    s.running = false ∧ s.printed = occurrences file pattern

/-- The occurrences before `slide` have been printed, and at the end there are no others. -/
structure Inv (file pattern : List UInt8) (s : State) : Prop where
  le : s.slide ≤ file.length
  printed : s.printed = (List.range s.slide).filter fun p => pattern <+: file.drop p
  rest : s.running = false → ∀ p, s.slide ≤ p → ¬ pattern <+: file.drop p

variable {file pattern : List UInt8} {s t : State}

theorem strstr_eq_none {needle l : List UInt8} (h : strstr needle l = none) (i : ℕ) :
    ¬ needle <+: l.drop i := by
  intro hi
  have hex : ∃ j, needle <+: l.drop j := ⟨i,hi⟩
  have hfirst := strstr_eq_some_iff.mpr ⟨Nat.find_spec hex,fun j => Nat.find_min hex⟩
  rw [h] at hfirst
  cases hfirst

theorem filter_range_add {P : ℕ → Prop} [DecidablePred P] {a i : ℕ} (hno : ∀ j < i, ¬ P (a+j)) :
    (List.range (a+i)).filter P = (List.range a).filter P := by
  have hnone : ((List.range i).map (a + ·)).filter P = [] := by
    refine List.filter_eq_nil_iff.mpr fun p hp => ?_
    obtain ⟨j,hj,rfl⟩ := List.mem_map.mp hp
    simpa using hno j (List.mem_range.mp hj)
  rw [List.range_add,List.filter_append,hnone,List.append_nil]

theorem step_cases (hp : pattern ≠ []) (hle : s.slide ≤ file.length)
    (h : step file pattern () s = some t) : s.running ∧
      ((∃ i, t = ⟨s.slide+i+1,s.printed ++ [s.slide+i],true⟩ ∧ s.slide+i < file.length ∧
          pattern <+: file.drop (s.slide+i) ∧ ∀ j < i, ¬ pattern <+: file.drop (s.slide+j)) ∨
        t = { s with running := false } ∧ ∀ j, ¬ pattern <+: file.drop (s.slide+j)) := by
  obtain ⟨hrun,h⟩ := Option.ite_none_right_eq_some.mp h
  obtain ⟨pos,hmem,rfl⟩ := Option.map_eq_some_iff.mp h
  rw [memmem,if_neg hp,if_pos hle,Option.some.injEq] at hmem
  refine ⟨hrun,?_⟩
  cases hs : strstr pattern (file.drop s.slide) with
  | none =>
    obtain rfl : none = pos := by simpa [hs] using hmem
    refine .inr ⟨rfl,fun j => ?_⟩
    rw [← List.drop_drop]
    exact strstr_eq_none hs j
  | some i =>
    obtain rfl : some (s.slide+i) = pos := by simpa [hs] using hmem
    obtain ⟨hat,hno⟩ := strstr_eq_some_iff.mp hs
    simp only [List.drop_drop] at hat hno
    refine .inl ⟨i,rfl,?_,hat,hno⟩
    by_contra hge
    rw [List.drop_eq_nil_of_le (by omega)] at hat
    exact hp (List.prefix_nil.mp hat)

theorem inv_invariant (hp : pattern ≠ []) : (system file pattern).Invariant (Inv file pattern) where
  start := ⟨Nat.zero_le _,rfl,fun h => by cases h⟩
  step := by
    intro _ s t hi h
    obtain ⟨-,⟨i,rfl,hlt,hat,hno⟩ | ⟨rfl,hno⟩⟩ := step_cases hp hi.le h
    · refine ⟨hlt,?_,fun h => by cases h⟩
      rw [List.range_succ,List.filter_append,filter_range_add hno,← hi.printed]
      simp [hat]
    · refine ⟨hi.le,hi.printed,fun _ p hle => ?_⟩
      have hnot := hno (p-s.slide)
      rwa [Nat.add_sub_of_le hle] at hnot

def remaining (file : List UInt8) (s : State) : ℕ := file.length-s.slide + if s.running then 1 else 0

theorem remaining_lt (hp : pattern ≠ []) (hi : Inv file pattern s)
    (h : step file pattern () s = some t) : remaining file t < remaining file s := by
  obtain ⟨hrun,⟨i,rfl,hlt,-,-⟩ | ⟨rfl,-⟩⟩ := step_cases hp hi.le h
  · simp only [remaining,hrun,if_true]
    omega
  · simp [remaining,hrun]

theorem Inv.printed_eq (hi : Inv file pattern s) (hend : s.running = false) :
    s.printed = occurrences file pattern := by
  obtain ⟨i,hlen⟩ : ∃ i, file.length+1 = s.slide+i := ⟨file.length+1-s.slide,by
    have hle := hi.le
    omega⟩
  rw [occurrences,hlen,filter_range_add fun j _ => hi.rest hend _ (Nat.le_add_right _ j),hi.printed]

theorem findsAll (hp : pattern ≠ []) : FindsAll file pattern where
  ends := (inv_invariant hp).bounded (remaining file) fun hi h => remaining_lt hp hi h
  remaining s hs := ((inv_invariant hp).reachable hs).le
  printed s hs hstuck := by
    have hi := (inv_invariant hp).reachable hs
    have hend : s.running = false := by
      by_contra hrun
      have hno := hstuck ()
      simp [system,step,memmem,hp,hi.le,hrun] at hno
    exact ⟨hend,hi.printed_eq hend⟩

/-- An empty pattern is found at the start of each range. -/
theorem run_empty (file : List UInt8) (n : ℕ) :
    (system file []).run (List.replicate n ()) (system file []).start =
      some ⟨n,List.range n,true⟩ := by
  induction n with
  | zero => rfl
  | succ n ih =>
    rw [List.replicate_succ']
    refine System.run_concat_eq_some.mpr ⟨_,ih,?_⟩
    simp [system,step,memmem,List.range_succ]

theorem not_findsAll_empty (file : List UInt8) : ¬ FindsAll file [] := by
  intro h
  obtain ⟨bound,hbound⟩ := h.ends
  have hle := hbound _ _ (run_empty file (bound+1))
  rw [List.length_replicate] at hle
  omega

theorem findsAll_iff (file pattern : List UInt8) : FindsAll file pattern ↔ pattern ≠ [] := by
  constructor
  · rintro h rfl
    exact not_findsAll_empty file h
  · exact findsAll

/-- In a file of one byte, the range from 2 on would end before it starts. -/
theorem underflows : ¬ FindsAll [97] [] ∧ ∃ s, (system [97] []).Reachable s ∧
    s = ⟨2,[0,1],true⟩ ∧ ([97] : List UInt8).length < s.slide :=
  ⟨not_findsAll_empty [97],_,⟨_,run_empty [97] 2⟩,rfl,by decide⟩

/-- Overlapping occurrences are printed. -/
example : occurrences [97,98,97,98,97] [97,98,97] = [0,2] := by decide

end PatternSearch
end SomeCode
