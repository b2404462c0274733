import SomeCode.LockProgram

/-! The ring of threads of `inf19-3.c`, each adding to three neighbouring cells.
Values are hundredths, and every `+=` is a read followed by a separate write. -/
namespace SomeCode
namespace LockAndWrite

open Transition LockProgram

structure ThreadTaskArgs (n : ℕ) where
  iterations : ℕ
  index : ℕ
  count : ℕ
  middleValue : Fin n
  leftValue : Fin n
  rightValue : Fin n
  middleMutex : Fin n
  leftMutex : Fin n
  rightMutex : Fin n

variable {n : ℕ}

abbrev Code (n : ℕ) := List (Instr (Fin n) (Fin n) ℕ)

/-- `lock (mutex); *value += d;` before the rest of a branch. -/
def lockAdd (mutex value : Fin n) (d : ℕ) (rest : Code n) : Code n :=
  .lock mutex :: .load value :: .store value d :: rest

/-- `*value += d;` before the rest of a branch. -/
def add (value : Fin n) (d : ℕ) (rest : Code n) : Code n := .load value :: .store value d :: rest

/-- The body of the loop; the branch on `count` and `index` never changes. -/
def lockAndWrite (arg : ThreadTaskArgs n) : Code n :=
  if arg.count = 1 then
    lockAdd arg.rightMutex arg.rightValue 101 <|
    add arg.leftValue 99 <|
    add arg.middleValue 100
    [.unlock arg.rightMutex]
  else if arg.count = 2 then
    (if arg.index = 0 then
      lockAdd arg.middleMutex arg.middleValue 100 <|
      lockAdd arg.leftMutex arg.leftValue 99 <|
      add arg.rightValue 101
      [.unlock arg.leftMutex,.unlock arg.middleMutex] else []) ++
    (if arg.index = 1 then
      lockAdd arg.leftMutex arg.middleValue 100 <|
      lockAdd arg.middleMutex arg.leftValue 99 <|
      add arg.rightValue 101
      [.unlock arg.middleMutex,.unlock arg.leftMutex] else [])
  else
    (if arg.index % 3 = 2 then
      lockAdd arg.rightMutex arg.rightValue 101 <|
      lockAdd arg.middleMutex arg.middleValue 100 <|
      lockAdd arg.leftMutex arg.leftValue 99
      [.unlock arg.leftMutex,.unlock arg.middleMutex,.unlock arg.rightMutex] else []) ++
    (if arg.index % 3 = 0 then
      lockAdd arg.middleMutex arg.middleValue 100 <|
      lockAdd arg.leftMutex arg.leftValue 99 <|
      lockAdd arg.rightMutex arg.rightValue 101
      [.unlock arg.rightMutex,.unlock arg.leftMutex,.unlock arg.middleMutex] else []) ++
    (if arg.index % 3 = 1 then
      lockAdd arg.leftMutex arg.leftValue 99 <|
      lockAdd arg.rightMutex arg.rightValue 101 <|
      lockAdd arg.middleMutex arg.middleValue 100
      [.unlock arg.middleMutex,.unlock arg.rightMutex,.unlock arg.leftMutex] else [])

/-- `(i - 1 + threads_count) % threads_count`; the wrap of `i - 1` in `size_t` is
undone by the addition. -/
def left (i : Fin n) : Fin n := ⟨(i+n-1) % n,Nat.mod_lt _ i.pos⟩

/-- `(i + 1) % threads_count` -/
def right (i : Fin n) : Fin n := ⟨(i+1) % n,Nat.mod_lt _ i.pos⟩

def mainArgs (iterationCount : ℕ) (i : Fin n) : ThreadTaskArgs n where
  iterations := iterationCount
  index := i
  count := n
  middleValue := i
  leftValue := left i
  rightValue := right i
  middleMutex := i
  leftMutex := left i
  rightMutex := right i

def program (n iterationCount : ℕ) : Program (Fin n) (Fin n) (Fin n) ℕ :=
  ⟨iterationCount,fun i => lockAndWrite (mainArgs iterationCount i)⟩

def ring (n iterationCount : ℕ) : System (State (Fin n) (Fin n) (Fin n) ℕ) (Fin n) :=
  system (program n iterationCount)

theorem left_val (i : Fin n) : (left i).val = if i.val = 0 then n-1 else i.val-1 := by
  have hi := i.isLt
  simp only [left]
  split_ifs with h
  · rw [h,Nat.zero_add,Nat.mod_eq_of_lt (by omega)]
  · rw [show i.val+n-1 = i.val-1+n by omega,Nat.add_mod_right,Nat.mod_eq_of_lt (by omega)]

theorem right_val (i : Fin n) : (right i).val = if i.val+1 = n then 0 else i.val+1 := by
  have hi := i.isLt
  simp only [right]
  split_ifs with h
  · rw [h,Nat.mod_self]
  · exact Nat.mod_eq_of_lt (by omega)

theorem right_eq_iff (i c : Fin n) : right i = c ↔ i = left c := by
  have hi := i.isLt
  have hc := c.isLt
  rw [Fin.ext_iff,Fin.ext_iff,right_val,left_val]
  split_ifs <;> omega

theorem left_eq_iff (i c : Fin n) : left i = c ↔ i = right c := by
  rw [eq_comm,← right_eq_iff,eq_comm]

section Neighbours

variable (h3 : 3 ≤ n) (i : Fin n)

include h3

theorem left_ne : left i ≠ i := by
  have hi := i.isLt
  rw [ne_eq,Fin.ext_iff,left_val]
  split_ifs <;> omega

theorem right_ne : right i ≠ i := by
  have hi := i.isLt
  rw [ne_eq,Fin.ext_iff,right_val]
  split_ifs <;> omega

theorem left_ne_right : left i ≠ right i := by
  have hi := i.isLt
  rw [ne_eq,Fin.ext_iff,left_val,right_val]
  split_ifs <;> omega

end Neighbours

section Branches

variable (m : ℕ) (i : Fin n)

theorem body_one (h : n = 1) : (program n m).body i =
    lockAdd (right i) (right i) 101 (add (left i) 99 (add i 100 [.unlock (right i)])) := by
  simp [program,lockAndWrite,mainArgs,h]

theorem body_two_first (h : n = 2) (hi : i.val = 0) : (program n m).body i =
    lockAdd i i 100 (lockAdd (left i) (left i) 99
      (add (right i) 101 [.unlock (left i),.unlock i])) := by
  simp [program,lockAndWrite,mainArgs,h,hi]

theorem body_two_second (h : n = 2) (hi : i.val = 1) : (program n m).body i =
    lockAdd (left i) i 100 (lockAdd i (left i) 99
      (add (right i) 101 [.unlock i,.unlock (left i)])) := by
  simp [program,lockAndWrite,mainArgs,h,hi]

theorem body_right_first (h : 3 ≤ n) (hi : i.val % 3 = 2) : (program n m).body i =
    lockAdd (right i) (right i) 101 (lockAdd i i 100 (lockAdd (left i) (left i) 99
      [.unlock (left i),.unlock i,.unlock (right i)])) := by
  have h1 : n ≠ 1 := by omega
  have h2 : n ≠ 2 := by omega
  simp [program,lockAndWrite,mainArgs,h1,h2,hi]

theorem body_middle_first (h : 3 ≤ n) (hi : i.val % 3 = 0) : (program n m).body i =
    lockAdd i i 100 (lockAdd (left i) (left i) 99 (lockAdd (right i) (right i) 101
      [.unlock (right i),.unlock (left i),.unlock i])) := by
  have h1 : n ≠ 1 := by omega
  have h2 : n ≠ 2 := by omega
  simp [program,lockAndWrite,mainArgs,h1,h2,hi]

theorem body_left_first (h : 3 ≤ n) (hi : i.val % 3 = 1) : (program n m).body i =
    lockAdd (left i) (left i) 99 (lockAdd (right i) (right i) 101 (lockAdd i i 100
      [.unlock i,.unlock (right i),.unlock (left i)])) := by
  have h1 : n ≠ 1 := by omega
  have h2 : n ≠ 2 := by omega
  simp [program,lockAndWrite,mainArgs,h1,h2,hi]

end Branches

/-- Whatever the branch, one iteration adds 1 to the middle cell, 1.01 to the right
one and 0.99 to the left one. -/
theorem increments_body (m : ℕ) (c i : Fin n) :
    increments c ((program n m).body i) =
      (if i = c then 100 else 0) + (if right i = c then 101 else 0) + (if left i = c then 99 else 0) := by
  have hi := i.isLt
  by_cases h1 : n = 1
  · simp only [body_one m i h1,lockAdd,add,increments]
    ring
  by_cases h2 : n = 2
  · obtain hi2 | hi2 : i.val = 0 ∨ i.val = 1 := by omega
    · simp only [body_two_first m i h2 hi2,lockAdd,add,increments]
      ring
    · simp only [body_two_second m i h2 hi2,lockAdd,add,increments]
      ring
  have h3 : 3 ≤ n := by omega
  obtain hm | hm | hm : i.val % 3 = 0 ∨ i.val % 3 = 1 ∨ i.val % 3 = 2 := by omega
  · simp only [body_middle_first m i h3 hm,lockAdd,increments]
    ring
  · simp only [body_left_first m i h3 hm,lockAdd,increments]
    ring
  · simp only [body_right_first m i h3 hm,lockAdd,increments]
    ring

theorem sum_increments (m : ℕ) (c : Fin n) :
    ∑ i, increments c ((program n m).body i) = 300 := by
  simp only [increments_body,right_eq_iff,left_eq_iff,Finset.sum_add_distrib]
  simp

/-- The mutex that every access to a cell is made under: its own one, but with one
or two threads always the first. -/
def guard (c : Fin n) : Fin n := if n ≤ 2 then ⟨0,c.pos⟩ else c

def acquisitions (i : Fin n) : List (Fin n) :=
  if n = 1 then [right i]
  else if n = 2 then (if i.val = 0 then [i,left i] else [left i,i])
  else if i.val % 3 = 2 then [right i,i,left i]
  else if i.val % 3 = 0 then [i,left i,right i]
  else [left i,right i,i]

def Taken (allowed : Finset (Fin n) → Fin n → Prop) : Finset (Fin n) → List (Fin n) → Prop
  | _, [] => True
  | held, m :: rest => allowed held m ∧ Taken allowed (insert m held) rest

theorem taken_of_forall {allowed : Finset (Fin n) → Fin n → Prop} (h : ∀ held m, allowed held m)
    (held : Finset (Fin n)) (ms : List (Fin n)) : Taken allowed held ms := by
  induction ms generalizing held with
  | nil => trivial
  | cons m ms ih => exact ⟨h held m,ih _⟩

/-- The three branches for `n ≥ 3` differ in the order of the three mutexes only. -/
theorem disciplined_nest {allowed : Finset (Fin n) → Fin n → Prop} (h3 : 3 ≤ n) {a b c : Fin n}
    {x y z : ℕ} (hab : b ≠ a) (hac : c ≠ a) (hbc : c ≠ b) (h : Taken allowed ∅ [a,b,c]) :
    Disciplined allowed guard ∅ none
      (lockAdd a a x <| lockAdd b b y <| lockAdd c c z [.unlock c,.unlock b,.unlock a]) := by
  obtain ⟨ha,hb,hc,-⟩ := h
  have hn : ¬ n ≤ 2 := by omega
  simp only [insert_empty_eq] at hb hc
  simp [Disciplined,lockAdd,guard,hn,hab,hac,hbc,ha,hb,hc]

theorem body_disciplined {allowed : Finset (Fin n) → Fin n → Prop} (m : ℕ) (i : Fin n)
    (h : Taken allowed ∅ (acquisitions i)) :
    Disciplined allowed guard ∅ none ((program n m).body i) := by
  have hi := i.isLt
  by_cases h1 : n = 1
  · subst h1
    have hr : right i = 0 := Subsingleton.elim _ _
    have hl : left i = 0 := Subsingleton.elim _ _
    have hi0 : i = 0 := Subsingleton.elim _ _
    subst hi0
    simp [acquisitions,Taken,hr] at h
    rw [body_one m 0 rfl]
    simp [lockAdd,add,Disciplined,guard,hr,hl,h]
  by_cases h2 : n = 2
  · subst h2
    obtain rfl | rfl : i = 0 ∨ i = 1 := by omega
    · rw [body_two_first m 0 rfl rfl]
      simpa [acquisitions,Taken,lockAdd,add,Disciplined,guard,left,right] using h
    · rw [body_two_second m 1 rfl rfl]
      simpa [acquisitions,Taken,lockAdd,add,Disciplined,guard,left,right] using h
  have h3 : 3 ≤ n := by omega
  have hl := left_ne h3 i
  have hr := right_ne h3 i
  have hlr := left_ne_right h3 i
  obtain hm | hm | hm : i.val % 3 = 0 ∨ i.val % 3 = 1 ∨ i.val % 3 = 2 := by omega
  all_goals simp [acquisitions,h1,h2,hm] at h
  · rw [body_middle_first m i h3 hm]
    exact disciplined_nest h3 hl hr hlr.symm h
  · rw [body_left_first m i h3 hm]
    exact disciplined_nest h3 hlr.symm hl.symm hr.symm h
  · rw [body_right_first m i h3 hm]
    exact disciplined_nest h3 hr.symm hlr hl h

/-- An order of the mutexes that agrees with every thread unless `n % 3 = 1`: the
classes modulo 3 come as 0, 2, 1, and the seam puts `n - 2` before 0 and `n - 1` before 1. -/
def rank (j : Fin n) : ℕ :=
  if j.val % 3 = 0 then (if j.val = 0 then 1 else 0)
  else if j.val % 3 = 2 then 2
  else if j.val+1 = n then 3 else 4

theorem rank_cases (j : Fin n) :
    (j.val = 0 ∧ rank j = 1) ∨ (j.val % 3 = 0 ∧ j.val ≠ 0 ∧ rank j = 0) ∨
    (j.val % 3 = 2 ∧ rank j = 2) ∨ (j.val % 3 = 1 ∧ j.val+1 = n ∧ rank j = 3) ∨
    (j.val % 3 = 1 ∧ j.val+1 ≠ n ∧ rank j = 4) := by
  by_cases h0 : j.val % 3 = 0
  · by_cases hz : j.val = 0
    · exact .inl ⟨hz,by rw [rank,if_pos h0,if_pos hz]⟩
    · exact .inr (.inl ⟨h0,hz,by rw [rank,if_pos h0,if_neg hz]⟩)
  by_cases h2 : j.val % 3 = 2
  · exact .inr (.inr (.inl ⟨h2,by rw [rank,if_neg h0,if_pos h2]⟩))
  have h1 : j.val % 3 = 1 := by omega
  by_cases hn : j.val+1 = n
  · exact .inr (.inr (.inr (.inl ⟨h1,hn,by rw [rank,if_neg h0,if_neg h2,if_pos hn]⟩)))
  · exact .inr (.inr (.inr (.inr ⟨h1,hn,by rw [rank,if_neg h0,if_neg h2,if_neg hn]⟩)))

theorem taken_of_rank_lt {a b c : Fin n} (hab : rank a < rank b) (hbc : rank b < rank c) :
    Taken (RankBelow rank) ∅ [a,b,c] := by
  simp [Taken,RankBelow,hab,hbc,hab.trans hbc]

theorem acquisitions_ranked (hn : n % 3 ≠ 1 ∨ n = 1) (i : Fin n) :
    Taken (RankBelow rank) ∅ (acquisitions i) := by
  have hi := i.isLt
  have hl : i.val = 0 ∧ (left i).val = n-1 ∨ i.val ≠ 0 ∧ (left i).val = i.val-1 := by
    rw [left_val]
    split_ifs <;> omega
  have hr : i.val+1 = n ∧ (right i).val = 0 ∨ i.val+1 ≠ n ∧ (right i).val = i.val+1 := by
    rw [right_val]
    split_ifs <;> omega
  by_cases h1 : n = 1
  · simp [acquisitions,Taken,RankBelow,h1]
  by_cases h2 : n = 2
  · subst h2
    obtain rfl | rfl : i = 0 ∨ i = 1 := by omega
    · simp [acquisitions,Taken,RankBelow,rank,left]
    · simp [acquisitions,Taken,RankBelow,rank,left]
  have hri := rank_cases i
  have hrl := rank_cases (left i)
  have hrr := rank_cases (right i)
  obtain hm | hm | hm : i.val % 3 = 0 ∨ i.val % 3 = 1 ∨ i.val % 3 = 2 := by omega
  · rw [show acquisitions i = [i,left i,right i] by simp [acquisitions,h1,h2,hm]]
    exact taken_of_rank_lt (by omega) (by omega)
  · rw [show acquisitions i = [left i,right i,i] by simp [acquisitions,h1,h2,hm]]
    exact taken_of_rank_lt (by omega) (by omega)
  · rw [show acquisitions i = [right i,i,left i] by simp [acquisitions,h1,h2,hm]]
    exact taken_of_rank_lt (by omega) (by omega)

theorem not_deadlock (hn : n % 3 ≠ 1 ∨ n = 1) (m : ℕ) {s : State (Fin n) (Fin n) (Fin n) ℕ}
    (hr : (ring n m).Reachable s) : ¬ Deadlock (program n m) s := by
  have hbody := fun i => body_disciplined m i (acquisitions_ranked hn i)
  exact ((inv_invariant hbody).reachable hr).not_deadlock

theorem body_disciplined_all (m : ℕ) (i : Fin n) :
    Disciplined (fun _ _ => True) guard ∅ none ((program n m).body i) :=
  body_disciplined m i (taken_of_forall (fun _ _ => trivial) _ _)

/-- For `n % 3 = 1` the first and the last thread are both of the class that takes
its middle mutex first, and each needs the other's. -/
theorem exists_embrace (m : ℕ) (h4 : 4 ≤ n) (hn : n % 3 = 1) (hm : m ≠ 0) :
    ∃ s t u a b, (ring n m).Reachable s ∧ Embrace s t u a b := by
  let first : Fin n := ⟨0,by omega⟩
  let last : Fin n := ⟨n-1,by omega⟩
  have hne : last ≠ first := by simp [first,last]; omega
  have hlf : left first = last := Fin.ext (by rw [left_val]; simp [first,last])
  have hrl : right last = first := Fin.ext (by rw [right_val]; simp [first,last]; omega)
  have hll : (left last).val = n-2 := by
    rw [left_val,if_neg (by simp only [last]; omega)]
    simp only [last]
    omega
  have hll_first : left last ≠ first := by rw [ne_eq,Fin.ext_iff,hll]; simp [first]; omega
  have hll_last : left last ≠ last := left_ne (by omega) last
  have h3 : 3 ≤ n := by omega
  have hlast3 : last.val % 3 = 0 := by simp only [last]; omega
  have hbf : (program n m).body first = lockAdd first first 100 [] ++
      .lock last :: add last 99 (lockAdd (right first) (right first) 101
        [.unlock (right first),.unlock last,.unlock first]) := by
    rw [body_middle_first m first h3 rfl,hlf]
    rfl
  have hbl : (program n m).body last = lockAdd last last 100 (lockAdd (left last) (left last) 99 []) ++
      .lock first :: add first 101 [.unlock first,.unlock (left last),.unlock last] := by
    rw [body_middle_first m last h3 hlast3,hrl]
    rfl
  obtain ⟨s₁,hrun₁,htodo₁,hthread₁,howner₁⟩ := exists_run_body (program n m) first init rfl
    (Nat.pos_of_ne_zero hm) hbf (by simp [lockAdd]) (by simp [lockAdd,locks]) (by simp [init])
  have hstart : (s₁.thread last) = ⟨0,[],0⟩ := hthread₁ last hne
  obtain ⟨s₂,hrun₂,htodo₂,hthread₂,howner₂⟩ := exists_run_body (program n m) last s₁
    (by rw [hstart]) (by rw [hstart]; exact Nat.pos_of_ne_zero hm) hbl (by simp [lockAdd])
    (by simpa [lockAdd,locks] using hll_last.symm)
    (by simp [lockAdd,locks,howner₁,hne,hll_first,init])
  refine ⟨s₂,first,last,first,last,⟨_,System.run_trans hrun₁ hrun₂⟩,?_,?_,?_,?_⟩
  · rw [howner₂,if_neg (by simp [lockAdd,locks,hne.symm,hll_first.symm]),howner₁,if_pos (by simp [lockAdd,locks])]
  · rw [howner₂,if_pos (by simp [lockAdd,locks])]
  · rw [wanted,hthread₂ first hne.symm,htodo₁]
  · rw [wanted,htodo₂]

/-- The ring can deadlock exactly when `n % 3 = 1` with at least four threads and the
loop is entered at all: then the acquisition orders disagree at the seam. -/
theorem deadlock_free_iff (n m : ℕ) :
    (∀ s, (ring n m).Reachable s → ¬ Deadlock (program n m) s) ↔ n % 3 ≠ 1 ∨ n = 1 ∨ m = 0 := by
  constructor
  · intro h
    by_contra hc
    push Not at hc
    obtain ⟨hn,h1,hm⟩ := hc
    obtain ⟨s,t,u,a,b,hr,he⟩ := exists_embrace m (by omega) hn hm
    obtain ⟨s',hr',hd⟩ := he.exists_deadlock (body_disciplined_all m) hr
    exact h s' hr' hd
  · rintro (hn | hn | hm) s hr
    · exact not_deadlock (.inl hn) m hr
    · exact not_deadlock (.inr hn) m hr
    · exact not_deadlock_of_iterations hm hr

/-- Thread 0 takes mutex 0, thread 3 takes 3 and 2, then all four wait. -/
def deadlockSchedule : List (Fin 4) := [0,0,0,0,3,3,3,3,3,3,3,1,2]

theorem four_threads_deadlock :
    ¬ ∀ n ≥ 1, ∀ m, ∀ s, (ring n m).Reachable s → ¬ Deadlock (program n m) s := by
  intro h
  have hdead : ∃ s, (ring 4 1).run deadlockSchedule init = some s ∧
      (¬ Finished (program 4 1) s 0) ∧ ∀ t, step (program 4 1) t s = none :=
    ⟨_,rfl,by decide,by intro t; fin_cases t <;> rfl⟩
  obtain ⟨s,hs,hf,hstuck⟩ := hdead
  exact h 4 (by decide) 1 s ⟨_,hs⟩ ⟨⟨0,hf⟩,hstuck⟩

/-- Whatever the interleaving, when all threads have finished every cell holds exactly
3 (300 hundredths) for each iteration, and no two threads are ever between the read and
the write of one cell. -/
theorem buffer_exact (n m : ℕ) :
    (∀ s, (ring n m).Reachable s → (∀ t, Finished (program n m) s t) → ∀ c, s.cell c = 300*m) ∧
    ∀ s, (ring n m).Reachable s → ∀ t u c, Between s t c → Between s u c → t = u := by
  constructor
  · intro s hr hf c
    rw [cell_of_finished (body_disciplined_all m) hr hf c,sum_increments,smul_eq_mul,mul_comm]
    rfl
  · intro s hr t u c ht hu
    exact ((inv_invariant (body_disciplined_all m)).reachable hr).between_unique ht hu

/-- Both threads have entered the loop before one of them takes a mutex. -/
def finishedSchedule : List (Fin 2) := [0,1] ++ List.replicate 10 0 ++ List.replicate 10 1 ++
  [1,0] ++ List.replicate 10 1 ++ List.replicate 10 0

theorem buffer_exact_two : ∃ s, (ring 2 2).run finishedSchedule init = some s ∧
    (∀ t, Finished (program 2 2) s t) ∧ ∀ c, s.cell c = 600 := by
  have hfinished : ∃ s, (ring 2 2).run finishedSchedule init = some s ∧
      ∀ t, Finished (program 2 2) s t := ⟨_,rfl,by decide⟩
  obtain ⟨s,hs,hf⟩ := hfinished
  exact ⟨s,hs,hf,(buffer_exact 2 2).1 s ⟨_,hs⟩ hf⟩

end LockAndWrite
end SomeCode
