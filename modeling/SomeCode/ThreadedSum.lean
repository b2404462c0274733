import SomeCode.Contributors
import SomeCode.MachineInt
import SomeCode.Transition
import Mathlib

/-! `inf18-1.c`: threads take values from one stream and add them up, and `main` adds up their
results. Each call of `scanf` is one step. -/
namespace SomeCode
namespace ThreadedSum

open Contributors MachineInt Transition

/-- Where a thread is in `partional_sum`: `add` is before `sum += current`, and `test` before the
condition of the loop. -/
inductive Pc
  | unborn | add | scan | test | store | done
  deriving DecidableEq

/-- The variables of `partional_sum`. It is noted which values, by their place in the stream, have
been added, and which one has been read but not added yet. -/
structure Thread where
  pc : Pc
  current : ℤ
  sum : ℤ
  inptChk : ℤ
  c : ℤ
  pending : Option ℕ
  added : List ℕ

def Thread.begin (th : Thread) : Thread := { th with pc := .add }

/-- A step of `partional_sum` when `next` values of the stream have been taken -/
def partionalSum (input : List ℤ) (next : ℕ) (th : Thread) : Option (Thread × ℕ) :=
  match th.pc with
  | .unborn | .done => none
  | .add => some ({ th with
      pc := .scan
      sum := wrap 32 (th.sum+th.current)
      pending := none
      added := th.added ++ th.pending.toList },next)
  | .scan =>
    match input[next]? with
    | some v => some ({ th with pc := .test, current := v, inptChk := 1, pending := some next },next+1)
    | none => some ({ th with pc := .test, inptChk := -1 },next)
  | .test => some ({ th with pc := if th.inptChk ≠ -1 then .add else .store },next)
  | .store => some ({ th with pc := .done, c := th.sum },next)

/-- Where `main` is: before the condition of one of its loops, or behind them -/
inductive MainPc
  | create (i : ℕ)
  | join (i : ℕ)
  | print
  | returned
  deriving DecidableEq

structure State (n : ℕ) where
  main : MainPc
  fullSum : ℤ
  threads : Fin n → Thread
  next : ℕ
  output : Option ℤ

variable {n : ℕ}

def State.setThread (s : State n) (t : Fin n) (th : Thread) : State n :=
  { s with threads := Function.update s.threads t th }

@[simp] theorem State.setThread_main (s : State n) (t : Fin n) (th : Thread) :
    (s.setThread t th).main = s.main := rfl

@[simp] theorem State.setThread_next (s : State n) (t : Fin n) (th : Thread) :
    (s.setThread t th).next = s.next := rfl

/-- A step of `main`; `pthread_join` waits for the end of the thread. -/
def mainStep (s : State n) : Option (State n) :=
  match s.main with
  | .create i =>
    if h : i < n then
      some { s.setThread ⟨i,h⟩ (s.threads ⟨i,h⟩).begin with main := .create (i+1) }
    else some { s with main := .join 0, fullSum := 0 }
  | .join i =>
    if h : i < n then
      if (s.threads ⟨i,h⟩).pc = .done then
        some { s with main := .join (i+1), fullSum := wrap 32 (s.fullSum+(s.threads ⟨i,h⟩).c) }
      else none
    else some { s with main := .print }
  | .print => some { s with main := .returned, output := some s.fullSum }
  | .returned => none

inductive Action (n : ℕ)
  | main
  | thread (t : Fin n)

def step (input : List ℤ) : Action n → State n → Option (State n)
  | .main, s => mainStep s
  | .thread t, s => (partionalSum input s.next (s.threads t)).map fun r =>
      { s.setThread t r.1 with next := r.2 }

def init (n : ℕ) : State n := ⟨.create 0,0,fun _ => ⟨.unborn,0,0,0,0,none,[]⟩,0,none⟩

def summer (n : ℕ) (input : List ℤ) : System (State n) (Action n) := ⟨init n,step input⟩

/-! One thread -/

section Thread

variable (input : List ℤ)

def value (k : ℕ) : ℤ := input.getD k 0

def Thread.held (th : Thread) : List ℕ := th.added ++ th.pending.toList

/-- What `current` is while it is still to be added -/
def Thread.Loaded (th : Thread) : Prop := th.current = (th.pending.map (value input)).getD 0

def Thread.At (next : ℕ) (th : Thread) : Prop :=
  match th.pc with
  | .unborn | .add => th.Loaded input
  | .scan => th.pending = none
  | .test => th.inptChk = 1 ∧ th.Loaded input ∨
      th.inptChk = -1 ∧ th.pending = none ∧ input.length ≤ next
  | .store => th.pending = none ∧ input.length ≤ next
  | .done => th.pending = none ∧ input.length ≤ next ∧ th.c = th.sum

structure ThreadInv (next : ℕ) (th : Thread) : Prop where
  sum : th.sum = wrap 32 (th.added.map (value input)).sum
  place : th.At input next

def Thread.rank (th : Thread) : ℕ :=
  match th.pc with
  | .unborn => 5
  | .add => 4
  | .scan => 3
  | .test => if th.inptChk = -1 then 2 else 5
  | .store => 1
  | .done => 0

end Thread

section Steps

variable {input : List ℤ} {next next' : ℕ} {th th' : Thread}

theorem partionalSum_cases (h : partionalSum input next th = some (th',next')) :
    (th.pc = .add ∧ next' = next ∧ th' = { th with
      pc := .scan, sum := wrap 32 (th.sum+th.current), pending := none
      added := th.added ++ th.pending.toList }) ∨
    (th.pc = .scan ∧ next < input.length ∧ next' = next+1 ∧ th' = { th with
      pc := .test, current := value input next, inptChk := 1, pending := some next }) ∨
    (th.pc = .scan ∧ input.length ≤ next ∧ next' = next ∧
      th' = { th with pc := .test, inptChk := -1 }) ∨
    (th.pc = .test ∧ th.inptChk ≠ -1 ∧ next' = next ∧ th' = { th with pc := .add }) ∨
    (th.pc = .test ∧ th.inptChk = -1 ∧ next' = next ∧ th' = { th with pc := .store }) ∨
    (th.pc = .store ∧ next' = next ∧ th' = { th with pc := .done, c := th.sum }) := by
  unfold partionalSum at h
  split at h
  · cases h
  · cases h
  · rename_i hpc
    cases h
    exact .inl ⟨hpc,rfl,rfl⟩
  · rename_i hpc
    split at h
    · rename_i v hv
      cases h
      obtain ⟨hlt,-⟩ := List.getElem?_eq_some_iff.mp hv
      have hvalue : value input next = v := by rw [value,List.getD_eq_getElem?_getD,hv]; rfl
      exact .inr (.inl ⟨hpc,hlt,rfl,by rw [hvalue]⟩)
    · rename_i hnone
      cases h
      exact .inr (.inr (.inl ⟨hpc,List.getElem?_eq_none_iff.mp hnone,rfl,rfl⟩))
  · rename_i hpc
    cases h
    by_cases hchk : th.inptChk = -1
    · exact .inr (.inr (.inr (.inr (.inl ⟨hpc,hchk,rfl,by simp [hchk]⟩))))
    · exact .inr (.inr (.inr (.inl ⟨hpc,hchk,rfl,by simp [hchk]⟩)))
  · rename_i hpc
    cases h
    exact .inr (.inr (.inr (.inr (.inr ⟨hpc,rfl,rfl⟩))))

theorem exists_partionalSum (input : List ℤ) (next : ℕ) (hborn : th.pc ≠ .unborn)
    (hdone : th.pc ≠ .done) : ∃ r, partionalSum input next th = some r := by
  unfold partionalSum
  cases hpc : th.pc with
  | unborn => exact absurd hpc hborn
  | done => exact absurd hpc hdone
  | scan => cases input[next]? <;> exact ⟨_,rfl⟩
  | _ => exact ⟨_,rfl⟩

theorem ThreadInv.later (h : ThreadInv input next th) (hle : next ≤ next') :
    ThreadInv input next' th := by
  refine ⟨h.sum,?_⟩
  have hplace := h.place
  unfold Thread.At at hplace ⊢
  cases hpc : th.pc with
  | test =>
    simp only [hpc] at hplace ⊢
    exact hplace.imp_right fun ⟨hchk,hnone,hend⟩ => ⟨hchk,hnone,hend.trans hle⟩
  | store =>
    simp only [hpc] at hplace ⊢
    exact ⟨hplace.1,hplace.2.trans hle⟩
  | done =>
    simp only [hpc] at hplace ⊢
    exact ⟨hplace.1,hplace.2.1.trans hle,hplace.2.2⟩
  | _ => simpa only [hpc] using hplace

theorem sum_append_pending (hl : th.Loaded input) :
    ((th.added ++ th.pending.toList).map (value input)).sum =
      (th.added.map (value input)).sum + th.current := by
  rw [List.map_append,List.sum_append,hl]
  cases th.pending <;> simp

theorem ThreadInv.step (h : ThreadInv input next th)
    (hs : partionalSum input next th = some (th',next')) : ThreadInv input next' th' := by
  have hplace := h.place
  obtain ⟨hpc,rfl,rfl⟩ | ⟨hpc,hlt,rfl,rfl⟩ | ⟨hpc,hend,rfl,rfl⟩ | ⟨hpc,hchk,rfl,rfl⟩ |
    ⟨hpc,hchk,rfl,rfl⟩ | ⟨hpc,rfl,rfl⟩ := partionalSum_cases hs <;>
    simp only [Thread.At,hpc] at hplace
  · refine ⟨?_,rfl⟩
    rw [sum_append_pending hplace]
    exact (congrArg (fun x => wrap 32 (x+th.current)) h.sum).trans (wrap_wrap_add 32 _ _)
  · exact ⟨h.sum,.inl ⟨rfl,rfl⟩⟩
  · exact ⟨h.sum,.inr ⟨rfl,hplace,hend⟩⟩
  · refine ⟨h.sum,?_⟩
    obtain ⟨-,hloaded⟩ | ⟨hchk',-⟩ := hplace
    · exact hloaded
    · exact absurd hchk' hchk
  · refine ⟨h.sum,?_⟩
    obtain ⟨hchk',-⟩ | ⟨-,hnone,hend⟩ := hplace
    · rw [hchk'] at hchk
      cases hchk
    · exact ⟨hnone,hend⟩
  · exact ⟨h.sum,hplace.1,hplace.2,rfl⟩

theorem held_step (h : ThreadInv input next th)
    (hs : partionalSum input next th = some (th',next')) :
    next ≤ next' ∧ ∀ k, (if k < next then 1 else 0) + th'.held.count k =
      (if k < next' then 1 else 0) + th.held.count k := by
  have hplace := h.place
  obtain ⟨hpc,rfl,rfl⟩ | ⟨hpc,hlt,rfl,rfl⟩ | ⟨hpc,hend,rfl,rfl⟩ | ⟨hpc,hchk,rfl,rfl⟩ |
    ⟨hpc,hchk,rfl,rfl⟩ | ⟨hpc,rfl,rfl⟩ := partionalSum_cases hs
  · exact ⟨Nat.le_refl _,fun k => by simp [Thread.held]⟩
  · simp only [Thread.At,hpc] at hplace
    refine ⟨Nat.le_succ _,fun k => ?_⟩
    have hone : ([next] : List ℕ).count k = if k = next then 1 else 0 := by
      rw [List.count_singleton]
      exact if_congr (by rw [beq_iff_eq,eq_comm]) rfl rfl
    have hbefore : th.held = th.added := by
      rw [Thread.held,hplace,Option.toList_none,List.append_nil]
    rw [hbefore]
    change _ + (th.added ++ [next]).count k = _
    rw [List.count_append,hone]
    split_ifs <;> omega
  all_goals exact ⟨Nat.le_refl _,fun k => rfl⟩

theorem rank_step (h : ThreadInv input next th)
    (hs : partionalSum input next th = some (th',next')) :
    th'.rank + 3*(input.length-next') < th.rank + 3*(input.length-next) := by
  have hplace := h.place
  obtain ⟨hpc,rfl,rfl⟩ | ⟨hpc,hlt,rfl,rfl⟩ | ⟨hpc,hend,rfl,rfl⟩ | ⟨hpc,hchk,rfl,rfl⟩ |
    ⟨hpc,hchk,rfl,rfl⟩ | ⟨hpc,rfl,rfl⟩ := partionalSum_cases hs
  · simp [Thread.rank,hpc]
  · simp [Thread.rank,hpc]
    omega
  · simp [Thread.rank,hpc]
  · simp [Thread.rank,hpc,hchk]
  · simp [Thread.rank,hpc,hchk]
  · simp [Thread.rank,hpc]

theorem pc_step (hs : partionalSum input next th = some (th',next')) :
    th.pc ≠ .unborn ∧ th.pc ≠ .done ∧ th'.pc ≠ .unborn := by
  obtain ⟨hpc,rfl,rfl⟩ | ⟨hpc,hlt,rfl,rfl⟩ | ⟨hpc,hend,rfl,rfl⟩ | ⟨hpc,hchk,rfl,rfl⟩ |
    ⟨hpc,hchk,rfl,rfl⟩ | ⟨hpc,rfl,rfl⟩ := partionalSum_cases hs <;> simp [hpc]

end Steps

/-! All threads -/

/-- Where `main` is, and what it has added up -/
def MainAt (s : State n) : Prop :=
  match s.main with
  | .create i => i ≤ n ∧ (∀ t : Fin n, (s.threads t).pc = .unborn ↔ i ≤ t)
  | .join i => i ≤ n ∧ (∀ t, (s.threads t).pc ≠ .unborn) ∧
      (∀ t : Fin n, t < i → (s.threads t).pc = .done) ∧
      s.fullSum = wrap 32 (∑ t : Fin n, if t < i then (s.threads t).c else 0)
  | .print | .returned => (∀ t, (s.threads t).pc = .done) ∧
      s.fullSum = wrap 32 (∑ t, (s.threads t).c)

structure Inv (input : List ℤ) (s : State n) : Prop where
  thread : ∀ t, ThreadInv input s.next (s.threads t)
  held : ∀ k, ∑ t, (s.threads t).held.count k = if k < s.next then 1 else 0
  next_le : s.next ≤ input.length
  main : MainAt s
  output : s.output = if s.main = .returned then some s.fullSum else none

def MainPc.rank (n : ℕ) : MainPc → ℕ
  | .create _ => n+3
  | .join i => n-i+2
  | .print => 1
  | .returned => 0

def State.rank (input : List ℤ) (s : State n) : ℕ :=
  3*(input.length-s.next) + s.main.rank n + ∑ t, (s.threads t).rank

theorem State.rank_setThread (s : State n) (t : Fin n) (th : Thread) :
    (s.threads t).rank + ∑ u, ((s.setThread t th).threads u).rank =
      th.rank + ∑ u, (s.threads u).rank :=
  sum_update Thread.rank s.threads t th

section Runs

variable {input : List ℤ} {s s' : State n}

theorem inv_init (n : ℕ) (input : List ℤ) : Inv input (init n) where
  thread _ := ⟨rfl,rfl⟩
  held k := by simp [init,Thread.held]
  next_le := Nat.zero_le _
  main := ⟨Nat.zero_le n,fun t => by simp [init]⟩
  output := rfl

theorem MainAt.setThread (h : MainAt s) {t : Fin n} {th : Thread}
    (hborn : (s.threads t).pc ≠ .unborn) (hdone : (s.threads t).pc ≠ .done)
    (hborn' : th.pc ≠ .unborn) : MainAt (s.setThread t th) := by
  have hself : (s.setThread t th).threads t = th := Function.update_self ..
  have hother : ∀ u, u ≠ t → (s.setThread t th).threads u = s.threads u :=
    fun u hu => Function.update_of_ne hu ..
  unfold MainAt at h ⊢
  change match s.main with | .create i => _ | .join i => _ | .print | .returned => _
  cases hmain : s.main with
  | create i =>
    simp only [hmain] at h ⊢
    refine ⟨h.1,fun u => ?_⟩
    by_cases hu : u = t
    · subst hu
      have hlt : ¬ i ≤ (u : ℕ) := fun hle => hborn ((h.2 u).mpr hle)
      rw [hself]
      exact ⟨fun heq => absurd heq hborn',fun hle => absurd hle hlt⟩
    · rw [hother u hu]
      exact h.2 u
  | join i =>
    simp only [hmain] at h ⊢
    obtain ⟨hle,hall,hjoined,hsum⟩ := h
    have hlt : ¬ (t : ℕ) < i := fun hlt => hdone (hjoined t hlt)
    refine ⟨hle,fun u => ?_,fun u hu => ?_,hsum.trans (congrArg (wrap 32) ?_)⟩
    · by_cases hu : u = t
      · rwa [hu,hself]
      · rw [hother u hu]
        exact hall u
    · have hne : u ≠ t := fun he => hlt (he ▸ hu)
      rw [hother u hne]
      exact hjoined u hu
    · refine Finset.sum_congr rfl fun u _ => ?_
      by_cases hu : u = t
      · rw [hu,if_neg hlt,if_neg hlt]
      · rw [hother u hu]
  | print =>
    simp only [hmain] at h
    exact absurd (h.1 t) hdone
  | returned =>
    simp only [hmain] at h
    exact absurd (h.1 t) hdone

/-- A step of a thread is seen by the others through the stream alone. -/
theorem Inv.thread_step (h : Inv input s) {t : Fin n} {th : Thread} {next : ℕ}
    (hs : partionalSum input s.next (s.threads t) = some (th,next)) :
    Inv input { s.setThread t th with next := next } where
  thread u := by
    by_cases hu : u = t
    · subst hu
      simpa [State.setThread] using (h.thread u).step hs
    · simpa [State.setThread,hu] using (h.thread u).later (held_step (h.thread t) hs).1
  held k := by
    have hsum := add_sum_congr (a := if k < s.next then 1 else 0) (b := if k < next then 1 else 0)
      (f := fun u => ((s.setThread t th).threads u).held.count k)
      (g := fun u => (s.threads u).held.count k) t
      (fun u hu => by simp [State.setThread,hu])
      (by simpa [State.setThread] using (held_step (h.thread t) hs).2 k)
    rw [h.held,Nat.add_comm] at hsum
    exact Nat.add_right_cancel hsum
  next_le := by
    obtain ⟨hpc,rfl,rfl⟩ | ⟨hpc,hlt,rfl,rfl⟩ | ⟨hpc,hend,rfl,rfl⟩ | ⟨hpc,hchk,rfl,rfl⟩ |
      ⟨hpc,hchk,rfl,rfl⟩ | ⟨hpc,rfl,rfl⟩ := partionalSum_cases hs
    · exact h.next_le
    · exact hlt
    all_goals exact h.next_le
  main := by
    obtain ⟨hborn,hdone,hborn'⟩ := pc_step hs
    exact h.main.setThread hborn hdone hborn'
  output := h.output

theorem Inv.create (h : Inv input s) {i : ℕ} (hpc : s.main = .create i) (hlt : i < n) :
    Inv input { s.setThread ⟨i,hlt⟩ (s.threads ⟨i,hlt⟩).begin with main := .create (i+1) } := by
  have hmain := h.main
  simp only [MainAt,hpc] at hmain
  have hunborn : (s.threads ⟨i,hlt⟩).pc = .unborn := (hmain.2 ⟨i,hlt⟩).mpr (Nat.le_refl i)
  have hother : ∀ u, u ≠ ⟨i,hlt⟩ →
      Function.update s.threads ⟨i,hlt⟩ (s.threads ⟨i,hlt⟩).begin u = s.threads u :=
    fun u hu => Function.update_of_ne hu ..
  refine ⟨fun u => ?_,fun k => ?_,h.next_le,⟨hlt,fun u => ?_⟩,?_⟩
  · by_cases hu : u = ⟨i,hlt⟩
    · subst hu
      have hold := h.thread ⟨i,hlt⟩
      have hplace := hold.place
      simp only [Thread.At,hunborn] at hplace
      simp only [State.setThread,Function.update_self]
      exact ⟨hold.sum,hplace⟩
    · simp only [State.setThread,hother u hu]
      exact h.thread u
  · refine (Finset.sum_congr rfl fun u _ => ?_).trans (h.held k)
    by_cases hu : u = ⟨i,hlt⟩
    · subst hu
      simp [State.setThread,Thread.held,Thread.begin]
    · simp only [State.setThread,hother u hu]
  · by_cases hu : u = ⟨i,hlt⟩
    · subst hu
      simp [State.setThread,Thread.begin]
    · simp only [State.setThread,hother u hu,hmain.2 u]
      have hne := Fin.val_ne_of_ne hu
      dsimp only at hne
      omega
  · have hout := h.output
    rw [hpc] at hout
    exact hout

theorem Inv.main_step (h : Inv input s) (hs : mainStep s = some s') : Inv input s' := by
  have hmain := h.main
  unfold mainStep at hs
  unfold MainAt at hmain
  cases hpc : s.main with
  | create i =>
    simp only [hpc] at hs hmain
    split at hs
    · rename_i hlt
      cases hs
      exact h.create hpc hlt
    · rename_i hge
      cases hs
      refine ⟨h.thread,h.held,h.next_le,⟨Nat.zero_le n,fun t heq => ?_,fun t ht => ?_,?_⟩,?_⟩
      · have hle := (hmain.2 t).mp heq
        omega
      · exact absurd ht (Nat.not_lt_zero _)
      · simp [wrap]
      · have hout := h.output
        simp only [hpc] at hout
        exact hout
  | join i =>
    simp only [hpc] at hs hmain
    obtain ⟨hle,hall,hjoined,hsum⟩ := hmain
    have hout : s.output = none := by simpa [hpc] using h.output
    split at hs
    · rename_i hlt
      split at hs
      · rename_i hdone
        cases hs
        refine ⟨h.thread,h.held,h.next_le,⟨hlt,hall,fun t ht => ?_,?_⟩,hout⟩
        · obtain hless | heq := Nat.lt_succ_iff_lt_or_eq.mp ht
          · exact hjoined t hless
          · obtain rfl : t = ⟨i,hlt⟩ := Fin.ext heq
            exact hdone
        · have hnext := add_sum_congr (a := 0) (b := (s.threads ⟨i,hlt⟩).c)
            (f := fun t : Fin n => if (t : ℕ) < i+1 then (s.threads t).c else 0)
            (g := fun t : Fin n => if (t : ℕ) < i then (s.threads t).c else 0) ⟨i,hlt⟩
            (fun u hu => if_congr (by
              have hne := Fin.val_ne_of_ne hu
              dsimp only at hne
              omega) rfl rfl)
            (by simp)
          rw [Int.zero_add,Int.add_comm] at hnext
          change wrap 32 _ = wrap 32 _
          rw [hsum,wrap_wrap_add]
          exact congrArg (wrap 32) hnext.symm
      · cases hs
    · rename_i hge
      cases hs
      have hlt : ∀ t : Fin n, (t : ℕ) < i := fun t => by omega
      refine ⟨h.thread,h.held,h.next_le,⟨fun t => hjoined t (hlt t),?_⟩,hout⟩
      simpa only [hlt,if_true] using hsum
  | print =>
    simp only [hpc] at hs hmain
    cases hs
    exact ⟨h.thread,h.held,h.next_le,hmain,rfl⟩
  | returned =>
    simp only [hpc] at hs
    cases hs

theorem inv (n : ℕ) (input : List ℤ) : (summer n input).Invariant (Inv input) where
  start := inv_init n input
  step := by
    intro a s s' h hs
    cases a with
    | main => exact h.main_step hs
    | thread t =>
      obtain ⟨r,hr,rfl⟩ := Option.map_eq_some_iff.mp hs
      exact h.thread_step hr

theorem rank_lt (h : Inv input s) {a : Action n} (hs : (summer n input).step a s = some s') :
    s'.rank input < s.rank input := by
  cases a with
  | main =>
    change mainStep s = some s' at hs
    unfold mainStep at hs
    cases hpc : s.main with
    | create i =>
      simp only [hpc] at hs
      split at hs
      · rename_i hlt
        cases hs
        have hmain := h.main
        simp only [MainAt,hpc] at hmain
        have hunborn : (s.threads ⟨i,hlt⟩).pc = .unborn := (hmain.2 ⟨i,hlt⟩).mpr (Nat.le_refl i)
        have hsum := s.rank_setThread ⟨i,hlt⟩ (s.threads ⟨i,hlt⟩).begin
        have hborn : (s.threads ⟨i,hlt⟩).begin.rank = 4 := rfl
        have hrank : (s.threads ⟨i,hlt⟩).rank = 5 := by rw [Thread.rank,hunborn]
        rw [hborn,hrank] at hsum
        simp only [State.rank,hpc,MainPc.rank,State.setThread_next]
        omega
      · cases hs
        simp only [State.rank,hpc,MainPc.rank]
        omega
    | join i =>
      simp only [hpc] at hs
      split at hs
      · split at hs
        · cases hs
          simp only [State.rank,hpc,MainPc.rank]
          omega
        · cases hs
      · cases hs
        simp only [State.rank,hpc,MainPc.rank]
        omega
    | print =>
      simp only [hpc] at hs
      cases hs
      simp [State.rank,hpc,MainPc.rank]
    | returned =>
      simp only [hpc] at hs
      cases hs
  | thread t =>
    obtain ⟨r,hr,rfl⟩ := Option.map_eq_some_iff.mp hs
    have hstep := rank_step (h.thread t) hr
    have hsum := s.rank_setThread t r.1
    simp only [State.rank,State.setThread_main]
    omega

theorem stuck_returned (h : Inv input s) (hstuck : (summer n input).Stuck s) :
    s.main = .returned := by
  have hmain := h.main
  have hnone : mainStep s = none := hstuck .main
  unfold mainStep at hnone
  cases hpc : s.main with
  | create i =>
    simp only [hpc] at hnone
    split at hnone <;> cases hnone
  | join i =>
    simp only [hpc] at hnone
    simp only [MainAt,hpc] at hmain
    split at hnone
    · rename_i hlt
      by_cases hdone : (s.threads ⟨i,hlt⟩).pc = .done
      · rw [if_pos hdone] at hnone
        cases hnone
      · obtain ⟨r,hr⟩ := exists_partionalSum input s.next (hmain.2.1 ⟨i,hlt⟩) hdone
        have hthread : (partionalSum input s.next (s.threads ⟨i,hlt⟩)).map _ = none :=
          hstuck (.thread ⟨i,hlt⟩)
        rw [hr] at hthread
        cases hthread
    · cases hnone
  | print =>
    simp only [hpc] at hnone
    cases hnone
  | returned => rfl

theorem map_value_range (input : List ℤ) :
    (List.range input.length).map (value input) = input := by
  refine List.ext_getElem (by simp) fun k _ hk => ?_
  simp [value,hk]

theorem wrap_sum {T : Type*} (w : ℕ) (S : Finset T) (f : T → ℤ) :
    wrap w (∑ t ∈ S, wrap w (f t)) = wrap w (∑ t ∈ S, f t) := by
  classical
  induction S using Finset.induction_on with
  | empty => rfl
  | insert a S ha ih =>
    rw [Finset.sum_insert ha,Finset.sum_insert ha,wrap_wrap_add,Int.add_comm,← wrap_wrap_add,ih,
      wrap_wrap_add,Int.add_comm]

/-- At the end each value has been added by one thread, and once by it. -/
theorem Inv.added (h : Inv input s) (hn : 0 < n) (hreturned : s.main = .returned) :
    (∀ t, (s.threads t).pc = .done) ∧
    (∀ k, ∑ t, (s.threads t).added.count k = if k < input.length then 1 else 0) := by
  have hmain := h.main
  simp only [MainAt,hreturned] at hmain
  have hplace : ∀ t, (s.threads t).pending = none ∧ input.length ≤ s.next := by
    intro t
    have hplace := (h.thread t).place
    simp only [Thread.At,hmain.1 t] at hplace
    exact ⟨hplace.1,hplace.2.1⟩
  have hnext : s.next = input.length := Nat.le_antisymm h.next_le (hplace ⟨0,hn⟩).2
  refine ⟨hmain.1,fun k => ?_⟩
  rw [← hnext,← h.held k]
  refine Finset.sum_congr rfl fun t _ => ?_
  rw [Thread.held,(hplace t).1,Option.toList_none,List.append_nil]

theorem Inv.printed (h : Inv input s) (hn : 0 < n) (hreturned : s.main = .returned) :
    s.output = some (wrap 32 input.sum) := by
  have hmain := h.main
  simp only [MainAt,hreturned] at hmain
  obtain ⟨hdone,hcount⟩ := h.added hn hreturned
  have hc : ∀ t, (s.threads t).c = (s.threads t).sum := fun t => by
    have hplace := (h.thread t).place
    simp only [Thread.At,hdone t] at hplace
    exact hplace.2.2
  have hperm : ((List.finRange n).flatMap fun t => (s.threads t).added).Perm
      (List.range input.length) := by
    apply List.perm_iff_count.mpr
    intro k
    rw [List.count_flatMap,← Fin.sum_univ_def,List.count_range]
    exact hcount k
  have htotal : ∑ t, ((s.threads t).added.map (value input)).sum = input.sum := by
    rw [Fin.sum_univ_def]
    calc ((List.finRange n).map fun t => ((s.threads t).added.map (value input)).sum).sum
        = (((List.finRange n).flatMap fun t => (s.threads t).added).map (value input)).sum := by
          rw [List.map_flatMap,List.flatMap,List.sum_flatten,List.map_map]
          rfl
      _ = ((List.range input.length).map (value input)).sum := (hperm.map _).sum_eq
      _ = input.sum := by rw [map_value_range]
  have hsum : s.fullSum = wrap 32 input.sum := by
    have hwrapped := Finset.sum_congr rfl fun t (_ : t ∈ Finset.univ) =>
      (hc t).trans (h.thread t).sum
    rw [hmain.2,hwrapped,wrap_sum,htotal]
  rw [h.output,if_pos hreturned,hsum]

end Runs

/-- What has been printed, how often the values have been added, and where the threads are -/
structure Summed (input : List ℤ) (s : State n) : Prop where
  main : s.main = .returned
  threads : ∀ t, (s.threads t).pc = .done
  added : ∀ k < input.length, ∃ t, ∀ u, (s.threads u).added.count k = if u = t then 1 else 0
  output : s.output = some (wrap 32 input.sum)

theorem exists_owner {f : Fin n → ℕ} (h : ∑ t, f t = 1) : ∃ t, ∀ u, f u = if u = t then 1 else 0 := by
  obtain ⟨t,-,ht⟩ : ∃ t ∈ Finset.univ, f t ≠ 0 := Finset.exists_ne_zero_of_sum_ne_zero (by simp [h])
  refine ⟨t,fun u => ?_⟩
  have hrest := Finset.add_sum_erase Finset.univ f (Finset.mem_univ t)
  rw [h] at hrest
  by_cases hu : u = t
  · rw [hu,if_pos rfl]
    omega
  · have hle := Finset.single_le_sum (f := f) (fun _ _ => Nat.zero_le _)
      (Finset.mem_erase.mpr ⟨hu,Finset.mem_univ u⟩)
    rw [if_neg hu]
    omega

theorem Inv.summed {input : List ℤ} {s : State n} (h : Inv input s) (hn : 0 < n)
    (hreturned : s.main = .returned) : Summed input s where
  main := hreturned
  threads := (h.added hn hreturned).1
  added k hk := exists_owner (((h.added hn hreturned).2 k).trans (if_pos hk))
  output := h.printed hn hreturned

/-- Every run comes to its end with the sum of all values, whatever the schedule: each of them
has been added once, and by one thread. -/
theorem summer_correct (hn : 0 < n) (input : List ℤ) :
    (∃ bound, ∀ as s, (summer n input).run as (init n) = some s → as.length ≤ bound) ∧
    (∀ s, (summer n input).Reachable s → (summer n input).Stuck s → Summed input s) ∧
    ∀ s v, (summer n input).Reachable s → s.output = some v → v = wrap 32 input.sum := by
  refine ⟨(inv n input).bounded (State.rank input) fun h hs => rank_lt h hs,
    fun s hs hstuck => ?_,fun s v hs hv => ?_⟩
  · have h := (inv n input).reachable hs
    exact h.summed hn (stuck_returned h hstuck)
  · have h := (inv n input).reachable hs
    have hreturned : s.main = .returned := by
      by_contra hne
      rw [h.output,if_neg hne] at hv
      cases hv
    rw [h.printed hn hreturned] at hv
    exact (Option.some.inj hv).symm

theorem summer_correct_two :
    (∃ bound, ∀ as s, (summer 2 [2147483647,-5,7]).run as (init 2) = some s → as.length ≤ bound) ∧
    (∀ s, (summer 2 [2147483647,-5,7]).Reachable s → (summer 2 [2147483647,-5,7]).Stuck s →
      Summed [2147483647,-5,7] s) ∧
    ∀ s v, (summer 2 [2147483647,-5,7]).Reachable s → s.output = some v →
      v = wrap 32 [2147483647,-5,7].sum :=
  summer_correct (Nat.succ_pos 1) _

end ThreadedSum
end SomeCode
