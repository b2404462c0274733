import SomeCode.LockAndWrite
import SomeCode.MachineInt

/-! The ring of threads of `inf19-0.c`, which choose the order of their three mutexes by flags that
they read without a lock. The mutex of the thread itself is taken as `arg->mut`, without its index,
so that it is the first one of the array. -/
namespace SomeCode
namespace FlagLocks

open LockAndWrite MachineInt Transition

/-- What is left of a round. A read of a flag goes on in one way for 1, in the other way for any
other value. -/
inductive Code (n : ℕ)
  | done
  | readFlag (flag : Fin n) (one other : Code n)
  | setFlag (flag : Fin n) (value : ℤ) (next : Code n)
  | lock (m : Fin n) (next : Code n)
  | unlock (m : Fin n) (next : Code n)
  | load (cell : Fin n) (next : Code n)
  | store (cell : Fin n) (d : ℕ) (next : Code n)

variable {n : ℕ}

/-- `arg->mut` -/
def argMut (i : Fin n) : Fin n := ⟨0,i.pos⟩

/-- The three additions, in hundredths -/
def add (i : Fin n) (next : Code n) : Code n :=
  .load i <| .store i 100 <| .load (left i) <| .store (left i) 101 <|
  .load (right i) <| .store (right i) 99 next

/-- The body of the loop, where `i` is `arg->index` -/
def lockAndWrite (i : Fin n) : Code n :=
  .readFlag i
    (.lock (argMut i) <| .setFlag i 1 <|
      .readFlag (right i)
        (.lock (right i) <| .setFlag (right i) 1 <| .lock (left i) <| .setFlag (left i) 1 <|
          add i <|
          .setFlag (left i) 0 <| .unlock (left i) <| .setFlag (right i) 0 <| .unlock (right i) <|
          .setFlag i 0 <| .unlock (argMut i) .done)
        (.lock (left i) <| .setFlag (right i) 1 <| .lock (right i) <| .setFlag (left i) 1 <|
          add i <|
          .setFlag (left i) 0 <| .unlock (right i) <| .setFlag (right i) 0 <| .unlock (left i) <|
          .setFlag i 0 <| .unlock (argMut i) .done))
    (.readFlag (right i)
      (.lock (right i) <| .setFlag (right i) 1 <| .lock (left i) <| .setFlag (left i) 1 <|
        .lock (argMut i) <| .setFlag i 1 <|
        add i <|
        .setFlag i 0 <| .unlock (argMut i) <| .setFlag (left i) 0 <| .unlock (left i) <|
        .setFlag (right i) 0 <| .unlock (right i) .done)
      (.lock (left i) <| .setFlag (left i) 1 <| .lock (right i) <| .setFlag (right i) 1 <|
        .lock (argMut i) <| .setFlag i 1 <|
        add i <|
        .setFlag i 0 <| .unlock (argMut i) <| .setFlag (right i) 0 <| .unlock (right i) <|
        .setFlag (left i) 0 <| .unlock (left i) .done))

/-- A thread: the rounds it has begun, what is left of the current one, and the value of a cell
that it has read -/
structure Thread (n : ℕ) where
  begun : ℕ
  code : Code n
  reg : ℕ

structure State (n : ℕ) where
  thread : Fin n → Thread n
  owner : Fin n → Option (Fin n)
  lock : Fin n → ℤ
  buf : Fin n → ℕ

def State.setThread (s : State n) (t : Fin n) (th : Thread n) : State n :=
  { s with thread := Function.update s.thread t th }

def State.goto (s : State n) (t : Fin n) (code : Code n) : State n :=
  s.setThread t { s.thread t with code := code }

/-- `size_t k` is compared with an `int`. -/
def rounds (iterations : Int32) : ℕ := unsigned 64 iterations.toInt

/-- A step of a thread. A flag that others may be writing can be read with any value, so that
`one` says what has been read. -/
def step (iterations : Int32) (a : Fin n × Bool) (s : State n) : Option (State n) :=
  let (t,one) := a
  match (s.thread t).code with
  | .done =>
    if (s.thread t).begun < rounds iterations then
      some (s.setThread t ⟨(s.thread t).begun+1,lockAndWrite t,(s.thread t).reg⟩)
    else none
  | .readFlag _ yes no => some (s.goto t (if one then yes else no))
  | .setFlag flag value next =>
    some { s.goto t next with lock := Function.update s.lock flag value }
  | .lock m next =>
    if s.owner m = none then
      some { s.goto t next with owner := Function.update s.owner m (some t) }
    else none
  | .unlock m next => some { s.goto t next with owner := Function.update s.owner m none }
  | .load cell next => some (s.setThread t ⟨(s.thread t).begun,next,s.buf cell⟩)
  | .store cell d next =>
    some { s.goto t next with buf := Function.update s.buf cell ((s.thread t).reg + d) }

def init (n : ℕ) : State n := ⟨fun _ => ⟨0,.done,0⟩,fun _ => none,fun _ => 0,fun _ => 0⟩

def ring (n : ℕ) (iterations : Int32) : System (State n) (Fin n × Bool) := ⟨init n,step iterations⟩

def Finished (iterations : Int32) (s : State n) (t : Fin n) : Prop :=
  (s.thread t).code = .done ∧ rounds iterations ≤ (s.thread t).begun

/-- The thread is about to lock a mutex that it holds. -/
def Relocks (s : State n) (t : Fin n) : Prop :=
  ∃ m next, (s.thread t).code = .lock m next ∧ s.owner m = some t

/-- In every run no thread locks a mutex twice, and some thread can go on until all are finished. -/
structure Safe (n : ℕ) (iterations : Int32) : Prop where
  once : ∀ s, (ring n iterations).Reachable s → ∀ t, ¬ Relocks s t
  live : ∀ s, (ring n iterations).Reachable s → (∃ t, ¬ Finished iterations s t) →
    ∃ a, step iterations a s ≠ none

theorem rounds_eq_zero_iff (iterations : Int32) : rounds iterations = 0 ↔ iterations = 0 := by
  have hl := iterations.le_toInt
  have hu := iterations.toInt_lt
  have hzero : iterations = 0 ↔ iterations.toInt = 0 := Int32.toInt_inj.symm
  rw [hzero,rounds,unsigned]
  omega

/-- The mutexes of a thread -/
def State.held (s : State n) (t : Fin n) : Set (Fin n) := {m | s.owner m = some t}

/-- The code unlocks what it has locked, from the mutexes that are held on; where it locks one of
these it goes no further. It gets to its end only if `ends`. -/
def Code.Disciplined (ends : Prop) : Code n → Set (Fin n) → Prop
  | .done, held => ends ∧ held = ∅
  | .readFlag _ yes no, held => yes.Disciplined ends held ∧ no.Disciplined ends held
  | .setFlag _ _ next, held => next.Disciplined ends held
  | .lock m next, held => m ∉ held → next.Disciplined ends (insert m held)
  | .unlock m next, held => m ∈ held ∧ next.Disciplined ends (held \ {m})
  | .load _ next, held => next.Disciplined ends held
  | .store _ _ next, held => next.Disciplined ends held

theorem nested {ends : Prop} {a b c : Fin n} (h : b ≠ a → c ≠ b → c ≠ a → ends) :
    a ∉ (∅ : Set (Fin n)) → b ∉ insert a (∅ : Set (Fin n)) →
      c ∉ insert b (insert a (∅ : Set (Fin n))) →
      c ∈ insert c (insert b (insert a (∅ : Set (Fin n)))) ∧
      b ∈ insert c (insert b (insert a (∅ : Set (Fin n)))) \ {c} ∧
      a ∈ (insert c (insert b (insert a (∅ : Set (Fin n)))) \ {c}) \ {b} ∧
      ends ∧ ((insert c (insert b (insert a (∅ : Set (Fin n)))) \ {c}) \ {b}) \ {a} = ∅ := by
  intro ha hb hc
  have hba : b ≠ a := by simpa using hb
  obtain ⟨hcb,hca⟩ : c ≠ b ∧ c ≠ a := by simpa using hc
  rw [Set.insert_sdiff_self_of_notMem hc,Set.insert_sdiff_self_of_notMem hb,
    Set.insert_sdiff_self_of_notMem ha]
  exact ⟨Set.mem_insert _ _,Set.mem_insert _ _,Set.mem_insert _ _,h hba hcb hca,rfl⟩

theorem left_eq_argMut {i : Fin n} (h : (i : ℕ) = 1) : left i = argMut i := by
  apply Fin.ext
  rw [left_val,h]
  rfl

/-- A round of thread 1 never comes to its end. -/
theorem lockAndWrite_disciplined (i : Fin n) :
    (lockAndWrite i).Disciplined ((i : ℕ) ≠ 1) ∅ := by
  have hleft : left i ≠ argMut i → (i : ℕ) ≠ 1 := fun hne h1 => hne (left_eq_argMut h1)
  refine ⟨fun hown => ⟨?_,?_⟩,?_,?_⟩
  · exact nested (fun _ _ h => hleft h) hown
  · exact nested (fun h _ _ => hleft h) hown
  · exact nested fun _ h _ => hleft h.symm
  · exact nested fun _ _ h => hleft h.symm

/-- Between the rounds a thread holds no mutex, and in a round as many as its code unlocks; thread
1 does not come out of its first round. -/
structure ThreadInv (s : State n) (t : Fin n) : Prop where
  before : (s.thread t).begun = 0 → (s.thread t).code = .done ∧ s.held t = ∅
  within : (s.thread t).begun ≠ 0 → (s.thread t).code.Disciplined ((t : ℕ) ≠ 1) (s.held t)

def Inv (s : State n) : Prop := ∀ t, ThreadInv s t

section Step

variable {s s' : State n} {t u : Fin n} {m : Fin n} {iterations : Int32} {one : Bool}
  {next : Code n}

theorem setThread_self (s : State n) (t : Fin n) (th : Thread n) :
    (s.setThread t th).thread t = th :=
  Function.update_self ..

theorem setThread_ne (s : State n) (th : Thread n) (h : u ≠ t) :
    (s.setThread t th).thread u = s.thread u := Function.update_of_ne h ..

theorem ThreadInv.congr (h : ThreadInv s u) (hthread : s'.thread u = s.thread u)
    (hheld : s'.held u = s.held u) : ThreadInv s' u where
  before := by rw [hthread,hheld]; exact h.before
  within := by rw [hthread,hheld]; exact h.within

theorem Inv.begun_ne (h : Inv s) (hcode : (s.thread t).code ≠ .done) : (s.thread t).begun ≠ 0 :=
  fun h0 => hcode ((h t).before h0).1

theorem Inv.advance {th : Thread n} (h : Inv s) (hcode : (s.thread t).code ≠ .done)
    (hthread : s'.thread = Function.update s.thread t th) (hbegun : th.begun = (s.thread t).begun)
    (hnext : th.code.Disciplined ((t : ℕ) ≠ 1) (s'.held t))
    (hheld : ∀ u ≠ t, s'.held u = s.held u) : Inv s' := by
  intro u
  by_cases hu : u = t
  · subst hu
    rw [← Function.update_self u th s.thread,← hthread] at hbegun hnext
    exact ⟨fun h0 => absurd (hbegun ▸ h0) (h.begun_ne hcode),fun _ => hnext⟩
  · exact (h u).congr (by rw [hthread,Function.update_of_ne hu]) (hheld u hu)

theorem mem_held_update {v : State n} {o : Option (Fin n)} {c : Fin n}
    (h : v.owner = Function.update s.owner m o) :
    c ∈ v.held u ↔ if c = m then o = some u else c ∈ s.held u := by
  rw [State.held,Set.mem_ofPred_eq,h,Function.update_apply]
  split_ifs <;> rfl

theorem held_lock {v : State n} (ho : s.owner m = none)
    (h : v.owner = Function.update s.owner m (some t)) :
    v.held t = insert m (s.held t) ∧ ∀ u ≠ t, v.held u = s.held u := by
  constructor
  · ext c
    rw [mem_held_update h]
    by_cases hc : c = m <;> simp [hc]
  · intro u hu
    ext c
    rw [mem_held_update h]
    by_cases hc : c = m <;> simp [hc,State.held,ho,hu.symm]

theorem held_unlock {v : State n} (ho : s.owner m = some t)
    (h : v.owner = Function.update s.owner m none) :
    v.held t = s.held t \ {m} ∧ ∀ u ≠ t, v.held u = s.held u := by
  constructor
  · ext c
    rw [mem_held_update h]
    by_cases hc : c = m <;> simp [hc]
  · intro u hu
    ext c
    rw [mem_held_update h]
    by_cases hc : c = m <;> simp [hc,State.held,ho,hu.symm]

theorem Inv.disciplined {code : Code n} (h : Inv s) (hcode : (s.thread t).code = code)
    (hne : code ≠ .done) : code.Disciplined ((t : ℕ) ≠ 1) (s.held t) :=
  hcode ▸ (h t).within (h.begun_ne (hcode ▸ hne))

theorem Inv.held_of_done (h : Inv s) (hcode : (s.thread t).code = .done) : s.held t = ∅ := by
  by_cases h0 : (s.thread t).begun = 0
  · exact ((h t).before h0).2
  · have hd := (h t).within h0
    rw [hcode] at hd
    exact hd.2

theorem Inv.step (h : Inv s) (hs : step iterations (t,one) s = some s') : Inv s' := by
  unfold FlagLocks.step at hs
  cases hcode : (s.thread t).code with
  | done =>
    simp only [hcode] at hs
    split_ifs at hs
    cases hs
    intro u
    by_cases hu : u = t
    · subst hu
      have hheld : State.held (s.setThread u ⟨(s.thread u).begun+1,lockAndWrite u,
        (s.thread u).reg⟩) u = ∅ := h.held_of_done hcode
      refine ⟨fun h0 => ?_,fun _ => ?_⟩
      · rw [setThread_self] at h0
        exact absurd h0 (Nat.succ_ne_zero _)
      · rw [setThread_self,hheld]
        exact lockAndWrite_disciplined u
    · exact (h u).congr (setThread_ne s _ hu) rfl
  | readFlag flag yes no =>
    have hd := h.disciplined hcode (by simp)
    simp only [hcode] at hs
    cases hs
    refine h.advance (by simp [hcode]) rfl rfl ?_ fun _ _ => rfl
    cases one
    · exact hd.2
    · exact hd.1
  | setFlag flag value next =>
    have hd := h.disciplined hcode (by simp)
    simp only [hcode] at hs
    cases hs
    exact h.advance (by simp [hcode]) rfl rfl hd fun _ _ => rfl
  | lock m next =>
    have hd := h.disciplined hcode (by simp)
    simp only [hcode] at hs
    split_ifs at hs with ho
    cases hs
    have hheld := held_lock (t := t) (v := { s.goto t next with
      owner := Function.update s.owner m (some t) }) ho rfl
    have hnot : m ∉ s.held t := by simp [State.held,ho]
    refine h.advance (by simp [hcode]) rfl rfl ?_ hheld.2
    rw [hheld.1]
    exact hd hnot
  | unlock m next =>
    have hd := h.disciplined hcode (by simp)
    simp only [hcode] at hs
    cases hs
    have hheld := held_unlock (v := { s.goto t next with
      owner := Function.update s.owner m none }) hd.1 rfl
    refine h.advance (by simp [hcode]) rfl rfl ?_ hheld.2
    rw [hheld.1]
    exact hd.2
  | load cell next =>
    have hd := h.disciplined hcode (by simp)
    simp only [hcode] at hs
    cases hs
    exact h.advance (by simp [hcode]) rfl rfl hd fun _ _ => rfl
  | store cell d next =>
    have hd := h.disciplined hcode (by simp)
    simp only [hcode] at hs
    cases hs
    exact h.advance (by simp [hcode]) rfl rfl hd fun _ _ => rfl

end Step

theorem inv (n : ℕ) (iterations : Int32) : (ring n iterations).Invariant Inv where
  start t := ⟨fun _ => ⟨rfl,Set.eq_empty_of_forall_notMem fun m hm => by cases hm⟩,
    fun h => absurd rfl h⟩
  step h hs := h.step hs

/-- The program never ends: `main` waits for thread 1, which does not come out of its first round,
whatever the flags are and however the threads take turns. -/
theorem second_unfinished {n : ℕ} {iterations : Int32} (h2 : 1 < n) (hne : iterations ≠ 0)
    {s : State n} (hr : (ring n iterations).Reachable s) : ¬ Finished iterations s ⟨1,h2⟩ := by
  rintro ⟨hdone,hbegun⟩
  have hrounds : rounds iterations ≠ 0 := fun h0 => hne ((rounds_eq_zero_iff iterations).mp h0)
  have hd := ((inv n iterations).reachable hr ⟨1,h2⟩).within (by omega)
  rw [hdone] at hd
  exact hd.1 rfl

section Alone

variable {n : ℕ} {iterations : Int32} {s : State n} {t m flag : Fin n} {value : ℤ}
  {next yes no : Code n}

/-- By itself a thread can come to this code, with the mutexes owned like this. -/
def Comes (iterations : Int32) (t : Fin n) (code : Code n) (owner : Fin n → Option (Fin n)) :
    Prop :=
  ∃ s, (ring n iterations).Reachable s ∧ (s.thread t).code = code ∧ s.owner = owner

variable {owner : Fin n → Option (Fin n)}

theorem comes_begin (t : Fin n) (h : 0 < rounds iterations) :
    Comes iterations t (lockAndWrite t) fun _ => none := by
  have hstep : step iterations (t,true) (init n) =
      some ((init n).setThread t ⟨1,lockAndWrite t,0⟩) := if_pos h
  refine ⟨_,System.Reachable.step (a := (t,true)) .start hstep,?_,rfl⟩
  rw [setThread_self]

theorem Comes.readFlag (h : Comes iterations t (.readFlag flag yes no) owner) (one : Bool) :
    Comes iterations t (if one then yes else no) owner := by
  rcases h with ⟨s,hr,hcode,rfl⟩
  have hstep : step iterations (t,one) s = some (s.goto t (if one then yes else no)) := by
    simp only [step,hcode]
  exact ⟨_,hr.step (a := (t,one)) hstep,congrArg Thread.code (setThread_self ..),rfl⟩

theorem Comes.setFlag (h : Comes iterations t (.setFlag flag value next) owner) :
    Comes iterations t next owner := by
  rcases h with ⟨s,hr,hcode,rfl⟩
  have hstep : step iterations (t,true) s =
      some { s.goto t next with lock := Function.update s.lock flag value } := by
    simp only [step,hcode]
  exact ⟨_,hr.step (a := (t,true)) hstep,congrArg Thread.code (setThread_self ..),rfl⟩

theorem Comes.lock (h : Comes iterations t (.lock m next) owner) (ho : owner m = none) :
    Comes iterations t next (Function.update owner m (some t)) := by
  rcases h with ⟨s,hr,hcode,rfl⟩
  have hstep : step iterations (t,true) s =
      some { s.goto t next with owner := Function.update s.owner m (some t) } := by
    simp only [step,hcode,ho,if_true]
  exact ⟨_,hr.step (a := (t,true)) hstep,congrArg Thread.code (setThread_self ..),rfl⟩

end Alone

/-- With the flag of its right neighbour clear it locks the first mutex for the second time. -/
theorem exists_relocks {n : ℕ} {iterations : Int32} (h2 : 1 < n) (hne : iterations ≠ 0) :
    ∃ s, (ring n iterations).Reachable s ∧ Relocks s ⟨1,h2⟩ := by
  have hrounds : rounds iterations ≠ 0 := fun h0 => hne ((rounds_eq_zero_iff iterations).mp h0)
  have hown := (comes_begin (⟨1,h2⟩ : Fin n) (Nat.pos_of_ne_zero hrounds)).readFlag true
  have hleft := ((hown.lock rfl).setFlag).readFlag false
  rcases hleft with ⟨s,hr,hcode,howner⟩
  refine ⟨s,hr,_,_,hcode,?_⟩
  rw [howner,left_eq_argMut rfl,Function.update_self]

theorem reachable_zero {n : ℕ} {s : State n} (hr : (ring n 0).Reachable s) : s = init n := by
  have hinv : (ring n 0).Invariant (· = init n) := by
    refine ⟨⟨fun {a s t} hs ht => ?_⟩,rfl⟩
    subst hs
    have hrounds : rounds 0 = 0 := (rounds_eq_zero_iff 0).mpr rfl
    have hnone : step 0 a (init n) = none := by simp [step,init,hrounds]
    have hsome : step 0 a (init n) = some t := ht
    rw [hnone] at hsome
    cases hsome
  exact hinv.reachable hr

/-- All is well exactly when there is nothing to do. -/
theorem safe_iff {n : ℕ} (h2 : 2 ≤ n) (iterations : Int32) :
    Safe n iterations ↔ iterations = 0 := by
  constructor
  · intro hsafe
    by_contra hne
    obtain ⟨s,hr,hrelocks⟩ := exists_relocks h2 hne
    exact hsafe.once s hr _ hrelocks
  · rintro rfl
    refine ⟨fun s hr t => ?_,fun s hr => ?_⟩
    · rintro ⟨m,next,hcode,-⟩
      rw [reachable_zero hr] at hcode
      cases hcode
    · rintro ⟨t,hunfinished⟩
      refine absurd ⟨?_,?_⟩ hunfinished
      · rw [reachable_zero hr]
        rfl
      · rw [(rounds_eq_zero_iff 0).mpr rfl]
        exact Nat.zero_le _

theorem safe_two_iff : Safe 2 1 ↔ (1 : Int32) = 0 := safe_iff (Nat.le_refl 2) 1

/-- One round of three threads, where thread 1 finds all flags clear: it waits for itself, and the
others for it. -/
theorem first_mutex_twice : ∃ s, (ring 3 1).Reachable s ∧ Relocks s 1 ∧
    (∃ t, ¬ Finished 1 s t) ∧ ∀ a, step 1 a s = none := by
  refine ⟨_,⟨List.replicate 7 (1,false) ++ List.replicate 5 (2,false) ++ List.replicate 3 (0,false),
    rfl⟩,⟨0,_,rfl,rfl⟩,⟨1,fun h => ?_⟩,fun a => ?_⟩
  · cases h.1
  · rcases a with ⟨t,one⟩
    fin_cases t
    all_goals rfl

end FlagLocks
end SomeCode
