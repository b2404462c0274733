import SomeCode.Contributors
import SomeCode.Transition
import Mathlib.Algebra.BigOperators.Fin
import Mathlib.Data.Fintype.BigOperators
import Mathlib.Tactic

/-! Threads that run straight-line bodies of lock, unlock, load and store steps.
A static discipline on the bodies yields mutual exclusion per cell, exact totals
and, with an order on the mutexes, freedom from deadlock, for every number of threads. -/
set_option linter.unusedSectionVars false
namespace SomeCode
namespace LockProgram

open Contributors Transition

inductive Instr (M C V : Type)
  | lock (m : M)
  | unlock (m : M)
  | load (c : C)
  | store (c : C) (d : V)
  deriving DecidableEq

/-- A thread inside its loop: the iterations it has begun, what is left of the
current one, and the value its last load read. -/
structure Thread (M C V : Type) where
  begun : ℕ
  todo : List (Instr M C V)
  reg : V

structure State (T M C V : Type) where
  thread : T → Thread M C V
  owner : M → Option T
  cell : C → V

/-- Every thread repeats its own body the same number of times. -/
structure Program (T M C V : Type) where
  iterations : ℕ
  body : T → List (Instr M C V)

variable {T M C V : Type} [DecidableEq T] [DecidableEq M] [DecidableEq C] [AddCommMonoid V]

def State.setThread (s : State T M C V) (t : T) (h : Thread M C V) : State T M C V :=
  { s with thread := Function.update s.thread t h }

/-- One atomic step of thread `t`; a mutex is not recursive, so a held one blocks. -/
def step (p : Program T M C V) (t : T) (s : State T M C V) : Option (State T M C V) :=
  match (s.thread t).todo with
  | [] =>
    if (s.thread t).begun < p.iterations then
      some (s.setThread t ⟨(s.thread t).begun+1,p.body t,(s.thread t).reg⟩)
    else none
  | .lock m :: rest =>
    if s.owner m = none then
      some { s.setThread t { s.thread t with todo := rest } with
        owner := Function.update s.owner m (some t) }
    else none
  | .unlock m :: rest =>
    some { s.setThread t { s.thread t with todo := rest } with
      owner := Function.update s.owner m none }
  | .load c :: rest => some (s.setThread t ⟨(s.thread t).begun,rest,s.cell c⟩)
  | .store c d :: rest =>
    some { s.setThread t { s.thread t with todo := rest } with
      cell := Function.update s.cell c ((s.thread t).reg + d) }

def init : State T M C V := ⟨fun _ => ⟨0,[],0⟩,fun _ => none,fun _ => 0⟩

def system (p : Program T M C V) : System (State T M C V) T := ⟨init,step p⟩

def Finished (p : Program T M C V) (s : State T M C V) (t : T) : Prop :=
  (s.thread t).todo = [] ∧ p.iterations ≤ (s.thread t).begun

instance (p : Program T M C V) [DecidableEq V] (s : State T M C V) (t : T) :
    Decidable (Finished p s t) := inferInstanceAs (Decidable (_ ∧ _))

/-- Some thread is still in its loop and no thread can move. -/
def Deadlock (p : Program T M C V) (s : State T M C V) : Prop :=
  (∃ t, ¬ Finished p s t) ∧ ∀ t, step p t s = none

def Between (s : State T M C V) (t : T) (c : C) : Prop :=
  ∃ d rest, (s.thread t).todo = .store c d :: rest

/-- Everything a step can do, by the instruction that the thread executes. -/
inductive Step (p : Program T M C V) (t : T) (s : State T M C V) : State T M C V → Prop
  | enter (hd : (s.thread t).todo = []) (hb : (s.thread t).begun < p.iterations) :
      Step p t s (s.setThread t ⟨(s.thread t).begun+1,p.body t,(s.thread t).reg⟩)
  | lock {m rest} (hd : (s.thread t).todo = .lock m :: rest) (ho : s.owner m = none) :
      Step p t s { s.setThread t { s.thread t with todo := rest } with
        owner := Function.update s.owner m (some t) }
  | unlock {m rest} (hd : (s.thread t).todo = .unlock m :: rest) :
      Step p t s { s.setThread t { s.thread t with todo := rest } with
        owner := Function.update s.owner m none }
  | load {c rest} (hd : (s.thread t).todo = .load c :: rest) :
      Step p t s (s.setThread t ⟨(s.thread t).begun,rest,s.cell c⟩)
  | store {c d rest} (hd : (s.thread t).todo = .store c d :: rest) :
      Step p t s { s.setThread t { s.thread t with todo := rest } with
        cell := Function.update s.cell c ((s.thread t).reg + d) }

theorem Step.of_step {p : Program T M C V} {t : T} {s s' : State T M C V}
    (h : step p t s = some s') : Step p t s s' := by
  unfold step at h
  split at h
  · rename_i hd
    split at h
    · rename_i hb
      cases h
      exact .enter hd hb
    · cases h
  · rename_i hd
    split at h
    · rename_i ho
      cases h
      exact .lock hd ho
    · cases h
  · rename_i hd
    cases h
    exact .unlock hd
  · rename_i hd
    cases h
    exact .load hd
  · rename_i hd
    cases h
    exact .store hd

@[simp] theorem setThread_owner (s : State T M C V) (t : T) (h : Thread M C V) :
    (s.setThread t h).owner = s.owner := rfl
@[simp] theorem setThread_cell (s : State T M C V) (t : T) (h : Thread M C V) :
    (s.setThread t h).cell = s.cell := rfl
@[simp] theorem setThread_self (s : State T M C V) (t : T) (h : Thread M C V) :
    (s.setThread t h).thread t = h := by simp [State.setThread]
theorem setThread_other {t u : T} (hu : u ≠ t) (s : State T M C V) (h : Thread M C V) :
    (s.setThread t h).thread u = s.thread u := by simp [State.setThread,hu]

theorem Step.thread_other {p : Program T M C V} {t u : T} {s s' : State T M C V}
    (h : Step p t s s') (hu : u ≠ t) : s'.thread u = s.thread u := by
  cases h <;> exact setThread_other hu _ _

theorem step_eq_none {p : Program T M C V} {t : T} {s : State T M C V} :
    step p t s = none ↔ Finished p s t ∨
      ∃ m rest, (s.thread t).todo = .lock m :: rest ∧ s.owner m ≠ none := by
  unfold step Finished
  split <;> rename_i hd <;> simp [hd]

/-- What the discipline asks of the code still to run, given the mutexes held and
the cell that has been read but not written back: `allowed` says which mutex may
be taken next, and `guard` names the mutex that every access to a cell needs. -/
def Disciplined (allowed : Finset M → M → Prop) (guard : C → M) :
    Finset M → Option C → List (Instr M C V) → Prop
  | held, loaded, [] => held = ∅ ∧ loaded = none
  | held, loaded, .lock m :: rest =>
    loaded = none ∧ m ∉ held ∧ allowed held m ∧ Disciplined allowed guard (insert m held) none rest
  | held, loaded, .unlock m :: rest =>
    loaded = none ∧ m ∈ held ∧ Disciplined allowed guard (held.erase m) none rest
  | held, loaded, .load c :: rest =>
    loaded = none ∧ guard c ∈ held ∧ Disciplined allowed guard held (some c) rest
  | held, loaded, .store c _ :: rest =>
    loaded = some c ∧ guard c ∈ held ∧ Disciplined allowed guard held none rest

/-- The state of one thread fits the discipline with the given ghost values. -/
structure ThreadOk (allowed : Finset M → M → Prop) (guard : C → M) (s : State T M C V) (t : T)
    (held : Finset M) (loaded : Option C) : Prop where
  owns : ∀ m, s.owner m = some t ↔ m ∈ held
  disciplined : Disciplined allowed guard held loaded (s.thread t).todo
  fresh : ∀ c, loaded = some c → (s.thread t).reg = s.cell c

def Inv (allowed : Finset M → M → Prop) (guard : C → M) (s : State T M C V) : Prop :=
  ∀ t, ∃ held loaded, ThreadOk allowed guard s t held loaded

section Discipline

variable {allowed : Finset M → M → Prop} {guard : C → M} {p : Program T M C V}
  {s s' : State T M C V} {t u : T}

/-- Two disciplined threads never hold the guard of one cell together. -/
theorem ThreadOk.held_disjoint {held held' : Finset M} {loaded loaded' : Option C} {m : M}
    (ht : ThreadOk allowed guard s t held loaded) (hu : ThreadOk allowed guard s u held' loaded')
    (hm : m ∈ held) (hm' : m ∈ held') : t = u :=
  Option.some.inj (((ht.owns m).mpr hm).symm.trans ((hu.owns m).mpr hm'))

theorem ThreadOk.frame {held : Finset M} {loaded : Option C}
    (hu : ThreadOk allowed guard s u held loaded) (hthread : s'.thread u = s.thread u)
    (howner : ∀ m, s'.owner m = some u ↔ s.owner m = some u)
    (hcell : ∀ c, loaded = some c → s'.cell c = s.cell c) :
    ThreadOk allowed guard s' u held loaded where
  owns m := (howner m).trans (hu.owns m)
  disciplined := hthread ▸ hu.disciplined
  fresh c hc := by rw [hthread,hcell c hc,hu.fresh c hc]

theorem Disciplined.loaded_guard {held : Finset M} {c : C} {todo : List (Instr M C V)}
    (h : Disciplined allowed guard held (some c) todo) :
    guard c ∈ held ∧ ∃ d rest, todo = .store c d :: rest := by
  cases todo with
  | nil => simp [Disciplined] at h
  | cons i rest =>
    cases i <;> simp [Disciplined] at h
    obtain ⟨rfl,hg,-⟩ := h
    exact ⟨hg,_,_,rfl⟩

theorem Inv.step_acting (h : Step p t s s') (hbody : Disciplined allowed guard ∅ none (p.body t))
    {held : Finset M} {loaded : Option C} (ht : ThreadOk allowed guard s t held loaded) :
    ∃ held loaded, ThreadOk allowed guard s' t held loaded := by
  obtain ⟨howns,hdisc,hfresh⟩ := ht
  cases h with
  | enter hd hb =>
    rw [hd] at hdisc
    obtain ⟨rfl,rfl⟩ := hdisc
    exact ⟨∅,none,by simpa using howns,by simpa using hbody,by simp⟩
  | @lock m rest hd ho =>
    rw [hd] at hdisc
    obtain ⟨rfl,-,-,hrest⟩ := hdisc
    refine ⟨insert m held,none,fun m' => ?_,by simpa using hrest,by simp⟩
    by_cases hm : m' = m
    · simp [hm]
    · simp [hm,howns m']
  | @unlock m rest hd =>
    rw [hd] at hdisc
    obtain ⟨rfl,-,hrest⟩ := hdisc
    refine ⟨held.erase m,none,fun m' => ?_,by simpa using hrest,by simp⟩
    by_cases hm : m' = m
    · simp [hm]
    · simp [hm,howns m']
  | @load c rest hd =>
    rw [hd] at hdisc
    obtain ⟨rfl,-,hrest⟩ := hdisc
    exact ⟨held,some c,by simpa using howns,by simpa using hrest,by simp⟩
  | @store c d rest hd =>
    rw [hd] at hdisc
    obtain ⟨rfl,-,hrest⟩ := hdisc
    exact ⟨held,none,by simpa using howns,by simpa using hrest,by simp⟩

/-- The other threads are disturbed neither in what they hold nor, since the acting
thread writes a cell only under its guard, in what they have read. -/
theorem Inv.step_other (h : Step p t s s') (hu : u ≠ t)
    {held held' : Finset M} {loaded loaded' : Option C}
    (ht : ThreadOk allowed guard s t held loaded) (hok : ThreadOk allowed guard s u held' loaded') :
    ThreadOk allowed guard s' u held' loaded' := by
  have hthread := h.thread_other hu
  cases h with
  | enter hd hb => exact hok.frame hthread (by simp) (by simp)
  | @lock m rest hd ho =>
    refine hok.frame hthread (fun m' => ?_) (by simp)
    by_cases hm : m' = m
    · subst hm
      simp [ho,hu.symm]
    · simp [hm]
  | @unlock m rest hd =>
    have hdisc := ht.disciplined
    rw [hd] at hdisc
    have howner : s.owner m = some t := (ht.owns m).mpr hdisc.2.1
    refine hok.frame hthread (fun m' => ?_) (by simp)
    by_cases hm : m' = m
    · subst hm
      simp [howner,hu.symm]
    · simp [hm]
  | load hd => exact hok.frame hthread (by simp) (by simp)
  | @store c d rest hd =>
    have hdisc := ht.disciplined
    rw [hd] at hdisc
    refine hok.frame hthread (by simp) (fun c' hc => ?_)
    have hne : c' ≠ c := by
      rintro rfl
      have hg := (Disciplined.loaded_guard (hc ▸ hok.disciplined)).1
      exact hu (hok.held_disjoint ht hg hdisc.2.1)
    simp [hne]

theorem inv_init : Inv allowed guard (init : State T M C V) :=
  fun _ => ⟨∅,none,by simp [init],⟨rfl,rfl⟩,by simp⟩

theorem Inv.step (hi : Inv allowed guard s)
    (hbody : ∀ t, Disciplined allowed guard ∅ none (p.body t)) (h : Step p t s s') :
    Inv allowed guard s' := by
  intro u
  obtain ⟨held,loaded,ht⟩ := hi t
  by_cases hu : u = t
  · subst hu
    exact Inv.step_acting h (hbody u) ht
  · obtain ⟨held',loaded',hok⟩ := hi u
    exact ⟨held',loaded',Inv.step_other h hu ht hok⟩

theorem inv_invariant (hbody : ∀ t, Disciplined allowed guard ∅ none (p.body t)) :
    (system p).Invariant (Inv allowed guard) where
  step hi h := hi.step hbody (Step.of_step h)
  start := inv_init

theorem Inv.between_unique (hi : Inv allowed guard s) {c : C}
    (ht : Between s t c) (hu : Between s u c) : t = u := by
  obtain ⟨held,loaded,hok⟩ := hi t
  obtain ⟨held',loaded',hok'⟩ := hi u
  obtain ⟨d,rest,hd⟩ := ht
  obtain ⟨d',rest',hd'⟩ := hu
  have h := hok.disciplined
  have h' := hok'.disciplined
  rw [hd] at h
  rw [hd'] at h'
  exact hok.held_disjoint hok' h.2.1 h'.2.1

theorem Inv.owner_not_finished (hi : Inv allowed guard s) {m : M} (hm : s.owner m = some t) :
    (s.thread t).todo ≠ [] := by
  obtain ⟨held,loaded,hok⟩ := hi t
  intro hd
  have h := hok.disciplined
  rw [hd] at h
  have hmem := (hok.owns m).mp hm
  simp [h.1] at hmem

end Discipline

def wanted (s : State T M C V) (t : T) : Option M :=
  match (s.thread t).todo with
  | .lock m :: _ => some m
  | _ => none

section Deadlock

variable {guard : C → M} {p : Program T M C V} {s : State T M C V}

def RankBelow (rank : M → ℕ) (held : Finset M) (m : M) : Prop := ∀ h ∈ held, rank h < rank m

/-- In a deadlock every unfinished thread wants a mutex, owned by another
unfinished thread that itself wants a mutex of larger rank. -/
theorem Deadlock.wait_for {rank : M → ℕ} (hd : Deadlock p s) (hi : Inv (RankBelow rank) guard s)
    {t : T} (ht : ¬ Finished p s t) :
    ∃ m, wanted s t = some m ∧ ∃ u m', ¬ Finished p s u ∧ wanted s u = some m' ∧
      rank m < rank m' := by
  obtain ⟨m,rest,hm,ho⟩ := (step_eq_none.mp (hd.2 t)).resolve_left ht
  refine ⟨m,by simp [wanted,hm],?_⟩
  obtain ⟨u,hu⟩ := Option.ne_none_iff_exists'.mp ho
  have hunf : ¬ Finished p s u := fun hf => hi.owner_not_finished hu hf.1
  obtain ⟨m',rest',hm',-⟩ := (step_eq_none.mp (hd.2 u)).resolve_left hunf
  obtain ⟨held,loaded,hok⟩ := hi u
  have hdisc := hok.disciplined
  rw [hm'] at hdisc
  exact ⟨u,m',hunf,by simp [wanted,hm'],hdisc.2.2.1 m ((hok.owns m).mp hu)⟩

/-- An order on the mutexes that every body respects rules deadlock out. -/
theorem Inv.not_deadlock [Fintype T] {rank : M → ℕ} (hi : Inv (RankBelow rank) guard s) :
    ¬ Deadlock p s := by
  classical
  intro hd
  obtain ⟨t₀,ht₀⟩ := hd.1
  let waiting := Finset.univ.filter fun t => ¬ Finished p s t
  have hne : waiting.Nonempty := ⟨t₀,by simpa [waiting] using ht₀⟩
  obtain ⟨t,ht,hmax⟩ := waiting.exists_max_image (fun t => ((wanted s t).map rank).getD 0) hne
  have hunf : ¬ Finished p s t := by simpa [waiting] using ht
  obtain ⟨m,hm,u,m',hu,hm',hlt⟩ := hd.wait_for hi hunf
  have hle := hmax u (by simpa [waiting] using hu)
  simp only [hm,hm',Option.map_some,Option.getD_some] at hle
  omega

theorem not_deadlock_of_iterations (hp : p.iterations = 0) (hr : (system p).Reachable s) :
    ¬ Deadlock p s := by
  have hinv : (system p).Invariant fun s => ∀ t, Finished p s t := by
    refine ⟨⟨fun {t s s'} hf h => ?_⟩,fun t => ⟨rfl,hp.le⟩⟩
    have hnone : step p t s = none := step_eq_none.mpr (.inl (hf t))
    exact absurd (hnone.symm.trans h) (by simp)
  intro hd
  obtain ⟨t,ht⟩ := hd.1
  exact ht (hinv.reachable hr t)

end Deadlock

section Totals

variable [Fintype T]

/-- What the code still to run adds to a cell. -/
def increments (c : C) : List (Instr M C V) → V
  | [] => 0
  | .store c' d :: rest => (if c' = c then d else 0) + increments c rest
  | _ :: rest => increments c rest

def pending (p : Program T M C V) (s : State T M C V) (c : C) (t : T) : V :=
  increments c (s.thread t).todo + (p.iterations - (s.thread t).begun) • increments c (p.body t)

/-- A cell together with everything still to be added to it never changes. -/
def Conserved (p : Program T M C V) (s : State T M C V) : Prop :=
  ∀ c, s.cell c + ∑ t, pending p s c t = ∑ t, p.iterations • increments c (p.body t)

theorem conserved_init (p : Program T M C V) : Conserved p (init : State T M C V) := by
  intro c
  simp [init,pending,increments]

variable {allowed : Finset M → M → Prop} {guard : C → M} {p : Program T M C V}
  {s s' : State T M C V} {t : T}

/-- The acting thread trades what it had pending for what it has stored; the value
in its register is still that of the cell because no other thread can have stored. -/
theorem Step.cell_add_pending (h : Step p t s s') (hi : Inv allowed guard s) (c : C) :
    s'.cell c + pending p s' c t = s.cell c + pending p s c t := by
  obtain ⟨held,loaded,hok⟩ := hi t
  have hdisc := hok.disciplined
  cases h with
  | enter hd hb =>
    obtain ⟨k,hk⟩ : ∃ k, p.iterations - (s.thread t).begun = k+1 := ⟨_,(Nat.succ_pred (by omega)).symm⟩
    have hk' : p.iterations - ((s.thread t).begun+1) = k := by omega
    simp [pending,hd,hk,hk',increments,succ_nsmul']
  | lock hd ho => simp [pending,hd,increments]
  | unlock hd => simp [pending,hd,increments]
  | load hd => simp [pending,hd,increments]
  | @store c' d rest hd =>
    rw [hd] at hdisc
    have hreg := hok.fresh c' hdisc.1
    by_cases hc : c' = c
    · subst hc
      simp [pending,hd,increments,hreg,add_assoc]
    · simp [pending,hd,increments,hc,Ne.symm hc]

theorem Conserved.step (hc : Conserved p s) (hi : Inv allowed guard s) (h : Step p t s s') :
    Conserved p s' := by
  intro c
  rw [← hc c]
  refine add_sum_congr t (fun u hu => ?_) (h.cell_add_pending hi c)
  simp only [pending,h.thread_other hu]

theorem conserved_reachable (hbody : ∀ t, Disciplined allowed guard ∅ none (p.body t))
    (hr : (system p).Reachable s) : Conserved p s := by
  refine hr.induction (conserved_init p) fun hr hc h => ?_
  exact hc.step ((inv_invariant hbody).reachable hr) (Step.of_step h)

/-- No update is lost: once all threads have finished, a cell holds everything
that the bodies add to it. -/
theorem cell_of_finished (hbody : ∀ t, Disciplined allowed guard ∅ none (p.body t))
    (hr : (system p).Reachable s) (hf : ∀ t, Finished p s t) (c : C) :
    s.cell c = p.iterations • ∑ t, increments c (p.body t) := by
  have hpend : ∀ t, pending p s c t = 0 := fun t => by
    simp [pending,(hf t).1,Nat.sub_eq_zero_of_le (hf t).2,increments]
  simpa [hpend,Finset.smul_sum] using conserved_reachable hbody hr c

end Totals

section Termination

variable [Fintype T] {p : Program T M C V} {s s' : State T M C V} {t : T}

def remaining (p : Program T M C V) (s : State T M C V) (t : T) : ℕ :=
  (s.thread t).todo.length + (p.iterations - (s.thread t).begun) * ((p.body t).length+1)

theorem Step.remaining_succ (h : Step p t s s') : remaining p s' t + 1 = remaining p s t := by
  cases h with
  | enter hd hb =>
    obtain ⟨k,hk⟩ : ∃ k, p.iterations - (s.thread t).begun = k+1 := ⟨_,(Nat.succ_pred (by omega)).symm⟩
    have hk' : p.iterations - ((s.thread t).begun+1) = k := by omega
    simp only [remaining,setThread_self,hd,hk,hk',List.length_nil]
    ring
  | lock hd ho => simp [remaining,hd]; ring
  | unlock hd => simp [remaining,hd]; ring
  | load hd => simp [remaining,hd]; ring
  | store hd => simp [remaining,hd]; ring

theorem Step.sum_remaining_lt (h : Step p t s s') :
    ∑ u, remaining p s' u < ∑ u, remaining p s u := by
  have hsum : 1 + ∑ u, remaining p s' u = 0 + ∑ u, remaining p s u :=
    add_sum_congr t (fun u hu => by simp only [remaining,h.thread_other hu])
      (by rw [zero_add,add_comm]; exact h.remaining_succ)
  omega

end Termination

section Embrace

variable {allowed : Finset M → M → Prop} {guard : C → M} {p : Program T M C V}
  {s s' : State T M C V} {t u v : T} {a b : M}

/-- Thread `t` holds `a` and wants `b`, while `u` holds `b` and wants `a`. -/
structure Embrace (s : State T M C V) (t u : T) (a b : M) : Prop where
  left : s.owner a = some t
  right : s.owner b = some u
  left_wants : wanted s t = some b
  right_wants : wanted s u = some a

theorem Step.owner_other (h : Step p v s s') (hi : Inv allowed guard s) {m : M}
    (hm : s.owner m = some t) (ht : t ≠ v) : s'.owner m = some t := by
  obtain ⟨held,loaded,hok⟩ := hi v
  have hdisc := hok.disciplined
  cases h with
  | enter hd hb => exact hm
  | @lock m' rest hd ho =>
    have hne : m ≠ m' := by rintro rfl; simp [ho] at hm
    simpa [hne] using hm
  | @unlock m' rest hd =>
    rw [hd] at hdisc
    have hne : m ≠ m' := by
      rintro rfl
      exact ht (Option.some.inj (hm.symm.trans ((hok.owns m).mpr hdisc.2.1)))
    simpa [hne] using hm
  | load hd => exact hm
  | store hd => exact hm

theorem Step.acting_ne (h : Step p v s s') {m : M} (hw : wanted s t = some m)
    (ho : s.owner m ≠ none) : t ≠ v := by
  rintro rfl
  cases h with
  | lock hd ho' => simp [wanted,hd] at hw; exact ho (hw ▸ ho')
  | enter hd hb => simp [wanted,hd] at hw
  | unlock hd => simp [wanted,hd] at hw
  | load hd => simp [wanted,hd] at hw
  | store hd => simp [wanted,hd] at hw

theorem Embrace.step (he : Embrace s t u a b) (hi : Inv allowed guard s) (h : Step p v s s') :
    Embrace s' t u a b := by
  have ht := h.acting_ne he.left_wants (by simp [he.right])
  have hu := h.acting_ne he.right_wants (by simp [he.left])
  exact ⟨h.owner_other hi he.left ht,h.owner_other hi he.right hu,
    by simpa only [wanted,h.thread_other ht] using he.left_wants,
    by simpa only [wanted,h.thread_other hu] using he.right_wants⟩

/-- An embrace never ends, so the rest of the threads run on into a deadlock. -/
theorem Embrace.exists_deadlock [Fintype T] (he : Embrace s t u a b)
    (hbody : ∀ t, Disciplined allowed guard ∅ none (p.body t)) (hr : (system p).Reachable s) :
    ∃ s', (system p).Reachable s' ∧ Deadlock p s' := by
  have hclosed : (system p).Closed fun s => Inv allowed guard s ∧ Embrace s t u a b :=
    ⟨fun hs h => ⟨hs.1.step hbody (Step.of_step h),hs.2.step hs.1 (Step.of_step h)⟩⟩
  obtain ⟨as,s',hs',hstuck⟩ := hclosed.exists_stuck (fun s => ∑ v, remaining p s v)
    (fun _ h => (Step.of_step h).sum_remaining_lt) ⟨(inv_invariant hbody).reachable hr,he⟩
  have he' := (hclosed.run ⟨(inv_invariant hbody).reachable hr,he⟩ hs').2
  refine ⟨s',hr.run hs',⟨t,fun hf => ?_⟩,hstuck⟩
  have hw := he'.left_wants
  simp [wanted,hf.1] at hw

def locks : List (Instr M C V) → List M
  | [] => []
  | .lock m :: rest => m :: locks rest
  | _ :: rest => locks rest

/-- A thread that runs alone over free mutexes gets through any code without an unlock. -/
theorem exists_run_alone (p : Program T M C V) (t : T) (pre rest : List (Instr M C V))
    (s : State T M C V) (hd : (s.thread t).todo = pre ++ rest) (hun : ∀ m, .unlock m ∉ pre)
    (hnodup : (locks pre).Nodup) (hfree : ∀ m ∈ locks pre, s.owner m = none) :
    ∃ s', (system p).run (List.replicate pre.length t) s = some s' ∧
      (s'.thread t).todo = rest ∧ (∀ u, u ≠ t → s'.thread u = s.thread u) ∧
      ∀ m, s'.owner m = if m ∈ locks pre then some t else s.owner m := by
  induction pre generalizing s with
  | nil => exact ⟨s,rfl,hd,fun _ _ => rfl,by simp [locks]⟩
  | cons i pre ih =>
    have hun' : ∀ m, .unlock m ∉ pre := fun m hm => hun m (List.mem_cons_of_mem _ hm)
    cases i with
    | lock m =>
      simp only [locks,List.nodup_cons,List.forall_mem_cons] at hnodup hfree
      obtain ⟨s',hrun,htodo,hthread,howner⟩ := ih
        { s.setThread t { s.thread t with todo := pre ++ rest } with
          owner := Function.update s.owner m (some t) } (by simp) hun' hnodup.2 (fun m' hm' => by
            have hne : m' ≠ m := fun h => hnodup.1 (h ▸ hm')
            simpa [hne] using hfree.2 m' hm')
      refine ⟨s',?_,htodo,fun u hu => (hthread u hu).trans (setThread_other hu _ _),fun m' => ?_⟩
      · simp only [List.length_cons,List.replicate_succ,System.run_cons]
        simpa [system,step,hd,hfree.1] using hrun
      · rw [howner m']
        by_cases hm : m' = m <;> simp [locks,hm]
    | unlock m => exact absurd (by simp) (hun m)
    | load c =>
      obtain ⟨s',hrun,htodo,hthread,howner⟩ := ih
        (s.setThread t ⟨(s.thread t).begun,pre ++ rest,s.cell c⟩) (by simp) hun' hnodup hfree
      refine ⟨s',?_,htodo,fun u hu => (hthread u hu).trans (setThread_other hu _ _),howner⟩
      simp only [List.length_cons,List.replicate_succ,System.run_cons]
      simpa [system,step,hd] using hrun
    | store c d =>
      obtain ⟨s',hrun,htodo,hthread,howner⟩ := ih
        { s.setThread t { s.thread t with todo := pre ++ rest } with
          cell := Function.update s.cell c ((s.thread t).reg + d) } (by simp) hun' hnodup hfree
      refine ⟨s',?_,htodo,fun u hu => (hthread u hu).trans (setThread_other hu _ _),howner⟩
      simp only [List.length_cons,List.replicate_succ,System.run_cons]
      simpa [system,step,hd] using hrun

theorem exists_run_body (p : Program T M C V) (t : T) {pre rest : List (Instr M C V)}
    (s : State T M C V) (hd : (s.thread t).todo = []) (hb : (s.thread t).begun < p.iterations)
    (hbody : p.body t = pre ++ rest) (hun : ∀ m, .unlock m ∉ pre)
    (hnodup : (locks pre).Nodup) (hfree : ∀ m ∈ locks pre, s.owner m = none) :
    ∃ s', (system p).run (List.replicate (pre.length+1) t) s = some s' ∧
      (s'.thread t).todo = rest ∧ (∀ u, u ≠ t → s'.thread u = s.thread u) ∧
      ∀ m, s'.owner m = if m ∈ locks pre then some t else s.owner m := by
  obtain ⟨s',hrun,htodo,hthread,howner⟩ := exists_run_alone p t pre rest
    (s.setThread t ⟨(s.thread t).begun+1,p.body t,(s.thread t).reg⟩) (by simp [hbody]) hun hnodup hfree
  refine ⟨s',?_,htodo,fun u hu => (hthread u hu).trans (setThread_other hu _ _),howner⟩
  simp only [List.replicate_succ,System.run_cons]
  simpa [system,step,hd,hb] using hrun

end Embrace

end LockProgram
end SomeCode
