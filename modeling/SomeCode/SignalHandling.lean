import SomeCode.Transition

/-! Processes that wait in `sigsuspend`, with handlers for their signals. While a handler runs its own
signal is blocked and the others may interrupt it; a signal that is already pending gets lost. -/
namespace SomeCode
namespace SignalHandling

open Transition

/-- `exec` is a step of a handler, which returns where there is no next one; with `leave` the main
loop ends. -/
structure Program (Sig F D : Type*) where
  enter : Sig → F
  exec : F → D → Option F × D
  leave : D → Bool

/-- The main loop looks at its condition, waits in `sigsuspend`, or is over. -/
inductive Main
  | checking | suspended | ended
  deriving DecidableEq

/-- The innermost handler comes first. -/
structure State (Sig F D : Type*) where
  main : Main
  pending : Finset Sig
  frames : List (Sig × F)
  data : D

inductive Action (Sig : Type*)
  | send (sig : Sig)
  | deliver (sig : Sig)
  | exec
  deriving DecidableEq

section System

variable {Sig F D : Type*} [DecidableEq Sig] (P : Program Sig F D)

/-- Signals are let in by `sigsuspend` only, and the return from the outermost handler is the return
from `sigsuspend`. -/
def step : Action Sig → State Sig F D → Option (State Sig F D)
  | .send sig, s =>
    if s.main = .ended then none else some { s with pending := insert sig s.pending }
  | .deliver sig, s =>
    if s.main = .suspended ∧ sig ∈ s.pending ∧ sig ∉ s.frames.map Prod.fst then
      some { s with pending := s.pending.erase sig, frames := (sig,P.enter sig) :: s.frames }
    else none
  | .exec, s =>
    match s.main, s.frames with
    | .checking, _ => some { s with main := if P.leave s.data then .ended else .suspended }
    | .suspended, (sig,f) :: rest =>
      match P.exec f s.data with
      | (some f',d) => some { s with frames := (sig,f') :: rest, data := d }
      | (none,d) => some { s with
          main := if rest = [] then .checking else .suspended, frames := rest, data := d }
    | _, _ => none

def system (d : D) : System (State Sig F D) (Action Sig) where
  start := ⟨.checking,∅,[],d⟩
  step := step P

/-- The step of a handler that an action is -/
def State.current (s : State Sig F D) : Action Sig → Option F
  | .exec => if s.main = .suspended then s.frames.head?.map Prod.snd else none
  | _ => none

/-- The steps of handlers in a run, in their order -/
def executed : List (Action Sig) → State Sig F D → List F
  | [], _ => []
  | a :: as, s => (s.current a).toList ++ ((step P a s).map (executed as)).getD []

end System

section Lemmas

variable {Sig F D : Type*} [DecidableEq Sig] {P : Program Sig F D} {s t : State Sig F D}

theorem step_cases {a : Action Sig} (h : step P a s = some t) :
    (∃ sig, a = .send sig ∧ s.main ≠ .ended ∧ t = { s with pending := insert sig s.pending }) ∨
    (∃ sig, a = .deliver sig ∧ s.main = .suspended ∧ sig ∈ s.pending ∧
      sig ∉ s.frames.map Prod.fst ∧ t = { s with
        pending := s.pending.erase sig, frames := (sig,P.enter sig) :: s.frames }) ∨
    (a = .exec ∧ s.main = .checking ∧
      t = { s with main := if P.leave s.data then .ended else .suspended }) ∨
    (∃ sig f rest f' d, a = .exec ∧ s.main = .suspended ∧ s.frames = (sig,f) :: rest ∧
      P.exec f s.data = (some f',d) ∧ t = { s with frames := (sig,f') :: rest, data := d }) ∨
    ∃ sig f rest d, a = .exec ∧ s.main = .suspended ∧ s.frames = (sig,f) :: rest ∧
      P.exec f s.data = (none,d) ∧ t = { s with
        main := if rest = [] then .checking else .suspended, frames := rest, data := d } := by
  cases a with
  | send sig =>
    rw [step] at h
    split at h
    · cases h
    · rename_i hmain
      exact .inl ⟨sig,rfl,hmain,(Option.some.inj h).symm⟩
  | deliver sig =>
    rw [step] at h
    split at h
    · rename_i hif
      exact .inr (.inl ⟨sig,rfl,hif.1,hif.2.1,hif.2.2,(Option.some.inj h).symm⟩)
    · cases h
  | exec =>
    rw [step] at h
    split at h
    · rename_i hmain
      exact .inr (.inr (.inl ⟨rfl,hmain,(Option.some.inj h).symm⟩))
    · rename_i sig f rest hmain hframes
      split at h
      · rename_i f' d hexec
        exact .inr (.inr (.inr (.inl
          ⟨sig,f,rest,f',d,rfl,hmain,hframes,hexec,(Option.some.inj h).symm⟩)))
      · rename_i d hexec
        exact .inr (.inr (.inr (.inr
          ⟨sig,f,rest,d,rfl,hmain,hframes,hexec,(Option.some.inj h).symm⟩)))
    · cases h

/-- No handler interrupts itself, and there are none but in `sigsuspend`. -/
structure Sane (s : State Sig F D) : Prop where
  nodup : (s.frames.map Prod.fst).Nodup
  main : s.frames ≠ [] → s.main = .suspended

theorem Sane.step {a : Action Sig} (hs : Sane s) (h : step P a s = some t) : Sane t := by
  rcases step_cases h with ⟨sig,-,-,rfl⟩ | ⟨sig,-,hmain,-,hnot,rfl⟩ | ⟨-,hmain,rfl⟩ |
    ⟨sig,f,rest,f',d,-,hmain,hframes,-,rfl⟩ | ⟨sig,f,rest,d,-,hmain,hframes,-,rfl⟩
  · exact ⟨hs.nodup,hs.main⟩
  · exact ⟨List.nodup_cons.2 ⟨hnot,hs.nodup⟩,fun _ => hmain⟩
  · refine ⟨hs.nodup,fun hne => ?_⟩
    rw [hs.main hne] at hmain
    cases hmain
  · have hnodup := hs.nodup
    rw [hframes] at hnodup
    exact ⟨hnodup,fun _ => hmain⟩
  · have hnodup := hs.nodup
    rw [hframes] at hnodup
    exact ⟨(List.nodup_cons.1 hnodup).2,fun hne => if_neg hne⟩

theorem sane_invariant (P : Program Sig F D) (d : D) : (system P d).Invariant Sane where
  start := ⟨List.nodup_nil,fun h => absurd rfl h⟩
  step := fun hs h => hs.step h

theorem count_deliver_le {d : D} {as : List (Action Sig)} (h : (system P d).run as
    (system P d).start = some s) (sig : Sig) :
    as.count (.deliver sig) + (if sig ∈ s.pending then 1 else 0) ≤ as.count (.send sig) := by
  refine System.run_history (M := system P d) (I := fun as s => as.count (.deliver sig) +
    (if sig ∈ s.pending then 1 else 0) ≤ as.count (.send sig)) ?_ ?_ h
  · simp [system]
  · intro as a s t hle hstep
    rw [List.count_append,List.count_append,List.count_singleton,List.count_singleton]
    rcases step_cases hstep with ⟨sig',rfl,-,rfl⟩ | ⟨sig',rfl,-,hmem,-,rfl⟩ | ⟨rfl,-,rfl⟩ |
      ⟨sig',f,rest,f',d,rfl,-,-,-,rfl⟩ | ⟨sig',f,rest,d,rfl,-,-,-,rfl⟩
    · by_cases heq : sig = sig'
      · subst heq
        simp
        split at hle <;> omega
      · simpa [heq,Ne.symm heq] using hle
    · by_cases heq : sig = sig'
      · subst heq
        rw [if_pos hmem] at hle
        simpa using hle
      · simpa [heq,Ne.symm heq] using hle
    · simpa using hle
    · simpa using hle
    · simpa using hle

theorem executed_concat {d : D} {as : List (Action Sig)} (h : (system P d).run as s = some t)
    (a : Action Sig) : executed P (as ++ [a]) s = executed P as s ++ (t.current a).toList := by
  induction as generalizing s with
  | nil =>
    obtain rfl := Option.some.inj h
    cases hstep : SignalHandling.step P a s <;> simp [executed,hstep]
  | cons b as ih =>
    rcases System.run_cons_eq_some.1 h with ⟨u,hu,hrun⟩
    have hstep : SignalHandling.step P b s = some u := hu
    rw [List.cons_append,executed,executed,hstep,Option.map_some,Option.map_some,Option.getD_some,
      Option.getD_some,ih hrun,List.append_assoc]

omit [DecidableEq Sig] in
theorem current_of_frames {sig : Sig} {f : F} {rest : List (Sig × F)} (hmain : s.main = .suspended)
    (hframes : s.frames = (sig,f) :: rest) : s.current .exec = some f := by
  rw [State.current,if_pos hmain,hframes]
  rfl

/-! The end of a run in which no more signals are sent -/

def Action.isSend : Action Sig → Bool
  | .send _ => true
  | _ => false

structure Idle (s : State Sig F D) : Prop where
  main : s.main = .suspended
  frames : s.frames = []
  pending : s.pending = ∅

theorem halted_iff : (∀ a : Action Sig, a.isSend = false → SignalHandling.step P a s = none) ↔
    s.main = .ended ∨ Idle s := by
  constructor
  · intro hnone
    have hexec := hnone .exec rfl
    cases hmain : s.main with
    | checking => simp [SignalHandling.step,hmain] at hexec
    | ended => exact .inl rfl
    | suspended =>
      have hframes : s.frames = [] := by
        cases hframes : s.frames with
        | nil => rfl
        | cons frame rest =>
          simp only [SignalHandling.step,hmain,hframes] at hexec
          split at hexec <;> cases hexec
      refine .inr ⟨hmain,hframes,Finset.eq_empty_of_forall_notMem fun sig hmem => ?_⟩
      have hdeliver := hnone (.deliver sig) rfl
      simp [SignalHandling.step,hmain,hframes,hmem] at hdeliver
  · rintro (hmain | ⟨hmain,hframes,hpending⟩) a ha
    · cases a with
      | send sig => cases ha
      | deliver sig => simp [SignalHandling.step,hmain]
      | exec => simp [SignalHandling.step,hmain]
    · cases a with
      | send sig => cases ha
      | deliver sig => simp [SignalHandling.step,hpending]
      | exec => simp [SignalHandling.step,hmain,hframes]

section Rank

variable {rank : F → ℕ}

/-- A handler goes on for so many steps at most. -/
def Program.Lowers (P : Program Sig F D) (rank : F → ℕ) : Prop :=
  ∀ {f d f' d'}, P.exec f d = (some f',d') → rank f' < rank f

def State.load (P : Program Sig F D) (rank : F → ℕ) (s : State Sig F D) : ℕ :=
  ∑ sig ∈ s.pending, (rank (P.enter sig) + 3) + (s.frames.map fun frame => rank frame.2 + 2).sum +
    if s.main = .checking then 1 else 0

theorem load_step (hP : P.Lowers rank) {a : Action Sig} (ha : a.isSend = false)
    (h : step P a s = some t) : t.load P rank + 1 ≤ s.load P rank := by
  rcases step_cases h with ⟨sig,rfl,-,-⟩ | ⟨sig,-,hmain,hmem,-,rfl⟩ | ⟨-,hmain,rfl⟩ |
    ⟨sig,f,rest,f',d,-,hmain,hframes,hexec,rfl⟩ | ⟨sig,f,rest,d,-,hmain,hframes,-,rfl⟩
  · cases ha
  · have hsum := Finset.sum_erase_add s.pending (fun sig => rank (P.enter sig) + 3) hmem
    simp only [State.load,List.map_cons,List.sum_cons,hmain]
    omega
  · simp only [State.load,hmain]
    split <;> simp
  · have hlt := hP hexec
    simp only [State.load,hframes,List.map_cons,List.sum_cons]
    omega
  · simp only [State.load,hframes,List.map_cons,List.sum_cons,hmain]
    split
    all_goals
      simp only [reduceCtorEq,if_true,if_false]
      omega

theorem length_le_load (hP : P.Lowers rank) {d : D} {as : List (Action Sig)}
    (has : ∀ a ∈ as, a.isSend = false) (h : (system P d).run as s = some t) :
    as.length ≤ s.load P rank := by
  induction as generalizing s with
  | nil => exact Nat.zero_le _
  | cons a as ih =>
    rcases System.run_cons_eq_some.1 h with ⟨u,hu,hrun⟩
    have hlow := load_step hP (has a List.mem_cons_self) hu
    have hrest := ih (fun b hb => has b (List.mem_cons_of_mem a hb)) hrun
    rw [List.length_cons]
    omega

/-- Without further signals a run comes to its end. -/
theorem exists_halted (hP : P.Lowers rank) (d : D) (s : State Sig F D) : ∃ as t,
    (∀ a ∈ as, a.isSend = false) ∧ (system P d).run as s = some t ∧ (t.main = .ended ∨ Idle t) := by
  induction hload : s.load P rank using Nat.strongRecOn generalizing s with
  | ind n ih =>
    by_cases hhalt : ∀ a : Action Sig, a.isSend = false → step P a s = none
    · exact ⟨[],s,fun a ha => absurd ha List.not_mem_nil,rfl,halted_iff.1 hhalt⟩
    · rcases not_forall.1 hhalt with ⟨a,ha⟩
      rcases Classical.not_imp.1 ha with ⟨ha,hne⟩
      rcases Option.ne_none_iff_exists'.1 hne with ⟨u,hu⟩
      have hlow := load_step hP ha hu
      rcases ih (u.load P rank) (by omega) u rfl with ⟨as,t,has,hrun,ht⟩
      exact ⟨a :: as,t,List.forall_mem_cons.2 ⟨ha,has⟩,System.run_cons_eq_some.2 ⟨u,hu,hrun⟩,ht⟩

end Rank

end Lemmas

end SignalHandling
end SomeCode
