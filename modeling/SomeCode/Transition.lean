import Mathlib

/-! Transition systems given by an executable step function.
A schedule is the list of actions taken, so a statement over every interleaving
is a statement over every list; nothing here depends on a particular program. -/
namespace SomeCode
namespace Transition

/-- An action is enabled exactly where its step is defined. -/
structure System (State Action : Type*) where
  start : State
  step : Action → State → Option State

namespace System

variable {State Action : Type*} (M : System State Action)

/-- Execute a whole schedule; `none` when some action of it is not enabled. -/
def run : List Action → State → Option State
  | [], s => some s
  | a :: as, s => (M.step a s).bind (run as)

def Reachable (s : State) : Prop := ∃ as, M.run as M.start = some s

def Stuck (s : State) : Prop := ∀ a, M.step a s = none

@[simp] theorem run_nil (s : State) : M.run [] s = some s := rfl

theorem run_cons (a : Action) (as : List Action) (s : State) :
    M.run (a :: as) s = (M.step a s).bind (M.run as) := rfl

theorem run_append (as bs : List Action) (s : State) :
    M.run (as ++ bs) s = (M.run as s).bind (M.run bs) := by
  induction as generalizing s with
  | nil => rfl
  | cons a as ih =>
    cases h : M.step a s with
    | none => simp [run_cons,h]
    | some t => simp [run_cons,h,ih]

variable {M}

theorem run_trans {as bs : List Action} {s t u : State}
    (hs : M.run as s = some t) (ht : M.run bs t = some u) : M.run (as ++ bs) s = some u := by
  rw [run_append,hs]
  exact ht

theorem run_single {a : Action} {s t : State} (h : M.step a s = some t) :
    M.run [a] s = some t := by
  simp [run_cons,h]

theorem run_cons_eq_some {a : Action} {as : List Action} {s u : State} :
    M.run (a :: as) s = some u ↔ ∃ t, M.step a s = some t ∧ M.run as t = some u := by
  simp [run_cons,Option.bind_eq_some_iff]

theorem run_concat_eq_some {a : Action} {as : List Action} {s u : State} :
    M.run (as ++ [a]) s = some u ↔ ∃ t, M.run as s = some t ∧ M.step a t = some u := by
  simp [run_append,run_cons,Option.bind_eq_some_iff]

/-- Step-by-step reasoning along a run, with the actions taken so far at hand. -/
theorem run_history {I : List Action → State → Prop} (h0 : I [] M.start)
    (hs : ∀ {as a s t}, I as s → M.step a s = some t → I (as ++ [a]) t)
    {as : List Action} {s : State} (h : M.run as M.start = some s) : I as s := by
  induction as using List.reverseRecOn generalizing s with
  | nil => exact Option.some.inj h ▸ h0
  | append_singleton as a ih =>
    obtain ⟨t,ht,hu⟩ := run_concat_eq_some.mp h
    exact hs (ih ht) hu

theorem Reachable.start : M.Reachable M.start := ⟨[],rfl⟩

theorem Reachable.run {s t : State} {as : List Action} (hs : M.Reachable s)
    (h : M.run as s = some t) : M.Reachable t := by
  obtain ⟨bs,hb⟩ := hs
  exact ⟨bs ++ as,run_trans hb h⟩

theorem Reachable.step {s t : State} {a : Action} (hs : M.Reachable s)
    (h : M.step a s = some t) : M.Reachable t :=
  hs.run (run_single h)

/-- No step leaves `I`. -/
structure Closed (M : System State Action) (I : State → Prop) : Prop where
  step : ∀ {a s t}, I s → M.step a s = some t → I t

/-- Moreover `I` holds at the start. -/
structure Invariant (M : System State Action) (I : State → Prop) : Prop extends Closed M I where
  start : I M.start

theorem Closed.run {I : State → Prop} (h : M.Closed I) {as : List Action} {s t : State}
    (hs : I s) (hr : M.run as s = some t) : I t := by
  induction as generalizing s with
  | nil => simpa [← Option.some.inj hr] using hs
  | cons a as ih =>
    obtain ⟨u,hu,ht⟩ := run_cons_eq_some.mp hr
    exact ih (h.step hs hu) ht

theorem Invariant.reachable {I : State → Prop} (h : M.Invariant I) {s : State}
    (hs : M.Reachable s) : I s := by
  obtain ⟨as,ha⟩ := hs
  exact h.run h.start ha

/-- Step-by-step reasoning along a run, with reachability of each state at hand. -/
theorem Reachable.induction {I : State → Prop} (h0 : I M.start)
    (hs : ∀ {a s t}, M.Reachable s → I s → M.step a s = some t → I t)
    {s : State} (h : M.Reachable s) : I s := by
  have hi : M.Invariant fun s => M.Reachable s ∧ I s :=
    ⟨⟨fun hr ht => ⟨hr.1.step ht,hs hr.1 hr.2 ht⟩⟩,⟨.start,h0⟩⟩
  exact (hi.reachable h).2

/-- A measure that each step lowers, up to an allowance for the action taken,
bounds the length of every run by the allowances the run uses. -/
theorem Closed.run_length_le {I : State → Prop} (h : M.Closed I) (μ : State → ℕ)
    (allow : Action → ℕ)
    (hμ : ∀ {a s t}, I s → M.step a s = some t → μ t + 1 ≤ μ s + allow a)
    {as : List Action} {s t : State} (hs : I s) (hr : M.run as s = some t) :
    as.length + μ t ≤ μ s + (as.map allow).sum := by
  induction as generalizing s with
  | nil => simp [← Option.some.inj hr]
  | cons a as ih =>
    obtain ⟨u,hu,ht⟩ := run_cons_eq_some.mp hr
    have h1 := hμ hs hu
    have h2 := ih (h.step hs hu) ht
    simp only [List.length_cons,List.map_cons,List.sum_cons]
    omega

section Rank

variable {R : ℕ → State → Prop}

/-- A relation to numbers that every step can lower bounds the length of the runs. -/
theorem run_length_le_of_rank (hR : ∀ {m a s t}, R m s → M.step a s = some t → ∃ n < m, R n t)
    {as : List Action} {m : ℕ} {s t : State} (hs : R m s) (hr : M.run as s = some t) :
    ∃ n, R n t ∧ as.length + n ≤ m := by
  induction as generalizing m s with
  | nil => exact ⟨m,by simpa [← Option.some.inj hr] using hs,by simp⟩
  | cons a as ih =>
    obtain ⟨u,hu,ht⟩ := run_cons_eq_some.mp hr
    obtain ⟨k,hk,hku⟩ := hR hs hu
    obtain ⟨n,hn,hle⟩ := ih hku ht
    exact ⟨n,hn,by simp only [List.length_cons]; omega⟩

theorem exists_stuck_of_rank (hR : ∀ {m a s t}, R m s → M.step a s = some t → ∃ n < m, R n t)
    {m : ℕ} {s : State} (hs : R m s) : ∃ as t, M.run as s = some t ∧ M.Stuck t := by
  induction m using Nat.strongRecOn generalizing s with
  | ind m ih =>
    by_cases hstuck : M.Stuck s
    · exact ⟨[],s,rfl,hstuck⟩
    · obtain ⟨a,ha⟩ := not_forall.mp hstuck
      obtain ⟨t,ht⟩ := Option.ne_none_iff_exists'.mp ha
      obtain ⟨n,hn,hnt⟩ := hR hs ht
      obtain ⟨as,u,hu,hst⟩ := ih n hn hnt
      exact ⟨a :: as,u,run_cons_eq_some.mpr ⟨t,ht,hu⟩,hst⟩

theorem Closed.rank_step {I : State → Prop} (h : M.Closed I) (μ : State → ℕ)
    (hμ : ∀ {a s t}, I s → M.step a s = some t → μ t < μ s) {m : ℕ} {a : Action} {s t : State}
    (hs : I s ∧ μ s = m) (ht : M.step a s = some t) : ∃ n < m, I t ∧ μ t = n :=
  ⟨μ t,hs.2 ▸ hμ hs.1 ht,h.step hs.1 ht,rfl⟩

theorem Invariant.bounded {I : State → Prop} (h : M.Invariant I) (μ : State → ℕ)
    (hμ : ∀ {a s t}, I s → M.step a s = some t → μ t < μ s) :
    ∃ bound, ∀ as s, M.run as M.start = some s → as.length ≤ bound := by
  refine ⟨μ M.start,fun as s hr => ?_⟩
  obtain ⟨n,-,hle⟩ := run_length_le_of_rank (h.rank_step μ hμ) ⟨h.start,rfl⟩ hr
  exact Nat.le_of_add_right_le hle

/-- Where a measure goes down, every state runs on to one with no enabled action. -/
theorem Closed.exists_stuck {I : State → Prop} (h : M.Closed I) (μ : State → ℕ)
    (hμ : ∀ {a s t}, I s → M.step a s = some t → μ t < μ s) {s : State} (hs : I s) :
    ∃ as t, M.run as s = some t ∧ M.Stuck t :=
  exists_stuck_of_rank (h.rank_step μ hμ) ⟨hs,rfl⟩

/-- Where the length of the runs is bounded, each of them goes on until no action is enabled. -/
theorem exists_stuck_of_bounded {bound : ℕ}
    (hbound : ∀ as s, M.run as M.start = some s → as.length ≤ bound) {s : State}
    (hs : M.Reachable s) : ∃ as t, M.run as s = some t ∧ M.Stuck t := by
  rcases hs with ⟨as,ha⟩
  refine exists_stuck_of_rank (R := fun m u => ∃ bs, M.run bs M.start = some u ∧
    bs.length+m = bound) ?_ ⟨as,ha,Nat.add_sub_of_le (hbound as s ha)⟩
  rintro m a u v ⟨bs,hb,hm⟩ hv
  have hrun := run_concat_eq_some.mpr ⟨u,hb,hv⟩
  have hle := hbound (bs ++ [a]) v hrun
  rw [List.length_append,List.length_singleton] at hle
  refine ⟨m-1,by omega,bs ++ [a],hrun,?_⟩
  rw [List.length_append,List.length_singleton]
  omega

end Rank

section Restrict

variable {P : State → Action → Prop} [∀ s a, Decidable (P s a)]

def restrict (M : System State Action) (P : State → Action → Prop) [∀ s a, Decidable (P s a)] :
    System State Action :=
  ⟨M.start,fun a s => if P s a then M.step a s else none⟩

theorem restrict_step_eq_some {a : Action} {s t : State} :
    (M.restrict P).step a s = some t ↔ P s a ∧ M.step a s = some t := by
  by_cases h : P s a <;> simp [restrict,h]

theorem run_of_restrict {as : List Action} {s t : State} (h : (M.restrict P).run as s = some t) :
    M.run as s = some t := by
  induction as generalizing s with
  | nil => exact h
  | cons a as ih =>
    obtain ⟨u,hu,ht⟩ := run_cons_eq_some.mp h
    exact run_cons_eq_some.mpr ⟨u,(restrict_step_eq_some.mp hu).2,ih ht⟩

theorem Reachable.of_restrict {s : State} (h : (M.restrict P).Reachable s) : M.Reachable s := by
  obtain ⟨as,ha⟩ := h
  exact ⟨as,run_of_restrict ha⟩

end Restrict

end System
end Transition
end SomeCode
