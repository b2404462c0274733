import SomeCode.MachineInt
import SomeCode.Transition

/-! The time limit of `inf14-2.c`: the parent starts a child and an alarm, waits in
`sigsuspend` for one signal, and its handlers leave two flags that decide the verdict.
The child and the clock take their steps between those of the parent. -/
namespace SomeCode
namespace TimedRunner

open MachineInt Transition

/-- The two signals that the parent has blocked. -/
inductive Signal
  | sigalrm
  | sigchld
  deriving DecidableEq

inductive Child
  | running
  | stopped
  | terminated (signaled : Bool)
  deriving DecidableEq

inductive Verdict
  | timeout
  | signaled
  | ok
  deriving DecidableEq

/-- What `main` does next; both calls of `waitpid` have their own place. -/
inductive Pc
  | fork
  | sigaction
  | alarm
  | sigsuspend
  | test
  | printTimeout
  | kill
  | waitKilled
  | waitpid
  | print
  | done (code : ℕ)
  deriving DecidableEq

/-- `armed` and `pending` are the kernel's; `expired` remembers, for an alarm that has
expired, whether the child had terminated before, and `killed` the `SIGTERM`. -/
structure State where
  pc : Pc
  childChecker : ℕ
  alarmChecker : ℕ
  child : Option Child
  armed : Bool
  pending : Signal → Bool
  expired : Option Bool
  killed : Bool
  output : List Verdict

def Child.isTerminated : Child → Bool
  | .terminated _ => true
  | _ => false

def State.terminated (s : State) : Bool := s.child.any Child.isTerminated

def handler (signal : Signal) (s : State) : State :=
  match signal with
  | .sigalrm => if s.childChecker = 0 then { s with alarmChecker := 1 } else s
  | .sigchld => { s with childChecker := 1 }

/-- `raise` makes a signal pending; one that is pending already stays a single one. -/
def State.raise (s : State) (signal : Signal) : State :=
  { s with pending := Function.update s.pending signal true }

/-- One step of `main` after it has blocked the signals, as the parent. -/
def main (liveTimeSec : ℤ) (s : State) : Option State :=
  match s.pc with
  | .fork => some { s with pc := .sigaction, child := some .running }
  | .sigaction => some { s with pc := .alarm }
  | .alarm => some { s with pc := .sigsuspend, armed := unsigned 32 liveTimeSec ≠ 0 }
  | .sigsuspend => none
  | .test => some { s with pc := if s.alarmChecker = 1 then .printTimeout else .waitpid }
  | .printTimeout => some { s with pc := .kill, output := s.output ++ [.timeout] }
  | .kill => some { s with pc := .waitKilled, killed := true }
  | .waitKilled => if s.terminated then some { s with pc := .done 2 } else none
  | .waitpid => if s.terminated then some { s with pc := .print } else none
  | .print =>
    if s.child = some (.terminated true) then
      some { s with pc := .done 1, output := s.output ++ [.signaled] }
    else some { s with pc := .done 0, output := s.output ++ [.ok] }
  | .done _ => none

/-- A step of the parent, of the child, of the clock, or the end of `sigsuspend` with the
handler of one pending signal. -/
inductive Action
  | parent
  | terminate (signaled : Bool)
  | stop
  | cont
  | expire
  | deliver (signal : Signal)
  deriving DecidableEq

/-- The handler runs with both signals blocked, and so does all after it: the mask from
before `sigsuspend` is back when it returns. -/
def deliver (signal : Signal) (s : State) : Option State :=
  if s.pc = .sigsuspend ∧ s.pending signal then
    some { handler signal { s with pending := Function.update s.pending signal false } with
      pc := .test }
  else none

def step (liveTimeSec : ℤ) (a : Action) (s : State) : Option State :=
  match a with
  | .parent => main liveTimeSec s
  | .terminate signaled =>
    match s.child with
    | some .running | some .stopped =>
      some ({ s with child := some (.terminated signaled) }.raise .sigchld)
    | _ => none
  | .stop =>
    match s.child with
    | some .running => some ({ s with child := some .stopped }.raise .sigchld)
    | _ => none
  | .cont =>
    match s.child with
    | some .stopped => some ({ s with child := some .running }.raise .sigchld)
    | _ => none
  | .expire =>
    if s.armed then
      some ({ s with armed := false, expired := some s.terminated }.raise .sigalrm)
    else none
  | .deliver signal => deliver signal s

def init : State := ⟨.fork,0,0,none,false,fun _ => false,none,false,[]⟩

def system (liveTimeSec : ℤ) : System State Action := ⟨init,step liveTimeSec⟩

/-- A timeout only for a child that outlived the alarm, and no unlimited wait for a child
that lives. -/
structure Safe (s : State) : Prop where
  timeout : .timeout ∈ s.output → s.expired = some false
  waitpid : s.pc = .waitpid → s.terminated

/-- The signal that ends `sigsuspend` is a `SIGCHLD` after the child has terminated, or a
`SIGALRM` that expired before. -/
def Timely (s : State) : Action → Prop
  | .deliver .sigchld => s.terminated
  | .deliver .sigalrm => s.expired = some false
  | _ => True

instance (s : State) (a : Action) : Decidable (Timely s a) := by
  cases a with
  | deliver signal => cases signal <;> exact inferInstanceAs (Decidable (_ = _))
  | _ => exact inferInstanceAs (Decidable True)

def Pc.early : Pc → Bool
  | .fork | .sigaction | .alarm | .sigsuspend => true
  | _ => false

/-- What a step of the child or of the clock leaves alone, and what it can change. -/
structure Event (s t : State) : Prop where
  pc : t.pc = s.pc
  childChecker : t.childChecker = s.childChecker
  alarmChecker : t.alarmChecker = s.alarmChecker
  output : t.output = s.output
  terminated : s.terminated → t.terminated
  clock : t.armed = s.armed ∧ t.expired = s.expired ∨ s.armed ∧ t.armed = false

/-- The alarm is set once. -/
structure Before (s : State) : Prop where
  pc : s.pc.early
  childChecker : s.childChecker = 0
  alarmChecker : s.alarmChecker = 0
  output : s.output = []
  early : s.pc ≠ .sigsuspend → s.armed = false ∧ s.expired = none
  clock : s.armed → s.expired = none

/-- After a `SIGALRM` that was in time -/
structure TimedOut (s : State) : Prop where
  pc : s.pc = .test ∨ s.pc = .printTimeout ∨ s.pc = .kill ∨ s.pc = .waitKilled ∨ s.pc = .done 2
  alarmChecker : s.alarmChecker = 1
  armed : s.armed = false
  expired : s.expired = some false

/-- After the `SIGCHLD` of a child that has terminated -/
structure Ended (s : State) : Prop where
  pc : s.pc = .test ∨ s.pc = .waitpid ∨ s.pc = .print ∨ s.pc = .done 1 ∨ s.pc = .done 0
  alarmChecker : s.alarmChecker = 0
  terminated : s.terminated
  output : .timeout ∉ s.output

def Decided (s : State) : Prop := TimedOut s ∨ Ended s

section Steps

variable {liveTimeSec : ℤ} {s t : State}

theorem event_step {a : Action} (h : step liveTimeSec a s = some t) (hp : a ≠ .parent)
    (hd : ∀ signal, a ≠ .deliver signal) : Event s t := by
  cases a with
  | parent => exact absurd rfl hp
  | deliver signal => exact absurd rfl (hd signal)
  | terminate signaled =>
    simp only [step] at h
    split at h <;> cases h <;> exact ⟨rfl,rfl,rfl,rfl,fun _ => rfl,.inl ⟨rfl,rfl⟩⟩
  | stop =>
    simp only [step] at h
    split at h <;> cases h
    rename_i hc
    exact ⟨rfl,rfl,rfl,rfl,fun hs => by simp [State.terminated,hc,Child.isTerminated] at hs,
      .inl ⟨rfl,rfl⟩⟩
  | cont =>
    simp only [step] at h
    split at h <;> cases h
    rename_i hc
    exact ⟨rfl,rfl,rfl,rfl,fun hs => by simp [State.terminated,hc,Child.isTerminated] at hs,
      .inl ⟨rfl,rfl⟩⟩
  | expire =>
    simp only [step] at h
    split_ifs at h with ha
    cases h
    exact ⟨rfl,rfl,rfl,rfl,id,.inr ⟨ha,rfl⟩⟩

theorem Before.event (hb : Before s) (he : Event s t) : Before t := by
  refine ⟨he.pc ▸ hb.pc,he.childChecker ▸ hb.childChecker,he.alarmChecker ▸ hb.alarmChecker,
    he.output ▸ hb.output,fun hpc => ?_,fun ha => ?_⟩
  · have hearly := hb.early (he.pc ▸ hpc)
    obtain ⟨harmed,hexp⟩ | ⟨harmed,-⟩ := he.clock
    · exact ⟨harmed.trans hearly.1,hexp.trans hearly.2⟩
    · simp [hearly.1] at harmed
  · obtain ⟨harmed,hexp⟩ | ⟨-,harmed⟩ := he.clock
    · exact hexp.trans (hb.clock (harmed ▸ ha))
    · simp [harmed] at ha

theorem TimedOut.event (ho : TimedOut s) (he : Event s t) : TimedOut t := by
  obtain ⟨harmed,hexp⟩ | ⟨harmed,-⟩ := he.clock
  · exact ⟨he.pc ▸ ho.pc,he.alarmChecker ▸ ho.alarmChecker,harmed.trans ho.armed,
      hexp.trans ho.expired⟩
  · simp [ho.armed] at harmed

theorem Ended.event (hd : Ended s) (he : Event s t) : Ended t :=
  ⟨he.pc ▸ hd.pc,he.alarmChecker ▸ hd.alarmChecker,he.terminated hd.terminated,he.output ▸ hd.output⟩

theorem Before.parent (hb : Before s) (h : main liveTimeSec s = some t) : Before t := by
  have hearly := hb.early
  have hpc := hb.pc
  cases hcur : s.pc <;> simp only [main,hcur] at h <;> simp only [hcur,Pc.early] at hpc
  case fork | sigaction =>
    cases h
    exact { hb with pc := rfl, early := fun _ => hearly (by simp [hcur]) }
  case alarm =>
    cases h
    exact { hb with
      pc := rfl
      early := by simp
      clock := fun _ => (hearly (by simp [hcur])).2 }
  case sigsuspend => cases h
  all_goals cases hpc

theorem TimedOut.parent (ho : TimedOut s) (h : main liveTimeSec s = some t) : TimedOut t := by
  obtain hpc | hpc | hpc | hpc | hpc := ho.pc <;> simp only [main,hpc] at h
  case inl =>
    rw [if_pos ho.alarmChecker] at h
    cases h
    exact { ho with pc := by simp }
  case inr.inr.inr.inl =>
    split_ifs at h
    cases h
    exact { ho with pc := by simp }
  case inr.inr.inr.inr => cases h
  all_goals
    cases h
    exact { ho with pc := by simp }

theorem Ended.parent (hd : Ended s) (h : main liveTimeSec s = some t) : Ended t := by
  obtain hpc | hpc | hpc | hpc | hpc := hd.pc <;> simp only [main,hpc] at h
  case inl =>
    rw [if_neg (by simp [hd.alarmChecker])] at h
    cases h
    exact { hd with pc := by simp }
  case inr.inl =>
    split_ifs at h
    cases h
    exact { hd with pc := by simp }
  case inr.inr.inl =>
    split_ifs at h
    · cases h
      exact { hd with pc := by simp, output := by simp [hd.output] }
    · cases h
      exact { hd with pc := by simp, output := by simp [hd.output] }
  all_goals cases h

theorem deliver_eq_some {signal : Signal} (h : deliver signal s = some t) :
    s.pc = .sigsuspend ∧ t = { handler signal
      { s with pending := Function.update s.pending signal false } with pc := .test } := by
  simp only [deliver] at h
  split_ifs at h with hc
  cases h
  exact ⟨hc.1,rfl⟩

theorem Before.deliver {signal : Signal} (hb : Before s) (h : deliver signal s = some t)
    (ht : Timely s (.deliver signal)) : TimedOut t ∨ Ended t := by
  obtain ⟨hpc,rfl⟩ := deliver_eq_some h
  cases signal with
  | sigalrm =>
    refine .inl ⟨?_,?_,?_,?_⟩ <;> simp only [handler,hb.childChecker,if_true]
    · simp
    · by_contra ha
      have hnone := hb.clock (by simpa using ha)
      rw [Timely,hnone] at ht
      cases ht
    · exact ht
  | sigchld =>
    refine .inr ⟨?_,?_,?_,?_⟩ <;> simp only [handler]
    · simp
    · exact hb.alarmChecker
    · exact ht
    · simp [hb.output]

theorem Before.step {a : Action} (hb : Before s) (h : step liveTimeSec a s = some t)
    (ht : Timely s a) : Before t ∨ Decided t := by
  cases a with
  | parent => exact .inl (hb.parent h)
  | deliver signal => exact .inr (hb.deliver h ht)
  | _ => exact .inl (hb.event (event_step h (by simp) (by simp)))

theorem Decided.late (hd : Decided s) : s.pc.early = false := by
  obtain ho | he := hd
  · obtain hp | hp | hp | hp | hp := ho.pc <;> simp [hp,Pc.early]
  · obtain hp | hp | hp | hp | hp := he.pc <;> simp [hp,Pc.early]

/-- No signal is delivered any more, so the verdict stays. -/
theorem Decided.step {a : Action} (hd : Decided s) (h : step liveTimeSec a s = some t) :
    Decided t := by
  cases a with
  | parent => exact hd.imp (fun ho => ho.parent h) fun he => he.parent h
  | deliver signal =>
    have hlate := hd.late
    rw [(deliver_eq_some h).1] at hlate
    cases hlate
  | _ =>
    have hev := event_step h (by simp) (by simp)
    exact hd.imp (fun ho => ho.event hev) fun he => he.event hev

theorem before_init : Before init := ⟨rfl,rfl,rfl,rfl,fun _ => ⟨rfl,rfl⟩,fun _ => rfl⟩

theorem timely_invariant (liveTimeSec : ℤ) :
    ((system liveTimeSec).restrict Timely).Invariant fun s => Before s ∨ Decided s where
  step hi h := by
    obtain ⟨ht,h⟩ := System.restrict_step_eq_some.mp h
    exact hi.elim (fun hb => hb.step h ht) fun hd => .inr (hd.step h)
  start := .inl before_init

theorem Before.safe (hb : Before s) : Safe s := by
  refine ⟨fun hm => by simp [hb.output] at hm,fun hpc => ?_⟩
  have hp := hb.pc
  rw [hpc] at hp
  cases hp

theorem Decided.safe (hd : Decided s) : Safe s := by
  obtain ho | he := hd
  · refine ⟨fun _ => ho.expired,fun hpc => ?_⟩
    have hp := ho.pc
    simp [hpc] at hp
  · exact ⟨fun hm => absurd hm he.output,fun _ => he.terminated⟩

end Steps

section Exact

variable {liveTimeSec : ℤ} {s t : State}

theorem late_parent (hl : s.pc.early = false) (h : main liveTimeSec s = some t) :
    t.pc.early = false := by
  cases hpc : s.pc <;> simp only [main,hpc] at h <;> simp only [hpc,Pc.early] at hl
  case test =>
    cases h
    dsimp only
    split_ifs <;> rfl
  case waitKilled | waitpid | print => split_ifs at h <;> cases h <;> rfl
  case printTimeout | kill => cases h; rfl
  case done => cases h
  all_goals cases hl

theorem started_step {a : Action} (hs : Before s ∨ s.pc.early = false)
    (h : step liveTimeSec a s = some t) : Before t ∨ t.pc.early = false := by
  cases a with
  | parent =>
    obtain hb | hl := hs
    · exact .inl (hb.parent h)
    · exact .inr (late_parent hl h)
  | deliver signal =>
    obtain ⟨-,rfl⟩ := deliver_eq_some h
    exact .inr rfl
  | _ =>
    have he := event_step h (by simp) (by simp)
    obtain hb | hl := hs
    · exact .inl (hb.event he)
    · exact .inr (he.pc ▸ hl)

theorem started_invariant (liveTimeSec : ℤ) : (system liveTimeSec).Invariant fun s =>
    Before s ∨ s.pc.early = false where
  step hs h := started_step hs h
  start := .inl before_init

theorem run_timeout (liveTimeSec : ℤ) (s : State) (hpc : s.pc = .test) (ha : s.alarmChecker = 1) :
    (system liveTimeSec).run [.parent,.parent] s =
      some { s with pc := .kill, output := s.output ++ [.timeout] } := by
  simp [System.run_cons,system,step,main,hpc,ha]

theorem run_waitpid (liveTimeSec : ℤ) (s : State) (hpc : s.pc = .test) (ha : s.alarmChecker = 0) :
    (system liveTimeSec).run [.parent] s = some { s with pc := .waitpid } := by
  simp [System.run_cons,system,step,main,hpc,ha]

/-- A signal that is not in time leads on to the wrong verdict. -/
theorem exists_unsafe {signal : Signal} (hb : Before s) (h : deliver signal s = some t)
    (ht : ¬ Timely s (.deliver signal)) :
    ∃ as u, (system liveTimeSec).run as t = some u ∧ ¬ Safe u := by
  obtain ⟨hpc,rfl⟩ := deliver_eq_some h
  cases signal with
  | sigalrm =>
    have hrun := run_timeout liveTimeSec { handler .sigalrm
      { s with pending := Function.update s.pending .sigalrm false } with pc := .test } rfl
      (by simp [handler,hb.childChecker])
    refine ⟨_,_,hrun,fun hsafe => ht ?_⟩
    have hexp := hsafe.timeout (by simp)
    simpa [handler,hb.childChecker,Timely] using hexp
  | sigchld =>
    have hrun := run_waitpid liveTimeSec { handler .sigchld
      { s with pending := Function.update s.pending .sigchld false } with pc := .test } rfl
      hb.alarmChecker
    exact ⟨_,_,hrun,fun hsafe => ht (hsafe.waitpid rfl)⟩

end Exact

/-- Over all orders of the events: which runs are safe, and that every other signal goes on
to a state that is not. -/
structure SafeWhen (liveTimeSec : ℤ) : Prop where
  safe : ∀ s, ((system liveTimeSec).restrict Timely).Reachable s → Safe s
  exact : ∀ s, (system liveTimeSec).Reachable s → ∀ signal t, deliver signal s = some t →
    (Timely s (.deliver signal) ↔ ∀ as u, (system liveTimeSec).run as t = some u → Safe u)

theorem safe_when_timely (liveTimeSec : ℤ) : SafeWhen liveTimeSec where
  safe s hr := ((timely_invariant liveTimeSec).reachable hr).elim Before.safe Decided.safe
  exact s hr signal t h := by
    obtain hb | hl := (started_invariant liveTimeSec).reachable hr
    · constructor
      · intro ht as u hu
        have hclosed : (system liveTimeSec).Closed Decided := ⟨fun hd h => hd.step h⟩
        exact (hclosed.run (hb.deliver h ht) hu).safe
      · intro hall
        by_contra ht
        have hex : ∃ as u, (system liveTimeSec).run as t = some u ∧ ¬ Safe u :=
          exists_unsafe hb h ht
        obtain ⟨as,u,hu,hearly⟩ := hex
        exact hearly (hall as u hu)
    · rw [(deliver_eq_some h).1] at hl
      cases hl

/-- A child that is stopped is taken for one that has ended, and a child that ended before
the alarm for one that was too slow. -/
theorem unsafe_runs :
    (∃ s, (system 10).Reachable s ∧ s.pc = .waitpid ∧ s.child = some .stopped ∧ ¬ Safe s) ∧
    ∃ s, (system 10).Reachable s ∧ s.output = [.timeout] ∧ s.expired = some true ∧ ¬ Safe s := by
  constructor
  · refine ⟨_,⟨[.parent,.parent,.parent,.stop,.deliver .sigchld,.parent],rfl⟩,rfl,rfl,fun h => ?_⟩
    exact absurd (h.waitpid rfl) (by decide)
  · refine ⟨_,⟨[.parent,.parent,.parent,.terminate false,.expire,.deliver .sigalrm,.parent,.parent],
      rfl⟩,rfl,rfl,fun h => ?_⟩
    exact absurd (h.timeout (by decide)) (by decide)

end TimedRunner
end SomeCode
