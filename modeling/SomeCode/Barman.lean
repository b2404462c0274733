import SomeCode.Contributors
import SomeCode.MachineInt
import SomeCode.Transition
import Mathlib.Algebra.Order.BigOperators.Group.Finset

/-! The barman and the three smokers of `inf20-2.c`. Letters pass through one shared
cell under two semaphores; at the end the barman stops the smokers by `SIGTERM`, which
sets a flag in the process it is sent to. -/
namespace SomeCode
namespace Barman

open Contributors MachineInt Transition

/-- What `barman_work` and the waiting loop of `main` do next. The counter of a loop is
with its program points. -/
inductive BarmanPc
  | store
  | post
  | wait
  | kill (i : ℕ)
  | shutPost (i : ℕ)
  | shutKill (i : Fin 3)
  | waitpid (i : ℕ)
  | done
  deriving DecidableEq

/-- What `smoker_work` does next; a smoker starts before its call of `sigaction`. -/
inductive SmokerPc
  | sigaction
  | loop
  | wait
  | check
  | print
  | flush
  | give
  | exited
  deriving DecidableEq

/-- `checker` is the flag in the memory of the process and `stdout` what it has printed
and not flushed; `pending` says that a `SIGTERM` is on its way. -/
structure Smoker where
  pc : SmokerPc
  checker : Bool
  pending : Bool
  stdout : List UInt8

/-- `rest` are the letters that the barman is still to hand over. -/
structure State where
  barman : BarmanPc
  rest : List UInt8
  take : ℕ
  give : ℕ
  item : UInt8
  smokers : Fin 3 → Smoker
  output : List UInt8

/-- `printf ("%c ", item)` -/
def formatItem (item : UInt8) : List UInt8 := [item,32]

def State.setSmoker (s : State) (i : Fin 3) (m : Smoker) : State :=
  { s with smokers := Function.update s.smokers i m }

def State.kill (s : State) (i : Fin 3) : State :=
  s.setSmoker i { s.smokers i with pending := true }

/-- One step of `barman_work`, and of the calls of `waitpid` after it. -/
def barmanWork (s : State) : Option State :=
  match s.barman with
  | .store =>
    match s.rest with
    | [] => some { s with barman := .kill 0 }
    | c :: rest => some { s with barman := .post, item := c, rest := rest }
  | .post => some { s with barman := .wait, take := s.take+1 }
  | .wait =>
    if 0 < s.give then some { s with barman := .store, give := s.give-1 } else none
  | .kill i =>
    if h : i < 3 then some { s.kill ⟨i,h⟩ with barman := .kill (i+1) }
    else some { s with barman := .shutPost 0 }
  | .shutPost i =>
    if h : i < 3 then some { s with barman := .shutKill ⟨i,h⟩, take := s.take+1 }
    else some { s with barman := .waitpid 0 }
  | .shutKill i => some { s.kill i with barman := .shutPost (i+1) }
  | .waitpid i =>
    if h : i < 3 then
      if (s.smokers ⟨i,h⟩).pc = .exited then some { s with barman := .waitpid (i+1) } else none
    else some { s with barman := .done }
  | .done => none

/-- One step of `smoker_work`. A pending signal comes first: it runs `handler`, or ends
the process when `sigaction` has not installed it. -/
def smokerWork (i : Fin 3) (s : State) : Option State :=
  let m := s.smokers i
  if m.pc = .exited then none
  else if m.pending then
    if m.pc = .sigaction then some (s.setSmoker i { m with pc := .exited, pending := false })
    else some (s.setSmoker i { m with checker := false, pending := false })
  else
    match m.pc with
    | .sigaction => some (s.setSmoker i { m with pc := .loop })
    | .loop => some (s.setSmoker i { m with pc := if m.checker then .wait else .exited })
    | .wait =>
      if 0 < s.take then some { s.setSmoker i { m with pc := .check } with take := s.take-1 }
      else none
    | .check => some (s.setSmoker i { m with pc := if m.checker then .print else .exited })
    | .print =>
      some (s.setSmoker i { m with pc := .flush, stdout := m.stdout ++ formatItem s.item })
    | .flush =>
      some { s.setSmoker i { m with pc := .give, stdout := [] } with
        output := s.output ++ m.stdout }
    | .give => some { s.setSmoker i { m with pc := .loop } with give := s.give+1 }
    | .exited => none

inductive Action
  | barman
  | smoker (i : Fin 3)
  deriving DecidableEq

def step : Action → State → Option State
  | .barman, s => barmanWork s
  | .smoker i, s => smokerWork i s

/-- After the forks, with the letters that the barman will hand over. -/
def init (letters : List UInt8) : State :=
  ⟨.store,letters,0,0,0,fun _ => ⟨.sigaction,true,false,[]⟩,[]⟩

def system (letters : List UInt8) : System State Action := ⟨init letters,step⟩

def Finished (s : State) : Prop := s.barman = .done ∧ ∀ i, (s.smokers i).pc = .exited

/-- What the smokers are to print for the letters. -/
def format (letters : List UInt8) : List UInt8 := letters.flatMap formatItem

theorem format_append (xs ys : List UInt8) : format (xs ++ ys) = format xs ++ format ys :=
  List.flatMap_append

@[simp] theorem format_singleton (c : UInt8) : format [c] = formatItem c := by simp [format]

def BarmanPc.shutdown : BarmanPc → Bool
  | .store | .post | .wait => false
  | _ => true

structure Idle (m : Smoker) : Prop where
  pc : m.pc = .sigaction ∨ m.pc = .loop ∨ m.pc = .wait
  checker : m.checker
  pending : m.pending = false
  stdout : m.stdout = []

/-- The smoker that has taken the letter `c`, when the letters before it are printed. -/
structure Serving (posted : List UInt8) (c : UInt8) (output : List UInt8) (m : Smoker) : Prop where
  pc : m.pc = .check ∨ m.pc = .print ∨ m.pc = .flush ∨ m.pc = .give
  checker : m.checker
  pending : m.pending = false
  stdout : m.stdout = if m.pc = .flush then formatItem c else []
  output : output = format (if m.pc = .give then posted ++ [c] else posted)

structure Leaving (m : Smoker) : Prop where
  pc : m.pc = .sigaction ∨ m.pc = .loop ∨ m.pc = .wait ∨ m.pc = .check ∨ m.pc = .exited
  told : m.pc = .exited ∨ m.pending ∨ m.checker = false
  stdout : m.stdout = []

inductive InHand (posted : List UInt8) (s : State) : Prop
  | posted (take : s.take = 1) (give : s.give = 0) (idle : ∀ i, Idle (s.smokers i))
      (output : s.output = format posted)
  | taken (i : Fin 3) (take : s.take = 0) (give : s.give = 0)
      (idle : ∀ j, j ≠ i → Idle (s.smokers j))
      (serving : Serving posted s.item s.output (s.smokers i))
  | given (take : s.take = 0) (give : s.give = 1) (idle : ∀ i, Idle (s.smokers i))
      (output : s.output = format (posted ++ [s.item]))

def SmokerPc.needy : SmokerPc → ℕ
  | .sigaction | .loop | .wait => 1
  | _ => 0

/-- The tokens that the barman is still to post when it stops the smokers. -/
def BarmanPc.toPost : BarmanPc → ℕ
  | .kill _ => 3
  | .shutPost i => 3-i
  | .shutKill i => 2-i
  | _ => 0

def BarmanPc.told : BarmanPc → Fin 3 → Prop
  | .kill k, i => i < k
  | _, _ => True

def BarmanPc.reaped : BarmanPc → Fin 3 → Prop
  | .waitpid k, i => i < k
  | .done, _ => True
  | _, _ => False

structure Stopping (letters : List UInt8) (s : State) : Prop where
  rest : s.rest = []
  output : s.output = format letters
  told : ∀ i, s.barman.told i → Leaving (s.smokers i)
  untold : ∀ i, ¬ s.barman.told i → Idle (s.smokers i) ∧ s.take = 0
  tokens : ∑ i, (s.smokers i).pc.needy ≤ s.take + s.barman.toPost
  reaped : ∀ i, s.barman.reaped i → (s.smokers i).pc = .exited

/-- What holds at each point of the barman, with the letters handed over before. -/
def Inv (letters : List UInt8) (s : State) : Prop :=
  match s.barman with
  | .store => ∃ posted, letters = posted ++ s.rest ∧ s.take = 0 ∧ s.give = 0 ∧
      (∀ i, Idle (s.smokers i)) ∧ s.output = format posted
  | .post => ∃ posted, letters = posted ++ s.item :: s.rest ∧ s.take = 0 ∧ s.give = 0 ∧
      (∀ i, Idle (s.smokers i)) ∧ s.output = format posted
  | .wait => ∃ posted, letters = posted ++ s.item :: s.rest ∧ InHand posted s
  | _ => Stopping letters s

section Smoker

variable {letters posted : List UInt8} {s s' : State} {i j : Fin 3} {m : Smoker}

theorem setSmoker_self (s : State) (i : Fin 3) (m : Smoker) : (s.setSmoker i m).smokers i = m :=
  Function.update_self ..

theorem setSmoker_ne (m : Smoker) (h : j ≠ i) : (s.setSmoker i m).smokers j = s.smokers j :=
  Function.update_of_ne h ..

theorem of_setSmoker {P : Smoker → Prop} (hm : j = i → P m) (h : j ≠ i → P (s.smokers j)) :
    P ((s.setSmoker i m).smokers j) := by
  by_cases hji : j = i
  · subst hji
    rw [setSmoker_self]
    exact hm rfl
  · rw [setSmoker_ne m hji]
    exact h hji

theorem forall_setSmoker {P : Smoker → Prop} (hm : P m) (h : ∀ j, j ≠ i → P (s.smokers j)) :
    ∀ j, P ((s.setSmoker i m).smokers j) :=
  (Function.forall_update_iff s.smokers fun _ => P).mpr ⟨hm,h⟩

theorem idle_step (h : Idle (s.smokers i)) (hs : smokerWork i s = some s') :
    (∃ m, s' = s.setSmoker i m ∧ Idle m ∧ m.pc.needy = (s.smokers i).pc.needy) ∨
    (∃ m, s' = { s.setSmoker i m with take := s.take-1 } ∧ 0 < s.take ∧
      ∀ posted c, Serving posted c (format posted) m) := by
  have hc := h.checker
  have hout := h.stdout
  simp only [smokerWork,h.pending] at hs
  obtain hpc | hpc | hpc := h.pc <;> simp only [hpc] at hs
  · cases hs
    exact .inl ⟨_,rfl,⟨.inr (.inl rfl),hc,rfl,hout⟩,by simp [hpc,SmokerPc.needy]⟩
  · cases hs
    exact .inl ⟨_,rfl,⟨.inr (.inr (if_pos hc)),hc,rfl,hout⟩,by simp [hpc,hc,SmokerPc.needy]⟩
  · simp only [reduceCtorEq,if_false,Bool.false_eq_true] at hs
    split at hs
    · rename_i htake
      cases hs
      exact .inr ⟨_,rfl,htake,fun posted c => ⟨.inl rfl,hc,rfl,hout,rfl⟩⟩
    · cases hs

theorem serving_step (h : Serving posted s.item s.output (s.smokers i))
    (hs : smokerWork i s = some s') :
    (∃ m o, s' = { s.setSmoker i m with output := o } ∧ Serving posted s.item o m) ∨
    (∃ m, s' = { s.setSmoker i m with give := s.give+1 } ∧ Idle m ∧
      s.output = format (posted ++ [s.item])) := by
  have hc := h.checker
  have hout := h.stdout
  have hprinted := h.output
  simp only [smokerWork,h.pending] at hs
  obtain hpc | hpc | hpc | hpc := h.pc <;> simp only [hpc] at hs hout hprinted
  · cases hs
    exact .inl ⟨_,s.output,rfl,.inr (.inl (if_pos hc)),hc,rfl,by simpa [hc] using hout,
      by simpa [hc] using hprinted⟩
  · cases hs
    exact .inl ⟨_,s.output,rfl,.inr (.inr (.inl rfl)),hc,rfl,by simpa using hout,
      by simpa using hprinted⟩
  · cases hs
    refine .inl ⟨_,_,rfl,.inr (.inr (.inr rfl)),hc,rfl,rfl,?_⟩
    simp at hout hprinted
    simp [hout,hprinted,format_append]
  · cases hs
    exact .inr ⟨_,rfl,⟨.inr (.inl rfl),hc,rfl,by simpa using hout⟩,by simpa using hprinted⟩

/-- A smoker that has been told to stop takes at most one more token on its way out. -/
theorem leaving_step (h : Leaving (s.smokers i)) (hs : smokerWork i s = some s') :
    (s.smokers i).pc ≠ .exited ∧
      ((∃ m, s' = s.setSmoker i m ∧ Leaving m ∧ m.pc.needy ≤ (s.smokers i).pc.needy) ∨
      (∃ m, s' = { s.setSmoker i m with take := s.take-1 } ∧ Leaving m ∧
        m.pc.needy + 1 = (s.smokers i).pc.needy ∧ 0 < s.take)) := by
  have hout := h.stdout
  simp only [smokerWork] at hs
  split at hs
  · cases hs
  rename_i hne
  refine ⟨hne,?_⟩
  have htold := h.told.resolve_left hne
  split at hs
  · split at hs
    · cases hs
      exact .inl ⟨_,rfl,⟨by simp,.inl rfl,hout⟩,by simp [SmokerPc.needy]⟩
    · cases hs
      exact .inl ⟨_,rfl,⟨h.pc,.inr (.inr rfl),hout⟩,le_rfl⟩
  · rename_i hpend
    have hc := htold.resolve_left hpend
    obtain hpc | hpc | hpc | hpc | hpc := h.pc <;> simp only [hpc] at hs
    · cases hs
      exact .inl ⟨_,rfl,⟨by simp,.inr (.inr hc),hout⟩,by simp [hpc,SmokerPc.needy]⟩
    · cases hs
      exact .inl ⟨_,rfl,⟨by simp [hc],.inr (.inr hc),hout⟩,by simp [hc,SmokerPc.needy]⟩
    · split at hs
      · rename_i htake
        cases hs
        exact .inr ⟨_,rfl,⟨by simp,.inr (.inr hc),hout⟩,by simp [hpc,SmokerPc.needy],htake⟩
      · cases hs
    · cases hs
      exact .inl ⟨_,rfl,⟨by simp [hc],.inr (.inr hc),hout⟩,by simp [hc,SmokerPc.needy]⟩
    · exact absurd hpc hne

theorem Idle.kill (h : Idle m) : Leaving { m with pending := true } :=
  ⟨by obtain h | h | h := h.pc <;> simp [h],.inr (.inl rfl),h.stdout⟩

theorem Leaving.kill (h : Leaving m) : Leaving { m with pending := true } :=
  ⟨h.pc,.inr (.inl rfl),h.stdout⟩

theorem kill_pc (s : State) (i j : Fin 3) : ((s.kill i).smokers j).pc = (s.smokers j).pc := by
  by_cases h : j = i
  · subst h
    rw [State.kill,setSmoker_self]
  · rw [State.kill,setSmoker_ne _ h]

theorem sum_needy_le (s : State) : ∑ i, (s.smokers i).pc.needy ≤ 3 := by
  have hle : ∀ pc : SmokerPc, pc.needy ≤ 1 := fun pc => by cases pc <;> simp [SmokerPc.needy]
  have h0 := hle (s.smokers 0).pc
  have h1 := hle (s.smokers 1).pc
  have h2 := hle (s.smokers 2).pc
  rw [Fin.sum_univ_three]
  omega

end Smoker

section Steps

variable {letters posted : List UInt8} {s s' : State} {i : Fin 3}

theorem idle_step_of_take (h : Idle (s.smokers i)) (ht : s.take = 0)
    (hs : smokerWork i s = some s') :
    ∃ m, s' = s.setSmoker i m ∧ Idle m ∧ m.pc.needy = (s.smokers i).pc.needy :=
  (idle_step h hs).resolve_right fun ⟨_,_,htake,_⟩ => by omega

theorem InHand.smoker_step (h : InHand posted s) (hs : smokerWork i s = some s') :
    s'.barman = s.barman ∧ s'.rest = s.rest ∧ s'.item = s.item ∧ InHand posted s' := by
  cases h with
  | posted take give idle output =>
    obtain ⟨m,rfl,hm,-⟩ | ⟨m,rfl,-,hm⟩ := idle_step (idle i) hs
    · exact ⟨rfl,rfl,rfl,.posted take give (forall_setSmoker hm fun j _ => idle j) output⟩
    · refine ⟨rfl,rfl,rfl,.taken i ?_ give ?_ ?_⟩
      · simp [take]
      · exact fun j hj => (setSmoker_ne m hj).symm ▸ idle j
      · have hserve := hm posted s.item
        rw [← output] at hserve
        exact (setSmoker_self s i m).symm ▸ hserve
  | taken k take give idle serving =>
    obtain rfl | hne := eq_or_ne i k
    · obtain ⟨m,o,rfl,hm⟩ | ⟨m,rfl,hm,ho⟩ := serving_step serving hs
      · refine ⟨rfl,rfl,rfl,.taken i take give ?_ ?_⟩
        · exact fun j hj => (setSmoker_ne m hj).symm ▸ idle j hj
        · exact (setSmoker_self s i m).symm ▸ hm
      · exact ⟨rfl,rfl,rfl,.given take (by simp [give]) (forall_setSmoker hm idle) ho⟩
    · obtain ⟨m,rfl,hm,-⟩ := idle_step_of_take (idle i hne) take hs
      refine ⟨rfl,rfl,rfl,.taken k take give ?_ ?_⟩
      · exact fun j hj => of_setSmoker (fun _ => hm) fun _ => idle j hj
      · exact (setSmoker_ne m hne.symm).symm ▸ serving
  | given take give idle output =>
    obtain ⟨m,rfl,hm,-⟩ := idle_step_of_take (idle i) take hs
    exact ⟨rfl,rfl,rfl,.given take give (forall_setSmoker hm fun j _ => idle j) output⟩

theorem Stopping.smoker_step (h : Stopping letters s) (hs : smokerWork i s = some s') :
    s'.barman = s.barman ∧ Stopping letters s' := by
  have hsum := fun m => sum_update (fun m : Smoker => m.pc.needy) s.smokers i m
  have htokens := h.tokens
  by_cases htold : s.barman.told i
  · obtain ⟨hne,⟨m,rfl,hm,hle⟩ | ⟨m,rfl,hm,hlt,htake⟩⟩ := leaving_step (h.told i htold) hs
    all_goals
      have hsum := hsum m
      refine ⟨rfl,h.rest,h.output,fun j hj => ?_,fun j hj => ?_,?_,fun j hj => ?_⟩
    case inl.refine_1 | inr.refine_1 => exact of_setSmoker (fun _ => hm) fun _ => h.told j hj
    case inl.refine_2 | inr.refine_2 =>
      have hji : j ≠ i := fun he => hj (he ▸ htold)
      have hidle := h.untold j hj
      exact ⟨(setSmoker_ne m hji).symm ▸ hidle.1,by simp [State.setSmoker,hidle.2]⟩
    case inl.refine_3 | inr.refine_3 =>
      simp only [State.setSmoker] at hsum ⊢
      omega
    case inl.refine_4 | inr.refine_4 =>
      have hji : j ≠ i := fun he => hne (he ▸ h.reaped j hj)
      exact (setSmoker_ne m hji).symm ▸ h.reaped j hj
  · obtain ⟨hidle,htake⟩ := h.untold i htold
    obtain ⟨m,rfl,hm,heq⟩ := idle_step_of_take hidle htake hs
    have hsum := hsum m
    refine ⟨rfl,h.rest,h.output,fun j hj => ?_,fun j hj => ?_,?_,fun j hj => ?_⟩
    · have hji : j ≠ i := fun he => htold (he ▸ hj)
      exact (setSmoker_ne m hji).symm ▸ h.told j hj
    · exact ⟨of_setSmoker (fun _ => hm) fun _ => (h.untold j hj).1,htake⟩
    · simp only [State.setSmoker] at hsum ⊢
      omega
    · have hji : j ≠ i := by
        rintro rfl
        exact absurd hidle.pc (by simp [h.reaped j hj])
      exact (setSmoker_ne m hji).symm ▸ h.reaped j hj

theorem inv_of_stopping (hb : s.barman.shutdown) (h : Stopping letters s) : Inv letters s := by
  unfold Inv
  cases hpc : s.barman <;> simp_all [BarmanPc.shutdown]

theorem Inv.stopping (hi : Inv letters s) (hb : s.barman.shutdown) : Stopping letters s := by
  unfold Inv at hi
  cases hpc : s.barman <;> simp_all [BarmanPc.shutdown]

theorem Inv.smoker_step (hi : Inv letters s) (hs : smokerWork i s = some s') : Inv letters s' := by
  cases hb : s.barman
  case store =>
    simp only [Inv,hb] at hi
    obtain ⟨posted,hl,ht,hg,hidle,ho⟩ := hi
    obtain ⟨m,rfl,hm,-⟩ := idle_step_of_take (hidle i) ht hs
    have hb' : (s.setSmoker i m).barman = .store := hb
    simp only [Inv,hb']
    exact ⟨posted,hl,ht,hg,forall_setSmoker hm fun j _ => hidle j,ho⟩
  case post =>
    simp only [Inv,hb] at hi
    obtain ⟨posted,hl,ht,hg,hidle,ho⟩ := hi
    obtain ⟨m,rfl,hm,-⟩ := idle_step_of_take (hidle i) ht hs
    have hb' : (s.setSmoker i m).barman = .post := hb
    simp only [Inv,hb']
    exact ⟨posted,hl,ht,hg,forall_setSmoker hm fun j _ => hidle j,ho⟩
  case wait =>
    simp only [Inv,hb] at hi
    obtain ⟨posted,hl,hin⟩ := hi
    obtain ⟨hb',hr,hitem,hin'⟩ := hin.smoker_step hs
    simp only [Inv,hb'.trans hb,hr,hitem]
    exact ⟨posted,hl,hin'⟩
  all_goals
    have hd : s.barman.shutdown := by simp [hb,BarmanPc.shutdown]
    obtain ⟨hb',hs'⟩ := (hi.stopping hd).smoker_step hs
    exact inv_of_stopping (hb' ▸ hd) hs'

/-- In the loop over the letters the barman stores one only when all before are printed. -/
theorem Inv.letter_step (hi : Inv letters s) (hb : s.barman.shutdown = false)
    (hs : barmanWork s = some s') : Inv letters s' := by
  simp only [barmanWork] at hs
  cases hpc : s.barman <;> simp only [hpc,BarmanPc.shutdown,reduceCtorEq] at hs hb
  case store =>
    simp only [Inv,hpc] at hi
    obtain ⟨posted,hl,ht,hg,hidle,ho⟩ := hi
    split at hs
    · rename_i hnil
      cases hs
      rw [hnil,List.append_nil] at hl
      exact inv_of_stopping rfl
        { rest := hnil
          output := hl ▸ ho
          told := fun i hi => absurd hi (Nat.not_lt_zero _)
          untold := fun i _ => ⟨hidle i,ht⟩
          tokens := by simpa [ht,BarmanPc.toPost] using sum_needy_le s
          reaped := fun i hi => hi.elim }
    · rename_i c rest hcons
      cases hs
      rw [hcons] at hl
      exact ⟨posted,hl,ht,hg,hidle,ho⟩
  case post =>
    simp only [Inv,hpc] at hi
    obtain ⟨posted,hl,ht,hg,hidle,ho⟩ := hi
    cases hs
    exact ⟨posted,hl,.posted (by simp [ht]) hg hidle ho⟩
  case wait =>
    simp only [Inv,hpc] at hi
    obtain ⟨posted,hl,hin⟩ := hi
    split at hs
    · rename_i hg
      cases hs
      cases hin with
      | posted take give idle output => omega
      | taken i take give idle serving => omega
      | given take give idle output =>
        exact ⟨posted ++ [s.item],by simpa using hl,take,by simp [give],idle,output⟩
    · cases hs

theorem Stopping.kill (h : Stopping letters s) {pc : BarmanPc}
    (htold : ∀ j, pc.told j → j = i ∨ s.barman.told j)
    (huntold : ∀ j, ¬ pc.told j → j ≠ i ∧ ¬ s.barman.told j)
    (hpost : s.barman.toPost = pc.toPost) (hreaped : ∀ j, ¬ pc.reaped j) :
    Stopping letters { s.kill i with barman := pc } where
  rest := h.rest
  output := h.output
  told j hj := of_setSmoker
    (fun he => by
      by_cases ht : s.barman.told i
      · exact (h.told i ht).kill
      · exact (h.untold i ht).1.kill)
    fun hne => h.told j ((htold j hj).resolve_left hne)
  untold j hj := ⟨of_setSmoker (fun he => absurd he (huntold j hj).1)
    fun _ => (h.untold j (huntold j hj).2).1,(h.untold j (huntold j hj).2).2⟩
  tokens := by
    have ht := h.tokens
    simp only [kill_pc]
    rw [hpost] at ht
    exact ht
  reaped j hj := absurd hj (hreaped j)

theorem Stopping.barman_step (h : Stopping letters s) (hb : s.barman.shutdown)
    (hs : barmanWork s = some s') : s'.barman.shutdown ∧ Stopping letters s' := by
  have hall := h.told
  have htokens := h.tokens
  simp only [barmanWork] at hs
  cases hpc : s.barman <;> simp only [hpc,BarmanPc.shutdown,reduceCtorEq] at hs hb hall htokens
  case kill k =>
    split at hs
    · rename_i hk
      cases hs
      refine ⟨rfl,h.kill (fun j hj => ?_) (fun j hj => ?_) (by simp [hpc,BarmanPc.toPost])
        fun j => id⟩
      all_goals
        simp only [hpc,BarmanPc.told,Fin.ext_iff,ne_eq] at hj ⊢
        omega
    · rename_i hk
      cases hs
      have htold : ∀ j : Fin 3, Leaving (s.smokers j) := fun j => hall j (by
        simp only [BarmanPc.told]
        omega)
      exact ⟨rfl,h.rest,h.output,fun j _ => htold j,fun j hj => absurd trivial hj,htokens,
        fun j => False.elim⟩
  case shutPost k =>
    split at hs
    · cases hs
      refine ⟨rfl,h.rest,h.output,fun j _ => hall j trivial,fun j hj => absurd trivial hj,?_,
        fun j => False.elim⟩
      simp only [BarmanPc.toPost] at htokens ⊢
      omega
    · cases hs
      refine ⟨rfl,h.rest,h.output,fun j _ => hall j trivial,fun j hj => absurd trivial hj,?_,
        fun j hj => absurd hj (Nat.not_lt_zero _)⟩
      simp only [BarmanPc.toPost] at htokens ⊢
      omega
  case shutKill k =>
    cases hs
    refine ⟨rfl,h.kill (fun j _ => .inr (by simp [hpc,BarmanPc.told])) (fun j hj => absurd trivial hj)
      ?_ fun j => id⟩
    simp only [hpc,BarmanPc.toPost]
    omega
  case waitpid k =>
    split at hs
    · rename_i hk
      split at hs
      · rename_i hexit
        cases hs
        refine ⟨rfl,h.rest,h.output,fun j _ => hall j trivial,fun j hj => absurd trivial hj,htokens,
          fun j hj => ?_⟩
        by_cases hjk : j = ⟨k,hk⟩
        · exact hjk ▸ hexit
        · refine h.reaped j ?_
          simp only [hpc,BarmanPc.reaped,Fin.ext_iff] at hj hjk ⊢
          omega
      · cases hs
    · rename_i hk
      cases hs
      refine ⟨rfl,h.rest,h.output,fun j _ => hall j trivial,fun j hj => absurd trivial hj,htokens,
        fun j _ => h.reaped j ?_⟩
      simp only [hpc,BarmanPc.reaped]
      omega

theorem inv_invariant (letters : List UInt8) : (system letters).Invariant (Inv letters) where
  step {a s s'} hi hs := by
    cases a with
    | barman =>
      by_cases hb : s.barman.shutdown
      · obtain ⟨hb',hs'⟩ := (hi.stopping hb).barman_step hb hs
        exact inv_of_stopping hb' hs'
      · exact hi.letter_step (by simpa using hb) hs
    | smoker i => exact hi.smoker_step hs
  start := ⟨[],rfl,rfl,rfl,fun _ => ⟨.inl rfl,rfl,rfl,rfl⟩,rfl⟩

end Steps

section Progress

variable {letters posted : List UInt8} {s s' : State} {i : Fin 3} {a : Action}

theorem Idle.enabled (h : Idle (s.smokers i)) (ht : (s.smokers i).pc = .wait → 0 < s.take) :
    smokerWork i s ≠ none := by
  obtain hpc | hpc | hpc := h.pc
  · simp [smokerWork,h.pending,hpc]
  · simp [smokerWork,h.pending,hpc]
  · simp [smokerWork,h.pending,hpc,ht hpc]

theorem Serving.enabled {c : UInt8} {output : List UInt8}
    (h : Serving posted c output (s.smokers i)) : smokerWork i s ≠ none := by
  obtain hpc | hpc | hpc | hpc := h.pc <;> simp [smokerWork,h.pending,hpc]

theorem Leaving.enabled (h : Leaving (s.smokers i)) (he : (s.smokers i).pc ≠ .exited)
    (ht : (s.smokers i).pc = .wait → 0 < s.take) : smokerWork i s ≠ none := by
  by_cases hp : (s.smokers i).pending
  · simp only [smokerWork,he,hp,if_true,if_false]
    split_ifs <;> simp
  · obtain hpc | hpc | hpc | hpc | hpc := h.pc
    · simp [smokerWork,hp,hpc]
    · simp [smokerWork,hp,hpc]
    · simp [smokerWork,hp,hpc,ht hpc]
    · simp [smokerWork,hp,hpc]
    · exact absurd hpc he

theorem InHand.progress (h : InHand posted s) (hb : s.barman = .wait) : ∃ a, step a s ≠ none := by
  cases h with
  | posted take give idle output =>
    exact ⟨.smoker 0,(idle 0).enabled fun _ => by omega⟩
  | taken i take give idle serving => exact ⟨.smoker i,serving.enabled⟩
  | given take give idle output => exact ⟨.barman,by simp [step,barmanWork,hb,give]⟩

theorem Stopping.progress (h : Stopping letters s) (hb : s.barman.shutdown) :
    Finished s ∨ ∃ a, step a s ≠ none := by
  have hall := h.told
  have htokens := h.tokens
  cases hpc : s.barman <;> simp only [hpc,BarmanPc.shutdown,reduceCtorEq] at hb hall htokens
  case waitpid k =>
    right
    by_cases hk : k < 3
    · by_cases he : (s.smokers ⟨k,hk⟩).pc = .exited
      · exact ⟨.barman,by simp [step,barmanWork,hpc,hk,he]⟩
      · refine ⟨.smoker ⟨k,hk⟩,(hall _ trivial).enabled he fun hw => ?_⟩
        have hle := Finset.single_le_sum (f := fun i => (s.smokers i).pc.needy)
          (fun _ _ => Nat.zero_le _) (Finset.mem_univ ⟨k,hk⟩)
        simp only [hw,SmokerPc.needy,BarmanPc.toPost] at hle htokens
        omega
    · exact ⟨.barman,by simp [step,barmanWork,hpc,hk]⟩
  case done => exact .inl ⟨hpc,fun i => h.reaped i (by simp [hpc,BarmanPc.reaped])⟩
  all_goals
    refine .inr ⟨.barman,?_⟩
    simp only [step,barmanWork,hpc]
    try split_ifs
    all_goals simp

theorem Inv.progress (hi : Inv letters s) : Finished s ∨ ∃ a, step a s ≠ none := by
  by_cases hb : s.barman.shutdown
  · exact (hi.stopping hb).progress hb
  · right
    cases hpc : s.barman <;> simp only [hpc,BarmanPc.shutdown,not_true] at hb
    case store =>
      refine ⟨.barman,?_⟩
      simp only [step,barmanWork,hpc]
      split <;> simp
    case post => exact ⟨.barman,by simp [step,barmanWork,hpc]⟩
    case wait =>
      simp only [Inv,hpc] at hi
      obtain ⟨posted,-,hin⟩ := hi
      exact hin.progress hpc

def SmokerPc.weight : SmokerPc → ℕ
  | .check => 6
  | .print => 5
  | .flush => 4
  | .give => 3
  | .sigaction => 3
  | .loop => 2
  | .wait => 1
  | .exited => 0

def Smoker.weight (m : Smoker) : ℕ := m.pc.weight + if m.pending then 1 else 0

def BarmanPc.weight : BarmanPc → ℕ
  | .post => 48
  | .wait => 41
  | .store => 40
  | .kill i => 33 + 2*(3-i)
  | .shutPost i => 5 + 9*(3-i)
  | .shutKill i => 7 + 9*(2-i)
  | .waitpid i => 1 + (3-i)
  | .done => 0

/-- A bound on the steps to come: a letter or a token stands for those of its smoker. -/
def measure (s : State) : ℕ :=
  9*s.rest.length + s.barman.weight + 6*s.take + ∑ i, (s.smokers i).weight

theorem smoker_weight (hs : smokerWork i s = some s') : ∃ m,
    s'.smokers = Function.update s.smokers i m ∧ s'.rest = s.rest ∧ s'.barman = s.barman ∧
      m.weight + 6*s'.take < (s.smokers i).weight + 6*s.take := by
  simp only [smokerWork] at hs
  split at hs
  · cases hs
  rename_i hne
  split at hs
  · rename_i hp
    split at hs
    · rename_i hpc
      cases hs
      exact ⟨_,rfl,rfl,rfl,by simp [Smoker.weight,State.setSmoker,hpc,hp,SmokerPc.weight]⟩
    · cases hs
      exact ⟨_,rfl,rfl,rfl,by simp [Smoker.weight,State.setSmoker,hp]⟩
  · rename_i hp
    cases hpc : (s.smokers i).pc <;> simp only [hpc] at hs
    case wait =>
      split at hs
      · cases hs
        refine ⟨_,rfl,rfl,rfl,?_⟩
        simp only [Smoker.weight,hpc,hp,SmokerPc.weight]
        omega
      · cases hs
    case loop | check =>
      cases hs
      refine ⟨_,rfl,rfl,rfl,?_⟩
      cases (s.smokers i).checker <;>
        simp [Smoker.weight,State.setSmoker,hpc,hp,SmokerPc.weight]
    case exited => exact absurd hpc hne
    all_goals
      cases hs
      exact ⟨_,rfl,rfl,rfl,by simp [Smoker.weight,State.setSmoker,hpc,hp,SmokerPc.weight]⟩

theorem sum_weight_kill (s : State) (i : Fin 3) :
    ∑ j, ((s.kill i).smokers j).weight ≤ ∑ j, (s.smokers j).weight + 1 := by
  have hle : Smoker.weight { s.smokers i with pending := true } ≤ (s.smokers i).weight + 1 := by
    simp only [Smoker.weight,if_true]
    omega
  have hsum := sum_update Smoker.weight s.smokers i { s.smokers i with pending := true }
  exact Nat.le_of_add_le_add_left (hsum.trans_le (by omega))

theorem barman_weight (hs : barmanWork s = some s') : measure s' < measure s := by
  simp only [barmanWork] at hs
  cases hpc : s.barman <;> simp only [hpc] at hs
  case store =>
    split at hs
    · rename_i hr
      cases hs
      simp [measure,hpc,hr,BarmanPc.weight]
    · rename_i hr
      cases hs
      simp only [measure,hpc,hr,BarmanPc.weight,List.length_cons]
      omega
  case post =>
    cases hs
    simp only [measure,hpc,BarmanPc.weight]
    omega
  case wait =>
    split at hs <;> cases hs
    simp [measure,hpc,BarmanPc.weight]
  case kill k =>
    split at hs
    · rename_i hk
      cases hs
      have hsum := sum_weight_kill s ⟨k,hk⟩
      simp only [measure,hpc,BarmanPc.weight,State.kill,State.setSmoker] at hsum ⊢
      omega
    · cases hs
      simp only [measure,hpc,BarmanPc.weight]
      omega
  case shutPost k =>
    split at hs
    · rename_i hk
      cases hs
      simp only [measure,hpc,BarmanPc.weight]
      omega
    · cases hs
      simp only [measure,hpc,BarmanPc.weight]
      omega
  case shutKill k =>
    cases hs
    have hk := k.isLt
    have hsum := sum_weight_kill s k
    simp only [measure,hpc,BarmanPc.weight,State.kill,State.setSmoker] at hsum ⊢
    omega
  case waitpid k =>
    split at hs
    · split at hs <;> cases hs
      simp only [measure,hpc,BarmanPc.weight]
      omega
    · cases hs
      simp only [measure,hpc,BarmanPc.weight]
      omega
  case done => cases hs

theorem measure_step (hs : step a s = some s') : measure s' < measure s := by
  cases a with
  | barman => exact barman_weight hs
  | smoker i =>
    obtain ⟨m,hsm,hr,hb,hlt⟩ := smoker_weight hs
    have hsum := sum_update Smoker.weight s.smokers i m
    simp only [measure,hsm,hr,hb]
    omega

end Progress

section Consequences

variable {letters : List UInt8} {s s' : State} {a : Action}

/-- What has been printed belongs to the first letters, each of them once. -/
theorem Inv.printed_isPrefix (hi : Inv letters s) :
    ∃ posted, posted <+: letters ∧ s.output = format posted := by
  by_cases hb : s.barman.shutdown
  · exact ⟨letters,List.prefix_rfl,(hi.stopping hb).output⟩
  · cases hpc : s.barman <;> simp only [hpc,BarmanPc.shutdown,not_true] at hb
    case store | post =>
      simp only [Inv,hpc] at hi
      obtain ⟨posted,hl,-,-,-,ho⟩ := hi
      exact ⟨posted,⟨_,hl.symm⟩,ho⟩
    case wait =>
      simp only [Inv,hpc] at hi
      obtain ⟨posted,hl,hin⟩ := hi
      have hnext : posted ++ [s.item] <+: letters := ⟨s.rest,by simp [hl]⟩
      have hbefore : posted <+: letters := ⟨_,hl.symm⟩
      cases hin with
      | posted take give idle output => exact ⟨posted,hbefore,output⟩
      | taken i take give idle serving =>
        have ho := serving.output
        split at ho
        · exact ⟨_,hnext,ho⟩
        · exact ⟨_,hbefore,ho⟩
      | given take give idle output => exact ⟨_,hnext,output⟩

theorem step_item (hs : step a s = some s') (h : ¬ (a = .barman ∧ s.barman = .store)) :
    s'.item = s.item := by
  cases a with
  | barman =>
    simp only [step,barmanWork] at hs
    cases hpc : s.barman <;> simp only [hpc] at hs
    case store => exact absurd ⟨rfl,hpc⟩ h
    all_goals
      try split at hs
      try split at hs
      all_goals cases hs
      all_goals rfl
  | smoker i =>
    simp only [step,smokerWork] at hs
    split at hs
    · cases hs
    · split at hs
      · split at hs <;> cases hs <;> rfl
      · cases hpc : (s.smokers i).pc <;> simp only [hpc] at hs
        all_goals
          try split at hs
          all_goals cases hs
          all_goals rfl

theorem Leaving.silent {m : Smoker} (h : Leaving m) :
    m.stdout = [] ∧ m.pc ≠ .print ∧ m.pc ≠ .flush := by
  refine ⟨h.stdout,?_,?_⟩
  all_goals
    obtain hpc | hpc | hpc | hpc | hpc := h.pc <;> simp [hpc]

theorem Idle.silent {m : Smoker} (h : Idle m) :
    m.stdout = [] ∧ m.pc ≠ .print ∧ m.pc ≠ .flush := by
  refine ⟨h.stdout,?_,?_⟩
  all_goals
    obtain hpc | hpc | hpc := h.pc <;> simp [hpc]

theorem Stopping.silent (h : Stopping letters s) (i : Fin 3) :
    (s.smokers i).stdout = [] ∧ (s.smokers i).pc ≠ .print ∧ (s.smokers i).pc ≠ .flush := by
  by_cases ht : s.barman.told i
  · exact (h.told i ht).silent
  · exact (h.untold i ht).1.silent

end Consequences

/-- The program on any letters, over all interleavings. -/
structure ServesInOrder (letters : List UInt8) : Prop where
  printed : ∀ s, (system letters).Reachable s → Finished s → s.output = format letters
  in_order : ∀ s, (system letters).Reachable s →
    ∃ posted, posted <+: letters ∧ s.output = format posted
  stored : ∀ s, (system letters).Reachable s → s.barman = .store →
    ∃ posted, letters = posted ++ s.rest ∧ s.output = format posted
  not_overwritten : ∀ s a s', step a s = some s' → ¬ (a = .barman ∧ s.barman = .store) →
    s'.item = s.item
  silent : ∀ s, (system letters).Reachable s → s.barman.shutdown → s.output = format letters ∧
    ∀ i, (s.smokers i).stdout = [] ∧ (s.smokers i).pc ≠ .print ∧ (s.smokers i).pc ≠ .flush
  progress : ∀ s, (system letters).Reachable s → Finished s ∨ ∃ a, step a s ≠ none
  bounded : ∃ bound, ∀ as s, (system letters).run as (init letters) = some s → as.length ≤ bound

theorem serves_in_order (letters : List UInt8) : ServesInOrder letters := by
  have hinv := inv_invariant letters
  refine ⟨?_,?_,?_,?_,?_,?_,hinv.bounded measure fun _ hs => measure_step hs⟩
  · intro s hr hf
    exact ((hinv.reachable hr).stopping (by simp [hf.1,BarmanPc.shutdown])).output
  · intro s hr
    exact (hinv.reachable hr).printed_isPrefix
  · intro s hr hb
    have hi := hinv.reachable hr
    simp only [Inv,hb] at hi
    obtain ⟨posted,hl,-,-,-,ho⟩ := hi
    exact ⟨posted,hl,ho⟩
  · intro s a s' hs h
    exact step_item hs h
  · intro s hr hb
    have hstop := (hinv.reachable hr).stopping hb
    exact ⟨hstop.output,hstop.silent⟩
  · intro s hr
    exact (hinv.reachable hr).progress

/-! The loop of the barman over the bytes of its standard input, where the letters come from -/

def EOF : ℤ := -1

/-- What the calls of `getc` return for the input, the last one at its end -/
def getc (input : List UInt8) : List ℤ := input.map (fun b => (b.toNat : ℤ)) ++ [EOF]

/-- `isalpha` and `toupper` of the C locale -/
def isalpha (c : ℤ) : Bool := (65 ≤ c && c ≤ 90) || (97 ≤ c && c ≤ 122)

def toupper (c : ℤ) : ℤ := if 97 ≤ c ∧ c ≤ 122 then c-32 else c

/-- The items that have been handed over, and what `getc` had returned when the loop ended -/
structure Handed where
  items : List UInt8
  ended : ℤ

/-- The result of `getc` is narrowed to a `char` before it is tested. -/
def barmanLoop : List ℤ → Handed
  | [] => ⟨[],EOF⟩
  | result :: results =>
    let c := wrap 8 result
    if 0 ≤ c then
      let handed := barmanLoop results
      if isalpha c then { handed with items := UInt8.ofNat (toupper c).toNat :: handed.items }
      else handed
    else ⟨[],result⟩

/-- The whole program, with the letters that it finds in its input -/
def serve (input : List UInt8) : System State Action := system (barmanLoop (getc input)).items

/-- The letters of the whole input, as the smokers are to have them -/
def upperLetters (input : List UInt8) : List UInt8 :=
  input.filterMap fun b =>
    if 65 ≤ b ∧ b ≤ 90 then some b else if 97 ≤ b ∧ b ≤ 122 then some (b-32) else none

theorem upperLetters_cons (b : UInt8) (input : List UInt8) :
    upperLetters (b :: input) = upperLetters [b] ++ upperLetters input :=
  List.filterMap_append (l := [b])

theorem upperLetters_singleton (b : UInt8) : upperLetters [b] =
    if isalpha b.toNat then [UInt8.ofNat (toupper b.toNat).toNat] else [] := by
  have hbyte : ∀ n : Fin 256, upperLetters [UInt8.ofNat n] =
      if isalpha (n : ℕ) then [UInt8.ofNat (toupper (n : ℕ)).toNat] else [] := by decide +kernel
  simpa using hbyte ⟨b.toNat,b.toNat_lt⟩

theorem barmanLoop_ascii {b : UInt8} (hb : b < 128) (results : List ℤ) :
    barmanLoop ((b.toNat : ℤ) :: results) =
      ⟨upperLetters [b] ++ (barmanLoop results).items,(barmanLoop results).ended⟩ := by
  have hlt : b.toNat < 128 := UInt8.lt_iff_toNat_lt.mp hb
  have hchar : wrap 8 (b.toNat : ℤ) = b.toNat := wrap_eq (by omega) (by omega)
  have hle : (0 : ℤ) ≤ b.toNat := Int.natCast_nonneg _
  rw [barmanLoop,hchar,if_pos hle,upperLetters_singleton]
  by_cases hletter : isalpha b.toNat
  · simp [hletter]
  · simp [hletter]

/-- Any other byte is negative as a `char`. -/
theorem barmanLoop_high {b : UInt8} (hb : ¬ b < 128) (results : List ℤ) :
    barmanLoop ((b.toNat : ℤ) :: results) = ⟨[],b.toNat⟩ := by
  have hle : ¬ b.toNat < 128 := fun h => hb (UInt8.lt_iff_toNat_lt.mpr h)
  have hlt := b.toNat_lt
  have hchar : wrap 8 (b.toNat : ℤ) = b.toNat-256 := wrap_eq_sub (by omega) (by omega)
  rw [barmanLoop,hchar,if_neg (by omega)]

theorem getc_cons (b : UInt8) (input : List UInt8) :
    getc (b :: input) = (b.toNat : ℤ) :: getc input := rfl

theorem barmanLoop_of_ascii {input : List UInt8} (h : ∀ b ∈ input, b < 128) :
    barmanLoop (getc input) = ⟨upperLetters input,EOF⟩ := by
  induction input with
  | nil => rfl
  | cons b input ih =>
    rw [List.forall_mem_cons] at h
    rw [getc_cons,barmanLoop_ascii h.1,ih h.2,← upperLetters_cons]

theorem ascii_of_ended {input : List UInt8} (h : (barmanLoop (getc input)).ended = EOF) :
    ∀ b ∈ input, b < 128 := by
  induction input with
  | nil => simp
  | cons b input ih =>
    rw [getc_cons] at h
    by_cases hb : b < 128
    · rw [barmanLoop_ascii hb] at h
      exact List.forall_mem_cons.mpr ⟨hb,ih h⟩
    · rw [barmanLoop_high hb] at h
      simp only [EOF] at h
      omega

/-- The letters of the whole input are handed over, up to the end of the file, exactly when all
its bytes are ASCII. -/
theorem handed_over_iff (input : List UInt8) :
    ((barmanLoop (getc input)).items = upperLetters input ∧
      (barmanLoop (getc input)).ended = EOF) ↔ ∀ b ∈ input, b < 128 := by
  constructor
  · intro h
    exact ascii_of_ended h.2
  · intro h
    rw [barmanLoop_of_ascii h]
    exact ⟨rfl,rfl⟩

/-- A letter that is not ASCII, in UTF-8 between two others: the last one is left. -/
theorem high_byte_ends : (barmanLoop (getc [97,195,169,98])).items = [65] ∧
    upperLetters [97,195,169,98] = [65,66] ∧
    (barmanLoop (getc [97,195,169,98])).ended = 195 := by decide

theorem served_output {input : List UInt8} (h : ∀ b ∈ input, b < 128) {s : State}
    (hr : (serve input).Reachable s) (hf : Finished s) :
    s.output = format (upperLetters input) := by
  have hinv := (inv_invariant (barmanLoop (getc input)).items).reachable hr
  have hstop := hinv.stopping (by simp [hf.1,BarmanPc.shutdown])
  rw [hstop.output,barmanLoop_of_ascii h]

end Barman
end SomeCode
