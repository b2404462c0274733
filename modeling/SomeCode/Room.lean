import Mathlib.Data.List.Nodup
import Mathlib.Logic.Function.Basic

/-! Rooms that members enter and leave, where what one member says is heard by all the others. Two
members that stay hear the same, each without its own words; nothing here depends on a particular
program. -/
namespace SomeCode
namespace Room

inductive Event (ι α β : Type*)
  | enter (p : ι) (a : α)
  | leave (p : ι)
  | say (p : ι) (b : β)

/-- What a member hears: the greeting, that there is no one else, and what another member said -/
inductive Heard (ι α β : Type*)
  | greeting (a : α)
  | alone
  | said (p : ι) (b : β)

structure State (ι α β : Type*) where
  members : List ι
  heard : ι → List (Heard ι α β)

variable {ι α β : Type*}

def empty : State ι α β := ⟨[],fun _ => []⟩

def said (es : List (Event ι α β)) : List (ι × β) :=
  es.filterMap fun
    | .say p b => some (p,b)
    | _ => none

/-- `p` neither enters nor leaves. -/
def Stays (p : ι) (es : List (Event ι α β)) : Prop := ∀ e ∈ es, e ≠ .leave p ∧ ∀ a, e ≠ .enter p a

variable {p q : ι} {s : State ι α β} {e : Event ι α β} {es : List (Event ι α β)}

@[simp] theorem said_nil : said ([] : List (Event ι α β)) = [] := rfl

@[simp] theorem said_append (es fs : List (Event ι α β)) : said (es ++ fs) = said es ++ said fs :=
  List.filterMap_append

theorem Stays.head (h : Stays p (e :: es)) : e ≠ .leave p ∧ ∀ a, e ≠ .enter p a :=
  h e List.mem_cons_self

theorem Stays.tail (h : Stays p (e :: es)) : Stays p es :=
  fun e he => h e (List.mem_cons_of_mem _ he)

variable [DecidableEq ι]

def State.tell (s : State ι α β) (ps : List ι) (m : Heard ι α β) : State ι α β :=
  { s with heard := fun q => if q ∈ ps then s.heard q ++ [m] else s.heard q }

/-- One event; a member that says something while it is the only one hears that. -/
def apply (s : State ι α β) : Event ι α β → State ι α β
  | .enter p a => ({ s with members := s.members ++ [p] }).tell [p] (.greeting a)
  | .leave p => { s with members := s.members.filter (· ≠ p) }
  | .say p b =>
    if s.members.length = 1 then s.tell [p] .alone
    else s.tell (s.members.filter (· ≠ p)) (.said p b)

def run (es : List (Event ι α β)) (s : State ι α β) : State ι α β := es.foldl apply s

def words (p : ι) (es : List (Event ι α β)) : List β :=
  ((said es).filter (·.1 = p)).map (·.2)

@[simp] theorem run_nil (s : State ι α β) : run [] s = s := rfl

@[simp] theorem run_cons (e : Event ι α β) (es : List (Event ι α β)) (s : State ι α β) :
    run (e :: es) s = run es (apply s e) := rfl

theorem run_append (es fs : List (Event ι α β)) (s : State ι α β) :
    run (es ++ fs) s = run fs (run es s) := List.foldl_append

@[simp] theorem words_nil (p : ι) : words p ([] : List (Event ι α β)) = [] := rfl

@[simp] theorem words_append (p : ι) (es fs : List (Event ι α β)) :
    words p (es ++ fs) = words p es ++ words p fs := by
  simp [words]

theorem mem_apply (hp : p ∈ s.members) (h : e ≠ .leave p) : p ∈ (apply s e).members := by
  cases e with
  | enter q a => exact List.mem_append_left [q] hp
  | leave q =>
    have hne : p ≠ q := by
      rintro rfl
      exact h rfl
    simp [apply,hp,hne]
  | say q b =>
    simp only [apply,State.tell]
    split <;> exact hp

theorem heard_apply (hp : p ∈ s.members) (hq : q ∈ s.members) (hpq : p ≠ q)
    (h : e ≠ .leave p ∧ ∀ a, e ≠ .enter p a) :
    (apply s e).heard p =
      s.heard p ++ ((said [e]).filter (·.1 ≠ p)).map fun m => .said m.1 m.2 := by
  cases e with
  | enter r a =>
    have hne : p ≠ r := by
      rintro rfl
      exact h.2 a rfl
    simp [apply,State.tell,said,hne]
  | leave r => simp [apply,said]
  | say r b =>
    have hlength : s.members.length ≠ 1 := by
      intro hlength
      rcases List.length_eq_one_iff.1 hlength with ⟨m,hm⟩
      rw [hm,List.mem_singleton] at hp hq
      exact hpq (hp.trans hq.symm)
    by_cases hpr : p = r
    · simp [apply,hlength,State.tell,said,hpr]
    · simp [apply,hlength,State.tell,said,hp,hpr,Ne.symm hpr]

/-- A member that stays, and is never the only one, hears all that the others say, in order. -/
theorem heard_run (hp : p ∈ s.members) (hq : q ∈ s.members) (hpq : p ≠ q) (hps : Stays p es)
    (hqs : Stays q es) :
    (run es s).heard p =
      s.heard p ++ ((said es).filter (·.1 ≠ p)).map fun m => .said m.1 m.2 := by
  induction es generalizing s with
  | nil => simp
  | cons e es ih =>
    have hhead := heard_apply hp hq hpq hps.head
    rw [run_cons,ih (mem_apply hp hps.head.1) (mem_apply hq hqs.head.1) hps.tail hqs.tail,hhead,
      ← List.singleton_append (l := es),said_append,List.filter_append,List.map_append,
      List.append_assoc]

end Room
end SomeCode
