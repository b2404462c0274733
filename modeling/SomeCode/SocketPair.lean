import SomeCode.MachineInt
import SomeCode.Transition

/-! The two threads of `inf18-2.c`, which pass a number back and forth over a socket
pair, one taking 3 off and the other adding 5, until it is 0 or above 100. -/
namespace SomeCode
namespace SocketPair

open MachineInt Transition

inductive Mode
  | decrease
  | increase
  deriving DecidableEq

def Mode.toInt : Mode → ℤ
  | .decrease => -3
  | .increase => 5

structure ThreadTaskArgs where
  mode : Mode
  startNum : ℤ
  position : ℕ

/-- The two threads; each end of the socket pair belongs to one of them. -/
inductive Side
  | one
  | two
  deriving DecidableEq

def Side.other : Side → Side
  | .one => .two
  | .two => .one

/-- What a thread does next in `read_and_write`. -/
inductive Pc
  | start
  | firstPrint
  | firstWrite
  | read
  | stopWrite
  | print
  | write
  | done
  deriving DecidableEq

structure Thread where
  pc : Pc
  current : ℤ
  deriving DecidableEq

/-- `inbox a` holds the numbers written to the other end and not yet read by `a`. -/
structure State where
  thread : Side → Thread
  inbox : Side → List ℤ
  printed : List (Side × ℤ)

/-- `int` addition -/
def addInt (x y : ℤ) : ℤ := wrap 32 (x+y)

def mainArgs (startNum : ℤ) : Side → ThreadTaskArgs
  | .one => ⟨.decrease,startNum,1⟩
  | .two => ⟨.increase,0,2⟩

def IsStop (x : ℤ) : Prop := x = 0 ∨ 100 < x

instance (x : ℤ) : Decidable (IsStop x) := inferInstanceAs (Decidable (_ ∨ _))

def State.setThread (s : State) (a : Side) (h : Thread) : State :=
  { s with thread := Function.update s.thread a h }

/-- `write` of one `int` on the end of thread `a` -/
def State.send (s : State) (a : Side) (x : ℤ) : State :=
  { s with inbox := Function.update s.inbox a.other (s.inbox a.other ++ [x]) }

def State.print (s : State) (a : Side) (x : ℤ) : State :=
  { s with printed := s.printed ++ [(a,x)] }

/-- One step of thread `a` in `read_and_write`: a print, a write, or a read with the
local work up to the next of these. The flag `inpt_chk` stays 0 and never ends the loop. -/
def readAndWrite (arg : ThreadTaskArgs) (a : Side) (s : State) : Option State :=
  let current := (s.thread a).current
  match (s.thread a).pc with
  | .start =>
    if arg.position = 1 then
      some (s.setThread a ⟨.firstPrint,addInt arg.startNum arg.mode.toInt⟩)
    else some (s.setThread a ⟨.read,0⟩)
  | .firstPrint => some ((s.print a current).setThread a ⟨.firstWrite,current⟩)
  | .firstWrite => some ((s.send a current).setThread a ⟨.read,0⟩)
  | .read =>
    match s.inbox a with
    | [] => none
    | x :: rest =>
      let s' := { s with inbox := Function.update s.inbox a rest }
      if 100 < x ∨ x = 0 then some (s'.setThread a ⟨.stopWrite,x⟩)
      else some (s'.setThread a ⟨.print,addInt x arg.mode.toInt⟩)
  | .stopWrite => some ((s.send a 101).setThread a ⟨.done,current⟩)
  | .print => some ((s.print a current).setThread a ⟨.write,current⟩)
  | .write =>
    if current ≤ 100 ∧ current ≠ 0 then some ((s.send a current).setThread a ⟨.read,current⟩)
    else some ((s.send a current).setThread a ⟨.done,current⟩)
  | .done => none

def init : State := ⟨fun _ => ⟨.start,0⟩,fun _ => [],[]⟩

def system (startNum : ℤ) : System State Side :=
  ⟨init,fun a => readAndWrite (mainArgs startNum a) a⟩

def Done (s : State) : Prop := ∀ a, (s.thread a).pc = .done

/-- The numbers of the exchange: 3 off and 5 on in turn. -/
def value (startNum : ℤ) : ℕ → ℤ
  | 0 => startNum-3
  | k+1 => if k % 2 = 0 then value startNum k + 5 else value startNum k - 3

/-- The thread that computes the number at position `k`. -/
def side (k : ℕ) : Side := if k % 2 = 0 then .one else .two

def log (startNum : ℤ) (k : ℕ) : List (Side × ℤ) :=
  (List.range k).map fun j => (side j,value startNum j)

@[simp] theorem other_other (a : Side) : a.other.other = a := by cases a <;> rfl

@[simp] theorem other_ne (a : Side) : a.other ≠ a := by cases a <;> decide

@[simp] theorem ne_other (a : Side) : a ≠ a.other := (other_ne a).symm

theorem eq_or_eq_other (a b : Side) : a = b ∨ a = b.other := by
  cases a <;> cases b <;> decide

theorem side_succ (k : ℕ) : side (k+1) = (side k).other := by
  obtain h | h := Nat.mod_two_eq_zero_or_one k
  · have h' : (k+1) % 2 = 1 := by omega
    simp [side,h,h',Side.other]
  · have h' : (k+1) % 2 = 0 := by omega
    simp [side,h,h',Side.other]

theorem log_succ (startNum : ℤ) (k : ℕ) :
    log startNum (k+1) = log startNum k ++ [(side k,value startNum k)] := by
  simp [log,List.range_succ]

theorem value_add_two (startNum : ℤ) (k : ℕ) :
    value startNum (k+2) = value startNum k + 2 := by
  obtain h | h := Nat.mod_two_eq_zero_or_one k
  · have h' : (k+1) % 2 = 1 := by omega
    simp only [value,h,h',if_true]
    norm_num
    ring
  · have h' : (k+1) % 2 = 0 := by omega
    simp only [value,h,h',if_true]
    norm_num
    ring

theorem value_even (startNum : ℤ) (k : ℕ) : value startNum (2*k) = startNum-3+2*k := by
  induction k with
  | zero => simp [value]
  | succ k ih =>
    rw [show 2*(k+1) = 2*k+2 by ring,value_add_two,ih]
    push_cast
    ring

theorem value_ge (startNum : ℤ) (k : ℕ) :
    startNum-3 + (if k % 2 = 0 then 0 else 5) ≤ value startNum k := by
  induction k with
  | zero => simp [value]
  | succ k ih =>
    obtain h | h := Nat.mod_two_eq_zero_or_one k
    · have h' : (k+1) % 2 = 1 := by omega
      simp only [value,h,h',if_true] at ih ⊢
      norm_num
      omega
    · have h' : (k+1) % 2 = 0 := by omega
      simp only [value,h,h',if_true] at ih ⊢
      norm_num at ih ⊢
      omega

/-- The exchange reaches a number above 100 at the latest. -/
theorem exists_stop (startNum : ℤ) : ∃ k, IsStop (value startNum k) := by
  refine ⟨2*(104-startNum).toNat,.inr ?_⟩
  rw [value_even]
  omega

theorem next_value (startNum : ℤ) (k : ℕ) :
    value startNum (k+1) = value startNum k + (mainArgs startNum (side (k+1))).mode.toInt := by
  obtain h | h := Nat.mod_two_eq_zero_or_one k
  · have h' : (k+1) % 2 = 1 := by omega
    simp [value,side,mainArgs,Mode.toInt,h,h']
  · have h' : (k+1) % 2 = 0 := by omega
    simp [value,side,mainArgs,Mode.toInt,h,h']
    ring

section Overflow

variable {startNum : ℤ} (hlo : -2^31+3 ≤ startNum) (hhi : startNum < 2^31)

theorem addInt_eq {x y : ℤ} (hl : -2^31 ≤ x+y) (hu : x+y < 2^31) : addInt x y = x+y :=
  wrap_eq hl hu

include hlo hhi

theorem addInt_first : addInt startNum Mode.decrease.toInt = value startNum 0 := by
  rw [addInt_eq]
  · rfl
  · simp only [Mode.toInt]; omega
  · simp only [Mode.toInt]; omega

theorem addInt_next {k : ℕ} (hk : ¬ IsStop (value startNum k)) :
    addInt (value startNum k) (mainArgs startNum (side (k+1))).mode.toInt =
      value startNum (k+1) := by
  have hge := value_ge startNum k
  have hge' := value_ge startNum (k+1)
  have hle : value startNum k ≤ 100 := by
    by_contra hc
    exact hk (.inr (by omega))
  have hmode : (mainArgs startNum (side (k+1))).mode.toInt ≤ 5 := by
    unfold side
    split <;> simp [mainArgs,Mode.toInt]
  rw [next_value] at hge' ⊢
  apply addInt_eq
  · split at hge' <;> omega
  · omega

end Overflow

def Running (startNum : ℤ) (k : ℕ) : Prop := ∀ j < k, ¬ IsStop (value startNum j)

/-- Thread `a` takes the next message, now or after finding that it is not first. -/
def Waiting (s : State) (a : Side) : Prop :=
  (s.thread a).pc = .read ∨ (a = .two ∧ (s.thread a).pc = .start)

/-- Where the thread that sent the number at position `k` goes: the very first number
is sent without a test. -/
def afterSend (startNum : ℤ) (k : ℕ) : Pc :=
  if k ≠ 0 ∧ IsStop (value startNum k) then .done else .read

/-- The stages of the exchange; `k` is the position last computed and `p` its thread. -/
inductive Stage (startNum : ℤ) (s : State) : Prop
  | opening (hone : (s.thread .one).pc = .start) (htwo : Waiting s .two)
      (hin : ∀ a, s.inbox a = []) (hout : s.printed = [])
  | printing (k : ℕ) (p : Side) (hp : p = side k) (hrun : Running startNum k)
      (hpc : s.thread p = ⟨if k = 0 then .firstPrint else .print,value startNum k⟩)
      (hq : Waiting s p.other) (hin : ∀ a, s.inbox a = []) (hout : s.printed = log startNum k)
  | writing (k : ℕ) (p : Side) (hp : p = side k) (hrun : Running startNum k)
      (hpc : s.thread p = ⟨if k = 0 then .firstWrite else .write,value startNum k⟩)
      (hq : Waiting s p.other) (hin : ∀ a, s.inbox a = []) (hout : s.printed = log startNum (k+1))
  | flying (k : ℕ) (p : Side) (hp : p = side k) (hrun : Running startNum k)
      (hpc : (s.thread p).pc = afterSend startNum k) (hq : Waiting s p.other)
      (hinp : s.inbox p = []) (hinq : s.inbox p.other = [value startNum k])
      (hout : s.printed = log startNum (k+1))
  | stopping (k : ℕ) (p : Side) (hp : p = side k) (hrun : Running startNum k)
      (hstop : IsStop (value startNum k)) (hpc : (s.thread p).pc = afterSend startNum k)
      (hq : (s.thread p.other).pc = .stopWrite) (hin : ∀ a, s.inbox a = [])
      (hout : s.printed = log startNum (k+1))
  | stopped (k : ℕ) (p : Side) (hp : p = side k) (hrun : Running startNum k)
      (hstop : IsStop (value startNum k)) (hpc : (s.thread p).pc = afterSend startNum k)
      (hq : (s.thread p.other).pc = .done) (hin : s.inbox p = [101])
      (hout : s.printed = log startNum (k+1))
  | answering (k : ℕ) (p : Side) (hrun : Running startNum k) (hstop : IsStop (value startNum k))
      (hpc : (s.thread p).pc = .stopWrite) (hq : (s.thread p.other).pc = .done)
      (hout : s.printed = log startNum (k+1))
  | closed (k : ℕ) (hrun : Running startNum k) (hstop : IsStop (value startNum k))
      (hdone : Done s) (hout : s.printed = log startNum (k+1))

section Progress

variable {startNum : ℤ} {s s' : State} {a : Side}

theorem Running.le {k m : ℕ} (hk : Running startNum k) (hm : IsStop (value startNum m)) : k ≤ m := by
  by_contra hc
  exact hk m (by omega) hm

theorem Running.succ {k : ℕ} (hk : Running startNum k) (h : ¬ IsStop (value startNum k)) :
    Running startNum (k+1) := by
  intro j hj
  obtain hj | rfl := Nat.lt_succ_iff_lt_or_eq.mp hj
  · exact hk j hj
  · exact h

theorem done_iff (p : Side) : Done s ↔ (s.thread p).pc = .done ∧ (s.thread p.other).pc = .done := by
  refine ⟨fun h => ⟨h p,h p.other⟩,fun h b => ?_⟩
  obtain rfl | rfl := eq_or_eq_other b p
  · exact h.1
  · exact h.2

theorem Waiting.step_nil {b : Side} (hw : Waiting s b) (hin : s.inbox b = [])
    (h : (system startNum).step b s = some s') :
    Waiting s' b ∧ s'.thread b.other = s.thread b.other ∧ s'.inbox = s.inbox ∧
      s'.printed = s.printed := by
  obtain hpc | ⟨rfl,hpc⟩ := hw
  · simp [system,readAndWrite,hpc,hin] at h
  · simp [system,readAndWrite,hpc,mainArgs] at h
    subst h
    simp [Waiting,State.setThread]

theorem Waiting.step_cons {b : Side} {x : ℤ} {rest : List ℤ} (hw : Waiting s b)
    (hin : s.inbox b = x :: rest) (h : (system startNum).step b s = some s') :
    s'.thread b.other = s.thread b.other ∧ s'.printed = s.printed ∧
      ((Waiting s' b ∧ s'.inbox = s.inbox) ∨
       (s'.inbox = Function.update s.inbox b rest ∧
        ((IsStop x ∧ (s'.thread b).pc = .stopWrite) ∨
         (¬ IsStop x ∧ s'.thread b = ⟨.print,addInt x (mainArgs startNum b).mode.toInt⟩)))) := by
  obtain hpc | ⟨rfl,hpc⟩ := hw
  · have hor : (100 < x ∨ x = 0) ↔ IsStop x := or_comm
    simp only [system,readAndWrite,hpc,hin,hor] at h
    split at h
    · rename_i hx
      cases h
      simp [State.setThread,hx]
    · rename_i hx
      cases h
      simp [State.setThread,hx]
  · simp [system,readAndWrite,hpc,mainArgs] at h
    subst h
    simp [Waiting,State.setThread]

theorem afterSend_cases (startNum : ℤ) (k : ℕ) :
    afterSend startNum k = .done ∨ afterSend startNum k = .read := by
  unfold afterSend
  split <;> simp

theorem afterSend_of_not_stop {k : ℕ} (h : ¬ IsStop (value startNum k)) :
    afterSend startNum k = .read := by
  simp [afterSend,h]

theorem step_afterSend {p : Side} {k : ℕ} (hpc : (s.thread p).pc = afterSend startNum k)
    (hin : s.inbox p = []) : (system startNum).step p s = none := by
  obtain h | h := afterSend_cases startNum k <;> simp [system,readAndWrite,hpc,h,hin]

theorem step_of_done {p : Side} (hpc : (s.thread p).pc = .done) :
    (system startNum).step p s = none := by
  simp [system,readAndWrite,hpc]

theorem printing_step {k : ℕ} {p : Side}
    (hpc : s.thread p = ⟨if k = 0 then .firstPrint else .print,value startNum k⟩)
    (h : (system startNum).step p s = some s') :
    s' = (s.print p (value startNum k)).setThread p
      ⟨if k = 0 then .firstWrite else .write,value startNum k⟩ := by
  by_cases hk : k = 0 <;> simp only [hk,if_true,if_false] at hpc <;>
    simp [system,readAndWrite,hpc] at h <;> simp [h,hk]

theorem writing_step {k : ℕ} {p : Side}
    (hpc : s.thread p = ⟨if k = 0 then .firstWrite else .write,value startNum k⟩)
    (h : (system startNum).step p s = some s') :
    ∃ x, s' = (s.send p (value startNum k)).setThread p ⟨afterSend startNum k,x⟩ := by
  by_cases hk : k = 0
  · simp only [hk,if_true] at hpc
    simp [system,readAndWrite,hpc] at h
    exact ⟨0,by simp [← h,hk,afterSend]⟩
  · simp only [hk,if_false] at hpc
    have hstop : (value startNum k ≤ 100 ∧ value startNum k ≠ 0) ↔ ¬ IsStop (value startNum k) := by
      simp only [IsStop]
      omega
    simp only [system,readAndWrite,hpc,hstop] at h
    refine ⟨value startNum k,?_⟩
    split at h
    · rename_i hx
      cases h
      simp [afterSend,hk,hx]
    · rename_i hx
      cases h
      simp [afterSend,hk,not_not.mp hx]

/-- Some thread can move as long as not both are done. -/
theorem Stage.progress (hs : Stage startNum s) :
    Done s ∨ ∃ a, (system startNum).step a s ≠ none := by
  cases hs with
  | opening hone htwo hin hout => exact .inr ⟨.one,by simp [system,readAndWrite,hone,mainArgs]⟩
  | printing k p hp hrun hpc hq hin hout =>
    refine .inr ⟨p,?_⟩
    by_cases hk : k = 0 <;> simp [system,readAndWrite,hpc,hk]
  | writing k p hp hrun hpc hq hin hout =>
    refine .inr ⟨p,?_⟩
    by_cases hk : k = 0 <;> simp [system,readAndWrite,hpc,hk]
    split <;> simp
  | flying k p hp hrun hpc hq hinp hinq hout =>
    refine .inr ⟨p.other,?_⟩
    obtain hr | ⟨ho,hr⟩ := hq
    · simp [system,readAndWrite,hr,hinq]
      split <;> simp
    · rw [ho] at hr ⊢
      simp [system,readAndWrite,hr,mainArgs]
  | stopping k p hp hrun hstop hpc hq hin hout => exact .inr ⟨p.other,by simp [system,readAndWrite,hq]⟩
  | stopped k p hp hrun hstop hpc hq hin hout =>
    obtain hd | hr := afterSend_cases startNum k
    · exact .inl ((done_iff p).mpr ⟨hpc.trans hd,hq⟩)
    · exact .inr ⟨p,by simp [system,readAndWrite,hpc,hr,hin]⟩
  | answering k p hrun hstop hpc hq hout => exact .inr ⟨p,by simp [system,readAndWrite,hpc]⟩
  | closed k hrun hstop hdone hout => exact .inl hdone

theorem Waiting.not_done {b : Side} (hw : Waiting s b) : ¬ Done s := by
  intro hd
  obtain h | ⟨-,h⟩ := hw <;> simp [hd b] at h

/-- Both threads are done only after the first stop, with everything up to it printed. -/
theorem Stage.printed_of_done (hs : Stage startNum s) (hd : Done s) :
    ∃ k, Running startNum k ∧ IsStop (value startNum k) ∧ s.printed = log startNum (k+1) := by
  cases hs with
  | opening hone htwo hin hout => exact absurd hd htwo.not_done
  | printing k p hp hrun hpc hq hin hout => exact absurd hd hq.not_done
  | writing k p hp hrun hpc hq hin hout => exact absurd hd hq.not_done
  | flying k p hp hrun hpc hq hinp hinq hout => exact absurd hd hq.not_done
  | stopping k p hp hrun hstop hpc hq hin hout => simp [hd p.other] at hq
  | stopped k p hp hrun hstop hpc hq hin hout => exact ⟨k,hrun,hstop,hout⟩
  | answering k p hrun hstop hpc hq hout => simp [hd p] at hpc
  | closed k hrun hstop hdone hout => exact ⟨k,hrun,hstop,hout⟩

theorem Stage.printed_length_le (hs : Stage startNum s) {m : ℕ} (hm : IsStop (value startNum m))
    (hpc : (s.thread a).pc = .firstPrint ∨ (s.thread a).pc = .print) : s.printed.length ≤ m := by
  have hwait : ∀ b, Waiting s b → a ≠ b := by
    rintro b hw rfl
    obtain h | ⟨-,h⟩ := hw <;> simp [h] at hpc
  cases hs with
  | opening hone htwo hin hout => simp [hout]
  | printing k p hp hrun hpc' hq hin hout => simpa [hout,log] using hrun.le hm
  | writing k p hp hrun hpc' hq hin hout =>
    obtain rfl | rfl := eq_or_eq_other a p
    · by_cases hk : k = 0 <;> simp [hpc',hk] at hpc
    · exact absurd rfl (hwait _ hq)
  | flying k p hp hrun hpc' hq hinp hinq hout =>
    obtain rfl | rfl := eq_or_eq_other a p
    · obtain h | h := afterSend_cases startNum k <;> simp [hpc',h] at hpc
    · exact absurd rfl (hwait _ hq)
  | stopping k p hp hrun hstop hpc' hq hin hout =>
    obtain rfl | rfl := eq_or_eq_other a p
    · obtain h | h := afterSend_cases startNum k <;> simp [hpc',h] at hpc
    · simp [hq] at hpc
  | stopped k p hp hrun hstop hpc' hq hin hout =>
    obtain rfl | rfl := eq_or_eq_other a p
    · obtain h | h := afterSend_cases startNum k <;> simp [hpc',h] at hpc
    · simp [hq] at hpc
  | answering k p hrun hstop hpc' hq hout =>
    obtain rfl | rfl := eq_or_eq_other a p
    · simp [hpc'] at hpc
    · simp [hq] at hpc
  | closed k hrun hstop hdone hout => simp [hdone a] at hpc

/-- Steps a thread can still take before it prints again. -/
def Pc.weight : Pc → ℕ
  | .start => 3
  | .firstPrint => 2
  | .firstWrite => 4
  | .read => 2
  | .stopWrite => 2
  | .print => 2
  | .write => 4
  | .done => 0

def measure (m : ℕ) (s : State) : ℕ :=
  3*(m+1-s.printed.length) + ((s.thread .one).pc.weight + (s.inbox .one).length) +
    ((s.thread .two).pc.weight + (s.inbox .two).length)

def burden (s : State) (a : Side) : ℕ := (s.thread a).pc.weight + (s.inbox a).length

theorem measure_eq (m : ℕ) (s : State) (a : Side) :
    measure m s = 3*(m+1-s.printed.length) + (burden s a + burden s a.other) := by
  cases a <;> simp only [measure,burden,Side.other] <;> omega

section Burden

variable (h : Thread) (x : ℤ)

theorem burden_setThread : burden (s.setThread a h) a + burden (s.setThread a h) a.other =
    h.pc.weight + (s.inbox a).length + burden s a.other := by
  simp [burden,State.setThread]

theorem burden_print : burden ((s.print a x).setThread a h) a +
    burden ((s.print a x).setThread a h) a.other =
      h.pc.weight + (s.inbox a).length + burden s a.other := by
  simp [burden,State.setThread,State.print]

theorem burden_send : burden ((s.send a x).setThread a h) a +
    burden ((s.send a x).setThread a h) a.other =
      h.pc.weight + (s.inbox a).length + (burden s a.other+1) := by
  simp [burden,State.setThread,State.send,Nat.add_assoc]

end Burden

theorem burden_step {arg : ThreadTaskArgs} (h : readAndWrite arg a s = some s') :
    ((s.thread a).pc = .firstPrint ∨ (s.thread a).pc = .print) ∧
      s'.printed.length = s.printed.length+1 ∧
      burden s' a + burden s' a.other = burden s a + burden s a.other + 2 ∨
    s'.printed = s.printed ∧ burden s' a + burden s' a.other < burden s a + burden s a.other := by
  have hburden : burden s a = (s.thread a).pc.weight + (s.inbox a).length := rfl
  cases hpc : (s.thread a).pc with
  | start =>
    simp only [readAndWrite,hpc,Pc.weight] at h hburden
    split_ifs at h <;> obtain rfl := Option.some.inj h <;> refine .inr ⟨rfl,?_⟩ <;>
      rw [burden_setThread,hburden] <;> simp only [Pc.weight] <;> omega
  | firstPrint =>
    simp only [readAndWrite,hpc,Pc.weight] at h hburden
    obtain rfl := Option.some.inj h
    refine .inl ⟨.inl rfl,by simp [State.setThread,State.print],?_⟩
    rw [burden_print,hburden]
    simp only [Pc.weight]
    omega
  | firstWrite =>
    simp only [readAndWrite,hpc,Pc.weight] at h hburden
    obtain rfl := Option.some.inj h
    refine .inr ⟨rfl,?_⟩
    rw [burden_send,hburden]
    simp only [Pc.weight]
    omega
  | read =>
    cases hbox : s.inbox a with
    | nil => simp [readAndWrite,hpc,hbox] at h
    | cons y rest =>
      simp only [readAndWrite,hpc,hbox,Pc.weight,List.length_cons] at h hburden
      have hother : burden { s with inbox := Function.update s.inbox a rest } a.other =
          burden s a.other := by simp [burden]
      split_ifs at h <;> obtain rfl := Option.some.inj h <;> refine .inr ⟨rfl,?_⟩ <;>
        rw [burden_setThread,hother,hburden] <;> simp [Pc.weight]
  | stopWrite =>
    simp only [readAndWrite,hpc,Pc.weight] at h hburden
    obtain rfl := Option.some.inj h
    refine .inr ⟨rfl,?_⟩
    rw [burden_send,hburden]
    simp only [Pc.weight]
    omega
  | print =>
    simp only [readAndWrite,hpc,Pc.weight] at h hburden
    obtain rfl := Option.some.inj h
    refine .inl ⟨.inr rfl,by simp [State.setThread,State.print],?_⟩
    rw [burden_print,hburden]
    simp only [Pc.weight]
    omega
  | write =>
    simp only [readAndWrite,hpc,Pc.weight] at h hburden
    split_ifs at h <;> obtain rfl := Option.some.inj h <;> refine .inr ⟨rfl,?_⟩ <;>
      rw [burden_send,hburden] <;> simp only [Pc.weight] <;> omega
  | done => simp [readAndWrite,hpc] at h

theorem Stage.measure_lt (hs : Stage startNum s) {m : ℕ} (hm : IsStop (value startNum m))
    (h : (system startNum).step a s = some s') : measure m s' < measure m s := by
  rw [measure_eq m s a,measure_eq m s' a]
  obtain ⟨hpc,hprint,hload⟩ | ⟨hprint,hload⟩ := burden_step h
  · have hlen := hs.printed_length_le hm hpc
    omega
  · rw [hprint]
    omega

variable (hlo : -2^31+3 ≤ startNum) (hhi : startNum < 2^31)

include hlo hhi

theorem Stage.step (hs : Stage startNum s) (h : (system startNum).step a s = some s') :
    Stage startNum s' := by
  cases hs with
  | opening hone htwo hin hout =>
    cases a with
    | one =>
      simp [system,readAndWrite,hone,mainArgs,addInt_first hlo hhi] at h
      subst h
      exact .printing 0 .one rfl (by simp [Running]) (by simp [State.setThread])
        (by simpa [Waiting,State.setThread,Side.other] using htwo) hin hout
    | two =>
      obtain ⟨hw,ht,hi,ho⟩ := htwo.step_nil (hin _) h
      exact .opening ((congrArg Thread.pc ht).trans hone) hw (by simpa [hi] using hin) (ho.trans hout)
  | printing k p hp hrun hpc hq hin hout =>
    obtain rfl | rfl := eq_or_eq_other a p
    · obtain rfl := printing_step hpc h
      exact .writing k a hp hrun (by simp [State.setThread])
        (by simpa [Waiting,State.setThread,State.print] using hq) hin
        (by simp [State.setThread,State.print,hout,log_succ,hp])
    · obtain ⟨hw,ht,hi,ho⟩ := hq.step_nil (hin _) h
      rw [other_other] at ht
      exact .printing k p hp hrun (ht.trans hpc) hw (by simpa [hi] using hin) (ho.trans hout)
  | writing k p hp hrun hpc hq hin hout =>
    obtain rfl | rfl := eq_or_eq_other a p
    · obtain ⟨x,rfl⟩ := writing_step hpc h
      exact .flying k a hp hrun (by simp [State.setThread])
        (by simpa [Waiting,State.setThread,State.send] using hq)
        (by simp [State.setThread,State.send,hin]) (by simp [State.setThread,State.send,hin]) hout
    · obtain ⟨hw,ht,hi,ho⟩ := hq.step_nil (hin _) h
      rw [other_other] at ht
      exact .writing k p hp hrun (ht.trans hpc) hw (by simpa [hi] using hin) (ho.trans hout)
  | flying k p hp hrun hpc hq hinp hinq hout =>
    obtain rfl | rfl := eq_or_eq_other a p
    · simp [step_afterSend hpc hinp] at h
    · obtain ⟨ht,ho,⟨hw,hi⟩ | ⟨hi,hread⟩⟩ := hq.step_cons hinq h
      all_goals rw [other_other] at ht
      · exact .flying k p hp hrun (ht ▸ hpc) hw (hi ▸ hinp) (hi ▸ hinq) (ho.trans hout)
      have hin' : ∀ b, s'.inbox b = [] := fun b => by
        obtain rfl | rfl := eq_or_eq_other b p <;> simp [hi,hinp]
      obtain ⟨hstop,hpc'⟩ | ⟨hstop,hpc'⟩ := hread
      · exact .stopping k p hp hrun hstop (ht ▸ hpc) hpc' hin' (ho.trans hout)
      · have hside : p.other = side (k+1) := by rw [side_succ,hp]
        rw [hside,addInt_next hlo hhi hstop] at hpc'
        refine .printing (k+1) (side (k+1)) rfl (hrun.succ hstop) (by simpa using hpc') (.inl ?_)
          hin' (ho.trans hout)
        rw [← hside,other_other,ht,hpc,afterSend_of_not_stop hstop]
  | stopping k p hp hrun hstop hpc hq hin hout =>
    obtain rfl | rfl := eq_or_eq_other a p
    · simp [step_afterSend hpc (hin a)] at h
    · simp [system,readAndWrite,hq] at h
      subst h
      exact .stopped k p hp hrun hstop (by simpa [State.setThread,State.send] using hpc)
        (by simp [State.setThread]) (by simp [State.setThread,State.send,hin]) hout
  | stopped k p hp hrun hstop hpc hq hin hout =>
    obtain rfl | rfl := eq_or_eq_other a p
    · obtain hd | hr := afterSend_cases startNum k
      · simp [step_of_done (hpc.trans hd)] at h
      · simp [system,readAndWrite,hpc,hr,hin] at h
        subst h
        exact .answering k a hrun hstop (by simp [State.setThread])
          (by simpa [State.setThread] using hq) hout
    · simp [step_of_done hq] at h
  | answering k p hrun hstop hpc hq hout =>
    obtain rfl | rfl := eq_or_eq_other a p
    · simp [system,readAndWrite,hpc] at h
      subst h
      refine .closed k hrun hstop ((done_iff a).mpr ⟨?_,?_⟩) hout
      · simp [State.setThread]
      · simpa [State.setThread,State.send] using hq
    · simp [step_of_done hq] at h
  | closed k hrun hstop hdone hout => simp [step_of_done (hdone a)] at h

theorem stage_invariant : (system startNum).Invariant (Stage startNum) where
  step hs h := hs.step hlo hhi h
  start := .opening rfl (.inr ⟨rfl,rfl⟩) (fun _ => rfl) rfl

end Progress

/-- What the two threads print together, over all interleavings: every run ends, it
ends with both threads done, and the numbers printed are those up to the first stop. -/
structure PrintsExactly (startNum : ℤ) (m : ℕ) : Prop where
  stop : IsStop (value startNum m)
  first : ∀ j < m, ¬ IsStop (value startNum j)
  progress : ∀ s, (system startNum).Reachable s → Done s ∨ ∃ a, (system startNum).step a s ≠ none
  bounded : ∃ bound, ∀ as s, (system startNum).run as init = some s → as.length ≤ bound
  printed : ∀ s, (system startNum).Reachable s → Done s →
    s.printed = (List.range (m+1)).map fun k => (side k,value startNum k)

theorem prints_exactly (startNum : ℤ) (hlo : -2^31+3 ≤ startNum) (hhi : startNum < 2^31) :
    ∃ m, PrintsExactly startNum m := by
  classical
  have hinv := stage_invariant hlo hhi
  let m := Nat.find (exists_stop startNum)
  have hm : IsStop (value startNum m) := Nat.find_spec (exists_stop startNum)
  have hfirst : ∀ j < m, ¬ IsStop (value startNum j) := fun j hj => Nat.find_min _ hj
  refine ⟨m,hm,hfirst,fun s hr => (hinv.reachable hr).progress,
    hinv.bounded (measure m) fun hs h => hs.measure_lt hm h,?_⟩
  · intro s hr hd
    obtain ⟨k,hrun,hstop,hout⟩ := (hinv.reachable hr).printed_of_done hd
    have hkm : k = m := le_antisymm (hrun.le hm) (Running.le hfirst hstop)
    rw [hout,hkm,log]

/-- From 98 the threads print 95, 100, 97 and 102. -/
theorem prints_exactly_ninety_eight : ∃ m, PrintsExactly 98 m :=
  prints_exactly 98 (by norm_num) (by norm_num)

end SocketPair
end SomeCode
