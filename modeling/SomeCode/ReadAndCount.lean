import SomeCode.Contributors
import SomeCode.MachineInt
import SomeCode.Transition
import Mathlib.Data.Fintype.Card
import Mathlib.Algebra.BigOperators.Group.Finset.Basic

/-! `read_data_and_count` of `inf17-0.c`: one thread reads from `N` descriptors as the
edge-triggered events of `epoll` report them, until all of them are at their end. The peers
send and close between its steps. -/
namespace SomeCode
namespace ReadAndCount

open Contributors MachineInt Transition

def bufSize : ℕ := 100

/-- The descriptors of the function: those in `in`, and the one for `epoll` -/
structure Descriptors (N : ℕ) where
  fd : Fin N → Fin (2^31)
  epollFd : Fin (2^31)
  injective : Function.Injective fd
  fresh : ∀ i, fd i ≠ epollFd

/-- What has become of one of the `N` connections: `pending` is the event that has not been
reported yet, and `closes` counts the calls of `close`. -/
structure Channel where
  sent : ℕ
  unread : ℕ
  hungUp : Bool
  registered : Bool
  pending : Bool
  closes : ℕ
  deriving DecidableEq

def Channel.readable (c : Channel) : Bool := 0 < c.unread || c.hungUp

/-- What the function does next; `read` is before the next call of `read` for this index. -/
inductive Pc (N : ℕ)
  | register (i : ℕ)
  | test
  | wait
  | read (i : Fin N)
  | done
  deriving DecidableEq

structure State (N : ℕ) where
  pc : Pc N
  chan : Fin N → Channel
  stillOpened : ℤ
  allReadenBytes : UInt64

variable {N : ℕ}

def State.setChan (s : State N) (i : Fin N) (c : Channel) : State N :=
  { s with chan := Function.update s.chan i c }

/-- The steps that the function takes by itself: to register an index, to test the counter,
and a `read` that returns 0 or -1. A descriptor that is added is reported if it is readable
already. -/
def readDataAndCount (s : State N) : Option (State N) :=
  match s.pc with
  | .register i =>
    if h : i < N then
      let c := s.chan ⟨i,h⟩
      some { s.setChan ⟨i,h⟩ { c with registered := true, pending := c.readable } with
        pc := .register (i+1) }
    else some { s with pc := .test, stillOpened := wrap 32 N }
  | .test => some { s with pc := if 0 < s.stillOpened then .wait else .done }
  | .read i =>
    let c := s.chan i
    if 0 < c.unread then none
    else if c.hungUp then
      some { s.setChan i { c with registered := false, pending := false, closes := c.closes+1 } with
        pc := .test
        stillOpened := s.stillOpened-1 }
    else some { s with pc := .test }
  | .wait | .done => none

inductive Action (N : ℕ)
  | call
  | report (i : Fin N)
  | timeout
  | read (k : ℕ)
  | send (i : Fin N) (n : ℕ)
  | hangUp (i : Fin N)
  deriving DecidableEq

/-- New data or a close is an event for a registered descriptor. -/
def Channel.arrive (c : Channel) (n : ℕ) (hungUp : Bool) : Channel :=
  { c with
    sent := c.sent+n
    unread := c.unread+n
    hungUp := c.hungUp || hungUp
    pending := c.pending || c.registered }

/-- `read` returns `k` bytes, and a zero is stored behind them: where they fill the buffer,
`spill` is what becomes of the variable that lies there. -/
def read (spill : State N → State N) (k : ℕ) (s : State N) : Option (State N) :=
  match s.pc with
  | .read i =>
    let c := s.chan i
    if 1 ≤ k ∧ k ≤ bufSize ∧ k ≤ c.unread then
      let s' := { s.setChan i { c with unread := c.unread-k } with
        allReadenBytes := s.allReadenBytes + UInt64.ofNat k }
      some (if k < bufSize then s' else spill s')
    else none
  | _ => none

def step (spill : State N → State N) (a : Action N) (s : State N) : Option (State N) :=
  match a with
  | .call => readDataAndCount s
  | .report i =>
    if s.pc = .wait ∧ (s.chan i).pending then
      some { s.setChan i { s.chan i with pending := false } with pc := .read i }
    else none
  | .timeout => if s.pc = .wait then some { s with pc := .test } else none
  | .read k => read spill k s
  | .send i n =>
    if (s.chan i).hungUp then none else some (s.setChan i ((s.chan i).arrive n false))
  | .hangUp i =>
    if (s.chan i).hungUp then none else some (s.setChan i ((s.chan i).arrive 0 true))

def init (N : ℕ) : State N := ⟨.register 0,fun _ => ⟨0,0,false,false,false,0⟩,0,0⟩

def system (N : ℕ) (spill : State N → State N) : System (State N) (Action N) := ⟨init N,step spill⟩

/-- No `read` fills the buffer. -/
def Fits (_ : State N) : Action N → Prop
  | .read k => k < bufSize
  | _ => True

instance (s : State N) (a : Action N) : Decidable (Fits s a) := by
  cases a with
  | read k => exact inferInstanceAs (Decidable (_ < _))
  | _ => exact inferInstanceAs (Decidable True)

/-- The result is the number of bytes sent, each descriptor is closed once, and no event is
lost. -/
structure Counted (s : State N) : Prop where
  result : s.pc = .done → s.allReadenBytes = UInt64.ofNat (∑ i, (s.chan i).sent)
  closed : s.pc = .done → ∀ i, (s.chan i).closes = 1
  woken : s.pc = .wait → ∀ i, (s.chan i).closes = 0 → (s.chan i).readable → (s.chan i).pending

theorem Descriptors.lt (d : Descriptors N) : N < 2^31 := by
  have hinj : Function.Injective fun o : Option (Fin N) => o.elim d.epollFd d.fd := by
    intro a b h
    cases a <;> cases b <;> simp only [Option.elim] at h
    · rfl
    · exact absurd h.symm (d.fresh _)
    · exact absurd h (d.fresh _)
    · exact congrArg some (d.injective h)
  have hcard := Fintype.card_le_of_injective _ hinj
  rw [Fintype.card_option,Fintype.card_fin,Fintype.card_fin] at hcard
  exact hcard

def Pc.started (i : Fin N) : Pc N → Bool
  | .register k => i < k
  | _ => true

/-- One connection; its event is pending or being served. -/
structure ChannelInv (pc : Pc N) (i : Fin N) (c : Channel) : Prop where
  unread : c.unread ≤ c.sent
  closed : c.closes = 0 ∨ c.closes = 1 ∧ c.unread = 0 ∧ c.hungUp
  registered : c.registered ↔ c.closes = 0 ∧ pc.started i
  pending : c.pending → c.registered
  edge : c.registered → c.readable → c.pending ∨ pc = .read i

def Channel.taken (c : Channel) : ℕ := c.sent - c.unread

def Channel.opened (c : Channel) : ℤ := if c.closes = 0 then 1 else 0

structure Inv (s : State N) : Prop where
  chan : ∀ i, ChannelInv s.pc i (s.chan i)
  bytes : s.allReadenBytes = UInt64.ofNat (∑ i, (s.chan i).taken)
  starting : ∀ k, s.pc = .register k → ∀ i, (s.chan i).closes = 0
  count : (∀ k, s.pc ≠ .register k) → s.stillOpened = ∑ i, (s.chan i).opened
  reading : ∀ i, s.pc = .read i → (s.chan i).closes = 0
  finished : s.pc = .done → s.stillOpened ≤ 0

section Steps

variable {s t : State N} {pc pc' : Pc N} {i : Fin N} {c : Channel}

theorem ChannelInv.goto (h : ChannelInv pc i c) (hs : pc'.started i = pc.started i)
    (hr : pc = .read i → pc' = .read i ∨ c.readable = false) : ChannelInv pc' i c where
  unread := h.unread
  closed := h.closed
  registered := by rw [hs]; exact h.registered
  pending := h.pending
  edge hreg hread := (h.edge hreg hread).elim .inl fun hpc => (hr hpc).elim .inr fun hn => by
    simp [hn] at hread

theorem ChannelInv.closes_eq (h : ChannelInv pc i c) (hup : c.hungUp = false) : c.closes = 0 :=
  h.closed.resolve_right fun hh => by simp [hup] at hh

theorem ChannelInv.arrive (h : ChannelInv pc i c) (hup : c.hungUp = false) (n : ℕ)
    (hungUp : Bool) : ChannelInv pc i (c.arrive n hungUp) where
  unread := Nat.add_le_add_right h.unread n
  closed := .inl (h.closes_eq hup)
  registered := h.registered
  pending hp := by
    obtain hp | hp := by simpa [Channel.arrive] using hp
    · exact h.pending hp
    · exact hp
  edge hreg _ := .inl (by
    have hr : c.registered = true := hreg
    simp [Channel.arrive,hr])

theorem taken_arrive (h : ChannelInv pc i c) (n : ℕ) (hungUp : Bool) :
    (c.arrive n hungUp).taken = c.taken := by
  have hu := h.unread
  simp only [Channel.taken,Channel.arrive]
  omega

theorem setChan_self (s : State N) (i : Fin N) (c : Channel) : (s.setChan i c).chan i = c :=
  Function.update_self ..

theorem setChan_ne (s : State N) {i j : Fin N} (c : Channel) (h : j ≠ i) :
    (s.setChan i c).chan j = s.chan j :=
  Function.update_of_ne h ..

theorem forall_setChan {P : Fin N → Channel → Prop} (hi : P i c) (hj : ∀ j ≠ i, P j (s.chan j)) :
    ∀ j, P j ((s.setChan i c).chan j) := by
  intro j
  by_cases h : j = i
  · subst h
    rwa [setChan_self]
  · rw [setChan_ne s c h]
    exact hj j h

theorem sum_setChan {V : Type*} [AddCommMonoid V] (w : Channel → V) (h : w c = w (s.chan i)) :
    ∑ j, w (s.chan j) = ∑ j, w ((s.setChan i c).chan j) :=
  Finset.sum_congr rfl fun j _ =>
    forall_setChan (P := fun j c' => w (s.chan j) = w c') h.symm (fun _ _ => rfl) j

theorem Inv.arrive (hi : Inv s) (hup : (s.chan i).hungUp = false) (n : ℕ) (hungUp : Bool) :
    Inv (s.setChan i ((s.chan i).arrive n hungUp)) where
  chan := forall_setChan (P := ChannelInv s.pc) ((hi.chan i).arrive hup n hungUp)
    fun j _ => hi.chan j
  bytes := hi.bytes.trans (congrArg UInt64.ofNat
    (sum_setChan Channel.taken (taken_arrive (hi.chan i) n hungUp)))
  starting k hk := forall_setChan (P := fun _ c => c.closes = 0) (hi.starting k hk i)
    fun j _ => hi.starting k hk j
  count hk := (hi.count hk).trans (sum_setChan Channel.opened rfl)
  reading j hj := by
    have h := hi.reading j hj
    by_cases hji : j = i
    · subst hji
      rwa [setChan_self]
    · rwa [setChan_ne _ _ hji]
  finished := hi.finished

theorem Inv.register {k : ℕ} (hi : Inv s) (hpc : s.pc = .register k) (hk : k < N) :
    Inv { s.setChan ⟨k,hk⟩ { s.chan ⟨k,hk⟩ with
      registered := true
      pending := (s.chan ⟨k,hk⟩).readable } with pc := .register (k+1) } where
  chan := by
    have h := hi.chan ⟨k,hk⟩
    refine forall_setChan (P := ChannelInv (.register (k+1))) ⟨h.unread,h.closed,?_,fun _ => rfl,
      fun _ hread => .inl hread⟩ fun j hj => (hi.chan j).goto ?_ (by simp [hpc])
    · simp [hi.starting k hpc ⟨k,hk⟩,Pc.started]
    · have hne : (j : ℕ) ≠ k := fun h => hj (Fin.ext h)
      rw [hpc]
      simp only [Pc.started,decide_eq_decide]
      omega
  bytes := hi.bytes.trans (congrArg UInt64.ofNat (sum_setChan Channel.taken rfl))
  starting _ _ := forall_setChan (P := fun _ c => c.closes = 0) (hi.starting k hpc _)
    fun j _ => hi.starting k hpc j
  count hne := absurd rfl (hne (k+1))
  reading _ h := by cases h
  finished h := by cases h

theorem Inv.endRegister {k : ℕ} (hN : N < 2^31) (hi : Inv s) (hpc : s.pc = .register k)
    (hk : ¬ k < N) : Inv { s with pc := .test, stillOpened := wrap 32 N } where
  chan i := (hi.chan i).goto (by
    have hlt : (i : ℕ) < k := i.isLt.trans_le (Nat.le_of_not_lt hk)
    simp [hpc,Pc.started,hlt]) (by simp [hpc])
  bytes := hi.bytes
  starting _ h := by cases h
  count _ := by
    have hopened : ∀ i, (s.chan i).opened = 1 := fun i => if_pos (hi.starting k hpc i)
    rw [wrap_eq (by omega) (by omega)]
    simp [hopened]
  reading _ h := by cases h
  finished h := by cases h

theorem Inv.goto (hi : Inv s) (hstart : ∀ k, s.pc ≠ .register k)
    (hto : pc' = .test ∨ pc' = .wait ∨ pc' = .done)
    (hread : ∀ i, s.pc = .read i → (s.chan i).readable = false)
    (hdone : pc' = .done → s.stillOpened ≤ 0) : Inv { s with pc := pc' } where
  chan i := (hi.chan i).goto (by
    have hs : s.pc.started i = true := by
      cases h : s.pc with
      | register k => exact absurd h (hstart k)
      | _ => rfl
    obtain rfl | rfl | rfl := hto <;> exact hs.symm) fun h => .inr (hread i h)
  bytes := hi.bytes
  starting k h := by obtain rfl | rfl | rfl := hto <;> cases h
  count _ := hi.count hstart
  reading i h := by obtain rfl | rfl | rfl := hto <;> cases h
  finished := hdone

/-- At the end of file nothing is left to read, and the descriptor is closed. -/
theorem Inv.close (hi : Inv s) (hpc : s.pc = .read i) (hu : (s.chan i).unread = 0)
    (hup : (s.chan i).hungUp) : Inv { s.setChan i { s.chan i with
      registered := false
      pending := false
      closes := (s.chan i).closes+1 } with pc := .test, stillOpened := s.stillOpened-1 } where
  chan := by
    have h0 := hi.reading i hpc
    refine forall_setChan (P := ChannelInv .test) ⟨by simp [hu],.inr ⟨by simp [h0],hu,hup⟩,
      by simp,by simp,by simp⟩ fun j hj => (hi.chan j).goto (by rw [hpc]; rfl) fun h => ?_
    rw [hpc] at h
    exact absurd (Pc.read.inj h).symm hj
  bytes := hi.bytes.trans (congrArg UInt64.ofNat (sum_setChan Channel.taken rfl))
  starting _ h := by cases h
  count _ := by
    have hold : (s.chan i).opened = 1 := if_pos (hi.reading i hpc)
    have hnew : Channel.opened { s.chan i with
        registered := false
        pending := false
        closes := (s.chan i).closes+1 } = 0 := if_neg (Nat.succ_ne_zero _)
    have hsum := sum_update Channel.opened s.chan i { s.chan i with
      registered := false
      pending := false
      closes := (s.chan i).closes+1 }
    have hcount := hi.count (by simp [hpc])
    rw [hold,hnew] at hsum
    simp only [State.setChan]
    linarith only [hsum,hcount]
  reading _ h := by cases h
  finished h := by cases h

theorem Inv.report (hi : Inv s) (hpc : s.pc = .wait) (hp : (s.chan i).pending) :
    Inv { s.setChan i { s.chan i with pending := false } with pc := .read i } where
  chan := by
    have h := hi.chan i
    rw [hpc] at h
    exact forall_setChan (P := ChannelInv (.read i)) ⟨h.unread,h.closed,h.registered,by simp,
      fun _ _ => .inr rfl⟩ fun j _ => (hi.chan j).goto (by rw [hpc]; rfl) (by simp [hpc])
  bytes := hi.bytes.trans (congrArg UInt64.ofNat (sum_setChan Channel.taken rfl))
  starting _ h := by cases h
  count _ := (hi.count (by simp [hpc])).trans (sum_setChan Channel.opened rfl)
  reading j hj := by
    obtain rfl := Pc.read.inj hj
    have h := hi.chan i
    have hreg := (h.registered.mp (h.pending hp)).1
    exact (congrArg Channel.closes (setChan_self _ _ _)).trans hreg
  finished h := by cases h

theorem Inv.read {k : ℕ} (hi : Inv s) (hpc : s.pc = .read i) (hk : k ≤ (s.chan i).unread) :
    Inv { s.setChan i { s.chan i with unread := (s.chan i).unread-k } with
      allReadenBytes := s.allReadenBytes + UInt64.ofNat k } where
  chan := by
    have h := hi.chan i
    have h0 := hi.reading i hpc
    refine forall_setChan (P := ChannelInv s.pc) ⟨(Nat.sub_le _ _).trans h.unread,.inl h0,
      h.registered,h.pending,fun _ _ => .inr hpc⟩ fun j _ => hi.chan j
  bytes := by
    have hu := (hi.chan i).unread
    have hsum := sum_update Channel.taken s.chan i
      { s.chan i with unread := (s.chan i).unread-k }
    have htaken : (∑ j, (Function.update s.chan i
        { s.chan i with unread := (s.chan i).unread-k } j).taken) =
          (∑ j, (s.chan j).taken) + k := by
      simp only [Channel.taken] at hsum ⊢
      omega
    simp only [State.setChan]
    rw [htaken,hi.bytes,UInt64.ofNat_add]
  starting j h := by cases hpc.symm.trans h
  count hne := (hi.count hne).trans (sum_setChan Channel.opened rfl)
  reading j hj := by
    obtain rfl := Pc.read.inj (hpc.symm.trans hj)
    exact (congrArg Channel.closes (setChan_self _ _ _)).trans (hi.reading _ hpc)
  finished h := by cases hpc.symm.trans h

theorem Inv.call (hN : N < 2^31) (hi : Inv s) (h : readDataAndCount s = some t) : Inv t := by
  cases hpc : s.pc with
  | register k =>
    simp only [readDataAndCount,hpc] at h
    split_ifs at h with hk
    · cases h
      exact hi.register hpc hk
    · cases h
      exact hi.endRegister hN hpc hk
  | test =>
    simp only [readDataAndCount,hpc] at h
    cases h
    refine hi.goto (by simp [hpc]) ?_ (by simp [hpc]) fun hdone => ?_
    · split_ifs <;> simp
    · split_ifs at hdone with hopen
      exact not_lt.mp hopen
  | read i =>
    simp only [readDataAndCount,hpc] at h
    split_ifs at h with hu hup
    · cases h
      exact hi.close hpc (Nat.eq_zero_of_not_pos hu) hup
    · cases h
      refine hi.goto (by simp [hpc]) (.inl rfl) (fun j hj => ?_) (by simp)
      obtain rfl := Pc.read.inj (hpc.symm.trans hj)
      simpa [Channel.readable,hup] using hu
  | wait | done => simp [readDataAndCount,hpc] at h

theorem Inv.step {spill : State N → State N} {a : Action N} (hN : N < 2^31) (hi : Inv s)
    (h : step spill a s = some t) (hf : Fits s a ∨ ∀ s, spill s = s) : Inv t := by
  cases a with
  | call => exact hi.call hN h
  | report i =>
    simp only [ReadAndCount.step] at h
    split_ifs at h with hc
    cases h
    exact hi.report hc.1 hc.2
  | timeout =>
    simp only [ReadAndCount.step] at h
    split_ifs at h with hpc
    cases h
    exact hi.goto (by simp [hpc]) (.inl rfl) (by simp [hpc]) (by simp)
  | read k =>
    simp only [ReadAndCount.step,ReadAndCount.read] at h
    split at h
    · rename_i i hpc
      split_ifs at h with hk hfit
      · cases h
        exact hi.read hpc hk.2.2
      · obtain rfl := Option.some.inj h
        rw [hf.resolve_left hfit]
        exact hi.read hpc hk.2.2
    · cases h
  | send i n =>
    simp only [ReadAndCount.step] at h
    split_ifs at h with hup
    cases h
    exact hi.arrive (by simpa using hup) n false
  | hangUp i =>
    simp only [ReadAndCount.step] at h
    split_ifs at h with hup
    cases h
    exact hi.arrive (by simpa using hup) 0 true

theorem inv_init (N : ℕ) : Inv (init N) where
  chan i := ⟨le_rfl,.inl rfl,by simp [init,Pc.started],by simp [init],by simp [init]⟩
  bytes := by simp [init,Channel.taken]
  starting _ _ _ := rfl
  count h := absurd rfl (h 0)
  reading _ h := by cases h
  finished h := by cases h

theorem Inv.counted (hi : Inv s) : Counted s := by
  have hclosed : s.pc = .done → ∀ i, (s.chan i).closes = 1 ∧ (s.chan i).unread = 0 := by
    intro hpc i
    obtain h0 | h1 := (hi.chan i).closed
    · have hnonneg : ∀ j ∈ Finset.univ, 0 ≤ (s.chan j).opened := by
        intro j _
        simp only [Channel.opened]
        split_ifs <;> simp
      have hle : (s.chan i).opened ≤ ∑ j, (s.chan j).opened :=
        Finset.single_le_sum hnonneg (Finset.mem_univ i)
      have hone : (s.chan i).opened = 1 := if_pos h0
      have hcount := hi.count (by simp [hpc])
      have hfin := hi.finished hpc
      omega
    · exact ⟨h1.1,h1.2.1⟩
  refine ⟨fun hpc => ?_,fun hpc i => (hclosed hpc i).1,fun hpc i h0 hread => ?_⟩
  · rw [hi.bytes]
    simp only [Channel.taken,(hclosed hpc _).2,Nat.sub_zero]
  · have h := hi.chan i
    rw [hpc] at h
    exact (h.edge (h.registered.mpr ⟨h0,rfl⟩) hread).resolve_right (by simp)

end Steps

/-- The function on any descriptors, with any variable behind the buffer: all is well while
no `read` fills the buffer, and in every run if the byte behind it belongs to nothing. -/
structure CountsWhenFits (spill : State N → State N) : Prop where
  fits : ∀ s, ((system N spill).restrict Fits).Reachable s → Counted s
  harmless : (∀ s, spill s = s) → ∀ s, (system N spill).Reachable s → Counted s

theorem counts_when_fits (d : Descriptors N) (spill : State N → State N) :
    CountsWhenFits spill where
  fits s hr := by
    have hinv : ((system N spill).restrict Fits).Invariant Inv :=
      ⟨⟨fun hi h => hi.step d.lt (System.restrict_step_eq_some.mp h).2
        (.inl (System.restrict_step_eq_some.mp h).1)⟩,inv_init N⟩
    exact (hinv.reachable hr).counted
  harmless hspill s hr := by
    have hinv : (system N spill).Invariant Inv :=
      ⟨⟨fun hi h => hi.step d.lt h (.inr hspill)⟩,inv_init N⟩
    exact (hinv.reachable hr).counted

/-- Two connections behind the descriptor of `epoll` -/
def sampleDescriptors : Descriptors 2 where
  fd i := ⟨i+4,by omega⟩
  epollFd := ⟨3,by decide⟩
  injective i j h := by simpa [Fin.ext_iff] using h
  fresh i := by simp [Fin.ext_iff]

/-- The two peers send 99 and 51 bytes, and what the second one has sent is read in two parts. -/
def sampleRun : List (Action 2) :=
  let one : Fin 2 := ⟨0,by decide⟩
  let two : Fin 2 := ⟨1,by decide⟩
  [.call,.call,.call,.call,.send one 99,.send two 51,.hangUp one,.hangUp two,.report one,.read 99,
    .call,.call,.report two,.read 50,.read 1,.call,.call]

theorem counts_when_fits_two : ∃ s, ((system 2 fun s => { s with stillOpened := 0 }).restrict
      Fits).run sampleRun (init 2) = some s ∧
    s.pc = .done ∧ s.allReadenBytes = 150 ∧ ∀ i, (s.chan i).closes = 1 := by
  have hrun : ∃ s, ((system 2 fun s => { s with stillOpened := 0 }).restrict Fits).run sampleRun
      (init 2) = some s ∧ s.pc = .done ∧ ∑ i, (s.chan i).sent = 150 := ⟨_,rfl,rfl,by decide⟩
  obtain ⟨s,hs,hdone,hsent⟩ := hrun
  have hcounted := (counts_when_fits sampleDescriptors _).fits s ⟨_,hs⟩
  refine ⟨s,hs,hdone,?_,hcounted.closed hdone⟩
  rw [hcounted.result hdone,hsent]
  rfl

/-! The bytes of the buffer that the inner loop writes, for all that `read` may return -/

/-- What the inner loop has read, and the indices of `buf` that have been written to -/
structure Inner where
  readBytes : ℤ
  allReadenBytes : UInt64
  written : List ℕ

/-- A call of `read` fills the first bytes, and a zero is stored behind them. -/
def Inner.store (s : Inner) (n : ℕ) : Inner :=
  ⟨n,s.allReadenBytes + UInt64.ofNat n,s.written ++ List.range n ++ [n]⟩

/-- The inner loop, with the results of its calls of `read` -/
def readLoop (s : Inner) : List ℤ → Inner
  | [] => s
  | readBytes :: results =>
    if 0 < readBytes then readLoop (s.store readBytes.toNat) results
    else { s with readBytes := readBytes }

/-- Results that the kernel may deliver: up to a whole buffer each time, and then the end of the
file or an error. -/
inductive Delivered : List ℤ → Prop
  | last {r : ℤ} : r = 0 ∨ r = -1 → Delivered [r]
  | bytes {r : ℤ} {results : List ℤ} :
    1 ≤ r → r ≤ bufSize → Delivered results → Delivered (r :: results)

theorem store_in_buf_iff (s : Inner) {n : ℕ} (hn : n ≤ bufSize) :
    (∀ j ∈ (s.store n).written, j < bufSize) ↔ (∀ j ∈ s.written, j < bufSize) ∧ n ≠ bufSize := by
  simp only [Inner.store,List.mem_append,List.mem_range,List.mem_singleton]
  constructor
  · intro h
    have hlast := h n (.inr rfl)
    exact ⟨fun j hj => h j (.inl (.inl hj)),hlast.ne⟩
  · rintro ⟨hold,hne⟩ j ((hj | hj) | rfl)
    · exact hold j hj
    · exact hj.trans_le hn
    · exact lt_of_le_of_ne hn hne

theorem readLoop_in_buf_iff {results : List ℤ} (h : Delivered results) (s : Inner) :
    (∀ j ∈ (readLoop s results).written, j < bufSize) ↔
      (∀ j ∈ s.written, j < bufSize) ∧ ∀ r ∈ results, r ≠ bufSize := by
  induction h generalizing s with
  | @last r hr =>
    have hle : ¬ 0 < r := by omega
    have hne : r ≠ bufSize := by
      have hpos : 0 < bufSize := by decide
      omega
    simp [readLoop,hle,hne]
  | @bytes r results hl hu _ ih =>
    obtain ⟨n,rfl⟩ := Int.eq_ofNat_of_zero_le (show 0 ≤ r by omega)
    rw [readLoop,if_pos (by omega),Int.toNat_natCast,ih,store_in_buf_iff s (by omega)]
    simp [and_assoc]

def Inner.begin (allReadenBytes : UInt64) : Inner := ⟨0,allReadenBytes,[]⟩

theorem fits_read_iff {N k : ℕ} (s : State N) (allReadenBytes : UInt64) (hk : k ≤ bufSize) :
    Fits s (.read k) ↔ ∀ j ∈ ((Inner.begin allReadenBytes).store k).written, j < bufSize := by
  rw [store_in_buf_iff _ hk]
  simp only [Fits,Inner.begin,List.not_mem_nil,false_imp_iff,implies_true,true_and]
  exact Nat.lt_iff_le_and_ne.trans (and_iff_right hk)

/-- All indices are in `buf` exactly when no call of `read` has filled it. -/
theorem written_in_buf_iff {results : List ℤ} (h : Delivered results) (allReadenBytes : UInt64) :
    (∀ j ∈ (readLoop (.begin allReadenBytes) results).written, j < bufSize) ↔
      ∀ r ∈ results, r ≠ bufSize := by
  rw [readLoop_in_buf_iff h]
  simp [Inner.begin]

theorem written_in_buf_reads :
    (∀ j ∈ (readLoop (.begin 0) [99,7,0]).written, j < bufSize) ↔
      ∀ r ∈ ([99,7,0] : List ℤ), r ≠ bufSize :=
  written_in_buf_iff (.bytes (by decide) (by decide) (.bytes (by decide) (by decide)
    (.last (.inl rfl)))) 0

/-- A peer that has sent 100 bytes -/
theorem full_buffer_written : Delivered [100,-1] ∧
    100 ∈ (readLoop (.begin 0) [100,-1]).written ∧ ¬ 100 < bufSize :=
  ⟨.bytes (by decide) (by decide) (.last (.inr rfl)),by decide,by decide⟩

/-- The zero behind a full buffer clears the counter of the descriptors that are open: with
two connections, the function returns after 100 bytes of the first one. -/
theorem full_buffer_spills : ∃ s, (system 2 fun s => { s with stillOpened := 0 }).Reachable s ∧
    s.pc = .done ∧ (s.chan 1).closes = 0 ∧ ¬ Counted s := by
  refine ⟨_,⟨[.call,.call,.call,.send 0 100,.call,.report 0,.read 100,.call,.call],rfl⟩,rfl,rfl,
    fun h => ?_⟩
  exact absurd (h.closed rfl 1) (by decide)

end ReadAndCount
end SomeCode
