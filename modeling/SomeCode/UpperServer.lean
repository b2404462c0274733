import SomeCode.Transition

/-! `inf17-1.c`: a server with one thread and a level-triggered `epoll` that sends back in upper
case what its clients send, until SIGTERM stops it through a pipe. The clients connect, send and
close between the steps of the server. -/
namespace SomeCode
namespace UpperServer

open Transition

def bufSize : ℕ := 4096

def SOMAXCONN : ℕ := 4096

abbrev Errno := ℕ

def EINTR : Errno := 4

def EBADF : Errno := 9

def EAGAIN : Errno := 11

/-- `toupper` of the C locale -/
def toupper (b : UInt8) : UInt8 := if 97 ≤ b ∧ b ≤ 122 then b - 32 else b

def upper (bytes : List UInt8) : List UInt8 := bytes.map toupper

@[simp] theorem upper_nil : upper [] = [] := rfl

@[simp] theorem upper_append (a b : List UInt8) : upper (a ++ b) = upper a ++ upper b :=
  List.map_append

/-- `queued` is before `accept`; an `accepted` connection that `epoll_ctl` could not add is
never reported. -/
inductive Status
  | absent
  | queued
  | accepted
  | polled
  | closed
  deriving DecidableEq

/-- One client: what it has still to send, what has arrived and is unread, whether it has closed
its end, and what the server has sent back. -/
structure Conn where
  toSend : List UInt8
  inbox : List UInt8
  hungUp : Bool
  status : Status
  echo : List UInt8
  deriving DecidableEq

/-- The descriptors that `epoll` watches: `stop_fd`, `socket_fd` and the connections -/
inductive Event (C : Type)
  | stop
  | listen
  | conn (c : C)
  deriving DecidableEq

/-- The next call of the server; `rest` are the events of the batch that are still to process,
and `buf` are the bytes to write. -/
inductive Pc (C : Type)
  | test
  | wait
  | batch (rest : List (Event C))
  | accept (rest : List (Event C))
  | read (c : C) (rest : List (Event C))
  | write (c : C) (buf : List UInt8) (rest : List (Event C))
  | shutdown (c : C) (rest : List (Event C))
  | close (c : C) (rest : List (Event C))
  | done
  | killed
  deriving DecidableEq

/-- `stopReported` says of the last batch whether `stop_fd` was in it. -/
structure State (C : Type) where
  pc : Pc C
  conn : C → Conn
  queue : List C
  stopChecker : ℤ
  errno : Errno
  stopBytes : ℕ
  stopReported : Bool

/-- What the calls return is chosen by the kernel: a call that succeeds leaves `errno` alone,
and one that fails sets it. -/
inductive Action (C : Type)
  | call
  | poll (events : List (Event C))
  | timeout
  | interrupted
  | accept (failed : Option Errno)
  | acceptFails
  | read (k : ℕ)
  | readEnd
  | readFails (e : Errno)
  | write (k : ℕ)
  | writeFails (e : Errno)
  | sigpipe
  | shutdown (failed : Option Errno)
  | close (failed : Option Errno)
  | connect (c : C)
  | send (c : C) (k : ℕ)
  | hangUp (c : C)
  | sigterm

variable {C : Type} [DecidableEq C]

def State.setConn (s : State C) (c : C) (v : Conn) : State C :=
  { s with conn := Function.update s.conn c v }

/-- What a level-triggered `epoll_wait` may report -/
def State.ready (s : State C) : Event C → Bool
  | .stop => 0 < s.stopBytes
  | .listen => s.queue ≠ []
  | .conn c => (s.conn c).status = .polled ∧ ((s.conn c).inbox ≠ [] ∨ (s.conn c).hungUp)

def State.ended (s : State C) : Bool := s.pc = .done ∨ s.pc = .killed

/-- Every `read` that is not positive ends the connection. -/
def readAndWrite (a : Action C) (s : State C) : Option (State C) :=
  match s.pc, a with
  | .read c rest, .read k =>
    let v := s.conn c
    if 1 ≤ k ∧ k ≤ bufSize ∧ k ≤ v.inbox.length then
      some { s.setConn c { v with inbox := v.inbox.drop k } with
        pc := .write c (upper (v.inbox.take k)) rest }
    else none
  | .read c rest, .readEnd =>
    if (s.conn c).inbox = [] ∧ (s.conn c).hungUp then some { s with pc := .shutdown c rest }
    else none
  | .read c rest, .readFails e =>
    if e = EAGAIN → (s.conn c).inbox = [] ∧ (s.conn c).hungUp = false then
      some { s with pc := .shutdown c rest, errno := e }
    else none
  | .write c buf rest, .write k =>
    if 1 ≤ k ∧ k ≤ buf.length then
      some { s.setConn c { s.conn c with echo := (s.conn c).echo ++ buf.take k } with
        pc := .read c rest }
    else none
  | .write c _ rest, .writeFails e => some { s with pc := .read c rest, errno := e }
  | .write c _ _, .sigpipe => if (s.conn c).hungUp then some { s with pc := .killed } else none
  | .shutdown c rest, .shutdown failed =>
    some { s with pc := .close c rest, errno := failed.getD s.errno }
  | .close c rest, .close failed =>
    some { s.setConn c { s.conn c with status := .closed } with
      pc := .batch rest, errno := failed.getD s.errno }
  | _, _ => none

/-- The steps of `read_and_write`, and what each of them needs -/
inductive Serves (s : State C) : Action C → State C → Prop
  | read {c : C} {rest : List (Event C)} {k : ℕ} (hpc : s.pc = .read c rest)
      (hk : 1 ≤ k ∧ k ≤ bufSize ∧ k ≤ (s.conn c).inbox.length) :
      Serves s (.read k)
        { s.setConn c { s.conn c with inbox := (s.conn c).inbox.drop k } with
          pc := .write c (upper ((s.conn c).inbox.take k)) rest }
  | readEnd {c : C} {rest : List (Event C)} (hpc : s.pc = .read c rest)
      (hk : (s.conn c).inbox = [] ∧ (s.conn c).hungUp) :
      Serves s .readEnd { s with pc := .shutdown c rest }
  | readFails {c : C} {rest : List (Event C)} {e : Errno} (hpc : s.pc = .read c rest)
      (hk : e = EAGAIN → (s.conn c).inbox = [] ∧ (s.conn c).hungUp = false) :
      Serves s (.readFails e) { s with pc := .shutdown c rest, errno := e }
  | write {c : C} {buf : List UInt8} {rest : List (Event C)} {k : ℕ}
      (hpc : s.pc = .write c buf rest) (hk : 1 ≤ k ∧ k ≤ buf.length) :
      Serves s (.write k)
        { s.setConn c { s.conn c with echo := (s.conn c).echo ++ buf.take k } with
          pc := .read c rest }
  | writeFails {c : C} {buf : List UInt8} {rest : List (Event C)} {e : Errno}
      (hpc : s.pc = .write c buf rest) :
      Serves s (.writeFails e) { s with pc := .read c rest, errno := e }
  | sigpipe {c : C} {buf : List UInt8} {rest : List (Event C)} (hpc : s.pc = .write c buf rest)
      (hk : (s.conn c).hungUp) : Serves s .sigpipe { s with pc := .killed }
  | shutdown {c : C} {rest : List (Event C)} {failed : Option Errno}
      (hpc : s.pc = .shutdown c rest) :
      Serves s (.shutdown failed) { s with pc := .close c rest, errno := failed.getD s.errno }
  | close {c : C} {rest : List (Event C)} {failed : Option Errno} (hpc : s.pc = .close c rest) :
      Serves s (.close failed)
        { s.setConn c { s.conn c with status := .closed } with
          pc := .batch rest, errno := failed.getD s.errno }

theorem serves_of_readAndWrite {s t : State C} {a : Action C} (h : readAndWrite a s = some t) :
    Serves s a t := by
  unfold readAndWrite at h
  split at h
  all_goals first
    | cases h
    | simp only [Option.ite_none_right_eq_some,Option.some.injEq] at h
      obtain ⟨hk,rfl⟩ := h
  case h_1 hpc => exact .read hpc hk
  case h_2 hpc => exact .readEnd hpc hk
  case h_3 hpc => exact .readFails hpc hk
  case h_4 hpc => exact .write hpc hk
  case h_5.refl hpc => exact .writeFails hpc
  case h_6 hpc => exact .sigpipe hpc hk
  case h_7.refl hpc => exact .shutdown hpc
  case h_8.refl hpc => exact .close hpc

/-- The event loop. Where it ends by the stop event, `epoll_fd` and `socket_fd` are closed in
the same step; the connections end with the process. An `accept` that fails is followed by
`fcntl` and `epoll_ctl` of the descriptor -1. -/
def serverMain (a : Action C) (s : State C) : Option (State C) :=
  match s.pc, a with
  | .test, .call => some { s with pc := if s.stopChecker = 0 then .done else .wait }
  | .wait, .poll events =>
    if events ≠ [] ∧ events.length ≤ SOMAXCONN ∧ events.Nodup ∧ ∀ e ∈ events, s.ready e then
      some { s with pc := .batch events, stopReported := .stop ∈ events }
    else none
  | .wait, .timeout => some { s with pc := .test }
  | .wait, .interrupted => some { s with pc := .test, errno := EINTR }
  | .batch [], .call => some { s with pc := .test }
  | .batch (.stop :: rest), .call =>
    if s.errno = EAGAIN then some { s with pc := .batch rest }
    else some { s with pc := .test, stopChecker := 0 }
  | .batch (.listen :: rest), .call => some { s with pc := .accept rest }
  | .batch (.conn c :: rest), .call => some { s with pc := .read c rest }
  | .accept rest, .accept failed =>
    match s.queue with
    | [] => none
    | c :: queue =>
      let status := if failed.isNone then .polled else .accepted
      some { s.setConn c { s.conn c with status := status } with
        pc := .batch rest, queue := queue, errno := failed.getD s.errno }
  | .accept rest, .acceptFails => some { s with pc := .batch rest, errno := EBADF }
  | _, _ => none

/-- The handler writes to a pipe that holds `capacity` bytes and does not block. -/
def stopSignalHandler (capacity : ℕ) (s : State C) : State C :=
  if s.stopBytes < capacity then { s with stopBytes := s.stopBytes+1 }
  else { s with errno := EAGAIN }

def client (c : C) (a : Action C) (s : State C) : Option (State C) :=
  let v := s.conn c
  match a with
  | .connect _ =>
    if v.status = .absent ∧ s.stopChecker ≠ 0 ∧ s.ended = false then
      some { s.setConn c { v with status := .queued } with queue := s.queue ++ [c] }
    else none
  | .send _ k =>
    if v.status ≠ .absent ∧ v.hungUp = false ∧ 1 ≤ k ∧ k ≤ v.toSend.length then
      some (s.setConn c { v with toSend := v.toSend.drop k, inbox := v.inbox ++ v.toSend.take k })
    else none
  | .hangUp _ =>
    if v.status ≠ .absent ∧ v.hungUp = false then some (s.setConn c { v with hungUp := true })
    else none
  | _ => none

def step (capacity : ℕ) (a : Action C) (s : State C) : Option (State C) :=
  match a with
  | .connect c | .send c _ | .hangUp c => client c a s
  | .sigterm => if s.ended then none else some (stopSignalHandler capacity s)
  | .call | .poll _ | .timeout | .interrupted | .accept _ | .acceptFails => serverMain a s
  | .read _ | .readEnd | .readFails _ | .write _ | .writeFails _ | .sigpipe
  | .shutdown _ | .close _ => readAndWrite a s

def init (data : C → List UInt8) : State C :=
  ⟨.test,fun c => ⟨data c,[],false,.absent,[]⟩,[],1,0,0,false⟩

def system (capacity : ℕ) (data : C → List UInt8) : System (State C) (Action C) :=
  ⟨init data,step capacity⟩

def Pc.head? : Pc C → Option (Event C)
  | .batch rest => rest.head?
  | _ => none

/-- The events of the batch that are not done with -/
def Pc.todo : Pc C → List (Event C)
  | .batch rest => rest
  | .accept rest => .listen :: rest
  | .read c rest | .write c _ rest | .shutdown c rest | .close c rest => .conn c :: rest
  | _ => []

@[simp] theorem State.setConn_conn (s : State C) (c : C) (v : Conn) :
    (s.setConn c v).conn = Function.update s.conn c v := rfl

@[simp] theorem State.setConn_pc (s : State C) (c : C) (v : Conn) : (s.setConn c v).pc = s.pc := rfl

@[simp] theorem State.setConn_queue (s : State C) (c : C) (v : Conn) :
    (s.setConn c v).queue = s.queue := rfl

@[simp] theorem State.setConn_stopChecker (s : State C) (c : C) (v : Conn) :
    (s.setConn c v).stopChecker = s.stopChecker := rfl

@[simp] theorem State.setConn_stopReported (s : State C) (c : C) (v : Conn) :
    (s.setConn c v).stopReported = s.stopReported := rfl

/-- What holds whatever the kernel and the clients do -/
structure Sound (s : State C) : Prop where
  nodup : s.pc.todo.Nodup
  polled : ∀ c, .conn c ∈ s.pc.todo → (s.conn c).status = .polled
  queued : ∀ c, s.queue.count c = if (s.conn c).status = .queued then 1 else 0
  stop : .stop ∈ s.pc.todo → s.stopReported = true
  running : s.stopChecker = 0 → s.pc = .test ∨ s.pc = .done

section Sound

variable {s t : State C} {a : Action C} {capacity : ℕ}

theorem status_update {conn : C → Conn} {c : C} {v : Conn} (hv : v.status = (conn c).status)
    (d : C) : (Function.update conn c v d).status = (conn d).status := by
  by_cases h : d = c
  · subst h
    simpa using hv
  · simp [h]

theorem Sound.frame (hs : Sound s) (htodo : t.pc.todo.Sublist s.pc.todo)
    (hstatus : ∀ c, (t.conn c).status = (s.conn c).status) (hqueue : t.queue = s.queue)
    (hstop : t.stopReported = s.stopReported)
    (hrunning : t.stopChecker = 0 → t.pc = .test ∨ t.pc = .done) : Sound t where
  nodup := hs.nodup.sublist htodo
  polled c hc := by rw [hstatus]; exact hs.polled c (htodo.subset hc)
  queued c := by rw [hstatus,hqueue]; exact hs.queued c
  stop h := by rw [hstop]; exact hs.stop (htodo.subset h)
  running := hrunning

theorem Sound.close {c : C} {rest : List (Event C)} {e : Errno} (hs : Sound s)
    (hpc : s.pc = .close c rest) : Sound { s.setConn c { s.conn c with status := .closed } with
      pc := .batch rest, errno := e } := by
  obtain ⟨hnodup,hpolled,hqueued,hstop,hrunning⟩ := hs
  simp only [hpc,Pc.todo,List.nodup_cons,List.mem_cons] at hnodup hpolled hstop hrunning
  refine ⟨hnodup.2,fun d hd => ?_,fun d => ?_,fun h => hstop (.inr h),fun h => ?_⟩
  · have hne : d ≠ c := fun he => hnodup.1 (he ▸ hd)
    simpa [hne] using hpolled d (.inr hd)
  · by_cases hne : d = c
    · subst hne
      simp [hqueued,hpolled]
    · simpa [hne] using hqueued d
  · simpa using hrunning h

theorem Sound.readAndWrite (hs : Sound s) (h : readAndWrite a s = some t) : Sound t := by
  have hrunning := hs.running
  cases serves_of_readAndWrite h with
  | close hpc => exact hs.close hpc
  | read hpc | readEnd hpc | readFails hpc | write hpc | writeFails hpc | sigpipe hpc
  | shutdown hpc =>
    simp only [hpc] at hrunning
    refine hs.frame ?_ (fun _ => ?_) rfl rfl (by simpa using hrunning)
    · simp [hpc,Pc.todo]
    · simp [status_update]

theorem Sound.poll {events : List (Event C)} (hs : Sound s) (hnodup : events.Nodup)
    (hready : ∀ e ∈ events, s.ready e = true) (hrunning : s.stopChecker ≠ 0) :
    Sound { s with pc := .batch events, stopReported := .stop ∈ events } where
  nodup := hnodup
  polled c hc := by
    have hh := hready _ hc
    simp only [State.ready,decide_eq_true_eq] at hh
    exact hh.1
  queued := hs.queued
  stop h := decide_eq_true h
  running h := absurd h hrunning

/-- The client at the head of the queue is not in the batch, as it is not in `epoll` yet. -/
theorem Sound.accept {c : C} {queue : List C} {rest : List (Event C)} {status : Status} {e : Errno}
    (hs : Sound s) (hpc : s.pc = .accept rest) (hqueue : s.queue = c :: queue)
    (hstatus : status ≠ .queued) : Sound { s.setConn c { s.conn c with status := status } with
      pc := .batch rest, queue := queue, errno := e } := by
  obtain ⟨hnodup,hpolled,hqueued,hstop,hrunning⟩ := hs
  simp only [hpc,Pc.todo,List.nodup_cons,List.mem_cons] at hnodup hpolled hstop hrunning
  have hc : (s.conn c).status = .queued ∧ queue.count c = 0 := by
    have hcount := hqueued c
    rw [hqueue,List.count_cons_self] at hcount
    split at hcount
    · exact ⟨‹_›,by omega⟩
    · omega
  refine ⟨hnodup.2,fun d hd => ?_,fun d => ?_,fun h => hstop (.inr h),fun h => ?_⟩
  · have hpd := hpolled d (.inr hd)
    have hne : d ≠ c := by
      rintro rfl
      simp [hc.1] at hpd
    simpa [hne] using hpd
  · by_cases hne : d = c
    · subst hne
      simp [hc.2,hstatus]
    · have hcount := hqueued d
      rw [hqueue,List.count_cons_of_ne (Ne.symm hne)] at hcount
      simpa [hne] using hcount
  · simpa using hrunning h

theorem Sound.serverMain (hs : Sound s) (h : serverMain a s = some t) : Sound t := by
  have hrunning := hs.running
  unfold UpperServer.serverMain at h
  split at h
  case h_2 hpc =>
    simp only [Option.ite_none_right_eq_some,Option.some.injEq] at h
    obtain ⟨⟨-,-,hnodup,hready⟩,rfl⟩ := h
    simp only [hpc] at hrunning
    exact hs.poll hnodup hready (by simpa using hrunning)
  case h_9 hpc =>
    split at h
    · cases h
    · cases h
      exact hs.accept hpc ‹_› (by split <;> simp)
  case h_1 hpc =>
    cases h
    refine hs.frame ?_ (fun _ => rfl) rfl rfl ?_
    · by_cases h0 : s.stopChecker = 0 <;> simp [h0,Pc.todo]
    · intro h0
      exact .inr (if_pos h0)
  case h_6 hpc =>
    split at h
    all_goals
      cases h
      refine hs.frame ?_ (fun _ => rfl) rfl rfl ?_
    all_goals simp_all [Pc.todo]
  all_goals
    cases h
  all_goals
    rename_i hpc
    refine hs.frame ?_ (fun _ => rfl) rfl rfl ?_
  all_goals simp_all [Pc.todo]

theorem Sound.client {c : C} (hs : Sound s) (h : client c a s = some t) : Sound t := by
  unfold UpperServer.client at h
  split at h
  case h_1 =>
    simp only [Option.ite_none_right_eq_some,Option.some.injEq] at h
    obtain ⟨⟨habsent,-⟩,rfl⟩ := h
    refine ⟨hs.nodup,fun d hd => ?_,fun d => ?_,hs.stop,hs.running⟩
    · have hpd := hs.polled d hd
      have hne : d ≠ c := by
        rintro rfl
        simp [habsent] at hpd
      simpa [hne] using hpd
    · have hcount := hs.queued d
      by_cases hne : d = c
      · subst hne
        simp_all
      · simpa [hne,List.count_append,Ne.symm hne] using hcount
  case h_4 => cases h
  all_goals
    simp only [Option.ite_none_right_eq_some,Option.some.injEq] at h
    obtain ⟨-,rfl⟩ := h
    refine hs.frame (List.Sublist.refl _) (fun _ => ?_) rfl rfl hs.running
    simp [status_update]

theorem Sound.stopSignalHandler (hs : Sound s) : Sound (stopSignalHandler capacity s) := by
  unfold UpperServer.stopSignalHandler
  split
  all_goals exact hs.frame (List.Sublist.refl _) (fun _ => rfl) rfl rfl hs.running

theorem sound_invariant (capacity : ℕ) (data : C → List UInt8) :
    (system capacity data).Invariant Sound where
  start := ⟨List.nodup_nil,by simp [system,init,Pc.todo],by simp [system,init],
    by simp [system,init,Pc.todo],fun _ => .inl rfl⟩
  step {a s t} hs h := by
    simp only [system,step] at h
    split at h
    · exact hs.client h
    · exact hs.client h
    · exact hs.client h
    · split at h
      · cases h
      · cases h
        exact hs.stopSignalHandler
    all_goals first
      | exact hs.serverMain h
      | exact hs.readAndWrite h

end Sound

/-- Once a batch with the stop event has been processed the loop has ended. -/
structure Stops (s : State C) : Prop where
  test : s.pc = .test → s.stopReported = true → s.stopChecker = 0
  wait : s.pc = .wait → s.stopReported = false

/-- `errno` is not `EAGAIN` where the loop comes to the stop event. -/
def Fresh (s : State C) : Action C → Prop
  | .call => s.pc.head? = some .stop → s.errno ≠ EAGAIN
  | _ => True

instance (s : State C) (a : Action C) : Decidable (Fresh s a) := by
  cases a <;> unfold Fresh <;> infer_instance

/-- The stop event that was reported is still to come, or it has ended the loop. -/
def Stopping (s : State C) : Prop :=
  s.stopReported = true → .stop ∈ s.pc.todo ∨ s.stopChecker = 0 ∨ s.pc = .killed

section Stopping

variable {s t : State C} {a : Action C} {capacity : ℕ} {data : C → List UInt8}

theorem Stopping.stops (h : Stopping s) (hs : Sound s) : Stops s where
  test hpc hr := by
    rcases h hr with hm | h0 | hk
    · simp [hpc,Pc.todo] at hm
    · exact h0
    · simp [hpc] at hk
  wait hpc := by
    by_contra hr
    rcases h (by simpa using hr) with hm | h0 | hk
    · simp [hpc,Pc.todo] at hm
    · have hh := hs.running h0
      simp [hpc] at hh
    · simp [hpc] at hk

omit [DecidableEq C] in
theorem Stopping.frame (h : Stopping s) (htodo : .stop ∈ s.pc.todo → .stop ∈ t.pc.todo)
    (hreported : t.stopReported = s.stopReported) (hchecker : t.stopChecker = s.stopChecker)
    (hkilled : s.pc ≠ .killed) : Stopping t := by
  intro hr
  rcases h (hreported ▸ hr) with hm | h0 | hk
  · exact .inl (htodo hm)
  · exact .inr (.inl (hchecker.trans h0))
  · exact absurd hk hkilled

theorem Stopping.readAndWrite (hs : Stopping s) (h : readAndWrite a s = some t) :
    Stopping t := by
  cases serves_of_readAndWrite h with
  | sigpipe => exact fun _ => .inr (.inr rfl)
  | read hpc | readEnd hpc | readFails hpc | write hpc | writeFails hpc | shutdown hpc
  | close hpc => exact hs.frame (by simp [hpc,Pc.todo]) rfl rfl (by simp [hpc])

theorem Stopping.serverMain (hs : Stopping s) (hf : Fresh s a) (h : serverMain a s = some t) :
    Stopping t := by
  unfold UpperServer.serverMain at h
  split at h
  case h_2 =>
    simp only [Option.ite_none_right_eq_some,Option.some.injEq] at h
    obtain ⟨-,rfl⟩ := h
    exact fun hr => .inl (of_decide_eq_true hr)
  case h_6 hpc =>
    rw [if_neg (hf (by rw [hpc]; rfl))] at h
    cases h
    exact fun _ => .inr (.inl rfl)
  case h_9 hpc =>
    split at h
    · cases h
    · cases h
      exact hs.frame (by simp [hpc,Pc.todo]) rfl rfl (by simp [hpc])
  all_goals cases h
  all_goals
    rename_i hpc
    exact hs.frame (by simp [hpc,Pc.todo]) rfl rfl (by simp [hpc])

theorem Stopping.client {c : C} (hs : Stopping s) (h : client c a s = some t) : Stopping t := by
  unfold UpperServer.client at h
  split at h
  case h_4 => cases h
  all_goals
    simp only [Option.ite_none_right_eq_some,Option.some.injEq] at h
    obtain ⟨-,rfl⟩ := h
    exact hs

omit [DecidableEq C] in
theorem Stopping.stopSignalHandler (hs : Stopping s) :
    Stopping (stopSignalHandler capacity s) := by
  unfold UpperServer.stopSignalHandler
  split
  all_goals exact hs

theorem stopping_invariant (capacity : ℕ) (data : C → List UInt8) :
    ((system capacity data).restrict Fresh).Invariant Stopping where
  start := by simp [Stopping,System.restrict,system,init]
  step {a s t} hs h := by
    obtain ⟨hf,h⟩ := System.restrict_step_eq_some.mp h
    simp only [system,step] at h
    split at h
    · exact hs.client h
    · exact hs.client h
    · exact hs.client h
    · split at h
      · cases h
      · cases h
        exact hs.stopSignalHandler
    all_goals first
      | exact hs.serverMain hf h
      | exact hs.readAndWrite h

/-- The rest of a batch without the stop event can be processed to its end. -/
theorem exists_test (capacity : ℕ) (data : C → List UInt8) {rest : List (Event C)}
    (hpc : s.pc = .batch rest) (hrest : .stop ∉ rest) :
    ∃ as u, (system capacity data).run as s = some u ∧ u.pc = .test ∧
      u.stopReported = s.stopReported ∧ u.stopChecker = s.stopChecker := by
  induction rest generalizing s with
  | nil =>
    refine ⟨[.call],{ s with pc := .test },?_,rfl,rfl,rfl⟩
    simp [System.run_cons,system,step,UpperServer.serverMain,hpc]
  | cons e rest ih =>
    have hmem : .stop ∉ rest := fun h => hrest (List.mem_cons_of_mem _ h)
    have hgo : ∃ as u, (system capacity data).run as s = some u ∧ u.pc = .batch rest ∧
        u.stopReported = s.stopReported ∧ u.stopChecker = s.stopChecker := by
      cases e with
      | stop => exact absurd List.mem_cons_self hrest
      | listen =>
        refine ⟨[.call,.acceptFails],{ s with pc := .batch rest, errno := EBADF },?_,rfl,rfl,rfl⟩
        simp [System.run_cons,system,step,UpperServer.serverMain,hpc]
      | conn c =>
        refine ⟨[.call,.readFails EBADF,.shutdown none,.close none],
          { s.setConn c { s.conn c with status := .closed } with pc := .batch rest, errno := EBADF },
          ?_,rfl,rfl,rfl⟩
        simp [System.run_cons,system,step,UpperServer.serverMain,UpperServer.readAndWrite,hpc,
          EBADF,EAGAIN,State.setConn]
    obtain ⟨as,u,hu,hb,hr,hc⟩ := hgo
    obtain ⟨bs,v,hv,ht,hr',hc'⟩ := ih hb hmem
    exact ⟨as ++ bs,v,System.run_trans hu hv,ht,hr'.trans hr,hc'.trans hc⟩

/-- The loop has been left, but for its last test. -/
def Left (s : State C) : Prop := s.stopChecker = 0 ∧ (s.pc = .test ∨ s.pc = .done)

omit [DecidableEq C] in
theorem Left.stops (h : Left s) : Stops s where
  test _ _ := h.1
  wait hpc := by simp [hpc,Left] at h

theorem left_closed (capacity : ℕ) (data : C → List UInt8) :
    (system capacity data).Closed Left where
  step {a s t} hl h := by
    obtain ⟨h0,hpc⟩ := hl
    simp only [system,step] at h
    split at h
    case h_4 =>
      split at h
      · cases h
      · cases h
        unfold UpperServer.stopSignalHandler
        split
        all_goals exact ⟨h0,hpc⟩
    case h_1 | h_2 | h_3 =>
      simp only [UpperServer.client,Option.ite_none_right_eq_some,Option.some.injEq] at h
      obtain ⟨-,rfl⟩ := h
      exact ⟨h0,hpc⟩
    all_goals
      rcases hpc with hpc | hpc
      all_goals simp [UpperServer.serverMain,UpperServer.readAndWrite,hpc] at h
    rw [← h]
    exact ⟨h0,.inr (if_pos h0)⟩

/-- In every run that comes to the stop event without a stale `EAGAIN` the loop ends, and a
single stop event ends it exactly then. -/
structure StopsWhen (capacity : ℕ) (data : C → List UInt8) : Prop where
  safe : ∀ s, ((system capacity data).restrict Fresh).Reachable s → Stops s
  exact : ∀ s, (system capacity data).Reachable s → s.pc.head? = some .stop →
    ∀ t, (system capacity data).step .call s = some t →
      ((∀ as u, (system capacity data).run as t = some u → Stops u) ↔ s.errno ≠ EAGAIN)

theorem stops_when_fresh (capacity : ℕ) (data : C → List UInt8) : StopsWhen capacity data where
  safe s hr := ((stopping_invariant capacity data).reachable hr).stops
    ((sound_invariant capacity data).reachable hr.of_restrict)
  exact s hr hhead t h := by
    have hs := (sound_invariant capacity data).reachable hr
    obtain ⟨rest,hpc⟩ : ∃ rest, s.pc = .batch (.stop :: rest) := by
      cases hpc : s.pc with
      | batch events => cases events <;> simp_all [Pc.head?]
      | _ => simp [hpc,Pc.head?] at hhead
    simp only [system,step,UpperServer.serverMain,hpc] at h
    constructor
    · intro hall he
      rw [if_pos he] at h
      cases h
      have hnodup := hs.nodup
      simp only [hpc,Pc.todo,List.nodup_cons] at hnodup
      obtain ⟨as,u,hu,ht,hreported,hchecker⟩ :=
        exists_test (s := { s with pc := .batch rest }) capacity data rfl hnodup.1
      have h0 := (hall as u hu).test ht (hreported.trans (hs.stop (by simp [hpc,Pc.todo])))
      have hrunning := hs.running (hchecker.symm.trans h0)
      simp [hpc] at hrunning
    · intro he as u hu
      rw [if_neg he] at h
      cases h
      exact ((left_closed capacity data).run ⟨rfl,.inl rfl⟩ hu).stops

/-- SIGTERM arrives while a client is served, whose last `read` leaves `EAGAIN` in `errno`. -/
theorem stop_event_skipped : ∃ s, (system 65536 fun _ : Unit => [97]).Reachable s ∧
    s.pc = .wait ∧ s.stopReported = true ∧ s.stopChecker = 1 ∧ ¬ Stops s := by
  refine ⟨_,⟨[.call,.connect (),.poll [.listen],.call,.accept none,.call,.call,.send () 1,
    .poll [.conn ()],.call,.read 1,.sigterm,.write 1,.readFails EAGAIN,.shutdown none,.close none,
    .call,.call,.poll [.stop],.call,.call,.call],rfl⟩,rfl,rfl,rfl,fun h => ?_⟩
  exact absurd (h.wait rfl) (by decide)

end Stopping

end UpperServer
end SomeCode
