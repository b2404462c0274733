import SomeCode.Transition
import SomeCode.Room

/-! `serv_base.c` passes what a client of it sends on to all the others. It waits with `epoll_wait`
for edges (`EPOLLET`): a descriptor is reported once for what has come since, and each report leads
to one `accept` or one `recv`. -/
namespace SomeCode
namespace ChatServer

open Transition

abbrev Bytes := List UInt8

/-- What `utils.h` defines; a text is what `sprintf` makes of it with its arguments. -/
structure Utils where
  EPOLL_SIZE : ℕ
  BUF_SIZE : ℕ
  STR_WELCOME : ℕ → Bytes
  STR_MESSAGE : ℕ → Bytes → Bytes
  STR_NOONE_CONNECTED : Bytes
  epoll_pos : 0 < EPOLL_SIZE
  buf_pos : 0 < BUF_SIZE

/-- The buffer `message`, which `bzero` has cleared, behind `sprintf`. A text that has no room in it
with its zero byte is written beyond its end. -/
def Utils.message (u : Utils) (text : Bytes) : Option Bytes :=
  if text.length < u.BUF_SIZE then some (text ++ List.replicate (u.BUF_SIZE-text.length) 0)
  else none

/-- What `%s` makes of `buf`, into which `recv` has put these bytes. When they fill it and have no
zero byte it is read beyond its end. -/
def Utils.string (u : Utils) (buf : Bytes) : Option Bytes :=
  if buf.length < u.BUF_SIZE ∨ 0 ∈ buf then some (buf.takeWhile (· ≠ 0)) else none

def Utils.populated (u : Utils) (client : ℕ) (buf : Bytes) : Option Bytes :=
  (u.string buf).bind fun text => u.message (u.STR_MESSAGE client text)

/-- What a client has sent and `recv` has not returned, and whether it has closed its side -/
structure Peer where
  unread : Bytes
  closed : Bool

/-- The connections are numbered in the order in which they are made. `events` are the descriptors
that the `for` loop of `main` has not come to, and empty in `epoll_wait`; `sockets` are the
descriptors of the accepted connections, `ready` those with an edge that has not been reported, and
`output` is what the calls of `send` have passed to each connection. -/
structure State where
  events : List ℕ
  clients_list : List ℕ
  sockets : List (ℕ × ℕ)
  backlog : List ℕ
  ready : List ℕ
  peer : ℕ → Peer
  output : ℕ → List Bytes
  connections : ℕ

/-- What the clients do (`connect`, `write`, `close`) and what the server does. The kernel chooses
the descriptor of an accepted connection. -/
inductive Action
  | connect
  | write (c : ℕ) (b : UInt8) (bs : Bytes)
  | close (c : ℕ)
  | epoll_wait
  | accept (client : ℕ)
  | handle_message

/-- An edge of the descriptor `d` -/
def ring (d : ℕ) (ready : List ℕ) : List ℕ := if d ∈ ready then ready else ready ++ [d]

def lookup (sockets : List (ℕ × ℕ)) (d : ℕ) : Option ℕ := (sockets.find? (·.1 = d)).map (·.2)

def State.socket (s : State) (d : ℕ) : Option ℕ := lookup s.sockets d

/-- The descriptors with an edge, after something has come from the peer `c` -/
def State.rung (s : State) (c : ℕ) : List ℕ :=
  match s.sockets.find? (·.2 = c) with
  | some (d,_) => ring d s.ready
  | none => s.ready

def Peer.Readable (p : Peer) : Prop := p.unread ≠ [] ∨ p.closed = true

instance (p : Peer) : Decidable p.Readable := inferInstanceAs (Decidable (_ ∨ _))

/-- `accept` or `recv` would not block. -/
def State.Readable (s : State) (listener d : ℕ) : Prop :=
  if d = listener then s.backlog ≠ [] else ∃ c ∈ s.socket d, (s.peer c).Readable

instance (s : State) (listener d : ℕ) : Decidable (s.Readable listener d) :=
  inferInstanceAs (Decidable (if d = listener then _ else _))

def State.send (s : State) (client : ℕ) (message : Bytes) : State :=
  match s.socket client with
  | some c => { s with output := Function.update s.output c (s.output c ++ [message]) }
  | none => s

/-- The loop over `clients_list` in `handle_message` -/
def State.populate (client : ℕ) (message : Bytes) : List ℕ → State → State
  | [], s => s
  | it :: its, s =>
    populate client message its (if it ≠ client then s.send it message else s)

/-- `recv` of a client that has nothing to read would block. There is no step behind an access
beyond the end of a buffer. -/
def handle_message (u : Utils) (client : ℕ) (s : State) : Option State :=
  match s.socket client with
  | none => none
  | some c =>
    let buf := (s.peer c).unread.take u.BUF_SIZE
    if buf.length = 0 then
      if (s.peer c).closed then some { s with
        sockets := s.sockets.filter (·.1 ≠ client)
        ready := s.ready.filter (· ≠ client)
        clients_list := s.clients_list.filter (· ≠ client) }
      else none
    else
      let s := { s with
        peer := Function.update s.peer c
          { s.peer c with unread := (s.peer c).unread.drop u.BUF_SIZE } }
      if s.clients_list.length = 1 then some (s.send client u.STR_NOONE_CONNECTED)
      else (u.populated client buf).map fun message =>
        State.populate client message s.clients_list s

/-- The branch of `main` for the listener; `client` is a number that is free. -/
def accept (u : Utils) (listener client : ℕ) (s : State) : Option State :=
  match s.backlog with
  | [] => none
  | c :: backlog =>
    if client = listener ∨ s.socket client ≠ none then none
    else
      let s := { s with
        backlog := backlog
        sockets := s.sockets ++ [(client,c)]
        ready := if (s.peer c).Readable then ring client s.ready else s.ready
        clients_list := s.clients_list ++ [client] }
      (u.message (u.STR_WELCOME client)).map (s.send client)

/-- A step of the clients or of `main`, which listens with a backlog of 1 -/
def step (u : Utils) (listener : ℕ) : Action → State → Option State
  | .connect, s =>
    if 1 < s.backlog.length then none
    else some { s with
      backlog := s.backlog ++ [s.connections]
      ready := ring listener s.ready
      connections := s.connections + 1 }
  | .write c b bs, s =>
    if c < s.connections ∧ (s.peer c).closed = false then
      some { s with
        peer := Function.update s.peer c ⟨(s.peer c).unread ++ b :: bs,false⟩
        ready := s.rung c }
    else none
  | .close c, s =>
    if c < s.connections ∧ (s.peer c).closed = false then
      some { s with peer := Function.update s.peer c ⟨(s.peer c).unread,true⟩, ready := s.rung c }
    else none
  | .epoll_wait, s =>
    if s.events = [] then
      match s.ready.filter (s.Readable listener ·) with
      | [] => none
      | d :: ds => some { s with
          events := (d :: ds).take u.EPOLL_SIZE
          ready := (d :: ds).drop u.EPOLL_SIZE }
    else none
  | .accept client, s =>
    match s.events with
    | d :: events =>
      if d = listener then (accept u listener client s).map ({ · with events := events }) else none
    | [] => none
  | .handle_message, s =>
    match s.events with
    | d :: events =>
      if d ≠ listener then (handle_message u d s).map ({ · with events := events }) else none
    | [] => none

def system (u : Utils) (listener : ℕ) : System State Action where
  start := ⟨[],[],[],[],[],fun _ => ⟨[],false⟩,fun _ => [],0⟩
  step := step u listener

/-- The connections that are accepted and open -/
def State.members (s : State) : List ℕ := s.sockets.map (·.2)

def written (c : ℕ) (as : List Action) : Bytes :=
  (as.filterMap fun
    | .write c' b bs => if c' = c then some (b :: bs) else none
    | _ => none).flatten

/-- The bytes that pass something heard on -/
def Utils.render (u : Utils) : Room.Heard ℕ ℕ (ℕ × Bytes) → Option Bytes
  | .greeting client => u.message (u.STR_WELCOME client)
  | .alone => some u.STR_NOONE_CONNECTED
  | .said _ (client,buf) => u.populated client buf

/-- A room in which each member has heard what has been sent to its connection -/
structure Represents (u : Utils) (s : State) (r : Room.State ℕ ℕ (ℕ × Bytes)) : Prop where
  members : r.members = s.members
  output : ∀ c, (s.output c).map some = (r.heard c).map u.render

/-- `clients_list` are the open descriptors, and the events that are left are those of descriptors
that can be read. -/
structure Inv (listener : ℕ) (s : State) : Prop where
  clients : s.clients_list = s.sockets.map (·.1)
  descriptors : (listener :: s.sockets.map (·.1)).Nodup
  connections : (s.members ++ s.backlog).Nodup
  made : ∀ c ∈ s.members ++ s.backlog, c < s.connections
  events_nodup : s.events.Nodup
  ready_nodup : s.ready.Nodup
  readable : ∀ d ∈ s.events, s.Readable listener d

variable {u : Utils} {listener d c client : ℕ} {s t : State} {a : Action} {as : List Action}
  {p : Peer} {m : Bytes}

/-! Descriptors and connections -/

theorem lookup_eq_some {l : List (ℕ × ℕ)} (h : (l.map (·.1)).Nodup) :
    lookup l d = some c ↔ (d,c) ∈ l := by
  rw [lookup,Option.map_eq_some_iff]
  constructor
  · rintro ⟨⟨d',c'⟩,hf,rfl⟩
    have hd := List.find?_some hf
    simp only [decide_eq_true_eq] at hd
    exact hd ▸ List.mem_of_find?_eq_some hf
  · intro hm
    refine ⟨(d,c),?_,rfl⟩
    rw [List.find?_eq_some_iff_append]
    rcases List.append_of_mem hm with ⟨as,bs,rfl⟩
    refine ⟨by simp,as,bs,rfl,?_⟩
    intro x hx
    rw [List.map_append,List.nodup_append] at h
    simpa using h.2.2 x.1 (List.mem_map_of_mem hx) d (by simp)

theorem lookup_append {l : List (ℕ × ℕ)} (h : lookup l d = none) :
    lookup (l ++ [(d,c)]) d = some c := by
  rw [lookup,Option.map_eq_none_iff] at h
  simp [lookup,List.find?_append,h]

theorem lookup_append_left {l r : List (ℕ × ℕ)} (h : lookup l d = some c) :
    lookup (l ++ r) d = some c := by
  rw [lookup,Option.map_eq_some_iff] at h
  rcases h with ⟨e,hf,hc⟩
  simp [lookup,List.find?_append,hf,hc]

theorem Inv.socket (hi : Inv listener s) : s.socket d = some c ↔ (d,c) ∈ s.sockets :=
  lookup_eq_some hi.descriptors.of_cons

theorem Inv.socket_inj (hi : Inv listener s) {d' : ℕ} (h : s.socket d = some c)
    (h' : s.socket d' = some c) : d = d' := by
  have hnodup := (List.nodup_append.1 hi.connections).1
  have heq := List.inj_on_of_nodup_map hnodup (hi.socket.1 h) (hi.socket.1 h') rfl
  exact congrArg Prod.fst heq

theorem Inv.not_mem_of_free (hi : Inv listener s) (h : s.socket d = none) :
    d ∉ s.sockets.map (·.1) := by
  intro hm
  rcases List.mem_map.1 hm with ⟨⟨d',c⟩,hc,rfl⟩
  rw [hi.socket.2 hc] at h
  cases h

theorem Inv.mem_members (hi : Inv listener s) : c ∈ s.members ↔ ∃ d, s.socket d = some c := by
  simp [State.members,hi.socket]

theorem mem_ring {d' : ℕ} {ready : List ℕ} : d' ∈ ring d ready ↔ d' = d ∨ d' ∈ ready := by
  unfold ring
  split
  · constructor
    · exact .inr
    · rintro (rfl | h)
      · assumption
      · exact h
  · simp [or_comm]

theorem nodup_ring {ready : List ℕ} (h : ready.Nodup) : (ring d ready).Nodup := by
  unfold ring
  split
  · exact h
  · rename_i hd
    rw [List.nodup_append]
    exact ⟨h,List.nodup_singleton d,by simpa using fun x hx => ne_of_mem_of_not_mem hx hd⟩

def others (sockets : List (ℕ × ℕ)) (client : ℕ) (its : List ℕ) : List ℕ :=
  (its.filter (· ≠ client)).filterMap (lookup sockets)

theorem send_eq : s.send d m = { s with
    output := fun c => if c ∈ s.socket d then s.output c ++ [m] else s.output c } := by
  unfold State.send
  cases hd : s.socket d with
  | none => simp
  | some c =>
    dsimp only
    congr
    funext c'
    by_cases hc : c' = c
    · subst hc
      simp
    · simp [hc,Ne.symm hc]

/-- The loop of `handle_message` sends to all listed connections but that of `client`. -/
theorem populate_eq {its : List ℕ} (h : (others s.sockets client its).Nodup) :
    State.populate client m its s = { s with
      output := fun c =>
        if c ∈ others s.sockets client its then s.output c ++ [m] else s.output c } := by
  induction its generalizing s with
  | nil => simp [State.populate,others]
  | cons it its ih =>
    rw [State.populate]
    by_cases hc : it = client
    · have hothers : others s.sockets client (it :: its) = others s.sockets client its := by
        simp [others,hc]
      rw [hothers] at h ⊢
      rw [if_neg (not_not.2 hc),ih h]
    · have hothers : others s.sockets client (it :: its) =
          (s.socket it).toList ++ others s.sockets client its := by
        rw [others,List.filter_cons_of_pos (by simpa using hc),List.filterMap_cons,State.socket]
        cases lookup s.sockets it <;> rfl
      rw [hothers,List.nodup_append] at h
      have hrest := ih (s := s.send it m) (by simpa [send_eq] using h.2.1)
      rw [if_pos hc,hrest,send_eq,hothers]
      congr
      funext c
      by_cases hs : s.socket it = some c
      · have hmem : c ∉ others s.sockets client its :=
          fun hm => h.2.2 c (Option.mem_toList.2 hs) c hm rfl
        simp [hs,hmem]
      · simp [hs]

theorem Inv.filter_sockets (hi : Inv listener s) (h : s.socket d = some c) :
    s.sockets.filter (·.1 ≠ d) = s.sockets.filter (·.2 ≠ c) := by
  apply List.filter_congr
  rintro ⟨d',c'⟩ hm
  have hs := hi.socket.2 hm
  rw [decide_eq_decide,not_iff_not]
  constructor
  · rintro rfl
    exact Option.some.inj (hs.symm.trans h)
  · rintro rfl
    exact hi.socket_inj hs h

theorem Inv.filter_members (hi : Inv listener s) (h : s.socket d = some c) :
    (s.sockets.filter (·.1 ≠ d)).map (·.2) = s.members.filter (· ≠ c) := by
  rw [hi.filter_sockets h,State.members,List.filter_map]
  rfl

theorem Inv.others (hi : Inv listener s) (h : s.socket d = some c) :
    others s.sockets d s.clients_list = s.members.filter (· ≠ c) := by
  rw [← hi.filter_members h,ChatServer.others,hi.clients,List.filter_map,List.filterMap_map,
    ← List.filterMap_eq_map]
  apply List.filterMap_congr
  rintro ⟨d',c'⟩ hm
  exact hi.socket.2 (List.mem_of_mem_filter hm)

/-! The states behind the steps -/

namespace State

def connected (listener : ℕ) (s : State) : State := { s with
  backlog := s.backlog ++ [s.connections]
  ready := ring listener s.ready
  connections := s.connections + 1 }

/-- Something has come from the connection `c`, after which its peer is `p`. -/
def heardFrom (c : ℕ) (p : Peer) (s : State) : State :=
  { s with peer := Function.update s.peer c p, ready := s.rung c }

def reported (u : Utils) (ds : List ℕ) (s : State) : State :=
  { s with events := ds.take u.EPOLL_SIZE, ready := ds.drop u.EPOLL_SIZE }

def accepted (client c : ℕ) (events backlog : List ℕ) (message : Bytes) (s : State) : State :=
  { s with
    events := events
    backlog := backlog
    sockets := s.sockets ++ [(client,c)]
    ready := if (s.peer c).Readable then ring client s.ready else s.ready
    clients_list := s.clients_list ++ [client]
    output := Function.update s.output c (s.output c ++ [message]) }

def left (d : ℕ) (events : List ℕ) (s : State) : State := { s with
  events := events
  sockets := s.sockets.filter (·.1 ≠ d)
  ready := s.ready.filter (· ≠ d)
  clients_list := s.clients_list.filter (· ≠ d) }

/-- The connections `cs` have been sent what has come from `c`. -/
def passedOn (u : Utils) (c : ℕ) (events cs : List ℕ) (message : Bytes) (s : State) : State :=
  { s with
    events := events
    peer := Function.update s.peer c { s.peer c with unread := (s.peer c).unread.drop u.BUF_SIZE }
    output := fun q => if q ∈ cs then s.output q ++ [message] else s.output q }

end State

/-- What a step does, by who does it and what it meets -/
inductive Did (u : Utils) (listener : ℕ) (s : State) : Action → State → Prop
  | connect (hbacklog : s.backlog.length ≤ 1) : Did u listener s .connect (s.connected listener)
  | write (c : ℕ) (b : UInt8) (bs : Bytes) (hc : c < s.connections)
      (hopen : (s.peer c).closed = false) :
      Did u listener s (.write c b bs) (s.heardFrom c ⟨(s.peer c).unread ++ b :: bs,false⟩)
  | close (c : ℕ) (hc : c < s.connections) (hopen : (s.peer c).closed = false) :
      Did u listener s (.close c) (s.heardFrom c ⟨(s.peer c).unread,true⟩)
  | wait (d : ℕ) (ds : List ℕ) (hevents : s.events = [])
      (hready : s.ready.filter (s.Readable listener ·) = d :: ds) :
      Did u listener s .epoll_wait (s.reported u (d :: ds))
  | accept (client c : ℕ) (events backlog : List ℕ) (message : Bytes)
      (hevents : s.events = listener :: events) (hbacklog : s.backlog = c :: backlog)
      (hclient : client ≠ listener) (hfree : s.socket client = none)
      (hmessage : u.message (u.STR_WELCOME client) = some message) :
      Did u listener s (.accept client) (s.accepted client c events backlog message)
  | leave (d c : ℕ) (events : List ℕ) (hevents : s.events = d :: events) (hd : d ≠ listener)
      (hsocket : s.socket d = some c) (hunread : (s.peer c).unread = [])
      (hclosed : (s.peer c).closed = true) : Did u listener s .handle_message (s.left d events)
  | alone (d c : ℕ) (events : List ℕ) (hevents : s.events = d :: events) (hd : d ≠ listener)
      (hsocket : s.socket d = some c) (hunread : (s.peer c).unread ≠ [])
      (hone : s.members.length = 1) :
      Did u listener s .handle_message (s.passedOn u c events [c] u.STR_NOONE_CONNECTED)
  | say (d c : ℕ) (events : List ℕ) (message : Bytes) (hevents : s.events = d :: events)
      (hd : d ≠ listener) (hsocket : s.socket d = some c) (hunread : (s.peer c).unread ≠ [])
      (hmany : s.members.length ≠ 1)
      (hmessage : u.populated d ((s.peer c).unread.take u.BUF_SIZE) = some message) :
      Did u listener s .handle_message
        (s.passedOn u c events (s.members.filter (· ≠ c)) message)

theorem Inv.did_accept (hi : Inv listener s) (h : step u listener (.accept client) s = some t) :
    Did u listener s (.accept client) t := by
  simp only [step] at h
  split at h
  · rename_i d events he
    simp only [Option.ite_none_right_eq_some,Option.map_eq_some_iff] at h
    rcases h with ⟨rfl,r,hr,rfl⟩
    unfold ChatServer.accept at hr
    split at hr
    · cases hr
    · rename_i c backlog hb
      simp only [Option.ite_none_left_eq_some,Option.map_eq_some_iff,not_or,not_not] at hr
      rcases hr with ⟨⟨hl,hf⟩,message,hmessage,rfl⟩
      have hsend := lookup_append (c := c) hf
      simp only [State.send,State.socket,hsend]
      exact .accept client c events backlog message he hb hl hf hmessage
  · cases h

theorem Inv.did_handle_message (hi : Inv listener s)
    (h : step u listener .handle_message s = some t) : Did u listener s .handle_message t := by
  simp only [step] at h
  split at h
  · rename_i d events he
    simp only [Option.ite_none_right_eq_some,Option.map_eq_some_iff] at h
    rcases h with ⟨hd,r,hr,rfl⟩
    unfold ChatServer.handle_message at hr
    split at hr
    · cases hr
    · rename_i c hc
      dsimp only at hr
      have hcount : s.clients_list.length = s.members.length := by
        simp [hi.clients,State.members]
      split at hr
      · rename_i hlength
        have hunread : (s.peer c).unread = [] := by
          rw [List.length_take,Nat.min_eq_zero_iff] at hlength
          exact List.length_eq_zero_iff.1 (hlength.resolve_left u.buf_pos.ne')
        simp only [Option.ite_none_right_eq_some,Option.some.injEq] at hr
        rcases hr with ⟨hclosed,rfl⟩
        exact .leave d c events he hd hc hunread hclosed
      · rename_i hlength
        have hunread : (s.peer c).unread ≠ [] := by
          intro hn
          simp [hn] at hlength
        split at hr
        · rename_i hone
          rw [← Option.some.inj hr,send_eq]
          convert Did.alone (u := u) d c events he hd hc hunread (hcount ▸ hone) using 1
          rw [State.passedOn]
          congr
          funext q
          refine if_congr ?_ rfl rfl
          change q ∈ s.socket d ↔ _
          simp [hc,eq_comm]
        · rename_i hmany
          rcases Option.map_eq_some_iff.1 hr with ⟨message,hmessage,rfl⟩
          rw [populate_eq,hi.others hc]
          · exact .say d c events message he hd hc hunread (hcount ▸ hmany) hmessage
          · rw [hi.others hc]
            exact (List.nodup_append.1 hi.connections).1.filter _
  · cases h

theorem Inv.did (hi : Inv listener s) (h : step u listener a s = some t) :
    Did u listener s a t := by
  cases a with
  | connect =>
    simp only [step,Option.ite_none_left_eq_some,Option.some.injEq] at h
    rcases h with ⟨hb,rfl⟩
    exact .connect (not_lt.1 hb)
  | write c b bs =>
    simp only [step,Option.ite_none_right_eq_some,Option.some.injEq] at h
    rcases h with ⟨⟨hc,ho⟩,rfl⟩
    exact .write c b bs hc ho
  | close c =>
    simp only [step,Option.ite_none_right_eq_some,Option.some.injEq] at h
    rcases h with ⟨⟨hc,ho⟩,rfl⟩
    exact .close c hc ho
  | epoll_wait =>
    simp only [step,Option.ite_none_right_eq_some] at h
    rcases h with ⟨he,h⟩
    split at h
    · cases h
    · cases h
      exact .wait _ _ he ‹_›
  | accept client => exact hi.did_accept h
  | handle_message => exact hi.did_handle_message h

/-! What every step keeps -/

theorem mem_rung (hi : Inv listener s) : d ∈ s.rung c ↔ s.socket d = some c ∨ d ∈ s.ready := by
  unfold State.rung
  split
  · rename_i d' c' hf
    have hc : c' = c := by simpa using List.find?_some hf
    have hs := hi.socket.2 (List.mem_of_find?_eq_some hf)
    rw [mem_ring,← hc]
    apply or_congr_left
    constructor
    · rintro rfl
      exact hs
    · intro hd
      exact hi.socket_inj hd hs
  · rename_i hf
    have hd : s.socket d ≠ some c := by
      intro hd
      simpa using List.find?_eq_none.1 hf (d,c) (hi.socket.1 hd)
    simp [hd]

theorem nodup_rung (hi : Inv listener s) : (s.rung c).Nodup := by
  unfold State.rung
  split
  · exact nodup_ring hi.ready_nodup
  · exact hi.ready_nodup

theorem inv_start : Inv listener (system u listener).start := by
  constructor <;> simp [system,State.members]

theorem State.Readable.mono (h : s.Readable listener d)
    (hb : d = listener → s.backlog ≠ [] → t.backlog ≠ [])
    (hp : ∀ c, d ≠ listener → s.socket d = some c → (s.peer c).Readable →
      t.socket d = some c ∧ (t.peer c).Readable) : t.Readable listener d := by
  unfold State.Readable at h ⊢
  split at h
  · rename_i hd
    rw [if_pos hd]
    exact hb hd h
  · rename_i hd
    rw [if_neg hd]
    rcases h with ⟨c,hs,hr⟩
    exact ⟨c,hp c hd hs hr⟩

theorem readable_update (h : (s.peer c).Readable) {c' : ℕ} (hp : p.Readable) :
    (Function.update s.peer c' p c).Readable := by
  by_cases hc : c = c'
  · subst hc
    rwa [Function.update_self]
  · rwa [Function.update_of_ne hc]

theorem Inv.connected (hi : Inv listener s) : Inv listener (s.connected listener) := by
  have hfresh : s.connections ∉ s.members ++ s.backlog := fun hm => lt_irrefl _ (hi.made _ hm)
  constructor
  · exact hi.clients
  · exact hi.descriptors
  · change (s.members ++ (s.backlog ++ [s.connections])).Nodup
    rw [← List.append_assoc]
    refine List.nodup_append.2 ⟨hi.connections,List.nodup_singleton _,?_⟩
    intro x hx y hy
    rw [List.mem_singleton.1 hy]
    exact ne_of_mem_of_not_mem hx hfresh
  · intro c hc
    change c ∈ s.members ++ (s.backlog ++ [s.connections]) at hc
    rw [← List.append_assoc,List.mem_append,List.mem_singleton] at hc
    rcases hc with hc | rfl
    · exact Nat.lt_succ_of_lt (hi.made c hc)
    · exact Nat.lt_succ_self _
  · exact hi.events_nodup
  · exact nodup_ring hi.ready_nodup
  · intro d hd
    exact (hi.readable d hd).mono (by simp [State.connected]) fun _ _ hs hr => ⟨hs,hr⟩

theorem Inv.heardFrom (hi : Inv listener s) (hp : p.Readable) : Inv listener (s.heardFrom c p) :=
  { hi with
    ready_nodup := nodup_rung hi
    readable := fun d hd => (hi.readable d hd).mono (fun _ => id) fun _ _ hs hr =>
      ⟨hs,readable_update hr hp⟩ }

theorem Inv.reported (hi : Inv listener s) {ds : List ℕ}
    (hready : s.ready.filter (s.Readable listener ·) = ds) : Inv listener (s.reported u ds) := by
  have hnodup := hi.ready_nodup.filter (s.Readable listener ·)
  rw [hready] at hnodup
  exact { hi with
    events_nodup := hnodup.sublist (List.take_sublist _ _)
    ready_nodup := hnodup.sublist (List.drop_sublist _ _)
    readable := by
      intro e he
      have hmem := List.mem_of_mem_take he
      rw [← hready,List.mem_filter,decide_eq_true_eq] at hmem
      exact hmem.2 }

theorem Inv.accepted (hi : Inv listener s) {events backlog : List ℕ}
    (hevents : s.events = listener :: events) (hbacklog : s.backlog = c :: backlog)
    (hclient : client ≠ listener) (hfree : s.socket client = none) :
    Inv listener (s.accepted client c events backlog m) := by
  have hevent := hi.events_nodup
  rw [hevents,List.nodup_cons] at hevent
  have hconn : (s.accepted client c events backlog m).members ++ backlog = s.members ++ s.backlog := by
    simp [State.accepted,State.members,hbacklog]
  constructor
  · simp [State.accepted,hi.clients]
  · change (listener :: (s.sockets ++ [(client,c)]).map (·.1)).Nodup
    rw [List.map_append,← List.cons_append]
    refine List.nodup_append.2 ⟨hi.descriptors,List.nodup_singleton _,?_⟩
    intro x hx y hy
    rw [List.mem_singleton.1 hy]
    rcases List.mem_cons.1 hx with rfl | hx
    · exact hclient.symm
    · exact ne_of_mem_of_not_mem hx (hi.not_mem_of_free hfree)
  · exact (congrArg List.Nodup hconn).mpr hi.connections
  · intro c' hc'
    exact hi.made c' (hconn ▸ hc')
  · exact hevent.2
  · dsimp only [State.accepted]
    split
    · exact nodup_ring hi.ready_nodup
    · exact hi.ready_nodup
  · intro d hd
    have hne : d ≠ listener := ne_of_mem_of_not_mem hd hevent.1
    apply (hi.readable d (hevents ▸ List.mem_cons_of_mem _ hd)).mono
    · intro h
      exact absurd h hne
    · intro c' _ hs hr
      exact ⟨lookup_append_left hs,hr⟩

theorem Inv.left (hi : Inv listener s) {events : List ℕ} (hevents : s.events = d :: events) :
    Inv listener (s.left d events) := by
  have hevent := hi.events_nodup
  rw [hevents,List.nodup_cons] at hevent
  have hsub : (s.sockets.filter (·.1 ≠ d)).Sublist s.sockets := List.filter_sublist
  have hconn := (hsub.map (·.2)).append (List.Sublist.refl s.backlog)
  have hdesc := hi.descriptors.sublist ((hsub.map (·.1)).cons_cons listener)
  constructor
  · simp [State.left,hi.clients,List.filter_map,Function.comp_def]
  · exact hdesc
  · exact hi.connections.sublist hconn
  · intro c hc
    exact hi.made c (hconn.subset hc)
  · exact hevent.2
  · exact hi.ready_nodup.filter _
  · intro d' hd'
    have hne : d' ≠ d := ne_of_mem_of_not_mem hd' hevent.1
    refine (hi.readable d' (hevents ▸ List.mem_cons_of_mem _ hd')).mono (fun _ => id) ?_
    intro c' _ hs hr
    refine ⟨?_,hr⟩
    apply (lookup_eq_some hdesc.of_cons).2
    exact List.mem_filter.2 ⟨hi.socket.1 hs,by simpa using hne⟩

theorem Inv.passedOn (hi : Inv listener s) {events : List ℕ} (hevents : s.events = d :: events)
    (hsocket : s.socket d = some c) (cs : List ℕ) (m : Bytes) :
    Inv listener (s.passedOn u c events cs m) := by
  have hevent := hi.events_nodup
  rw [hevents,List.nodup_cons] at hevent
  exact { hi with
    events_nodup := hevent.2
    readable := by
      intro d' hd'
      have hne : d' ≠ d := ne_of_mem_of_not_mem hd' hevent.1
      refine (hi.readable d' (hevents ▸ List.mem_cons_of_mem _ hd')).mono (fun _ => id) ?_
      intro c' _ hs hr
      have hc : c' ≠ c := by
        rintro rfl
        exact hne (hi.socket_inj hs hsocket)
      refine ⟨hs,?_⟩
      dsimp only [State.passedOn]
      rwa [Function.update_of_ne hc] }

theorem Did.inv (hi : Inv listener s) (h : Did u listener s a t) : Inv listener t := by
  cases h with
  | connect hbacklog => exact hi.connected
  | write c b bs hc hopen => exact hi.heardFrom (.inl (by simp))
  | close c hc hopen => exact hi.heardFrom (.inr rfl)
  | wait d ds hevents hready => exact hi.reported hready
  | accept client c events backlog message hevents hbacklog hclient hfree hmessage =>
    exact hi.accepted hevents hbacklog hclient hfree
  | leave d c events hevents hd hsocket hunread hclosed => exact hi.left hevents
  | alone d c events hevents hd hsocket hunread hone => exact hi.passedOn hevents hsocket _ _
  | say d c events message hevents hd hsocket hunread hmany hmessage =>
    exact hi.passedOn hevents hsocket _ _

theorem invariant (u : Utils) (listener : ℕ) : (system u listener).Invariant (Inv listener) where
  start := inv_start
  step hi h := (hi.did h).inv hi

/-! The server and the room -/

/-- A client has made this connection, and the server has closed it. -/
def Gone (s : State) (c : ℕ) : Prop := c < s.connections ∧ c ∉ s.members ++ s.backlog

abbrev Event := Room.Event ℕ ℕ (ℕ × Bytes)

structure Simulates (u : Utils) (s : State) (as : List Action) (t : State) (es : List Event) :
    Prop where
  room : ∀ r, Represents u s r → Represents u t (Room.run es r)
  received : ∀ c, ((Room.words c es).map (·.2)).flatten ++ (t.peer c).unread =
    (s.peer c).unread ++ written c as
  chunks : ∀ m ∈ Room.said es, m.2.2 ≠ [] ∧ m.2.2.length ≤ u.BUF_SIZE
  speakers : ∀ m ∈ Room.said es, m.1 ∈ s.members → m.1 ∈ t.members → t.socket m.2.1 = some m.1
  keeps : ∀ d c, s.socket d = some c → t.socket d = some c ∨ Gone t c
  gone : ∀ c, Gone s c → Gone t c
  stays : ∀ c ∈ s.members, c ∈ t.members → Room.Stays c es

theorem written_append (c : ℕ) (as bs : List Action) :
    written c (as ++ bs) = written c as ++ written c bs := by
  simp [written]

theorem Simulates.mem {es : List Event} (hi : Inv listener s) (ht : Inv listener t)
    (h : Simulates u s as t es) (hc : c ∈ s.members) : c ∈ t.members ∨ Gone t c := by
  rcases hi.mem_members.1 hc with ⟨d,hd⟩
  rcases h.keeps d c hd with hd | hg
  · exact .inl (ht.mem_members.2 ⟨d,hd⟩)
  · exact .inr hg

theorem Gone.not_mem (h : Gone s c) : c ∉ s.members := fun hm => h.2 (List.mem_append_left _ hm)

theorem Simulates.trans {v : State} {bs : List Action} {es fs : List Event} (hi : Inv listener s)
    (ht : Inv listener t) (h : Simulates u s as t es) (h' : Simulates u t bs v fs) :
    Simulates u s (as ++ bs) v (es ++ fs) := by
  -- a connection that is open at both ends is open in between
  have hmid : ∀ c ∈ s.members, c ∈ v.members → c ∈ t.members := by
    intro c hc hcv
    exact (h.mem hi ht hc).resolve_right fun hg => (h'.gone c hg).not_mem hcv
  constructor
  · intro r hr
    rw [Room.run_append]
    exact h'.room _ (h.room r hr)
  · intro c
    rw [Room.words_append,List.map_append,List.flatten_append,List.append_assoc,h'.received,
      ← List.append_assoc,h.received,written_append,List.append_assoc]
  · intro m hm
    rw [Room.said_append,List.mem_append] at hm
    exact hm.elim (h.chunks m) (h'.chunks m)
  · intro m hm hs hv
    have hmt := hmid _ hs hv
    rw [Room.said_append,List.mem_append] at hm
    rcases hm with hm | hm
    · exact (h'.keeps _ _ (h.speakers m hm hs hmt)).resolve_right fun hg => hg.not_mem hv
    · exact h'.speakers m hm hmt hv
  · intro d c hd
    rcases h.keeps d c hd with hd | hg
    · exact h'.keeps d c hd
    · exact .inr (h'.gone c hg)
  · exact fun c hg => h'.gone c (h.gone c hg)
  · intro c hs hv e he
    have hmt := hmid c hs hv
    rcases List.mem_append.1 he with he | he
    · exact h.stays c hs hmt e he
    · exact h'.stays c hmt hv e he

theorem simulates_silent (hsockets : t.sockets = s.sockets) (houtput : t.output = s.output)
    (hpeer : ∀ c, (t.peer c).unread = (s.peer c).unread ++ written c [a])
    (hgone : ∀ c, Gone s c → Gone t c) : Simulates u s [a] t [] := by
  have hmembers : t.members = s.members := congrArg (List.map _) hsockets
  constructor
  · exact fun r hr => ⟨hr.members.trans hmembers.symm,fun c => by rw [houtput]; exact hr.output c⟩
  · simpa using hpeer
  · simp
  · simp
  · intro d c hd
    exact .inl (by rwa [State.socket,hsockets])
  · exact hgone
  · intro c _ _ e he
    cases he

theorem simulates_connected : Simulates u s [.connect] (s.connected listener) [] := by
  refine simulates_silent rfl rfl (by simp [written,State.connected]) ?_
  rintro c ⟨hc,hn⟩
  refine ⟨Nat.lt_succ_of_lt hc,?_⟩
  change c ∉ s.members ++ (s.backlog ++ [s.connections])
  simpa [hc.ne] using hn

theorem simulates_heardFrom (hunread : ∀ c', (Function.update s.peer c p c').unread =
    (s.peer c').unread ++ written c' [a]) : Simulates u s [a] (s.heardFrom c p) [] :=
  simulates_silent rfl rfl hunread fun _ => id

theorem simulates_accepted (hi : Inv listener s) {events backlog : List ℕ}
    (hbacklog : s.backlog = c :: backlog) (hmessage : u.message (u.STR_WELCOME client) = some m) :
    Simulates u s [.accept client] (s.accepted client c events backlog m) [.enter c client] := by
  have hconn := hi.connections
  rw [hbacklog] at hconn
  have hc : c ∉ s.members :=
    fun hm => (List.nodup_append.1 hconn).2.2 c hm c List.mem_cons_self rfl
  refine ⟨?_,by simp [Room.words,Room.said,written,State.accepted],by simp [Room.said],
    by simp [Room.said],?_,?_,?_⟩
  · intro r hr
    constructor
    · simp [Room.apply,Room.State.tell,hr.members,State.members,State.accepted]
    · intro c'
      by_cases h : c' = c
      · subst h
        simp [Room.apply,Room.State.tell,← hr.output,Utils.render,State.accepted,hmessage]
      · simp [Room.apply,Room.State.tell,h,hr.output,State.accepted]
  · exact fun d c' hd => .inl (lookup_append_left hd)
  · rintro c' ⟨hlt,hn⟩
    exact ⟨hlt,by simpa [State.members,State.accepted,hbacklog] using hn⟩
  · intro c' hs _ e he
    rw [List.mem_singleton.1 he]
    refine ⟨by simp,?_⟩
    rintro a ⟨⟩
    exact hc hs

theorem simulates_left (hi : Inv listener s) {events : List ℕ} (hsocket : s.socket d = some c) :
    Simulates u s [.handle_message] (s.left d events) [.leave c] := by
  have hmembers : (s.left d events).members = s.members.filter (· ≠ c) := hi.filter_members hsocket
  have hc : c ∈ s.members := hi.mem_members.2 ⟨d,hsocket⟩
  refine ⟨?_,by simp [Room.words,Room.said,written,State.left],by simp [Room.said],
    by simp [Room.said],?_,?_,?_⟩
  · intro r hr
    constructor
    · simp [Room.apply,hr.members,hmembers]
    · exact hr.output
  · intro d' c' hd'
    by_cases h : d' = d
    · subst h
      obtain rfl : c' = c := Option.some.inj (hd'.symm.trans hsocket)
      refine .inr ⟨hi.made c' (List.mem_append_left _ hc),?_⟩
      rw [hmembers,List.mem_append,not_or]
      exact ⟨by simp,fun hb => (List.nodup_append.1 hi.connections).2.2 c' hc c' hb rfl⟩
    · refine .inl ((lookup_eq_some ?_).2 ?_)
      · exact hi.descriptors.of_cons.sublist (List.filter_sublist.map _)
      · exact List.mem_filter.2 ⟨hi.socket.1 hd',by simpa using h⟩
  · rintro c' ⟨hlt,hn⟩
    refine ⟨hlt,fun hm => hn ?_⟩
    rw [hmembers] at hm
    exact List.mem_append.2 ((List.mem_append.1 hm).imp_left List.mem_of_mem_filter)
  · intro c' _ ht e he
    rw [List.mem_singleton.1 he]
    refine ⟨?_,by simp⟩
    rintro ⟨⟩
    rw [hmembers] at ht
    simp at ht

theorem simulates_passedOn {events cs : List ℕ} (hsocket : s.socket d = some c)
    (hunread : (s.peer c).unread ≠ [])
    (hroom : ∀ r, Represents u s r → Represents u (s.passedOn u c events cs m)
      (Room.apply r (.say c (d,(s.peer c).unread.take u.BUF_SIZE)))) :
    Simulates u s [.handle_message] (s.passedOn u c events cs m)
      [.say c (d,(s.peer c).unread.take u.BUF_SIZE)] := by
  refine ⟨hroom,?_,?_,?_,fun _ _ => .inl,fun _ => id,?_⟩
  · intro c'
    by_cases h : c' = c
    · subst h
      simp [Room.words,Room.said,written,State.passedOn]
    · simp [Room.words,Room.said,written,State.passedOn,h,Ne.symm h]
  · intro m hm
    rw [Room.said,List.filterMap_cons,List.filterMap_nil,List.mem_singleton] at hm
    rw [hm]
    refine ⟨?_,List.length_take_le _ _⟩
    simpa [List.take_eq_nil_iff,u.buf_pos.ne'] using hunread
  · intro m hm _ _
    rw [Room.said,List.filterMap_cons,List.filterMap_nil,List.mem_singleton] at hm
    rw [hm]
    exact hsocket
  · intro c' _ _ e he
    rw [List.mem_singleton.1 he]
    simp

theorem represents_alone {events : List ℕ} (hone : s.members.length = 1) (b : ℕ × Bytes)
    {r : Room.State ℕ ℕ (ℕ × Bytes)} (hr : Represents u s r) :
    Represents u (s.passedOn u c events [c] u.STR_NOONE_CONNECTED) (Room.apply r (.say c b)) where
  members := by
    change _ = s.members
    simp [Room.apply,hr.members,hone,Room.State.tell]
  output q := by
    by_cases hq : q = c
    · simp [Room.apply,hr.members,hone,Room.State.tell,hq,← hr.output,Utils.render,State.passedOn]
    · simp [Room.apply,hr.members,hone,Room.State.tell,hq,hr.output,State.passedOn]

theorem represents_say {events : List ℕ} {b : ℕ × Bytes} (hmany : s.members.length ≠ 1)
    (hmessage : u.populated b.1 b.2 = some m) {r : Room.State ℕ ℕ (ℕ × Bytes)}
    (hr : Represents u s r) :
    Represents u (s.passedOn u c events (s.members.filter (· ≠ c)) m)
      (Room.apply r (.say c b)) where
  members := by
    change _ = s.members
    simp [Room.apply,hr.members,hmany,Room.State.tell]
  output q := by
    by_cases hq : q ∈ s.members ∧ q ≠ c
    · simp [Room.apply,hr.members,hmany,Room.State.tell,hq,← hr.output,Utils.render,State.passedOn,
        hmessage]
    · simp [Room.apply,hr.members,hmany,Room.State.tell,hq,hr.output,State.passedOn]

theorem Did.simulates (hi : Inv listener s) (h : Did u listener s a t) :
    ∃ es, Simulates u s [a] t es := by
  cases h with
  | connect hbacklog => exact ⟨[],simulates_connected⟩
  | write c b bs hc hopen =>
    refine ⟨[],simulates_heardFrom fun c' => ?_⟩
    by_cases h : c' = c
    · subst h
      simp [written]
    · simp [written,h,Ne.symm h]
  | close c hc hopen =>
    refine ⟨[],simulates_heardFrom fun c' => ?_⟩
    by_cases h : c' = c
    · subst h
      simp [written]
    · simp [written,h]
  | wait d ds hevents hready =>
    exact ⟨[],simulates_silent rfl rfl (by simp [written,State.reported]) fun _ => id⟩
  | accept client c events backlog message hevents hbacklog hclient hfree hmessage =>
    exact ⟨_,simulates_accepted hi hbacklog hmessage⟩
  | leave d c events hevents hd hsocket hunread hclosed => exact ⟨_,simulates_left hi hsocket⟩
  | alone d c events hevents hd hsocket hunread hone =>
    exact ⟨_,simulates_passedOn hsocket hunread fun _ => represents_alone hone _⟩
  | say d c events message hevents hd hsocket hunread hmany hmessage =>
    exact ⟨_,simulates_passedOn hsocket hunread fun _ => represents_say hmany hmessage⟩

/-- The run lemma: a run of the server is a run of the room. -/
theorem simulates_run (hi : Inv listener s) (h : (system u listener).run as s = some t) :
    ∃ es, Simulates u s as t es := by
  induction as generalizing s with
  | nil =>
    cases h
    refine ⟨[],fun _ => id,by simp [written],by simp,by simp,fun _ _ => .inl,fun _ => id,?_⟩
    intro c _ _ e he
    cases he
  | cons a as ih =>
    rcases System.run_cons_eq_some.1 h with ⟨v,hv,h⟩
    have hdid := hi.did hv
    rcases hdid.simulates hi with ⟨es,hes⟩
    rcases ih (hdid.inv hi) h with ⟨fs,hfs⟩
    exact ⟨es ++ fs,hes.trans hi (hdid.inv hi) hfs⟩

def sampleUtils : Utils :=
  ⟨8,4,fun client => [client.toUInt8],fun client buf => client.toUInt8 :: buf,[63],by decide,
    by decide⟩

def sampleStart : List Action :=
  [.connect,.epoll_wait,.accept 5,.connect,.epoll_wait,.accept 6]

/-- A client that is alone gets a text of its own, whatever it has sent; else the message for the
others has to fit. -/
def State.Fits (u : Utils) (s : State) (d : ℕ) : Prop :=
  s.clients_list.length = 1 ∨ ∀ c ∈ s.socket d, (s.peer c).unread ≠ [] →
    (u.populated d ((s.peer c).unread.take u.BUF_SIZE)).isSome

theorem isSome_accept (hi : Inv listener s) {events : List ℕ} (hevents : s.events = listener :: events)
    (hread : s.backlog ≠ []) (hclient : client ∉ listener :: s.clients_list)
    (hfits : (u.message (u.STR_WELCOME client)).isSome) :
    (step u listener (.accept client) s).isSome := by
  rcases List.exists_cons_of_ne_nil hread with ⟨c,backlog,hb⟩
  rcases Option.isSome_iff_exists.1 hfits with ⟨message,hmessage⟩
  rw [List.mem_cons,not_or,hi.clients] at hclient
  have hfree : s.socket client = none := by
    rw [Option.eq_none_iff_forall_ne_some]
    intro c hc
    exact hclient.2 (List.mem_map_of_mem (hi.socket.1 hc))
  simp [step,hevents,accept,hb,hclient.1,hfree,hmessage]

theorem isSome_handle_message {events : List ℕ} (hevents : s.events = d :: events)
    (hd : d ≠ listener) (hread : s.Readable listener d) (hfits : s.Fits u d) :
    (step u listener .handle_message s).isSome := by
  rw [State.Readable,if_neg hd] at hread
  rcases hread with ⟨c,hc,hread⟩
  rw [Option.mem_def] at hc
  by_cases hunread : (s.peer c).unread = []
  · have hclosed := hread.resolve_left (not_not.2 hunread)
    simp [step,hevents,hd,handle_message,hc,hunread,hclosed]
  · have htake : ((s.peer c).unread.take u.BUF_SIZE).length ≠ 0 := by
      simp [u.buf_pos.ne',hunread]
    simp only [step,hevents,handle_message,hc,if_neg htake,if_pos hd]
    split
    · rfl
    · rename_i hmany
      rcases Option.isSome_iff_exists.1 (hfits.resolve_left hmany c hc hunread) with ⟨m,hm⟩
      simp [hm]

/-- `clients_list` is the list of the open descriptors, and what is reported can be accepted or read
without waiting: the loop goes on, unless the text that is to be sent has no room in its buffer. -/
theorem reported_ready (hr : (system u listener).Reachable s) :
    s.clients_list = s.sockets.map (·.1) ∧ (listener :: s.clients_list).Nodup ∧
    (∀ d ∈ s.events, s.Readable listener d) ∧
    ∀ d ∈ s.events.head?, if d = listener then ∀ client ∉ listener :: s.clients_list,
        (u.message (u.STR_WELCOME client)).isSome → (step u listener (.accept client) s).isSome
      else s.Fits u d → (step u listener .handle_message s).isSome := by
  have hi := (invariant u listener).reachable hr
  refine ⟨hi.clients,hi.clients ▸ hi.descriptors,hi.readable,?_⟩
  intro d hd
  rcases List.head?_eq_some_iff.1 hd with ⟨events,he⟩
  have hread := hi.readable d (by simp [he])
  split
  · rename_i hl
    subst hl
    rw [State.Readable,if_pos rfl] at hread
    exact fun client hclient hfits => isSome_accept hi he hread hclient hfits
  · rename_i hl
    exact isSome_handle_message he hl hread

theorem reported_ready_two : ∃ s t : State,
    (system sampleUtils 3).run [.connect,.epoll_wait] (system sampleUtils 3).start = some s ∧
    step sampleUtils 3 (.accept 5) s = some t := by
  have hex : ∃ s, (system sampleUtils 3).run [.connect,.epoll_wait] (system sampleUtils 3).start =
      some s ∧ s.events = [3] ∧ s.clients_list = [] := ⟨_,rfl,rfl,rfl⟩
  rcases hex with ⟨s,hs,he,hclients⟩
  have hready := (reported_ready ⟨_,hs⟩).2.2.2 3 (by simp [he])
  rw [if_pos rfl] at hready
  rcases Option.isSome_iff_exists.1 (hready 5 (by simp [hclients]) rfl) with ⟨t,ht⟩
  exact ⟨s,t,hs,ht⟩

/-! Clients that wait until they have been read -/

/-- The greetings have room in the buffer, and so have messages with at most `limit` bytes of a client;
a descriptor is an `int`. -/
structure Utils.Fits (u : Utils) (limit : ℕ) : Prop where
  limit_lt : limit < u.BUF_SIZE
  welcome : ∀ client < 2^31, (u.STR_WELCOME client).length < u.BUF_SIZE
  message : ∀ client < 2^31, ∀ text : Bytes, text.length ≤ limit →
    (u.STR_MESSAGE client text).length < u.BUF_SIZE

/-- A client connects when no other one waits to be accepted, and sends or closes when what it has
sent has been read, no more than `limit` bytes at once. -/
def Considerate (limit : ℕ) (s : State) : Action → Prop
  | .connect => s.backlog = []
  | .write c _ bs => (s.peer c).unread = [] ∧ bs.length < limit
  | .close c => (s.peer c).unread = []
  | .accept client => client < 2^31
  | _ => True

instance (limit : ℕ) (s : State) (a : Action) : Decidable (Considerate limit s a) := by
  cases a <;> unfold Considerate <;> infer_instance

/-- What can be read has been reported or is about to be. -/
structure Noticed (listener limit : ℕ) (s : State) : Prop where
  inv : Inv listener s
  backlog : s.backlog.length ≤ 1
  short : ∀ c, (s.peer c).unread.length ≤ limit
  closed : ∀ c, (s.peer c).closed = true → (s.peer c).unread = []
  ints : ∀ d ∈ s.sockets.map (·.1), d < 2^31
  edge : ∀ d, s.Readable listener d → d ∈ s.ready ∨ d ∈ s.events

variable {limit : ℕ}

theorem noticed_start : Noticed listener limit (system u listener).start where
  inv := inv_start
  backlog := Nat.zero_le _
  short _ := Nat.zero_le _
  closed _ _ := rfl
  ints d hd := by cases hd
  edge d h := by
    unfold State.Readable at h
    split at h
    · exact absurd rfl h
    · rcases h with ⟨c,hc,-⟩
      cases hc

theorem mem_tail {e : ℕ} {events : List ℕ} (h : d ∈ s.ready ∨ d ∈ s.events)
    (he : s.events = e :: events) (hd : d ≠ e) : d ∈ s.ready ∨ d ∈ events := by
  rw [he,List.mem_cons] at h
  exact h.imp_right fun h => h.resolve_left hd

theorem Noticed.rung (hn : Noticed listener limit s)
    (h : (s.heardFrom c p).Readable listener d) : d ∈ s.rung c ∨ d ∈ s.events := by
  rw [mem_rung hn.inv]
  by_cases hd : s.socket d = some c
  · exact .inl (.inl hd)
  · refine (hn.edge d (h.mono (fun _ => id) fun c' _ hs hr => ⟨hs,?_⟩)).imp_left .inr
    have hne : c' ≠ c := by
      rintro rfl
      exact hd hs
    simpa [State.heardFrom,hne] using hr

theorem Noticed.connected (hn : Noticed listener limit s) (hc : s.backlog = []) :
    Noticed listener limit (s.connected listener) := by
  refine ⟨hn.inv.connected,by simp [State.connected,hc],hn.short,hn.closed,hn.ints,?_⟩
  intro d hd
  change d ∈ ring listener s.ready ∨ d ∈ s.events
  rw [mem_ring]
  by_cases hl : d = listener
  · exact .inl (.inl hl)
  · exact (hn.edge d (hd.mono (fun h => absurd h hl) fun _ _ hs hr => ⟨hs,hr⟩)).imp_left .inr

theorem Noticed.heardFrom (hn : Noticed listener limit s) (hp : p.Readable)
    (hshort : p.unread.length ≤ limit) (hclosed : p.closed = true → p.unread = []) :
    Noticed listener limit (s.heardFrom c p) := by
  refine ⟨hn.inv.heardFrom hp,hn.backlog,?_,?_,hn.ints,fun d => hn.rung⟩
  all_goals
    intro c'
    by_cases h : c' = c
    · simpa [State.heardFrom,h]
    · simpa [State.heardFrom,h] using by first | exact hn.short c' | exact hn.closed c'

theorem Noticed.reported (hn : Noticed listener limit s) {ds : List ℕ} (hevents : s.events = [])
    (hready : s.ready.filter (s.Readable listener ·) = ds) :
    Noticed listener limit (s.reported u ds) := by
  refine ⟨hn.inv.reported hready,hn.backlog,hn.short,hn.closed,hn.ints,?_⟩
  intro d hd
  have hd : s.Readable listener d := hd
  have hmem : d ∈ s.ready := (hn.edge d hd).resolve_right (by simp [hevents])
  have hfilter : d ∈ s.ready.filter (s.Readable listener ·) :=
    List.mem_filter.2 ⟨hmem,decide_eq_true hd⟩
  rw [hready,← List.take_append_drop u.EPOLL_SIZE ds,List.mem_append] at hfilter
  exact hfilter.symm

theorem Noticed.accepted (hn : Noticed listener limit s) {events backlog : List ℕ}
    (hint : client < 2^31) (hevents : s.events = listener :: events)
    (hbacklog : s.backlog = c :: backlog) (hclient : client ≠ listener)
    (hfree : s.socket client = none) :
    Noticed listener limit (s.accepted client c events backlog m) := by
  have ht := hn.inv.accepted (m := m) hevents hbacklog hclient hfree
  have hlast : backlog = [] := by
    have hle := hn.backlog
    rw [hbacklog,List.length_cons] at hle
    exact List.length_eq_zero_iff.1 (by omega)
  refine ⟨ht,by simp [State.accepted,hlast],hn.short,hn.closed,?_,?_⟩
  · intro d hd
    change d ∈ (s.sockets ++ [(client,c)]).map (·.1) at hd
    rw [List.map_append,List.mem_append] at hd
    rcases hd with hd | hd
    · exact hn.ints d hd
    · rw [List.mem_singleton.1 hd]
      exact hint
  intro d hd
  by_cases hl : d = listener
  · simp [State.Readable,State.accepted,hl,hlast] at hd
  by_cases hdc : d = client
  · subst hdc
    unfold State.Readable at hd
    rw [if_neg hl] at hd
    rcases hd with ⟨c',hs,hr⟩
    have hc' : c' = c := Option.some.inj (hs.symm.trans (lookup_append hfree))
    have hr' : (s.peer c).Readable := hc' ▸ hr
    refine .inl ?_
    change d ∈ if (s.peer c).Readable then ring d s.ready else s.ready
    rw [if_pos hr',mem_ring]
    exact .inl rfl
  · have hread : s.Readable listener d := by
      refine hd.mono (fun h => absurd h hl) fun c' _ hs hr => ⟨?_,hr⟩
      have hm : (d,c') ∈ s.sockets ++ [(client,c)] := ht.socket.1 hs
      rw [List.mem_append,List.mem_singleton] at hm
      rcases hm with hm | hm
      · exact hn.inv.socket.2 hm
      · exact absurd (congrArg Prod.fst hm) hdc
    refine (mem_tail (hn.edge d hread) hevents hl).imp_left fun hm => ?_
    change d ∈ if (s.peer c).Readable then ring client s.ready else s.ready
    split
    · exact mem_ring.2 (.inr hm)
    · exact hm

theorem Noticed.left (hn : Noticed listener limit s) {events : List ℕ}
    (hevents : s.events = d :: events) (hd : d ≠ listener) :
    Noticed listener limit (s.left d events) := by
  have ht := hn.inv.left hevents
  refine ⟨ht,hn.backlog,hn.short,hn.closed,?_,?_⟩
  · intro d' hd'
    rcases List.mem_map.1 hd' with ⟨q,hq,rfl⟩
    exact hn.ints q.1 (List.mem_map_of_mem (List.mem_of_mem_filter hq))
  intro d' hd'
  have hne : d' ≠ d := by
    rintro rfl
    unfold State.Readable at hd'
    rw [if_neg hd] at hd'
    rcases hd' with ⟨c',hs,-⟩
    have hm := ht.socket.1 hs
    simp [State.left] at hm
  have hread : s.Readable listener d' :=
    hd'.mono (fun _ => id) fun c' _ hs hr =>
      ⟨hn.inv.socket.2 (List.mem_of_mem_filter (ht.socket.1 hs)),hr⟩
  refine (mem_tail (hn.edge d' hread) hevents hne).imp_left fun hm => ?_
  exact List.mem_filter.2 ⟨hm,by simpa using hne⟩

/-- All that the client has sent is passed on at once. -/
theorem Noticed.passedOn (hn : Noticed listener limit s) (hlimit : limit < u.BUF_SIZE)
    {events : List ℕ} (hevents : s.events = d :: events) (hd : d ≠ listener)
    (hsocket : s.socket d = some c) (hunread : (s.peer c).unread ≠ []) (cs : List ℕ) (m : Bytes) :
    Noticed listener limit (s.passedOn u c events cs m) := by
  have hdrop : (s.peer c).unread.drop u.BUF_SIZE = [] :=
    List.drop_eq_nil_of_le ((hn.short c).trans hlimit.le)
  refine ⟨hn.inv.passedOn hevents hsocket cs m,hn.backlog,?_,?_,hn.ints,?_⟩
  · intro c'
    by_cases h : c' = c
    · simp [State.passedOn,h,hdrop]
    · simpa [State.passedOn,h] using hn.short c'
  · intro c'
    by_cases h : c' = c
    · simp [State.passedOn,h,hdrop]
    · simpa [State.passedOn,h] using hn.closed c'
  · intro d' hd'
    have hread : s.Readable listener d' := by
      refine hd'.mono (fun _ => id) fun c' _ hs hr => ⟨hs,?_⟩
      by_cases h : c' = c
      · subst h
        exact .inl hunread
      · simpa [State.passedOn,h] using hr
    have hne : d' ≠ d := by
      rintro rfl
      unfold State.Readable at hd'
      rw [if_neg hd] at hd'
      rcases hd' with ⟨c',hs,hr⟩
      obtain rfl : c' = c := Option.some.inj (hs.symm.trans hsocket)
      have hopen : (s.peer c').closed ≠ true := fun h => hunread (hn.closed c' h)
      simp [State.passedOn,Peer.Readable,hdrop,hopen] at hr
    have hmem : d' ∈ s.ready ∨ d' ∈ events := mem_tail (hn.edge d' hread) hevents hne
    exact hmem

theorem Did.noticed (hn : Noticed listener limit s) (hlimit : limit < u.BUF_SIZE)
    (hc : Considerate limit s a) (h : Did u listener s a t) : Noticed listener limit t := by
  cases h with
  | connect hbacklog => exact hn.connected hc
  | write c b bs hlt hopen =>
    refine hn.heardFrom (.inl (by simp)) ?_ (by simp)
    simpa [hc.1] using Nat.succ_le_of_lt hc.2
  | close c hlt hopen => exact hn.heardFrom (.inr rfl) (hn.short c) fun _ => hc
  | wait e es hevents hready => exact hn.reported hevents hready
  | accept client c events backlog message hevents hbacklog hclient hfree hmessage =>
    exact hn.accepted hc hevents hbacklog hclient hfree
  | leave e c events hevents he hsocket hunread hclosed => exact hn.left hevents he
  | alone e c events hevents he hsocket hunread hone =>
    exact hn.passedOn hlimit hevents he hsocket hunread _ _
  | say e c events message hevents he hsocket hunread hmany hmessage =>
    exact hn.passedOn hlimit hevents he hsocket hunread _ _

theorem Noticed.fits (hn : Noticed listener limit s) (hfits : u.Fits limit) (d : ℕ) :
    s.Fits u d := by
  refine .inr fun c hc _ => ?_
  have hint : d < 2^31 :=
    hn.ints d (List.mem_map_of_mem (hn.inv.socket.1 (Option.mem_def.1 hc)))
  have hshort := hn.short c
  have hlimit := hfits.limit_lt
  have htext : (((s.peer c).unread.take u.BUF_SIZE).takeWhile (· ≠ 0)).length ≤ limit :=
    (List.takeWhile_prefix _).length_le.trans ((List.length_take_le' _ _).trans hshort)
  have hbuf : ((s.peer c).unread.take u.BUF_SIZE).length < u.BUF_SIZE :=
    ((List.length_take_le' _ _).trans hshort).trans_lt hlimit
  rw [Utils.populated,Utils.string,if_pos (.inl hbuf),Option.bind_some,Utils.message,
    if_pos (hfits.message d hint _ htext)]
  rfl

/-- How many steps there are at most for an action of a client, with that action -/
def allowance : Action → ℕ
  | .connect => 5
  | .write _ _ _ | .close _ => 3
  | _ => 0

def work (s : State) : ℕ := 2 * s.backlog.length + 2 * s.ready.length + s.events.length

theorem length_ring_le (d : ℕ) (ready : List ℕ) : (ring d ready).length ≤ ready.length + 1 := by
  unfold ring
  split <;> simp

theorem length_rung_le (s : State) (c : ℕ) : (s.rung c).length ≤ s.ready.length + 1 := by
  unfold State.rung
  split
  · exact length_ring_le _ _
  · omega

theorem Did.work_lt (h : Did u listener s a t) : work t + 1 ≤ work s + allowance a := by
  cases h with
  | connect hbacklog =>
    have hle := length_ring_le listener s.ready
    simp only [State.connected,work,allowance,List.length_append,List.length_singleton]
    omega
  | write c b bs hlt hopen =>
    have hle := length_rung_le s c
    simp only [State.heardFrom,work,allowance]
    omega
  | close c hlt hopen =>
    have hle := length_rung_le s c
    simp only [State.heardFrom,work,allowance]
    omega
  | wait e es hevents hready =>
    have hle := List.length_filter_le (fun x => decide (s.Readable listener x)) s.ready
    have hpos := u.epoll_pos
    rw [hready,List.length_cons] at hle
    simp only [State.reported,work,allowance,hevents,List.length_take,List.length_drop,List.length_cons,
      List.length_nil]
    omega
  | accept client c events backlog message hevents hbacklog hclient hfree hmessage =>
    have hle := length_ring_le client s.ready
    simp only [State.accepted,work,allowance,hevents,hbacklog,List.length_cons]
    split <;> omega
  | leave e c events hevents he hsocket hunread hclosed =>
    have hle := List.length_filter_le (fun x => decide (x ≠ e)) s.ready
    simp only [State.left,work,allowance,hevents,List.length_cons]
    omega
  | alone e c events hevents he hsocket hunread hone =>
    simp only [State.passedOn,work,allowance,hevents,List.length_cons]
    omega
  | say e c events message hevents he hsocket hunread hmany hmessage =>
    simp only [State.passedOn,work,allowance,hevents,List.length_cons]
    omega

/-- `main` waits in `epoll_wait`, which has nothing to report. -/
def Waits (u : Utils) (listener : ℕ) (s : State) : Prop :=
  s.events = [] ∧ step u listener .epoll_wait s = none

/-- The server makes a bounded number of steps for what the clients do, and when it waits it has
accepted every connection, read all that was sent and closed what the clients have closed. Where the
texts fit the buffer, it always comes to wait. -/
theorem settles (hfits : u.Fits limit) (h : ((system u listener).restrict (Considerate limit)).run as
      (system u listener).start = some s) :
    as.length ≤ (as.map allowance).sum ∧
    (∀ d ∈ s.events.head?, if d = listener then ∀ client ∉ listener :: s.clients_list,
        client < 2^31 → (step u listener (.accept client) s).isSome
      else (step u listener .handle_message s).isSome) ∧
    (Waits u listener s →
      s.backlog = [] ∧ ∀ c ∈ s.members, (s.peer c).unread = [] ∧ (s.peer c).closed = false) := by
  have hinvariant :
      ((system u listener).restrict (Considerate limit)).Invariant (Noticed listener limit) := by
    refine ⟨⟨fun hn h => ?_⟩,noticed_start (u := u)⟩
    rcases System.restrict_step_eq_some.1 h with ⟨hc,h⟩
    exact (hn.inv.did h).noticed hn hfits.limit_lt hc
  have hn := hinvariant.reachable ⟨as,h⟩
  refine ⟨?_,?_,?_⟩
  · have hle := hinvariant.run_length_le work allowance (fun hn h =>
      (hn.inv.did (System.restrict_step_eq_some.1 h).2).work_lt) (noticed_start (u := u)) h
    exact (Nat.le_add_right _ _).trans (hle.trans (by simp [work,system]))
  · intro d hd
    rcases List.head?_eq_some_iff.1 hd with ⟨events,he⟩
    have hread := hn.inv.readable d (by simp [he])
    split
    · rename_i hl
      subst hl
      rw [State.Readable,if_pos rfl] at hread
      refine fun client hclient hint => isSome_accept hn.inv he hread hclient ?_
      rw [Utils.message,if_pos (hfits.welcome client hint)]
      rfl
    · rename_i hl
      exact isSome_handle_message he hl hread (hn.fits hfits d)
  · rintro ⟨hevents,hwait⟩
    have hno : ∀ d, ¬s.Readable listener d := by
      intro d hd
      have hmem := (hn.edge d hd).resolve_right (by simp [hevents])
      have hfilter : d ∈ s.ready.filter (s.Readable listener ·) :=
        List.mem_filter.2 ⟨hmem,decide_eq_true hd⟩
      rw [step,if_pos hevents] at hwait
      split at hwait
      · rename_i hnil
        simp [hnil] at hfilter
      · cases hwait
    constructor
    · have hl := hno listener
      rwa [State.Readable,if_pos rfl,not_not] at hl
    · intro c hc
      rcases hn.inv.mem_members.1 hc with ⟨d,hd⟩
      have hl : d ≠ listener := by
        rintro rfl
        exact (List.nodup_cons.1 hn.inv.descriptors).1
          (List.mem_map_of_mem (hn.inv.socket.1 hd))
      have hd' := hno d
      rw [State.Readable,if_neg hl] at hd'
      have hread : ¬(s.peer c).Readable := fun hr => hd' ⟨c,hd,hr⟩
      simpa [Peer.Readable,not_or] using hread

theorem sampleUtils_fits : sampleUtils.Fits 2 where
  limit_lt := by decide
  welcome _ _ := by
    change 1 < 4
    decide
  message _ _ text h := by
    change text.length+1 < 4
    omega

theorem settles_two : ∃ s : State,
    (system sampleUtils 3).run (sampleStart ++ [.write 0 65 [66],.epoll_wait,.handle_message,
      .close 1,.epoll_wait,.handle_message]) (system sampleUtils 3).start = some s ∧
    s.members = [0] ∧ ∀ c ∈ s.members, (s.peer c).unread = [] ∧ (s.peer c).closed = false := by
  have hex : ∃ s, ((system sampleUtils 3).restrict (Considerate 2)).run
      (sampleStart ++ [.write 0 65 [66],.epoll_wait,.handle_message,.close 1,.epoll_wait,
        .handle_message]) (system sampleUtils 3).start = some s ∧ s.members = [0] ∧
      Waits sampleUtils 3 s := ⟨_,rfl,rfl,rfl,rfl⟩
  rcases hex with ⟨s,hs,hmembers,hwaits⟩
  exact ⟨s,System.run_of_restrict hs,hmembers,((settles sampleUtils_fits hs).2.2 hwaits).2⟩

end ChatServer
end SomeCode
