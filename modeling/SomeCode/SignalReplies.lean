import SomeCode.Transition
import SomeCode.MachineInt
import SomeCode.Contributors

/-! `inf14-1.c` answers each queued signal with its value less one, until a value is not positive,
and each `inf-14-1-tester.c` sends a value, waits for the answer and prints it, for ever: the
variable that its loop looks at is another one than that of the answers. -/
namespace SomeCode
namespace SignalReplies

open Transition

/-- What is sent back with `sigqueue` -/
def reply (v : ℤ) : ℤ := MachineInt.wrap 32 (v-1)

/-- In `sigwaitinfo`, before `sigqueue`, and behind `main` -/
inductive Server (ι : Type)
  | waiting
  | replying (received_pid : ι) (received_value : ℤ)
  | ended

/-- Before `scanf`, `sigqueue`, `sigwaitinfo` and `printf` -/
inductive Tester
  | reading
  | sending (value : ℤ)
  | waiting
  | printing (received_value : ℤ)

/-- The signals that are queued for the server, by their senders, and for each tester; `next` counts
the values that a tester has read. -/
structure State (ι : Type) where
  server : Server ι
  queue : List (ι × ℤ)
  tester : ι → Tester
  inbox : ι → List ℤ
  next : ι → ℕ
  printed : ι → List ℤ

inductive Action (ι : Type)
  | serve
  | test (i : ι)

variable {ι : Type} [DecidableEq ι]

/-- A step of `main` of `inf14-1.c`; with the server its queue is gone. -/
def serve (s : State ι) : Option (State ι) :=
  match s.server with
  | .waiting =>
    match s.queue with
    | [] => none
    | (i,v) :: queue => some { s with server := .replying i v, queue := queue }
  | .replying i v =>
    let inbox := Function.update s.inbox i (s.inbox i ++ [reply v])
    if v > 0 then some { s with server := .waiting, inbox := inbox }
    else some { s with server := .ended, queue := [], inbox := inbox }
  | .ended => none

/-- A step of `main` of `inf-14-1-tester.c`, of the tester `i`; no one gets what is sent to a server
that has ended. -/
def test (values : ι → ℕ → ℤ) (i : ι) (s : State ι) : Option (State ι) :=
  match s.tester i with
  | .reading => some { s with
      tester := Function.update s.tester i (.sending (values i (s.next i)))
      next := Function.update s.next i (s.next i + 1) }
  | .sending v => some { s with
      tester := Function.update s.tester i .waiting
      queue := match s.server with
        | .ended => s.queue
        | _ => s.queue ++ [(i,v)] }
  | .waiting =>
    match s.inbox i with
    | [] => none
    | w :: inbox => some { s with
        tester := Function.update s.tester i (.printing w)
        inbox := Function.update s.inbox i inbox }
  | .printing w => some { s with
      tester := Function.update s.tester i .reading
      printed := Function.update s.printed i (s.printed i ++ [w]) }

/-- One server and any testers, where `values i` are what the tester `i` reads -/
def system (values : ι → ℕ → ℤ) : System (State ι) (Action ι) where
  start := ⟨.waiting,[],fun _ => .reading,fun _ => [],fun _ => 0,fun _ => []⟩
  step
    | .serve => serve
    | .test i => test values i

def replies (values : ι → ℕ → ℤ) (i : ι) (n : ℕ) : List ℤ :=
  (List.range n).map fun k => reply (values i k)

def Server.request (i : ι) : Server ι → List ℤ
  | .replying j v => if j = i then [v] else []
  | _ => []

def State.requests (s : State ι) (i : ι) : List ℤ :=
  s.server.request i ++ (s.queue.filter (·.1 = i)).map (·.2)

def Tester.answer : Tester → List ℤ
  | .printing w => [w]
  | _ => []

/-- How many answers a tester has been sent -/
def State.answered (s : State ι) (i : ι) : ℕ :=
  (s.printed i).length + (s.tester i).answer.length + (s.inbox i).length

/-- Where a tester stands. A value is under way to the server, or its answer is on the way back, or
the server has ended before it could answer. -/
inductive Phase (values : ι → ℕ → ℤ) (s : State ι) (i : ι) : Prop
  | reading (htester : s.tester i = .reading) (hprinted : s.printed i = replies values i (s.next i))
      (hrequests : s.requests i = []) (hinbox : s.inbox i = [])
  | sending (n : ℕ) (htester : s.tester i = .sending (values i n)) (hnext : s.next i = n+1)
      (hprinted : s.printed i = replies values i n) (hrequests : s.requests i = [])
      (hinbox : s.inbox i = [])
  | pending (n : ℕ) (htester : s.tester i = .waiting) (hnext : s.next i = n+1)
      (hprinted : s.printed i = replies values i n) (hrequests : s.requests i = [values i n])
      (hinbox : s.inbox i = [])
  | answered (n : ℕ) (htester : s.tester i = .waiting) (hnext : s.next i = n+1)
      (hprinted : s.printed i = replies values i n) (hrequests : s.requests i = [])
      (hinbox : s.inbox i = [reply (values i n)])
  | lost (n : ℕ) (htester : s.tester i = .waiting) (hnext : s.next i = n+1)
      (hprinted : s.printed i = replies values i n) (hrequests : s.requests i = [])
      (hinbox : s.inbox i = []) (hserver : s.server = .ended)
  | printing (n : ℕ) (htester : s.tester i = .printing (reply (values i n))) (hnext : s.next i = n+1)
      (hprinted : s.printed i = replies values i n) (hrequests : s.requests i = [])
      (hinbox : s.inbox i = [])

/-- A value that is not positive is answered once at most, as the last one. -/
def OneLast (values : ι → ℕ → ℤ) (s : State ι) : Prop :=
  ∀ i n, n < s.answered i → values i n ≤ 0 → s.server = .ended ∧ n+1 = s.answered i ∧
    ∀ j m, m < s.answered j → values j m ≤ 0 → j = i

variable {values : ι → ℕ → ℤ} {s t : State ι} {i j : ι}

/-! What a step does -/

theorem serve_cases (h : serve s = some t) :
    (∃ i v queue, s.server = .waiting ∧ s.queue = (i,v) :: queue ∧
      t = { s with server := .replying i v, queue := queue }) ∨
    (∃ i v, s.server = .replying i v ∧ 0 < v ∧ t = { s with
      server := .waiting, inbox := Function.update s.inbox i (s.inbox i ++ [reply v]) }) ∨
    ∃ i v, s.server = .replying i v ∧ v ≤ 0 ∧ t = { s with
      server := .ended, queue := [],
      inbox := Function.update s.inbox i (s.inbox i ++ [reply v]) } := by
  rw [serve] at h
  split at h
  · split at h
    · cases h
    · rename_i hserver _ i v queue hqueue
      exact .inl ⟨i,v,queue,hserver,hqueue,(Option.some.inj h).symm⟩
  · rename_i i v hserver
    split at h
    · rename_i hpos
      exact .inr (.inl ⟨i,v,hserver,hpos,(Option.some.inj h).symm⟩)
    · rename_i hpos
      exact .inr (.inr ⟨i,v,hserver,not_lt.1 hpos,(Option.some.inj h).symm⟩)
  · cases h

theorem test_cases (h : test values i s = some t) :
    (s.tester i = .reading ∧ t = { s with
      tester := Function.update s.tester i (.sending (values i (s.next i)))
      next := Function.update s.next i (s.next i + 1) }) ∨
    (∃ v, s.tester i = .sending v ∧ t = { s with
      tester := Function.update s.tester i .waiting
      queue := match s.server with
        | .ended => s.queue
        | _ => s.queue ++ [(i,v)] }) ∨
    (∃ w inbox, s.tester i = .waiting ∧ s.inbox i = w :: inbox ∧ t = { s with
      tester := Function.update s.tester i (.printing w)
      inbox := Function.update s.inbox i inbox }) ∨
    ∃ w, s.tester i = .printing w ∧ t = { s with
      tester := Function.update s.tester i .reading
      printed := Function.update s.printed i (s.printed i ++ [w]) } := by
  rw [test] at h
  split at h
  · rename_i htester
    exact .inl ⟨htester,(Option.some.inj h).symm⟩
  · rename_i v htester
    exact .inr (.inl ⟨v,htester,(Option.some.inj h).symm⟩)
  · split at h
    · cases h
    · rename_i htester _ w inbox hinbox
      exact .inr (.inr (.inl ⟨w,inbox,htester,hinbox,(Option.some.inj h).symm⟩))
  · rename_i w htester
    exact .inr (.inr (.inr ⟨w,htester,(Option.some.inj h).symm⟩))

omit [DecidableEq ι] in
theorem length_replies (n : ℕ) : (replies values i n).length = n := by
  rw [replies,List.length_map,List.length_range]

omit [DecidableEq ι] in
theorem replies_succ (n : ℕ) :
    replies values i n ++ [reply (values i n)] = replies values i (n+1) := by
  rw [replies,replies,List.range_succ,List.map_append]
  rfl

theorem serve_tester (h : serve s = some t) :
    t.tester = s.tester ∧ t.next = s.next ∧ t.printed = s.printed := by
  rcases serve_cases h with ⟨i,v,queue,-,-,rfl⟩ | ⟨i,v,-,-,rfl⟩ | ⟨i,v,-,-,rfl⟩ <;>
    exact ⟨rfl,rfl,rfl⟩

theorem requests_append {v : ℤ} (hserver : t.server = s.server)
    (hqueue : t.queue = s.queue ++ [(i,v)]) : t.requests i = s.requests i ++ [v] := by
  rw [State.requests,State.requests,hserver,hqueue,List.filter_append,List.map_append,
    List.append_assoc]
  simp

theorem serve_requests (h : serve s = some t) (j : ι) :
    t.requests j = s.requests j ∧ t.inbox j = s.inbox j ∨
    (∃ v rest, s.requests j = v :: rest ∧ (t.requests j = rest ∨ t.requests j = []) ∧
      t.inbox j = s.inbox j ++ [reply v]) ∨
    t.server = .ended ∧ t.requests j = [] ∧ t.inbox j = s.inbox j := by
  rcases serve_cases h with ⟨i,v,queue,hserver,hqueue,rfl⟩ | ⟨i,v,hserver,-,rfl⟩ |
    ⟨i,v,hserver,-,rfl⟩
  · refine .inl ⟨?_,rfl⟩
    by_cases hij : i = j <;> simp [State.requests,Server.request,hserver,hqueue,hij]
  · by_cases hij : i = j
    · subst hij
      exact .inr (.inl ⟨v,(s.queue.filter (·.1 = i)).map (·.2),
        by simp [State.requests,Server.request,hserver],
        .inl (by simp [State.requests,Server.request]),Function.update_self ..⟩)
    · exact .inl ⟨by simp [State.requests,Server.request,hserver,hij],
        Function.update_of_ne (Ne.symm hij) ..⟩
  · by_cases hij : i = j
    · subst hij
      exact .inr (.inl ⟨v,(s.queue.filter (·.1 = i)).map (·.2),
        by simp [State.requests,Server.request,hserver],
        .inr (by simp [State.requests,Server.request]),Function.update_self ..⟩)
    · exact .inr (.inr ⟨rfl,by simp [State.requests,Server.request],
        Function.update_of_ne (Ne.symm hij) ..⟩)

theorem serve_idle (h : serve s = some t) (hrequests : s.requests j = []) :
    t.requests j = [] ∧ t.inbox j = s.inbox j := by
  rcases serve_requests h j with ⟨hr,hi⟩ | ⟨v,rest,hcons,-⟩ | ⟨-,hr,hi⟩
  · exact ⟨hr.trans hrequests,hi⟩
  · rw [hrequests] at hcons
    cases hcons
  · exact ⟨hr,hi⟩

theorem serve_not_ended (h : serve s = some t) : s.server ≠ .ended := by
  intro hserver
  rw [serve,hserver] at h
  cases h

theorem test_other (h : test values i s = some t) (hij : j ≠ i) :
    t.server = s.server ∧ t.tester j = s.tester j ∧ t.next j = s.next j ∧
      t.printed j = s.printed j ∧ t.requests j = s.requests j ∧ t.inbox j = s.inbox j := by
  rcases test_cases h with ⟨-,rfl⟩ | ⟨v,-,rfl⟩ | ⟨w,inbox,-,-,rfl⟩ | ⟨w,-,rfl⟩
  · simp [hij,State.requests]
  · cases hserver : s.server <;> simp [hij,State.requests,hserver,Ne.symm hij]
  · simp [hij,State.requests]
  · simp [hij,State.requests]

theorem Phase.serve (hs : Phase values s j) (h : serve s = some t) : Phase values t j := by
  rcases serve_tester h with ⟨htester',hnext',hprinted'⟩
  cases hs with
  | reading htester hprinted hrequests hinbox =>
    rcases serve_idle h hrequests with ⟨hr,hi⟩
    apply Phase.reading <;> simp [*]
  | sending n htester hnext hprinted hrequests hinbox =>
    rcases serve_idle h hrequests with ⟨hr,hi⟩
    apply Phase.sending n <;> simp [*]
  | pending n htester hnext hprinted hrequests hinbox =>
    rcases serve_requests h j with ⟨hr,hi⟩ | ⟨v,rest,hcons,hr,hi⟩ | ⟨hserver,hr,hi⟩
    · apply Phase.pending n <;> simp [*]
    · rw [hrequests,List.cons.injEq] at hcons
      rcases hcons with ⟨rfl,rfl⟩
      have hr' := hr.elim id id
      apply Phase.answered n <;> simp [*]
    · apply Phase.lost n <;> simp [*]
  | answered n htester hnext hprinted hrequests hinbox =>
    rcases serve_idle h hrequests with ⟨hr,hi⟩
    apply Phase.answered n <;> simp [*]
  | lost n htester hnext hprinted hrequests hinbox hserver =>
    exact absurd hserver (serve_not_ended h)
  | printing n htester hnext hprinted hrequests hinbox =>
    rcases serve_idle h hrequests with ⟨hr,hi⟩
    apply Phase.printing n <;> simp [*]

theorem Phase.test (hs : Phase values s i) (h : test values i s = some t) : Phase values t i := by
  cases hs with
  | reading htester hprinted hrequests hinbox =>
    rw [SignalReplies.test,htester] at h
    cases h
    exact .sending (s.next i) (by simp) (by simp) hprinted hrequests hinbox
  | sending n htester hnext hprinted hrequests hinbox =>
    rw [SignalReplies.test,htester] at h
    cases h
    cases hserver : s.server with
    | ended =>
      refine .lost n (by simp) hnext hprinted ?_ hinbox rfl
      simpa [State.requests,hserver] using hrequests
    | waiting =>
      refine .pending n (by simp) hnext hprinted ?_ hinbox
      rw [requests_append hserver.symm rfl,hrequests,List.nil_append]
    | replying j v =>
      refine .pending n (by simp) hnext hprinted ?_ hinbox
      rw [requests_append hserver.symm rfl,hrequests,List.nil_append]
  | pending n htester hnext hprinted hrequests hinbox =>
    rw [SignalReplies.test,htester] at h
    simp [hinbox] at h
  | answered n htester hnext hprinted hrequests hinbox =>
    rw [SignalReplies.test,htester] at h
    simp only [hinbox,Option.some.injEq] at h
    subst h
    exact .printing n (by simp) hnext hprinted hrequests (by simp)
  | lost n htester hnext hprinted hrequests hinbox =>
    rw [SignalReplies.test,htester] at h
    simp [hinbox] at h
  | printing n htester hnext hprinted hrequests hinbox =>
    rw [SignalReplies.test,htester] at h
    cases h
    refine .reading (by simp) ?_ hrequests hinbox
    simp [hprinted,hnext,replies_succ]

theorem Phase.other (hs : Phase values s j) (h : SignalReplies.test values i s = some t)
    (hij : j ≠ i) : Phase values t j := by
  rcases test_other h hij with ⟨h1,h2,h3,h4,h5,h6⟩
  cases hs with
  | reading htester hprinted hrequests hinbox => apply Phase.reading <;> simp [*]
  | sending n htester hnext hprinted hrequests hinbox => apply Phase.sending n <;> simp [*]
  | pending n htester hnext hprinted hrequests hinbox => apply Phase.pending n <;> simp [*]
  | answered n htester hnext hprinted hrequests hinbox => apply Phase.answered n <;> simp [*]
  | lost n htester hnext hprinted hrequests hinbox hserver => apply Phase.lost n <;> simp [*]
  | printing n htester hnext hprinted hrequests hinbox => apply Phase.printing n <;> simp [*]

theorem phase_invariant (values : ι → ℕ → ℤ) :
    (system values).Invariant fun s => ∀ i, Phase values s i where
  start := fun i => .reading rfl rfl rfl rfl
  step := by
    intro a s t hs h j
    cases a with
    | serve => exact (hs j).serve h
    | test i =>
      by_cases hij : j = i
      · subst hij
        exact (hs j).test h
      · exact (hs j).other h hij

theorem Phase.answered_eq (hs : Phase values s i) {v : ℤ} {rest : List ℤ}
    (h : s.requests i = v :: rest) : v = values i (s.answered i) := by
  cases hs with
  | pending n htester hnext hprinted hrequests hinbox =>
    rw [hrequests,List.cons.injEq] at h
    have hn : s.answered i = n := by
      simp [State.answered,htester,Tester.answer,hprinted,hinbox,replies]
    rw [hn,h.1]
  | reading htester hprinted hrequests hinbox => simp [hrequests] at h
  | sending n htester hnext hprinted hrequests hinbox => simp [hrequests] at h
  | answered n htester hnext hprinted hrequests hinbox => simp [hrequests] at h
  | lost n htester hnext hprinted hrequests hinbox hserver => simp [hrequests] at h
  | printing n htester hnext hprinted hrequests hinbox => simp [hrequests] at h

theorem test_answered (h : test values i s = some t) (j : ι) :
    t.answered j = s.answered j ∧ t.server = s.server := by
  rcases test_cases h with ⟨htester,rfl⟩ | ⟨v,htester,rfl⟩ | ⟨w,inbox,htester,hinbox,rfl⟩ |
    ⟨w,htester,rfl⟩
  all_goals
    refine ⟨?_,rfl⟩
    by_cases hij : j = i
    · subst hij
      simp [State.answered,Tester.answer, *]
      try omega
    · simp [State.answered,hij]

/-- The server answers one tester at a time. -/
theorem serve_answered (hs : ∀ i, Phase values s i) (h : serve s = some t) :
    (∀ j, t.answered j = s.answered j) ∨
    ∃ i, t.answered i = s.answered i + 1 ∧ (∀ j ≠ i, t.answered j = s.answered j) ∧
      (values i (s.answered i) ≤ 0 → t.server = .ended) := by
  rcases serve_cases h with ⟨i,v,queue,hserver,hqueue,rfl⟩ | ⟨i,v,hserver,hpos,rfl⟩ |
    ⟨i,v,hserver,-,rfl⟩
  · exact .inl fun j => rfl
  · have hreq : s.requests i = v :: (s.queue.filter (·.1 = i)).map (·.2) := by
      simp [State.requests,Server.request,hserver]
    refine .inr ⟨i,?_,?_,?_⟩
    · simp [State.answered]
      omega
    · intro j hij
      simp [State.answered,hij]
    · intro hle
      rw [← (hs i).answered_eq hreq] at hle
      exact absurd hle (not_le.2 hpos)
  · refine .inr ⟨i,?_,?_,fun _ => rfl⟩
    · simp [State.answered]
      omega
    · intro j hij
      simp [State.answered,hij]

theorem oneLast_invariant (values : ι → ℕ → ℤ) :
    (system values).Invariant fun s => (∀ i, Phase values s i) ∧ OneLast values s where
  start := ⟨(phase_invariant values).start,fun i n hn => absurd hn (Nat.not_lt_zero n)⟩
  step := by
    rintro a s t ⟨hphase,hlast⟩ h
    refine ⟨(phase_invariant values).step hphase h,?_⟩
    cases a with
    | test i =>
      have hsame := test_answered (i := i) h
      intro j n hn hle
      rw [(hsame j).1] at hn
      rcases hlast j n hn hle with ⟨hserver,hend,honly⟩
      refine ⟨(hsame j).2.trans hserver,?_,?_⟩
      · rw [(hsame j).1,hend]
      · intro k m hm
        rw [(hsame k).1] at hm
        exact honly k m hm
    | serve =>
      have hbefore : ∀ j n, n < s.answered j → ¬ values j n ≤ 0 :=
        fun j n hn hle => serve_not_ended h (hlast j n hn hle).1
      intro j n hn hle
      rcases serve_answered hphase h with hsame | ⟨i,hi,hother,hend⟩
      · rw [hsame j] at hn
        exact absurd hle (hbefore j n hn)
      · -- such a value is the one that has been answered now
        have hnew : ∀ k m, m < t.answered k → values k m ≤ 0 → k = i ∧ m = s.answered i := by
          intro k m hm hle
          by_cases hik : k = i
          · subst hik
            rw [hi,Nat.lt_succ_iff_lt_or_eq] at hm
            exact ⟨rfl,hm.resolve_left fun hlt => hbefore k m hlt hle⟩
          · rw [hother k hik] at hm
            exact absurd hle (hbefore k m hm)
        rcases hnew j n hn hle with ⟨rfl,rfl⟩
        exact ⟨hend hle,hi.symm,fun k m hm hle => (hnew k m hm hle).1⟩

/-! Every run -/

theorem Phase.printed_eq (hs : Phase values s i) :
    s.printed i = replies values i (s.printed i).length ∧ s.next i ≤ (s.printed i).length+1 := by
  cases hs with
  | reading htester hprinted hrequests hinbox =>
    rw [hprinted,length_replies]
    exact ⟨rfl,Nat.le_succ _⟩
  | sending n htester hnext hprinted hrequests hinbox
  | pending n htester hnext hprinted hrequests hinbox
  | answered n htester hnext hprinted hrequests hinbox
  | printing n htester hnext hprinted hrequests hinbox
  | lost n htester hnext hprinted hrequests hinbox hserver =>
    rw [hprinted,length_replies,hnext]
    exact ⟨rfl,le_rfl⟩

theorem Phase.answered_le (h : Phase values s i) : s.answered i ≤ s.next i := by
  cases h with
  | reading htester hprinted hrequests hinbox =>
    simp [State.answered,htester,hprinted,hinbox,length_replies,Tester.answer]
  | sending n htester hnext hprinted hrequests hinbox
  | pending n htester hnext hprinted hrequests hinbox
  | answered n htester hnext hprinted hrequests hinbox
  | printing n htester hnext hprinted hrequests hinbox
  | lost n htester hnext hprinted hrequests hinbox hserver =>
    simp [State.answered,htester,hnext,hprinted,hinbox,length_replies,Tester.answer]

/-- Each tester prints the answers to its own values, in their order. A value that is not positive
is the last one to be answered, over all testers. -/
theorem printed_replies (hs : (system values).Reachable s) (i : ι) :
    let k := (s.printed i).length
    s.printed i = replies values i k ∧ k ≤ s.answered i ∧ s.answered i ≤ s.next i ∧
      s.next i ≤ k+1 ∧ ∀ n < s.answered i, values i n ≤ 0 → s.server = .ended ∧
        n+1 = s.answered i ∧ ∀ j m, m < s.answered j → values j m ≤ 0 → j = i := by
  rcases (oneLast_invariant values).reachable hs with ⟨hphase,hlast⟩
  rcases (hphase i).printed_eq with ⟨heq,hle⟩
  have hprinted : (s.printed i).length ≤ s.answered i := by
    rw [State.answered,Nat.add_assoc]
    exact Nat.le_add_right _ _
  exact ⟨heq,hprinted,(hphase i).answered_le,hle,hlast i⟩

/-- The first tester reads 2 and 0, the second one 5. -/
def sampleValues (i : Fin 2) (n : ℕ) : ℤ := if i.val = 0 then 2-2*n else 5

theorem printed_replies_two : ∃ s, (system sampleValues).Reachable s ∧ s.printed 0 = [1,-1] ∧
    s.printed 1 = [4] ∧ s.server = .ended ∧ s.answered 0 = 2 := by
  have hrun : ∃ s, (system sampleValues).Reachable s ∧ (s.printed 0).length = 2 ∧
      (s.printed 1).length = 1 :=
    ⟨_,⟨[.test 0,.test 0,.test 1,.test 1,.serve,.serve,.test 0,.test 0,.test 0,.test 0,.serve,
      .serve,.test 1,.test 1,.serve,.serve,.test 0,.test 0],rfl⟩,rfl,rfl⟩
  rcases hrun with ⟨s,hs,hzero,hone⟩
  rcases printed_replies hs 0 with ⟨hfirst,hle,-,-,hlast⟩
  rcases printed_replies hs 1 with ⟨hsecond,-⟩
  rw [hzero] at hfirst hle
  rw [hone] at hsecond
  rcases hlast 1 hle (by decide) with ⟨hended,hanswered,-⟩
  exact ⟨s,hs,hfirst.trans (by decide),hsecond.trans (by decide),hended,hanswered.symm⟩

/-- Nothing can go on exactly when the server has ended and all testers wait for it. -/
theorem stuck_iff [Nonempty ι] (hs : (system values).Reachable s) :
    (system values).Stuck s ↔ s.server = .ended ∧
      ∀ i, s.tester i = .waiting ∧ s.inbox i = [] ∧ s.next i = (s.printed i).length+1 := by
  have hphase := (phase_invariant values).reachable hs
  constructor
  · intro hstuck
    have htest : ∀ i, s.tester i = .waiting ∧ s.inbox i = [] ∧
        s.next i = (s.printed i).length+1 ∧ (s.requests i ≠ [] ∨ s.server = .ended) := by
      intro i
      have hnone : test values i s = none := hstuck (.test i)
      cases hphase i with
      | reading htester hprinted hrequests hinbox => simp [test,htester] at hnone
      | sending n htester hnext hprinted hrequests hinbox => simp [test,htester] at hnone
      | pending n htester hnext hprinted hrequests hinbox =>
        exact ⟨htester,hinbox,by rw [hnext,hprinted,length_replies],.inl (by simp [hrequests])⟩
      | answered n htester hnext hprinted hrequests hinbox => simp [test,htester,hinbox] at hnone
      | lost n htester hnext hprinted hrequests hinbox hserver =>
        exact ⟨htester,hinbox,by rw [hnext,hprinted,length_replies],.inr hserver⟩
      | printing n htester hnext hprinted hrequests hinbox => simp [test,htester] at hnone
    refine ⟨?_,fun i => ⟨(htest i).1,(htest i).2.1,(htest i).2.2.1⟩⟩
    have hnone : serve s = none := hstuck .serve
    rcases (htest (Classical.arbitrary ι)).2.2.2 with hreq | hserver
    · cases hserver : s.server with
      | waiting =>
        cases hqueue : s.queue with
        | nil => simp [State.requests,Server.request,hserver,hqueue] at hreq
        | cons m queue => simp [serve,hserver,hqueue] at hnone
      | replying j v =>
        rw [serve,hserver] at hnone
        dsimp only at hnone
        split at hnone <;> cases hnone
      | ended => rfl
    · exact hserver
  · rintro ⟨hserver,hall⟩ a
    cases a with
    | serve =>
      change serve s = none
      rw [serve,hserver]
    | test i =>
      change test values i s = none
      rw [test,(hall i).1,(hall i).2.1]

theorem stuck_iff_zero : ∃ s, (system fun (_ : Unit) _ => 0).Reachable s ∧
    s.printed () = [-1] ∧ (system fun (_ : Unit) _ => 0).Stuck s :=
  ⟨_,⟨[.test (),.test (),.serve,.serve,.test (),.test (),.test (),.test ()],rfl⟩,rfl,
    (stuck_iff ⟨[.test (),.test (),.serve,.serve,.test (),.test (),.test (),.test ()],rfl⟩).2
      ⟨rfl,fun _ => ⟨rfl,rfl,rfl⟩⟩⟩

/-- The steps a tester can make when no one answers any more -/
def Tester.left : Tester → ℕ
  | .waiting => 0
  | .sending _ => 1
  | .reading => 2
  | .printing _ => 3

def State.left (s : State ι) (i : ι) : ℕ := (s.tester i).left + 4*(s.inbox i).length

theorem Phase.left_le (hs : Phase values s i) : s.left i ≤ 4 := by
  cases hs <;> simp [State.left,Tester.left, *]

theorem test_left (h : test values i s = some t) :
    t.left i + 1 ≤ s.left i ∧ ∀ j ≠ i, t.left j = s.left j := by
  constructor
  · rcases test_cases h with ⟨htester,rfl⟩ | ⟨v,htester,rfl⟩ | ⟨w,inbox,htester,hinbox,rfl⟩ |
      ⟨w,htester,rfl⟩ <;> simp [State.left,Tester.left, *]
    all_goals omega
  · intro j hij
    rcases test_other h hij with ⟨-,htester,-,-,-,hinbox⟩
    rw [State.left,State.left,htester,hinbox]

/-- When the server has ended, there are four more steps for each tester at most. -/
theorem after_end [Fintype ι] (hs : (system values).Reachable s) (hserver : s.server = .ended)
    {as : List (Action ι)} (h : (system values).run as s = some t) :
    as.length ≤ 4*Fintype.card ι := by
  have hclosed : (system values).Closed fun s => s.server = .ended := by
    constructor
    intro a s t hserver h
    cases a with
    | serve => exact absurd hserver (serve_not_ended h)
    | test i => exact (test_answered h i).2.trans hserver
  have hstep : ∀ {a s t}, s.server = .ended → (system values).step a s = some t →
      ∑ i, t.left i + 1 ≤ ∑ i, s.left i + 0 := by
    intro a s t hserver h
    cases a with
    | serve => exact absurd hserver (serve_not_ended h)
    | test i =>
      rcases test_left h with ⟨hone,hothers⟩
      have hsum := Contributors.add_sum_congr (a := s.left i) (b := t.left i) i hothers
        (Nat.add_comm _ _)
      omega
  have hle := hclosed.run_length_le (fun s => ∑ i, s.left i) (fun _ => 0) hstep hserver h
  have hstart : ∑ i, s.left i ≤ Fintype.card ι • 4 :=
    Finset.sum_le_card_nsmul Finset.univ s.left 4 fun i _ =>
      Phase.left_le ((phase_invariant values).reachable hs i)
  rw [List.map_const',List.sum_replicate,smul_zero] at hle
  rw [smul_eq_mul] at hstart
  omega

theorem after_end_zero : ∃ s, (system fun (_ : Unit) _ => 0).Reachable s ∧
    ∀ as t, (system fun (_ : Unit) _ => 0).run as s = some t → as.length ≤ 4*Fintype.card Unit :=
  ⟨_,⟨[.test (),.test (),.serve,.serve],rfl⟩,
    fun _ _ h => after_end ⟨[.test (),.test (),.serve,.serve],rfl⟩ rfl h⟩

end SignalReplies
end SomeCode
