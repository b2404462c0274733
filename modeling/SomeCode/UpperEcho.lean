import SomeCode.UpperServer

/-! What one client of the server of `inf17-1.c` gets back. The descriptor does not block, and
`read_and_write` ends the connection at the first `read` that finds nothing, whether the client
has closed its end or is about to send more. -/
namespace SomeCode
namespace UpperServer

open Transition

variable {C : Type} [DecidableEq C]

def Pc.serving : Pc C → Option C
  | .read c _ | .write c _ _ | .shutdown c _ | .close c _ => some c
  | _ => none

def Pc.buffered (c : C) : Pc C → List UInt8
  | .write d buf _ => if d = c then buf else []
  | _ => []

def Pc.closing (c : C) : Pc C → Bool
  | .shutdown d _ | .close d _ => d = c
  | _ => false

/-- Client `c` has connected, and the server has not closed the connection. -/
def Live (c : C) (s : State C) : Prop :=
  (s.conn c).status ≠ .absent ∧ (s.conn c).status ≠ .closed

instance (c : C) (s : State C) : Decidable (Live c s) := inferInstanceAs (Decidable (_ ∧ _))

/-- The server has closed the connection of client `c`, or the process has ended with it. -/
def Over (c : C) (s : State C) : Prop :=
  (s.conn c).status = .closed ∨ s.ended = true ∧ Live c s

/-- Client `c` has not closed its end with bytes left to send. -/
def Patient (c : C) (s : State C) : Prop := (s.conn c).hungUp = true → (s.conn c).toSend = []

/-- The server sends back the data of client `c` in upper case and nothing else; what has been
sent and not been answered yet is reported by `epoll`. -/
structure Answered (data : C → List UInt8) (c : C) (s : State C) : Prop where
  sofar : (s.conn c).echo <+: upper (data c)
  whole : Over c s → Patient c s → (s.conn c).echo = upper (data c)
  idle : s.pc = .wait → Live c s → s.ready .listen = true ∨ s.ready (.conn c) = true ∨
    (s.conn c).echo ++ upper (s.conn c).toSend = upper (data c)

/-- A `read` for client `c` fails only when all its data has been read, every `write` for it is
complete, its connection is added to `epoll`, and the server is not ended while it is open. -/
def Prompt (c : C) (s : State C) : Action C → Prop
  | .readFails _ => s.pc.serving = some c → (s.conn c).inbox = [] ∧ (s.conn c).toSend = []
  | .write k => s.pc.serving = some c → (s.pc.buffered c).length ≤ k
  | .writeFails _ => s.pc.serving ≠ some c
  | .accept failed => s.queue.head? = some c → failed = none
  | .sigpipe => ¬ Live c s
  | .call => s.pc.head? = some .stop → s.errno ≠ EAGAIN → ¬ Live c s
  | _ => True

instance (c : C) (s : State C) : (a : Action C) → Decidable (Prompt c s a)
  | .readFails _ => inferInstanceAs (Decidable (_ → _ ∧ _))
  | .write _ => inferInstanceAs (Decidable (_ → _))
  | .writeFails _ => inferInstanceAs (Decidable (_ ≠ _))
  | .accept _ => inferInstanceAs (Decidable (_ → _))
  | .sigpipe => inferInstanceAs (Decidable (¬ _))
  | .call => inferInstanceAs (Decidable (_ → _ → ¬ _))
  | .poll _ | .timeout | .interrupted | .acceptFails | .read _ | .readEnd | .shutdown _ | .close _
  | .connect _ | .send _ _ | .hangUp _ | .sigterm => inferInstanceAs (Decidable True)

/-- Every byte of client `c` is in one place: answered, in the buffer, unread or to be sent. -/
structure Kept (data : C → List UInt8) (c : C) (s : State C) : Prop where
  bytes : (s.conn c).echo ++ s.pc.buffered c ++ upper ((s.conn c).inbox ++ (s.conn c).toSend) =
    upper (data c)
  finished : (s.conn c).status = .closed ∨ s.pc.closing c = true →
    (s.conn c).inbox = [] ∧ ((s.conn c).hungUp = true ∨ (s.conn c).toSend = [])
  added : (s.conn c).status ≠ .accepted
  left : s.stopChecker = 0 ∨ s.ended = true → ¬ Live c s

section Kept

variable {data : C → List UInt8} {c : C} {s t : State C} {a : Action C} {capacity : ℕ}

omit [DecidableEq C] in
theorem Live.of_conn (h : t.conn c = s.conn c) (hl : Live c t) : Live c s := by
  simpa only [Live,h] using hl

theorem upper_take_append (k : ℕ) (l r : List UInt8) :
    upper (l.take k) ++ (upper (l.drop k) ++ r) = upper l ++ r := by
  rw [← List.append_assoc,← upper_append,List.take_append_drop]

theorem Sound.live (hs : Sound s) (hc : s.pc.serving = some c) : Live c s := by
  have hmem : .conn c ∈ s.pc.todo := by
    cases hpc : s.pc <;> simp_all [Pc.serving,Pc.todo]
  simp [Live,hs.polled c hmem]

theorem Kept.frame (hk : Kept data c s) (hc : t.conn c = s.conn c)
    (hb : t.pc.buffered c = s.pc.buffered c) (hcl : t.pc.closing c = s.pc.closing c)
    (hleft : t.stopChecker = 0 ∨ t.ended = true → ¬ Live c s) : Kept data c t where
  bytes := by rw [hc,hb]; exact hk.bytes
  finished := by rw [hc,hcl]; exact hk.finished
  added := by rw [hc]; exact hk.added
  left h hl := hleft h (hl.of_conn hc)

theorem readAndWrite_other (h : readAndWrite a s = some t)
    (hc : s.pc.serving ≠ some c) : t.conn c = s.conn c ∧
      t.pc.buffered c = s.pc.buffered c ∧ t.pc.closing c = s.pc.closing c := by
  cases serves_of_readAndWrite h with
  | read hpc | readEnd hpc | readFails hpc | write hpc | writeFails hpc | sigpipe hpc
  | shutdown hpc | close hpc =>
    simp only [hpc,Pc.serving,ne_eq,Option.some.injEq] at hc
    simp [hpc,hc,Pc.buffered,Pc.closing,Function.update_of_ne (Ne.symm hc)]

theorem readAndWrite_left (h : readAndWrite a s = some t) :
    t.stopChecker = s.stopChecker ∧ (t.ended = true → a = .sigpipe) := by
  cases serves_of_readAndWrite h <;> simp [State.ended]

theorem Kept.readAndWrite (hk : Kept data c s) (hs : Sound s) (hp : Prompt c s a)
    (h : readAndWrite a s = some t) : Kept data c t := by
  obtain ⟨hchecker,hended⟩ := readAndWrite_left h
  have hleft : t.stopChecker = 0 ∨ t.ended = true → ¬ Live c s := by
    rintro (h0 | ht)
    · exact hk.left (.inl (hchecker ▸ h0))
    · cases hended ht
      exact hp
  by_cases hc : s.pc.serving = some c
  · have hlive := hs.live hc
    have hleft' : t.stopChecker = 0 ∨ t.ended = true → ¬ Live c t :=
      fun h => absurd hlive (hleft h)
    obtain ⟨hbytes,hfinished,hadded,-⟩ := hk
    cases serves_of_readAndWrite h with
    | read hpc | readEnd hpc | readFails hpc | write hpc | writeFails hpc | sigpipe hpc
    | shutdown hpc | close hpc =>
      simp only [hpc,Pc.serving,Option.some.injEq] at hc
      subst hc
      refine ⟨?_,?_,?_,hleft'⟩
      all_goals simp_all [Pc.buffered,Pc.closing,Prompt,Pc.serving,upper_take_append,
        List.take_of_length_le]
  · obtain ⟨h1,h2,h3⟩ := readAndWrite_other h hc
    exact hk.frame h1 h2 h3 hleft

theorem Sound.queued_of_head (hs : Sound s) {queue : List C} (h : s.queue = c :: queue) :
    (s.conn c).status = .queued := by
  have hcount := hs.queued c
  rw [h,List.count_cons_self] at hcount
  split at hcount
  · assumption
  · omega

/-- `accept` makes the connection at the head of the queue one that `epoll` watches. -/
theorem Kept.accept {d : C} {queue : List C} {rest : List (Event C)} {failed : Option Errno}
    {e : Errno} (hk : Kept data c s) (hs : Sound s) (hp : s.queue.head? = some c → failed = none)
    (hpc : s.pc = .accept rest) (hqueue : s.queue = d :: queue) :
    Kept data c { s.setConn d { s.conn d with
        status := if failed.isNone then .polled else .accepted } with
      pc := .batch rest, queue := queue, errno := e } := by
  by_cases hd : d = c
  · subst hd
    have hlive : Live d s := by simp [Live,hs.queued_of_head hqueue]
    obtain ⟨hbytes,hfinished,hadded,hleft⟩ := hk
    refine ⟨?_,?_,?_,fun h => absurd hlive (hleft ?_)⟩
    · simp_all [Pc.buffered]
    · simp [hp (by simp [hqueue]),Pc.closing]
    · simp [hp (by simp [hqueue])]
    · simpa [State.ended,hpc] using h
  · refine hk.frame (by simp [Ne.symm hd]) ?_ ?_ fun h => hk.left ?_
    · simp [hpc,Pc.buffered]
    · simp [hpc,Pc.closing]
    · simpa [State.ended,hpc] using h

theorem Kept.serverMain (hk : Kept data c s) (hs : Sound s) (hp : Prompt c s a)
    (h : serverMain a s = some t) : Kept data c t := by
  unfold UpperServer.serverMain at h
  split at h
  case h_1 hpc =>
    cases h
    by_cases h0 : s.stopChecker = 0
    · exact hk.frame rfl (by simp [hpc,h0,Pc.buffered]) (by simp [hpc,h0,Pc.closing]) fun _ =>
        hk.left (.inl h0)
    · refine hk.frame rfl (by simp [hpc,h0,Pc.buffered]) (by simp [hpc,h0,Pc.closing]) fun h => ?_
      simp [h0,State.ended] at h
  case h_2 hpc =>
    simp only [Option.ite_none_right_eq_some,Option.some.injEq] at h
    obtain ⟨-,rfl⟩ := h
    refine hk.frame rfl (by simp [hpc,Pc.buffered]) (by simp [hpc,Pc.closing]) fun h => hk.left ?_
    simpa [State.ended,hpc] using h
  case h_6 hpc =>
    split at h
    · cases h
      refine hk.frame rfl (by simp [hpc,Pc.buffered]) (by simp [hpc,Pc.closing]) fun h => hk.left ?_
      simpa [State.ended,hpc] using h
    · cases h
      exact hk.frame rfl (by simp [hpc,Pc.buffered]) (by simp [hpc,Pc.closing]) fun _ =>
        hp (by rw [hpc]; rfl) ‹_›
  case h_9 hpc =>
    split at h
    · cases h
    · cases h
      exact hk.accept hs hp hpc ‹_›
  all_goals cases h
  all_goals
    rename_i hpc
    refine hk.frame rfl (by simp [hpc,Pc.buffered]) (by simp [hpc,Pc.closing]) fun h => hk.left ?_
    simpa [State.ended,hpc] using h

theorem Kept.client {d : C} (hk : Kept data c s) (h : client d a s = some t) : Kept data c t := by
  by_cases hd : d = c
  · subst hd
    obtain ⟨hbytes,hfinished,hadded,hleft⟩ := hk
    unfold UpperServer.client at h
    split at h
    case h_1 =>
      simp only [Option.ite_none_right_eq_some,Option.some.injEq] at h
      obtain ⟨⟨habsent,hchecker,hended⟩,rfl⟩ := h
      refine ⟨by simpa using hbytes,by simp_all,by simp,?_⟩
      rintro (h0 | h1)
      · exact absurd h0 hchecker
      · exact absurd (hended.symm.trans h1) Bool.false_ne_true
    case h_4 => cases h
    all_goals
      simp only [Option.ite_none_right_eq_some,Option.some.injEq] at h
      obtain ⟨hg,rfl⟩ := h
      refine ⟨by simp_all,by simp_all,by simpa using hadded,fun h hl => hleft h ?_⟩
      simpa [Live] using hl
  · unfold UpperServer.client at h
    split at h
    case h_4 => cases h
    all_goals
      simp only [Option.ite_none_right_eq_some,Option.some.injEq] at h
      obtain ⟨-,rfl⟩ := h
      exact hk.frame (by simp [Ne.symm hd]) rfl rfl hk.left

theorem Kept.stopSignalHandler (hk : Kept data c s) : Kept data c (stopSignalHandler capacity s) := by
  unfold UpperServer.stopSignalHandler
  split
  all_goals exact hk.frame rfl rfl rfl hk.left

theorem kept_invariant (capacity : ℕ) (data : C → List UInt8) (c : C) :
    ((system capacity data).restrict (Prompt c)).Invariant fun s => Sound s ∧ Kept data c s where
  start := by
    refine ⟨(sound_invariant capacity data).start,?_,?_,?_,?_⟩
    all_goals simp [System.restrict,system,init,Pc.buffered,Pc.closing,Live]
  step {a s t} hi h := by
    obtain ⟨hs,hk⟩ := hi
    obtain ⟨hp,h⟩ := System.restrict_step_eq_some.mp h
    refine ⟨(sound_invariant capacity data).step hs h,?_⟩
    simp only [system,step] at h
    split at h
    · exact hk.client h
    · exact hk.client h
    · exact hk.client h
    · split at h
      · cases h
      · cases h
        exact hk.stopSignalHandler
    all_goals first
      | exact hk.serverMain hs hp h
      | exact hk.readAndWrite hs hp h

theorem Sound.buffered_of_not_live (hs : Sound s) (h : ¬ Live c s) : s.pc.buffered c = [] := by
  cases hpc : s.pc with
  | write d buf rest =>
    have hd : d ≠ c := fun hd => h (hs.live (by rw [hpc,hd]; rfl))
    exact if_neg hd
  | _ => rfl

theorem Kept.answered (hk : Kept data c s) (hs : Sound s) : Answered data c s where
  sofar := by
    rw [← hk.bytes,List.append_assoc]
    exact List.prefix_append _ _
  whole ho hpat := by
    rcases ho with hclosed | ⟨hended,hlive⟩
    · have hbytes := hk.bytes
      obtain ⟨hinbox,hend⟩ := hk.finished (.inl hclosed)
      have hsend : (s.conn c).toSend = [] := hend.elim hpat id
      have hbuf : s.pc.buffered c = [] := hs.buffered_of_not_live (by simp [Live,hclosed])
      simpa [hinbox,hsend,hbuf] using hbytes
    · exact absurd hlive (hk.left (.inr hended))
  idle hpc hl := by
    have hbytes := hk.bytes
    have hqueued := hs.queued c
    cases hst : (s.conn c).status with
    | absent => exact absurd hst hl.1
    | closed => exact absurd hst hl.2
    | accepted => exact absurd hst hk.added
    | queued =>
      left
      have hne : s.queue ≠ [] := by
        intro he
        simp [he,hst] at hqueued
      simpa [State.ready] using hne
    | polled =>
      right
      by_cases hinbox : (s.conn c).inbox = []
      · right
        simpa [hpc,hinbox,Pc.buffered] using hbytes
      · left
        simp [State.ready,hst,hinbox]

end Kept

/-- For every client, every run whose steps are prompt for it answers it. -/
theorem answers_when_prompt (capacity : ℕ) (data : C → List UInt8) (c : C) (s : State C)
    (h : ((system capacity data).restrict (Prompt c)).Reachable s) : Answered data c s := by
  obtain ⟨hs,hk⟩ := (kept_invariant capacity data c).reachable h
  exact hk.answered hs

/-- A client that sends its two bytes at once is answered. -/
theorem answers_two_bytes : Answered (fun _ => [97,98]) () (⟨.batch [],fun _ =>
    ⟨[],[],false,.closed,[65,66]⟩,[],1,EAGAIN,0,false⟩ : State Unit) :=
  answers_when_prompt 65536 (fun _ => [97,98]) () _
    ⟨[.call,.connect (),.poll [.listen],.call,.accept none,.call,.call,.send () 2,.poll [.conn ()],
      .call,.read 2,.write 2,.readFails EAGAIN,.shutdown none,.close none],rfl⟩

/-- The client pauses after its first byte, and the server closes the connection. -/
theorem closed_at_pause : ∃ s, (system 65536 fun _ : Unit => [97,98]).Reachable s ∧
    (s.conn ()).status = .closed ∧ (s.conn ()).hungUp = false ∧ (s.conn ()).toSend = [98] ∧
    (s.conn ()).echo = [65] ∧ ¬ Answered (fun _ => [97,98]) () s := by
  refine ⟨_,⟨[.call,.connect (),.poll [.listen],.call,.accept none,.call,.call,.send () 1,
    .poll [.conn ()],.call,.read 1,.write 1,.readFails EAGAIN,.shutdown none,.close none],rfl⟩,
    rfl,rfl,rfl,rfl,fun h => ?_⟩
  exact absurd (h.whole (.inl rfl) nofun) (by decide)

end UpperServer
end SomeCode
