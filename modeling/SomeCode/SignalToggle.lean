import SomeCode.SignalCounter

/-! `inf13-1.c` adds one to the counter at `SIGUSR1`, changes its sign at `SIGUSR2` and prints it at
both. Each of the two handlers may interrupt the other. -/
namespace SomeCode
namespace SignalToggle

open Transition SignalHandling MachineInt
open SignalCounter (Data line overwrite take_overwrite)

inductive Sig
  | sigusr1 | sigusr2 | sigterm | sigint
  deriving DecidableEq

inductive Frame
  | exit
  | load (signum : Sig)
  | store (signum : Sig) (v : ℤ)
  | format
  | write (size : ℕ)
  | ret

def Sig.usr : Sig → Bool
  | sigusr1 | sigusr2 => true
  | _ => false

/-- What a signal does with the counter -/
def apply (v : ℤ) : Sig → ℤ
  | .sigusr1 => wrap 32 (v+1)
  | .sigusr2 => wrap 32 (v*(-1))
  | _ => v

def enter (signum : Sig) : Frame := if signum.usr then .load signum else .exit

def exec : Frame → Data → Option Frame × Data
  | .exit, d => (some .ret,{ d with chk_exit := 1 })
  | .load signum, d => (some (.store signum d.counter),d)
  | .store signum v, d => (some .format,{ d with counter := apply v signum })
  | .format, d =>
    (some (.write (line d.counter).length),{ d with buffer := overwrite d.buffer (line d.counter) })
  | .write size, d => (some .ret,{ d with out := d.out ++ d.buffer.take size })
  | .ret, d => (none,d)

def program : Program Sig Frame Data where
  enter := enter
  exec := exec
  leave d := d.chk_exit = 1

/-- `main`, once all signals are blocked and `start_num` has been read -/
def inf13_1 (start_num : ℤ) : System (State Sig Frame Data) (Action Sig) :=
  system program ⟨start_num,0,List.replicate 128 0,[]⟩

/-- The signals with a number whose handlers have been entered, in this order -/
def delivered (as : List (Action Sig)) : List Sig :=
  as.filterMap fun
    | .deliver signum => if signum.usr then some signum else none
    | _ => none

def Frame.unstored : Frame → Option Sig
  | .load signum | .store signum _ => some signum
  | _ => none

/-- The handlers that have not changed the counter -/
def unstored (frames : List (Sig × Frame)) : List Sig := frames.filterMap fun f => f.2.unstored

/-- Some of the signals whose handlers have stored make this number, each of them once at most. -/
def MadeOf (start_num : ℤ) (as : List (Action Sig)) (frames : List (Sig × Frame)) (v : ℤ) : Prop :=
  ∃ kept : List Sig, v = kept.foldl apply start_num ∧
    ∀ signum, kept.count signum + (unstored frames).count signum ≤ (delivered as).count signum

structure Kept (start_num : ℤ) (as : List (Action Sig)) (s : State Sig Frame Data) : Prop where
  counter : MadeOf start_num as s.frames s.data.counter
  loaded : ∀ f ∈ s.frames, ∀ signum v, f.2 = .store signum v → MadeOf start_num as s.frames v

variable {start_num : ℤ} {as as' : List (Action Sig)} {s t : State Sig Frame Data}

theorem delivered_append (as : List (Action Sig)) {a : Action Sig}
    (h : ∀ signum, a = .deliver signum → signum.usr = false) :
    delivered (as ++ [a]) = delivered as := by
  cases a with
  | deliver signum => simp [delivered,h signum rfl]
  | send signum => simp [delivered]
  | exec => simp [delivered]

theorem delivered_append_usr (as : List (Action Sig)) {signum : Sig} (h : signum.usr = true) :
    delivered (as ++ [.deliver signum]) = delivered as ++ [signum] := by
  simp [delivered,h]

theorem unstored_cons (signum : Sig) (f : Frame) (rest : List (Sig × Frame)) :
    unstored ((signum,f) :: rest) = f.unstored.toList ++ unstored rest := by
  cases h : f.unstored <;> simp [unstored,h]

/-- What is said of a number stays true while no more handlers have been entered without having
stored. -/
theorem MadeOf.mono {frames frames' : List (Sig × Frame)} {v : ℤ}
    (h : MadeOf start_num as frames v)
    (hcount : ∀ signum, (unstored frames').count signum + (delivered as).count signum ≤
      (unstored frames).count signum + (delivered as').count signum) :
    MadeOf start_num as' frames' v := by
  rcases h with ⟨kept,hv,hle⟩
  refine ⟨kept,hv,?_⟩
  intro signum
  have h1 := hle signum
  have h2 := hcount signum
  omega

theorem Kept.mono (hs : Kept start_num as s) (hcounter : t.data.counter = s.data.counter)
    (hstore : ∀ f ∈ t.frames, ∀ signum v, f.2 = .store signum v →
      (∃ g ∈ s.frames, g.2 = .store signum v) ∨ v = s.data.counter)
    (hcount : ∀ signum, (unstored t.frames).count signum + (delivered as).count signum ≤
      (unstored s.frames).count signum + (delivered as').count signum) :
    Kept start_num as' t := by
  constructor
  · rw [hcounter]
    exact hs.counter.mono hcount
  · intro f hf signum v heq
    rcases hstore f hf signum v heq with ⟨g,hg,hgeq⟩ | rfl
    · exact (hs.loaded g hg signum v hgeq).mono hcount
    · exact hs.counter.mono hcount

/-- The store forgets what other handlers have stored since the number was loaded. -/
theorem Kept.store {signum sig : Sig} {v : ℤ} {rest : List (Sig × Frame)} {main : Main}
    (hs : Kept start_num as s) (hframes : s.frames = (sig,.store signum v) :: rest) {d : Data}
    (hcounter : d.counter = apply v signum) :
    Kept start_num (as ++ [.exec]) ⟨main,s.pending,(sig,.format) :: rest,d⟩ := by
  have hdel : delivered (as ++ [.exec]) = delivered as :=
    delivered_append as fun _ h => by cases h
  have hrest : ∀ x, (unstored s.frames).count x = [signum].count x + (unstored rest).count x := by
    intro x
    rw [hframes,unstored_cons,List.count_append]
    rfl
  have hnew : unstored ((sig,.format) :: rest) = unstored rest := rfl
  constructor
  · rcases hs.loaded (sig,.store signum v) (hframes ▸ List.mem_cons_self) signum v rfl with
      ⟨kept,hv,hle⟩
    refine ⟨kept ++ [signum],?_,?_⟩
    · rw [List.foldl_append,← hv]
      exact hcounter
    · intro x
      have h := hle x
      rw [hrest] at h
      rw [hdel,hnew,List.count_append]
      omega
  · intro f hf x w heq
    have hmem : f ∈ s.frames := by
      rcases List.mem_cons.1 hf with rfl | hf
      · cases heq
      · exact hframes ▸ List.mem_cons_of_mem _ hf
    apply (hs.loaded f hmem x w heq).mono
    intro y
    rw [hdel,hnew,hrest]
    omega

theorem Kept.exec (hs : Kept start_num as s) {sig : Sig} {f : Frame} {rest : List (Sig × Frame)}
    (hframes : s.frames = (sig,f) :: rest) {f' : Option Frame} {d : Data}
    (hexec : SignalToggle.exec f s.data = (f',d)) {main : Main} :
    Kept start_num (as ++ [.exec]) ⟨main,s.pending,f'.toList.map (sig,·) ++ rest,d⟩ := by
  have hdel : delivered (as ++ [.exec]) = delivered as :=
    delivered_append as fun _ h => by cases h
  -- all but `store` leave the counter
  have hkeep : (∀ signum v, f ≠ .store signum v) → Kept start_num (as ++ [.exec])
      ⟨main,s.pending,f'.toList.map (sig,·) ++ rest,d⟩ := by
    intro hne
    have hcounter : d.counter = s.data.counter := by
      cases f <;> cases hexec <;> first | rfl | exact absurd rfl (hne _ _)
    refine hs.mono hcounter ?_ ?_
    · intro g hg signum v heq
      rcases List.mem_append.1 hg with htop | hrest
      · cases f <;> cases hexec <;> simp at htop <;> subst htop <;> simp at heq
        exact .inr heq.2.symm
      · exact .inl ⟨g,hframes ▸ List.mem_cons_of_mem _ hrest,heq⟩
    · intro signum
      rw [hdel,hframes]
      cases f <;> cases hexec <;> simp [unstored,Frame.unstored]
      exact absurd rfl (hne _ _)
  cases f with
  | store signum v =>
    cases hexec
    exact hs.store hframes rfl
  | _ =>
    apply hkeep
    intro signum v h
    cases h

theorem Kept.step (hs : Kept start_num as s) {a : Action Sig}
    (h : (inf13_1 start_num).step a s = some t) : Kept start_num (as ++ [a]) t := by
  rcases step_cases h with ⟨sig,rfl,-,rfl⟩ | ⟨sig,rfl,-,-,-,rfl⟩ | ⟨rfl,-,rfl⟩ |
    ⟨sig,f,rest,f',d,rfl,-,hframes,hexec,rfl⟩ | ⟨sig,f,rest,d,rfl,-,hframes,hexec,rfl⟩
  · refine hs.mono rfl (fun f hf signum v heq => .inl ⟨f,hf,heq⟩) ?_
    intro signum
    rw [delivered_append as fun _ h => by cases h]
  · refine hs.mono rfl ?_ ?_
    · intro f hf signum v heq
      rcases List.mem_cons.1 hf with rfl | hf
      · cases sig <;> cases heq
      · exact .inl ⟨f,hf,heq⟩
    · intro signum
      rw [unstored_cons,List.count_append]
      cases hsig : sig.usr with
      | true =>
        rw [delivered_append_usr as hsig,List.count_append]
        simp [program,enter,hsig,Frame.unstored]
        omega
      | false =>
        rw [delivered_append as fun x hx => by cases hx; exact hsig]
        simp [program,enter,hsig,Frame.unstored]
  · refine hs.mono rfl (fun f hf signum v heq => .inl ⟨f,hf,heq⟩) ?_
    intro signum
    rw [delivered_append as fun _ h => by cases h]
  · exact hs.exec hframes hexec
  · exact hs.exec hframes hexec

theorem count_delivered_le (as : List (Action Sig)) (signum : Sig) :
    (delivered as).count signum ≤ as.count (.deliver signum) := by
  induction as using List.reverseRecOn with
  | nil => exact le_rfl
  | append_singleton as a ih =>
    rw [List.count_append]
    by_cases h : ∀ x, a = .deliver x → x.usr = false
    · rw [delivered_append as h]
      omega
    · rcases not_forall.1 h with ⟨x,hx⟩
      rcases Classical.not_imp.1 hx with ⟨rfl,husr⟩
      rw [delivered_append_usr as (by simpa using husr),List.count_append]
      by_cases heq : x = signum
      · subst heq
        simpa using ih
      · simpa [heq] using ih

/-- In every run, whatever interrupts what, the counter is what some of the signals that have been
sent make of `start_num`: each of them counts once at most. -/
theorem counter_madeOf (h : (inf13_1 start_num).run as (inf13_1 start_num).start = some s) :
    ∃ kept : List Sig, s.data.counter = kept.foldl apply start_num ∧
      ∀ signum, kept.count signum ≤ as.count (.send signum) := by
  have hkept : Kept start_num as s := by
    refine System.run_history (M := inf13_1 start_num) (I := Kept start_num) ?_
      (fun hs hstep => hs.step hstep) h
    constructor
    · exact ⟨[],rfl,fun _ => le_rfl⟩
    · intro f hf
      cases hf
  rcases hkept.counter with ⟨kept,hcounter,hle⟩
  refine ⟨kept,hcounter,?_⟩
  intro signum
  have h1 := hle signum
  have h2 := count_delivered_le as signum
  have h3 := count_deliver_le h signum
  omega

/-- `SIGUSR2` comes while `++counter` is under way, and is forgotten. -/
def lost : List (Action Sig) :=
  [.exec,.send .sigusr1,.send .sigusr2,.deliver .sigusr1,.exec,.deliver .sigusr2,.exec,.exec,.exec,
   .exec,.exec,.exec]

theorem counter_madeOf_lost : ∃ s, (inf13_1 5).run lost (inf13_1 5).start = some s ∧
    s.data.counter = 6 ∧ ∃ kept : List Sig, s.data.counter = kept.foldl apply 5 ∧
      ∀ signum, kept.count signum ≤ lost.count (.send signum) := by
  have hex : ∃ s, (inf13_1 5).run lost (inf13_1 5).start = some s ∧ s.data.counter = 6 :=
    ⟨_,rfl,rfl⟩
  rcases hex with ⟨s,hrun,hcounter⟩
  exact ⟨s,hrun,hcounter,counter_madeOf hrun⟩

/-! Runs without interruptions of the handlers that print -/

def usrFrames (frames : List (Sig × Frame)) : List (Sig × Frame) := frames.filter fun f => f.1.usr

/-- The action does not let one handler that prints interrupt another. -/
def Alone (s : State Sig Frame Data) : Action Sig → Prop
  | .deliver signum => signum.usr = true → usrFrames s.frames = []
  | _ => True

def counters (start_num : ℤ) (signals : List Sig) : List ℤ :=
  (List.range signals.length).map fun i => (signals.take (i+1)).foldl apply start_num

def lines (start_num : ℤ) (signals : List Sig) : List UInt8 := (counters start_num signals).flatMap line

theorem lines_append (start_num : ℤ) (signals : List Sig) (signum : Sig) :
    lines start_num (signals ++ [signum]) =
      lines start_num signals ++ line ((signals ++ [signum]).foldl apply start_num) := by
  have hinit : ∀ i ∈ List.range signals.length,
      ((signals ++ [signum]).take (i+1)).foldl apply start_num =
        (signals.take (i+1)).foldl apply start_num := by
    intro i hi
    rw [List.take_append_of_le_length (List.mem_range.1 hi)]
  have hlast : (signals ++ [signum]).take (signals.length+1) = signals ++ [signum] :=
    List.take_of_length_le (by simp)
  rw [lines,counters,List.length_append,List.length_singleton,List.range_succ,List.map_append,
    List.map_congr_left hinit,List.flatMap_append]
  simp [lines,counters,hlast]

inductive Turn (start_num : ℤ) (as : List (Action Sig)) (s : State Sig Frame Data) : Prop
  | idle (husr : usrFrames s.frames = [])
      (hcounter : s.data.counter = (delivered as).foldl apply start_num)
      (hout : s.data.out = lines start_num (delivered as))
  | before (done : List Sig) (signum : Sig) (f : Frame) (husr : usrFrames s.frames = [(signum,f)])
      (hf : f = .load signum ∨ f = .store signum s.data.counter)
      (hdel : delivered as = done ++ [signum])
      (hcounter : s.data.counter = done.foldl apply start_num)
      (hout : s.data.out = lines start_num done)
  | behind (done : List Sig) (signum : Sig) (f : Frame) (husr : usrFrames s.frames = [(signum,f)])
      (hf : f = .format ∨ ∃ size, f = .write size ∧ s.data.buffer.take size = line s.data.counter)
      (hdel : delivered as = done ++ [signum])
      (hcounter : s.data.counter = (done ++ [signum]).foldl apply start_num)
      (hout : s.data.out = lines start_num done)
  | written (signum : Sig) (husr : usrFrames s.frames = [(signum,.ret)])
      (hcounter : s.data.counter = (delivered as).foldl apply start_num)
      (hout : s.data.out = lines start_num (delivered as))

def Plain (s : State Sig Frame Data) : Prop :=
  ∀ f ∈ s.frames, f.1.usr = false → f.2 = .exit ∨ f.2 = .ret

theorem Turn.mono (hs : Turn start_num as s) (husr : usrFrames t.frames = usrFrames s.frames)
    (hdel : delivered as' = delivered as) (hcounter : t.data.counter = s.data.counter)
    (hbuffer : t.data.buffer = s.data.buffer) (hout : t.data.out = s.data.out) :
    Turn start_num as' t := by
  cases hs with
  | idle h1 h2 h3 => exact .idle (husr.trans h1) (by rw [hcounter,hdel,h2]) (by rw [hout,hdel,h3])
  | before done signum f h1 hf hd h2 h3 =>
    exact .before done signum f (husr.trans h1) (hcounter ▸ hf) (hdel.trans hd) (hcounter.trans h2)
      (hout.trans h3)
  | behind done signum f h1 hf hd h2 h3 =>
    exact .behind done signum f (husr.trans h1) (hcounter ▸ hbuffer ▸ hf) (hdel.trans hd)
      (hcounter.trans h2) (hout.trans h3)
  | written signum h1 h2 h3 =>
    exact .written signum (husr.trans h1) (by rw [hcounter,hdel,h2]) (by rw [hout,hdel,h3])

theorem Plain.step (hs : Plain s) {a : Action Sig} (h : (inf13_1 start_num).step a s = some t) :
    Plain t := by
  rcases step_cases h with ⟨sig,-,-,rfl⟩ | ⟨sig,-,-,-,-,rfl⟩ | ⟨-,-,rfl⟩ |
    ⟨sig,f,rest,f',d,-,-,hframes,hexec,rfl⟩ | ⟨sig,f,rest,d,-,-,hframes,hexec,rfl⟩
  · exact hs
  · intro g hg husr
    rcases List.mem_cons.1 hg with rfl | hg
    · simp only [program,enter] at husr ⊢
      rw [husr]
      exact .inl rfl
    · exact hs g hg husr
  · exact hs
  · intro g hg husr
    rcases List.mem_cons.1 hg with rfl | hg
    · rcases hs (sig,f) (hframes ▸ List.mem_cons_self) husr with rfl | rfl
      · cases hexec
        exact .inr rfl
      · cases hexec
    · exact hs g (hframes ▸ List.mem_cons_of_mem _ hg) husr
  · exact fun g hg => hs g (hframes ▸ List.mem_cons_of_mem _ hg)

theorem usrFrames_cons {sig : Sig} (h : sig.usr = true) (f : Frame) (rest : List (Sig × Frame)) :
    usrFrames ((sig,f) :: rest) = (sig,f) :: usrFrames rest := by
  simp [usrFrames,h]

theorem usrFrames_cons_of_not {sig : Sig} (h : sig.usr = false) (f : Frame)
    (rest : List (Sig × Frame)) : usrFrames ((sig,f) :: rest) = usrFrames rest := by
  simp [usrFrames,h]

theorem Turn.exec (hs : Turn start_num as s) (hplain : Plain s) {sig : Sig} {f : Frame}
    {rest : List (Sig × Frame)} (hframes : s.frames = (sig,f) :: rest) {f' : Option Frame} {d : Data}
    (hexec : SignalToggle.exec f s.data = (f',d)) {main : Main} :
    Turn start_num (as ++ [.exec]) ⟨main,s.pending,f'.toList.map (sig,·) ++ rest,d⟩ := by
  have hdel' : delivered (as ++ [.exec]) = delivered as :=
    delivered_append as fun _ h => by cases h
  cases hsig : sig.usr with
  | false =>
    -- the handler of another signal
    have hsame : ∀ g, usrFrames ((sig,g) :: rest) = usrFrames s.frames := by
      intro g
      rw [hframes,usrFrames_cons_of_not hsig,usrFrames_cons_of_not hsig]
    have hrest : usrFrames rest = usrFrames s.frames := by
      rw [hframes,usrFrames_cons_of_not hsig]
    rcases hplain (sig,f) (hframes ▸ List.mem_cons_self) hsig with rfl | rfl
    · cases hexec
      exact hs.mono (hsame _) hdel' rfl rfl rfl
    · cases hexec
      exact hs.mono hrest hdel' rfl rfl rfl
  | true =>
    have hall := usrFrames_cons hsig f rest
    rw [← hframes] at hall
    cases hs with
    | idle husr hcounter hout =>
      rw [hall] at husr
      cases husr
    | before done signum g husr hf hdel hcounter hout =>
      rw [hall,List.cons.injEq,Prod.mk.injEq] at husr
      rcases husr with ⟨⟨rfl,rfl⟩,hnil⟩
      rcases hf with rfl | rfl
      · cases hexec
        refine .before done sig _ ?_ (.inr rfl) (hdel'.trans hdel) hcounter hout
        simp [usrFrames_cons hsig,hnil]
      · cases hexec
        refine .behind done sig _ ?_ (.inl rfl) (hdel'.trans hdel) ?_ hout
        · simp [usrFrames_cons hsig,hnil]
        · simp [hcounter]
    | behind done signum g husr hf hdel hcounter hout =>
      rw [hall,List.cons.injEq,Prod.mk.injEq] at husr
      rcases husr with ⟨⟨rfl,rfl⟩,hnil⟩
      rcases hf with rfl | ⟨size,rfl,hbuffer⟩
      · cases hexec
        refine .behind done sig (.write (line s.data.counter).length) ?_
          (.inr ⟨(line s.data.counter).length,rfl,take_overwrite ..⟩) (hdel'.trans hdel) hcounter hout
        simp [usrFrames_cons hsig,hnil]
      · cases hexec
        refine .written sig ?_ ?_ ?_
        · simp [usrFrames_cons hsig,hnil]
        · rw [hdel',hdel]
          exact hcounter
        · rw [hdel',hdel,lines_append,← hcounter,← hbuffer,← hout]
    | written signum husr hcounter hout =>
      rw [hall,List.cons.injEq,Prod.mk.injEq] at husr
      rcases husr with ⟨⟨rfl,rfl⟩,hnil⟩
      cases hexec
      exact .idle (by simpa using hnil) (hdel' ▸ hcounter) (hdel' ▸ hout)

theorem Turn.step (hs : Turn start_num as s) (hplain : Plain s) {a : Action Sig} (halone : Alone s a)
    (h : (inf13_1 start_num).step a s = some t) : Turn start_num (as ++ [a]) t := by
  rcases step_cases h with ⟨sig,rfl,-,rfl⟩ | ⟨sig,rfl,-,-,-,rfl⟩ | ⟨rfl,-,rfl⟩ |
    ⟨sig,f,rest,f',d,rfl,-,hframes,hexec,rfl⟩ | ⟨sig,f,rest,d,rfl,-,hframes,hexec,rfl⟩
  · exact hs.mono rfl (delivered_append as fun _ h => by cases h) rfl rfl rfl
  · cases hsig : sig.usr with
    | true =>
      have hnil := halone hsig
      have hone : usrFrames ((sig,program.enter sig) :: s.frames) = [(sig,.load sig)] := by
        rw [usrFrames_cons hsig,hnil]
        simp [program,enter,hsig]
      cases hs with
      | idle husr hcounter hout =>
        exact .before (delivered as) sig (.load sig) hone (.inl rfl) (delivered_append_usr as hsig)
          hcounter hout
      | before done signum f husr => exact absurd (hnil.symm.trans husr) (List.cons_ne_nil _ _).symm
      | behind done signum f husr => exact absurd (hnil.symm.trans husr) (List.cons_ne_nil _ _).symm
      | written signum husr => exact absurd (hnil.symm.trans husr) (List.cons_ne_nil _ _).symm
    | false =>
      refine hs.mono (usrFrames_cons_of_not hsig _ _) (delivered_append as ?_) rfl rfl rfl
      intro x hx
      cases hx
      exact hsig
  · exact hs.mono rfl (delivered_append as fun _ h => by cases h) rfl rfl rfl
  · exact hs.exec hplain hframes hexec
  · exact hs.exec hplain hframes hexec

instance (s : State Sig Frame Data) : (a : Action Sig) → Decidable (Alone s a)
  | .deliver signum => inferInstanceAs (Decidable (signum.usr = true → usrFrames s.frames = []))
  | .send _ => .isTrue trivial
  | .exec => .isTrue trivial

/-- Where no handler that prints interrupts another, each signal that is delivered has its effect,
and the counter is printed behind each of them. -/
theorem uninterrupted (h : ((inf13_1 start_num).restrict Alone).run as (inf13_1 start_num).start =
    some s) (husr : usrFrames s.frames = []) :
    s.data.counter = (delivered as).foldl apply start_num ∧
      s.data.out = lines start_num (delivered as) := by
  have hturn : Plain s ∧ Turn start_num as s := by
    refine System.run_history (M := (inf13_1 start_num).restrict Alone)
      (I := fun as s => Plain s ∧ Turn start_num as s) ?_ ?_ h
    · refine ⟨?_,.idle rfl rfl rfl⟩
      intro f hf
      cases hf
    · rintro as a s t ⟨hplain,hturn⟩ hstep
      rcases System.restrict_step_eq_some.1 hstep with ⟨halone,hstep⟩
      exact ⟨hplain.step hstep,hturn.step hplain halone hstep⟩
  cases hturn.2 with
  | idle _ hcounter hout => exact ⟨hcounter,hout⟩
  | before done signum f hone => exact absurd (husr.symm.trans hone) (List.cons_ne_nil _ _).symm
  | behind done signum f hone => exact absurd (husr.symm.trans hone) (List.cons_ne_nil _ _).symm
  | written signum hone => exact absurd (husr.symm.trans hone) (List.cons_ne_nil _ _).symm

/-- The handler of the last one of three signals is interrupted by that of a `SIGINT`. -/
def aloneRun : List (Action Sig) :=
  [[.exec,.send .sigusr2,.deliver .sigusr2],List.replicate 6 .exec,
    [.send .sigusr1,.deliver .sigusr1],List.replicate 6 .exec,
    [.send .sigusr2,.deliver .sigusr2,.exec,.exec,.send .sigint,.deliver .sigint],
    List.replicate 6 .exec].flatten

theorem uninterrupted_three : ∃ s, ((inf13_1 5).restrict Alone).run aloneRun (inf13_1 5).start =
    some s ∧ s.main = .ended ∧ s.data.counter = 4 ∧
    s.data.out = lines 5 [.sigusr2,.sigusr1,.sigusr2] := by
  have hex : ∃ s, ((inf13_1 5).restrict Alone).run aloneRun (inf13_1 5).start = some s ∧
      s.main = .ended ∧ usrFrames s.frames = [] := ⟨_,rfl,rfl,rfl⟩
  rcases hex with ⟨s,hrun,hmain,husr⟩
  rcases uninterrupted hrun husr with ⟨hcounter,hout⟩
  exact ⟨s,hrun,hmain,hcounter.trans (by decide),hout⟩

end SignalToggle
end SomeCode
