import SomeCode.SignalHandling
import SomeCode.MachineInt
import SomeCode.Decimal

/-! `inf13-0.c` counts the `SIGINT`s and prints the counter at `SIGTERM`. The handler of one may be
interrupted by that of the other: before `++counter` stores what it has loaded, and between
`snprintf` and `write`. -/
namespace SomeCode
namespace SignalCounter

open Transition SignalHandling MachineInt

inductive Sig
  | sigint | sigterm
  deriving DecidableEq

structure Data where
  counter : ℤ
  chk_exit : ℤ
  buffer : List UInt8
  out : List UInt8

inductive Frame
  | load
  | store (v : ℤ)
  | exit
  | format
  | write (size : ℕ)
  | ret

def line (v : ℤ) : List UInt8 := Decimal.intText v ++ [10]

def lines (ns : List ℕ) : List UInt8 := ns.flatMap fun n : ℕ => line (wrap 32 n)

/-- The buffer behind `snprintf` -/
def overwrite (buffer text : List UInt8) : List UInt8 :=
  text ++ 0 :: buffer.drop (text.length+1)

def exec : Frame → Data → Option Frame × Data
  | .load, d => (some (.store d.counter),d)
  | .store v, d => (some .ret,{ d with counter := wrap 32 (v+1) })
  | .exit, d => (some .format,{ d with chk_exit := 1 })
  | .format, d =>
    (some (.write (line d.counter).length),{ d with buffer := overwrite d.buffer (line d.counter) })
  | .write size, d => (some .ret,{ d with out := d.out ++ d.buffer.take size })
  | .ret, d => (none,d)

def enter : Sig → Frame
  | .sigint => .load
  | .sigterm => .exit

def program : Program Sig Frame Data where
  enter := enter
  exec := exec
  leave d := d.chk_exit = 1

/-- `main`, once all signals are blocked -/
def inf13_0 : System (State Sig Frame Data) (Action Sig) :=
  system program ⟨0,0,List.replicate 128 0,[]⟩

def Frame.unstored : Frame → Bool
  | .load | .store _ => true
  | _ => false

def Frame.unwritten : Frame → Bool
  | .format | .write _ => true
  | _ => false

def Frame.isStore : Frame → Bool
  | .store _ => true
  | _ => false

/-- How many `SIGINT`s have been counted when each of the `snprintf`s is called, with `k` of them
before -/
def atFormats (k : ℕ) : List Frame → List ℕ
  | [] => []
  | .format :: fs => k :: atFormats k fs
  | .store _ :: fs => atFormats (k+1) fs
  | _ :: fs => atFormats k fs

theorem atFormats_append (k : ℕ) (fs gs : List Frame) :
    atFormats k (fs ++ gs) = atFormats k fs ++ atFormats (k + fs.countP Frame.isStore) gs := by
  induction fs generalizing k with
  | nil => rfl
  | cons f fs ih =>
    cases f <;> simp [atFormats,ih,List.countP_cons,Frame.isStore,Nat.add_assoc,Nat.add_comm 1]

theorem atFormats_sorted (k : ℕ) (fs : List Frame) : (atFormats k fs).Pairwise (· ≤ ·) ∧
    ∀ n ∈ atFormats k fs, k ≤ n ∧ n ≤ k + fs.countP Frame.isStore := by
  induction fs generalizing k with
  | nil => exact ⟨List.Pairwise.nil,fun n hn => absurd hn List.not_mem_nil⟩
  | cons f fs ih =>
    cases f with
    | format =>
      rcases ih k with ⟨hsorted,hbound⟩
      simp only [atFormats,List.countP_cons_of_neg (p := Frame.isStore) (a := .format) (by decide)]
      refine ⟨List.pairwise_cons.2 ⟨fun n hn => (hbound n hn).1,hsorted⟩,fun n hn => ?_⟩
      rcases List.mem_cons.1 hn with rfl | hn
      · exact ⟨le_rfl,Nat.le_add_right _ _⟩
      · exact hbound n hn
    | store v =>
      rcases ih (k+1) with ⟨hsorted,hbound⟩
      refine ⟨hsorted,fun n hn => ?_⟩
      have hn' := hbound n hn
      rw [List.countP_cons_of_pos rfl]
      omega
    | load => simpa [atFormats,Frame.isStore] using ih k
    | exit => simpa [atFormats,Frame.isStore] using ih k
    | write size => simpa [atFormats,Frame.isStore] using ih k
    | ret => simpa [atFormats,Frame.isStore] using ih k

/-- What a handler on the stack relies on, when `all` have been formatted, and `ns` printed -/
inductive Sound (all ns : List ℕ) (d : Data) : Sig → Frame → Prop
  | load : Sound all ns d .sigint .load
  | store (v : ℤ) (hv : v = d.counter) : Sound all ns d .sigint (.store v)
  | exit (hall : all = ns) : Sound all ns d .sigterm .exit
  | format (hall : all = ns) : Sound all ns d .sigterm .format
  | write (size n : ℕ) (hall : all = ns ++ [n])
      (hbuffer : d.buffer.take size = line (wrap 32 n)) : Sound all ns d .sigterm (.write size)
  | ret (sig : Sig) (hall : sig = .sigterm → all = ns) : Sound all ns d sig .ret

/-- The counter counts the handlers of `SIGINT` that have stored; `fs` has been executed. -/
structure Counts (fs : List Frame) (ns : List ℕ) (as : List (Action Sig)) (s : State Sig Frame Data) :
    Prop where
  delivered : fs.countP Frame.isStore + s.frames.countP (fun f => f.2.unstored) =
    as.count (.deliver .sigint)
  counter : s.data.counter = wrap 32 (fs.countP Frame.isStore)
  out : s.data.out = lines ns
  sound : ∀ f ∈ s.frames, Sound (atFormats 0 fs) ns s.data f.1 f.2
  alone : (∀ f ∈ s.frames, f.1 ≠ .sigterm) → atFormats 0 fs = ns
  printed : s.data.chk_exit = 1 → ns ≠ [] ∨ ∃ f ∈ s.frames, f.2.unwritten

variable {fs : List Frame} {all ns : List ℕ} {as : List (Action Sig)} {s t : State Sig Frame Data}
  {d : Data}

theorem take_overwrite (buffer text : List UInt8) :
    (overwrite buffer text).take text.length = text := by
  rw [overwrite,List.take_left]

/-- The handler of `SIGINT` relies on the counter only, and that of `SIGTERM` on the buffer and on
what has been printed. -/
theorem Sound.other {sig : Sig} {f : Frame} (hs : Sound all ns d sig f) {all' ns' : List ℕ}
    {d' : Data} (hcounter : sig = .sigint → d'.counter = d.counter)
    (hbuffer : sig = .sigterm → d'.buffer = d.buffer ∧ all' = all ∧ ns' = ns) :
    Sound all' ns' d' sig f := by
  cases hs with
  | load => exact .load
  | store v hv => exact .store v (hv.trans (hcounter rfl).symm)
  | exit hall =>
    rcases hbuffer rfl with ⟨-,rfl,rfl⟩
    exact .exit hall
  | format hall =>
    rcases hbuffer rfl with ⟨-,rfl,rfl⟩
    exact .format hall
  | write size n hall hbuf =>
    rcases hbuffer rfl with ⟨heq,rfl,rfl⟩
    exact .write size n hall (heq ▸ hbuf)
  | ret sig hall =>
    refine .ret sig fun hsig => ?_
    rcases hbuffer hsig with ⟨-,rfl,rfl⟩
    exact hall hsig

theorem counts_start : Counts [] [] [] inf13_0.start where
  delivered := rfl
  counter := rfl
  out := rfl
  sound := fun f hf => absurd hf List.not_mem_nil
  alone := fun _ => rfl
  printed := fun h => absurd h (by decide)

/-- One of the formatted numbers at most is still to be printed. -/
theorem Counts.formatted (hs : Counts fs ns as s) :
    atFormats 0 fs = ns ∨ ∃ n, atFormats 0 fs = ns ++ [n] := by
  by_cases hno : ∀ f ∈ s.frames, f.1 ≠ .sigterm
  · exact .inl (hs.alone hno)
  · push Not at hno
    rcases hno with ⟨⟨sig,f⟩,hf,hsig⟩
    obtain rfl : sig = .sigterm := hsig
    cases hs.sound _ hf with
    | exit hall => exact .inl hall
    | format hall => exact .inl hall
    | write size n hall hbuf => exact .inr ⟨n,hall⟩
    | ret sig hall => exact .inl (hall rfl)

/-! A step of the innermost handler -/

section Exec

variable (hs : Counts fs ns as s) {sig : Sig} {f : Frame} {rest : List (Sig × Frame)}
  (hframes : s.frames = (sig,f) :: rest) {main : Main}
include hs hframes

theorem Counts.sound_rest (hnodup : (s.frames.map Prod.fst).Nodup) {all' ns' : List ℕ} {d' : Data}
    (hcounter : sig ≠ .sigint → d'.counter = s.data.counter)
    (hbuffer : sig ≠ .sigterm → d'.buffer = s.data.buffer ∧ all' = atFormats 0 fs ∧ ns' = ns) :
    ∀ g ∈ rest, Sound all' ns' d' g.1 g.2 := by
  intro g hg
  have hne : g.1 ≠ sig := by
    rw [hframes] at hnodup
    exact fun heq => (List.nodup_cons.1 hnodup).1 (List.mem_map.2 ⟨g,hg,heq⟩)
  exact (hs.sound g (hframes ▸ List.mem_cons_of_mem _ hg)).other
    (fun heq => hcounter fun hsig => hne (heq.trans hsig.symm))
    fun heq => hbuffer fun hsig => hne (heq.trans hsig.symm)

theorem Counts.top : Sound (atFormats 0 fs) ns s.data sig f :=
  hs.sound (sig,f) (hframes ▸ List.mem_cons_self)

theorem Counts.alone_rest (hsig : sig ≠ .sigterm) (hrest : ∀ g ∈ rest, g.1 ≠ .sigterm) :
    atFormats 0 fs = ns := by
  refine hs.alone fun g hg => ?_
  rw [hframes] at hg
  rcases List.mem_cons.1 hg with rfl | hg
  · exact hsig
  · exact hrest g hg

theorem Counts.printed_rest (hexit : s.data.chk_exit = 1) :
    ns ≠ [] ∨ f.unwritten ∨ ∃ g ∈ rest, g.2.unwritten := by
  rcases hs.printed hexit with hne | ⟨g,hg,hun⟩
  · exact .inl hne
  · rw [hframes] at hg
    rcases List.mem_cons.1 hg with rfl | hg
    · exact .inr (.inl hun)
    · exact .inr (.inr ⟨g,hg,hun⟩)

/-- What is to be shown of a step, from handler to handler -/
theorem Counts.exec_of {f' : Option Frame} {d : Data} {ns' : List ℕ}
    (hstored : [f].countP Frame.isStore + f'.toList.countP Frame.unstored =
      [f].countP Frame.unstored)
    (hcounter : d.counter = wrap 32 ((fs ++ [f]).countP Frame.isStore))
    (hout : d.out = lines ns')
    (htop : ∀ g ∈ f', Sound (atFormats 0 (fs ++ [f])) ns' d sig g)
    (hrest : ∀ g ∈ rest, Sound (atFormats 0 (fs ++ [f])) ns' d g.1 g.2)
    (halone : (∀ g ∈ f', sig ≠ .sigterm) → (∀ g ∈ rest, g.1 ≠ .sigterm) →
      atFormats 0 (fs ++ [f]) = ns')
    (hprinted : d.chk_exit = 1 →
      ns' ≠ [] ∨ (∃ g ∈ f', g.unwritten) ∨ ∃ g ∈ rest, g.2.unwritten) :
    Counts (fs ++ [f]) ns' (as ++ [.exec]) ⟨main,s.pending,f'.toList.map (sig,·) ++ rest,d⟩ where
  delivered := by
    have hdelivered := hs.delivered
    have htop : (f'.toList.map (sig,·)).countP (fun g => g.2.unstored) =
        f'.toList.countP Frame.unstored := List.countP_map
    have hcount : (as ++ [Action.exec]).count (Action.deliver Sig.sigint) =
        as.count (Action.deliver Sig.sigint) := by simp
    rw [hframes,List.countP_cons] at hdelivered
    simp only [List.countP_singleton] at hstored
    rw [List.countP_append,List.countP_append,htop,hcount,List.countP_singleton,← hdelivered]
    dsimp only
    omega
  counter := hcounter
  out := hout
  sound := by
    intro g hg
    rcases List.mem_append.1 hg with hg | hg
    · rcases List.mem_map.1 hg with ⟨f'',hf,rfl⟩
      exact htop f'' (Option.mem_toList.1 hf)
    · exact hrest g hg
  alone := by
    intro hno
    refine halone (fun g hg => ?_) fun g hg => hno g (List.mem_append_right _ hg)
    exact hno (sig,g) (List.mem_append_left _ (List.mem_map.2 ⟨g,Option.mem_toList.2 hg,rfl⟩))
  printed := by
    intro hexit
    rcases hprinted hexit with hne | ⟨g,hg,hun⟩ | ⟨g,hg,hun⟩
    · exact .inl hne
    · exact .inr ⟨(sig,g),
        List.mem_append_left _ (List.mem_map.2 ⟨g,Option.mem_toList.2 hg,rfl⟩),hun⟩
    · exact .inr ⟨g,List.mem_append_right _ hg,hun⟩

theorem Counts.exec_quiet (hnodup : (s.frames.map Prod.fst).Nodup) {f' : Option Frame} {d : Data}
    (hstore : f.isStore = false) (hformat : atFormats (fs.countP Frame.isStore) [f] = [])
    (hunstored : f'.toList.countP Frame.unstored = [f].countP Frame.unstored)
    (hcounter : d.counter = s.data.counter) (hbuffer : d.buffer = s.data.buffer)
    (hout : d.out = s.data.out) (htop : ∀ g ∈ f', Sound (atFormats 0 fs) ns d sig g)
    (hall : f' = none → sig = .sigterm → atFormats 0 fs = ns)
    (hprinted : d.chk_exit = 1 →
      ns ≠ [] ∨ (∃ g ∈ f', g.unwritten) ∨ ∃ g ∈ rest, g.2.unwritten) :
    Counts (fs ++ [f]) ns (as ++ [.exec]) ⟨main,s.pending,f'.toList.map (sig,·) ++ rest,d⟩ := by
  have hsame : atFormats 0 (fs ++ [f]) = atFormats 0 fs := by
    rw [atFormats_append,Nat.zero_add,hformat,List.append_nil]
  have hcount : (fs ++ [f]).countP Frame.isStore = fs.countP Frame.isStore := by
    simp [List.countP_append,hstore]
  refine hs.exec_of hframes ?_ ?_ (hout.trans hs.out) (hsame ▸ htop) ?_ ?_ hprinted
  · simpa [hstore] using hunstored
  · rw [hcounter,hs.counter,hcount]
  · rw [hsame]
    exact hs.sound_rest hframes hnodup (fun _ => hcounter) fun _ => ⟨hbuffer,rfl,rfl⟩
  · intro hno hrest
    rw [hsame]
    by_cases hsig : sig = .sigterm
    · cases f' with
      | none => exact hall rfl hsig
      | some g => exact absurd hsig (hno g rfl)
    · exact hs.alone_rest hframes hsig hrest

end Exec

theorem Counts.exec (hs : Counts fs ns as s) (hnodup : (s.frames.map Prod.fst).Nodup) {sig : Sig}
    {f : Frame} {rest : List (Sig × Frame)} (hframes : s.frames = (sig,f) :: rest)
    {f' : Option Frame} {d : Data} (hexec : SignalCounter.exec f s.data = (f',d)) {main : Main} :
    ∃ ns', Counts (fs ++ [f]) ns' (as ++ [.exec])
      ⟨main,s.pending,f'.toList.map (sig,·) ++ rest,d⟩ := by
  have htop := hs.top hframes
  have hprinted := hs.printed_rest hframes
  cases htop with
  | load =>
    cases hexec
    refine ⟨ns,hs.exec_quiet hframes hnodup rfl rfl rfl rfl rfl rfl ?_ ?_ ?_⟩
    · simpa using Sound.store s.data.counter rfl
    · intro hnone
      cases hnone
    · simpa [Frame.unwritten] using hprinted
  | store v hv =>
    cases hexec
    have hsame : atFormats 0 (fs ++ [.store v]) = atFormats 0 fs := by
      rw [atFormats_append]
      exact List.append_nil _
    refine ⟨ns,hs.exec_of hframes rfl ?_ hs.out ?_ ?_ ?_ ?_⟩
    · have hone : [Frame.store v].countP Frame.isStore = 1 := rfl
      rw [List.countP_append,hone,hv,hs.counter,wrap_wrap_add,Nat.cast_succ]
    · simpa using Sound.ret .sigint fun h => nomatch h
    · exact hs.sound_rest hframes hnodup (fun hne => absurd rfl hne) fun _ => ⟨rfl,hsame,rfl⟩
    · exact fun _ hrest => hsame.trans (hs.alone_rest hframes (by decide) hrest)
    · simpa [Frame.unwritten] using hprinted
  | exit hall =>
    cases hexec
    refine ⟨ns,hs.exec_quiet hframes hnodup rfl rfl rfl rfl rfl rfl ?_ ?_ ?_⟩
    · simpa using Sound.format hall
    · intro hnone
      cases hnone
    · simp [Frame.unwritten]
  | format hall =>
    cases hexec
    have hmore : atFormats 0 (fs ++ [.format]) = ns ++ [fs.countP Frame.isStore] := by
      rw [atFormats_append,hall,Nat.zero_add]
      rfl
    refine ⟨ns,hs.exec_of hframes rfl ?_ hs.out ?_ ?_ ?_ ?_⟩
    · rw [List.countP_append]
      exact hs.counter
    · simpa using Sound.write _ _ hmore (by rw [take_overwrite,hs.counter])
    · exact hs.sound_rest hframes hnodup (fun _ => rfl) fun hne => absurd rfl hne
    · exact fun hno => absurd rfl (hno _ rfl)
    · simp [Frame.unwritten]
  | write size n hall hbuf =>
    cases hexec
    have hsame : atFormats 0 (fs ++ [.write size]) = ns ++ [n] := by
      rw [atFormats_append,hall]
      exact List.append_nil _
    refine ⟨ns ++ [n],hs.exec_of hframes rfl ?_ ?_ ?_ ?_ ?_ ?_⟩
    · rw [List.countP_append]
      exact hs.counter
    · simp [hs.out,hbuf,lines]
    · simpa using Sound.ret .sigterm fun _ => hsame
    · exact hs.sound_rest hframes hnodup (fun _ => rfl) fun hne => absurd rfl hne
    · exact fun _ _ => hsame
    · simp
  | ret sig hall =>
    cases hexec
    refine ⟨ns,hs.exec_quiet hframes hnodup rfl rfl rfl rfl rfl rfl ?_ (fun _ => hall) ?_⟩
    · simp
    · simpa [Frame.unwritten] using hprinted

theorem Counts.step (hs : Counts fs ns as s) (hsane : Sane s) {a : Action Sig}
    (h : inf13_0.step a s = some t) :
    ∃ ns', Counts (fs ++ (s.current a).toList) ns' (as ++ [a]) t := by
  rcases step_cases h with ⟨sig,rfl,-,rfl⟩ | ⟨sig,rfl,-,-,hnot,rfl⟩ | ⟨rfl,hmain,rfl⟩ |
    ⟨sig,f,rest,f',d,rfl,hmain,hframes,hexec,rfl⟩ | ⟨sig,f,rest,d,rfl,hmain,hframes,hexec,rfl⟩
  · have hnone : s.current (.send sig) = none := rfl
    rw [hnone,Option.toList_none,List.append_nil]
    refine ⟨ns,?_,hs.counter,hs.out,hs.sound,hs.alone,hs.printed⟩
    simpa using hs.delivered
  · have hnone : s.current (.deliver sig) = none := rfl
    rw [hnone,Option.toList_none,List.append_nil]
    refine ⟨ns,?_,hs.counter,hs.out,?_,?_,?_⟩
    · have hdelivered := hs.delivered
      cases sig
      · change fs.countP _ + List.countP _ ((Sig.sigint,Frame.load) :: s.frames) = _
        rw [List.countP_cons_of_pos rfl,List.count_append,← hdelivered]
        rfl
      · simpa [program,enter,Frame.unstored] using hdelivered
    · intro g hg
      rcases List.mem_cons.1 hg with rfl | hg
      · cases sig
        · exact .load
        · exact .exit (hs.alone fun g hg heq => hnot (List.mem_map.2 ⟨g,hg,heq⟩))
      · exact hs.sound g hg
    · exact fun hno => hs.alone fun g hg => hno g (List.mem_cons_of_mem _ hg)
    · intro hexit
      rcases hs.printed hexit with hne | ⟨g,hg,hun⟩
      · exact .inl hne
      · exact .inr ⟨g,List.mem_cons_of_mem _ hg,hun⟩
  · have hnone : s.current .exec = none := by simp [State.current,hmain]
    rw [hnone,Option.toList_none,List.append_nil]
    refine ⟨ns,?_,hs.counter,hs.out,hs.sound,hs.alone,hs.printed⟩
    simpa using hs.delivered
  · rw [current_of_frames hmain hframes]
    exact hs.exec hsane.nodup hframes hexec
  · rw [current_of_frames hmain hframes]
    exact hs.exec hsane.nodup hframes hexec

/-- A `SIGTERM` is not lost, and `main` does not wait once it has been handled. -/
structure Answers (as : List (Action Sig)) (s : State Sig Frame Data) : Prop where
  heard : .send .sigterm ∈ as →
    .sigterm ∈ s.pending ∨ (.sigterm,.exit) ∈ s.frames ∨ s.data.chk_exit = 1
  awake : s.main = .suspended → s.frames = [] → s.data.chk_exit ≠ 1
  ended : s.main = .ended → s.frames = [] ∧ s.data.chk_exit = 1

theorem exec_chk_exit {f : Frame} {f' : Option Frame} {d d' : Data} (h : exec f d = (f',d')) :
    d'.chk_exit = d.chk_exit ∨ d'.chk_exit = 1 := by
  cases f <;> cases h <;> simp

theorem Answers.exec (hs : Answers as s) {sig : Sig} {f : Frame} {rest : List (Sig × Frame)}
    (hframes : s.frames = (sig,f) :: rest) {f' : Option Frame} {d : Data}
    (hexec : SignalCounter.exec f s.data = (f',d)) (h : .send .sigterm ∈ as ++ [.exec]) :
    .sigterm ∈ s.pending ∨ (.sigterm,.exit) ∈ f'.toList.map (sig,·) ++ rest ∨ d.chk_exit = 1 := by
  have hmem : .send .sigterm ∈ as := by simpa using h
  rcases hs.heard hmem with hpend | hframe | hexit
  · exact .inl hpend
  · rw [hframes] at hframe
    rcases List.mem_cons.1 hframe with heq | hrest
    · cases heq
      cases hexec
      exact .inr (.inr rfl)
    · exact .inr (.inl (List.mem_append_right _ hrest))
  · rcases exec_chk_exit hexec with hsame | hone
    · exact .inr (.inr (hsame.trans hexit))
    · exact .inr (.inr hone)

theorem Answers.step (hs : Answers as s) (hsane : Sane s) {a : Action Sig}
    (h : inf13_0.step a s = some t) : Answers (as ++ [a]) t := by
  rcases step_cases h with ⟨sig,rfl,hmain,rfl⟩ | ⟨sig,rfl,hmain,-,-,rfl⟩ | ⟨rfl,hmain,rfl⟩ |
    ⟨sig,f,rest,f',d,rfl,hmain,hframes,hexec,rfl⟩ | ⟨sig,f,rest,d,rfl,hmain,hframes,hexec,rfl⟩
  · refine ⟨?_,hs.awake,hs.ended⟩
    intro hmem
    by_cases hsig : sig = .sigterm
    · exact .inl (hsig ▸ Finset.mem_insert_self _ _)
    · have hbefore : .send .sigterm ∈ as := by simpa [Ne.symm hsig] using hmem
      exact (hs.heard hbefore).imp_left (Finset.mem_insert_of_mem ·)
  · refine ⟨?_,fun _ hnil => absurd hnil (List.cons_ne_nil _ _),fun hend => ?_⟩
    · intro hmem
      have hbefore : .send .sigterm ∈ as := by simpa using hmem
      by_cases hsig : sig = .sigterm
      · subst hsig
        exact .inr (.inl List.mem_cons_self)
      · rcases hs.heard hbefore with hpend | hframe | hexit
        · exact .inl (Finset.mem_erase.2 ⟨Ne.symm hsig,hpend⟩)
        · exact .inr (.inl (List.mem_cons_of_mem _ hframe))
        · exact .inr (.inr hexit)
    · rw [hmain] at hend
      cases hend
  · have hnil : s.frames = [] := by
      by_contra hne
      rw [hsane.main hne] at hmain
      cases hmain
    refine ⟨fun hmem => hs.heard (by simpa using hmem),?_,?_⟩
    · intro hsusp _ hexit
      simp [program] at hsusp
      exact hsusp hexit
    · intro hend
      refine ⟨hnil,?_⟩
      by_contra hne
      simp [program,hne] at hend
  · refine ⟨hs.exec hframes hexec,fun _ hnil => absurd hnil (List.cons_ne_nil _ _),fun hend => ?_⟩
    rw [hmain] at hend
    cases hend
  · refine ⟨hs.exec hframes hexec,?_,?_⟩
    · intro hsusp hnil
      dsimp only at hsusp hnil
      rw [if_pos hnil] at hsusp
      cases hsusp
    · intro hend
      dsimp only at hend
      split at hend <;> cases hend

theorem run_counts (h : inf13_0.run as inf13_0.start = some s) :
    Sane s ∧ Answers as s ∧ ∃ ns, Counts (executed program as inf13_0.start) ns as s := by
  have hrun : inf13_0.run as inf13_0.start = some s ∧ Sane s ∧ Answers as s ∧
      ∃ ns, Counts (executed program as inf13_0.start) ns as s := by
    refine System.run_history (I := fun as s => inf13_0.run as inf13_0.start = some s ∧ Sane s ∧
      Answers as s ∧ ∃ ns, Counts (executed program as inf13_0.start) ns as s) ?_ ?_ h
    · refine ⟨rfl,(sane_invariant program _).start,⟨?_,?_,?_⟩,[],counts_start⟩
      · intro hmem
        cases hmem
      · intro hmain
        cases hmain
      · intro hmain
        cases hmain
    · rintro as a s t ⟨hrun,hsane,hanswers,ns,hcounts⟩ hstep
      rw [executed_concat hrun]
      exact ⟨System.run_concat_eq_some.2 ⟨s,hrun,hstep⟩,hsane.step hstep,
        hanswers.step hsane hstep,hcounts.step hsane hstep⟩
  exact hrun.2

/-- In every run, whatever interrupts what: the counter is the number of `SIGINT`s that have been
counted, as an `int`, and the numbers that are printed are those that it has had when each of the
`snprintf`s was called; the last one may be still to be printed. They never go down, and there are no
more of them than have been sent. At the end one has been printed. -/
theorem printed_counts (h : inf13_0.run as inf13_0.start = some s) :
    s.data.counter = wrap 32 ((executed program as inf13_0.start).countP Frame.isStore) ∧
    ∃ ns : List ℕ, s.data.out = lines ns ∧
      (atFormats 0 (executed program as inf13_0.start) = ns ∨
        ∃ n, atFormats 0 (executed program as inf13_0.start) = ns ++ [n]) ∧
      ns.Pairwise (· ≤ ·) ∧
      (∀ n ∈ ns, n ≤ as.count (.send .sigint)) ∧
      (s.frames = [] → s.data.counter = wrap 32 (as.count (.deliver .sigint)) ∧
        atFormats 0 (executed program as inf13_0.start) = ns) ∧
      (s.main = .ended → ns ≠ []) := by
  rcases run_counts h with ⟨hsane,hanswers,ns,hs⟩
  have hdelivered := hs.delivered
  have hle := count_deliver_le h .sigint
  rcases atFormats_sorted 0 (executed program as inf13_0.start) with ⟨hsorted,hbound⟩
  have hall := hs.formatted
  have hsub : ns <+: atFormats 0 (executed program as inf13_0.start) := by
    rcases hall with heq | ⟨n,heq⟩
    · rw [heq]
    · rw [heq]
      exact List.prefix_append _ _
  refine ⟨hs.counter,ns,hs.out,hall,hsorted.sublist hsub.sublist,?_,?_,?_⟩
  · intro n hn
    have hnk := (hbound n (hsub.subset hn)).2
    omega
  · intro hnil
    rw [hnil,List.countP_nil,Nat.add_zero] at hdelivered
    refine ⟨by rw [← hdelivered,hs.counter],hs.alone fun f hf => ?_⟩
    rw [hnil] at hf
    cases hf
  · intro hend
    rcases hanswers.ended hend with ⟨hnil,hexit⟩
    rcases hs.printed hexit with hne | ⟨f,hf,-⟩
    · exact hne
    · rw [hnil] at hf
      cases hf

def interrupted : List (Action Sig) :=
  [.exec,.send .sigterm,.deliver .sigterm,.send .sigint,.deliver .sigint,.exec,.exec,.exec,.exec,
   .exec,.exec,.exec,.exec]

theorem printed_counts_interrupted : ∃ s, inf13_0.run interrupted inf13_0.start = some s ∧
    ∃ ns : List ℕ, s.data.out = lines ns ∧
      atFormats 0 (executed program interrupted inf13_0.start) = ns ∧ ns ≠ [] := by
  have hex : ∃ s, inf13_0.run interrupted inf13_0.start = some s ∧ s.frames = [] ∧
      s.main = .ended := ⟨_,rfl,rfl,rfl⟩
  rcases hex with ⟨s,hrun,hframes,hmain⟩
  rcases printed_counts hrun with ⟨-,ns,hout,-,-,-,hall,hne⟩
  exact ⟨s,hrun,ns,hout,(hall hframes).2,hne hmain⟩

def Frame.rank : Frame → ℕ
  | .load => 2
  | .store _ => 1
  | .exit => 3
  | .format => 2
  | .write _ => 1
  | .ret => 0

theorem program_lowers : program.Lowers Frame.rank := by
  intro f d f' d' h
  cases f <;> cases h <;> simp [Frame.rank]

/-- Once a `SIGTERM` has been sent, every run without further signals is finite, and can only come
to rest at the end of `main`. -/
theorem sigterm_ends (h : inf13_0.run as inf13_0.start = some s) (hterm : .send .sigterm ∈ as) :
    (∀ bs t, (∀ b ∈ bs, b.isSend = false) → inf13_0.run bs s = some t →
      bs.length ≤ s.load program Frame.rank ∧
      ((∀ b : Action Sig, b.isSend = false → inf13_0.step b t = none) → t.main = .ended)) ∧
    ∃ bs t, (∀ b ∈ bs, b.isSend = false) ∧ inf13_0.run bs s = some t ∧ t.main = .ended := by
  have hrest : ∀ {bs t}, inf13_0.run bs s = some t → t.main = .ended ∨ Idle t →
      t.main = .ended := by
    intro bs t hrun hhalt
    rcases hhalt with hend | hidle
    · exact hend
    · rcases run_counts (System.run_trans h hrun) with ⟨-,hanswers,-⟩
      have hexit := hanswers.awake hidle.main hidle.frames
      rcases hanswers.heard (List.mem_append_left bs hterm) with hpend | hframe | hone
      · rw [hidle.pending] at hpend
        exact absurd hpend (Finset.notMem_empty _)
      · rw [hidle.frames] at hframe
        cases hframe
      · exact absurd hone hexit
  constructor
  · intro bs t hbs hrun
    exact ⟨length_le_load program_lowers hbs hrun,
      fun hnone => hrest hrun (halted_iff.1 hnone)⟩
  · rcases exists_halted program_lowers ⟨0,0,List.replicate 128 0,[]⟩ s with ⟨bs,t,hbs,hrun,ht⟩
    exact ⟨bs,t,hbs,hrun,hrest hrun ht⟩

theorem sigterm_ends_interrupted : ∃ s, inf13_0.run (interrupted.take 5) inf13_0.start = some s ∧
    ∃ bs t, (∀ b ∈ bs, b.isSend = false) ∧ inf13_0.run bs s = some t ∧ t.main = .ended := by
  have hex : ∃ s, inf13_0.run (interrupted.take 5) inf13_0.start = some s := ⟨_,rfl⟩
  rcases hex with ⟨s,hrun⟩
  exact ⟨s,hrun,(sigterm_ends hrun (by decide)).2⟩

end SignalCounter
end SomeCode
