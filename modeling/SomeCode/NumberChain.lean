import SomeCode.Decimal
import SomeCode.Transition

/-! `inf11-1.c`: each process forks the next one and waits for it, and the last one ends the line.
What a process has printed stays in its buffer, which `fork` copies, until it is written out. -/
namespace SomeCode
namespace NumberChain

open Decimal Transition

/-- Where a process is in `main`: `test` is before the condition of the loop, `wait` in the call
of `waitpid`, and `leave` before a `return 0`. -/
inductive Pc
  | unborn | start | test | print | flush | fork
  | wait (child : ℕ)
  | newline | leave | exited
  deriving DecidableEq

structure Process where
  pc : Pc
  i : ℕ
  buffer : List UInt8

/-- The processes by number, the number of the next one, and what has been written -/
structure State where
  procs : ℕ → Process
  next : ℕ
  out : List UInt8

def State.set (s : State) (p : ℕ) (a : Process) : State :=
  { s with procs := Function.update s.procs p a }

@[simp] theorem State.set_self (s : State) (p : ℕ) (a : Process) : (s.set p a).procs p = a := by
  simp [State.set]

@[simp] theorem State.set_of_ne (s : State) {p q : ℕ} (h : q ≠ p) (a : Process) :
    (s.set p a).procs q = s.procs q := by
  simp [State.set,h]

def State.write (s : State) (l : List UInt8) : State := { s with out := s.out ++ l }

@[simp] theorem State.write_nil (s : State) : s.write [] = s := by
  simp [State.write]

/-- A process runs up to its next call, or the library writes out some bytes of its buffer. -/
inductive Action
  | run (p : ℕ)
  | drain (p n : ℕ)

/-- A step of `main` in process `p`, which is `a` -/
def runProcess (N : ℕ) (s : State) (p : ℕ) (a : Process) : Option State :=
  match a.pc with
  | .unborn | .exited => none
  | .start => some (s.set p { a with pc := .test, i := 1, buffer := a.buffer ++ decimal 1 })
  | .test => some (s.set p { a with pc := if a.i < N then .print else .newline })
  | .print => some (s.set p { a with pc := .flush, buffer := a.buffer ++ 32 :: decimal (a.i+1) })
  | .flush => some ((s.set p { a with pc := .fork, buffer := [] }).write a.buffer)
  | .fork =>
    -- the child goes on with the next round
    let child := { a with pc := .test, i := a.i+1 }
    some { (s.set p { a with pc := .wait s.next }).set s.next child with next := s.next+1 }
  | .wait child =>
    if (s.procs child).pc = .exited then some (s.set p { a with pc := .leave }) else none
  | .newline => some (s.set p { a with pc := .leave, buffer := a.buffer ++ [10] })
  | .leave => some ((s.set p { a with pc := .exited, buffer := [] }).write a.buffer)

def drain (s : State) (p n : ℕ) (a : Process) : Option State :=
  if 0 < n ∧ n ≤ a.buffer.length then
    some ((s.set p { a with buffer := a.buffer.drop n }).write (a.buffer.take n))
  else none

def step (N : ℕ) : Action → State → Option State
  | .run p, s => runProcess N s p (s.procs p)
  | .drain p n, s => drain s p n (s.procs p)

def start : State where
  procs := Function.update (fun _ => ⟨.unborn,0,[]⟩) 1 ⟨.start,0,[]⟩
  next := 2
  out := []

def system (N : ℕ) : System State Action := ⟨start,step N⟩

/-- The numbers up to `n`, with a blank between two of them -/
def numbers (n : ℕ) : List UInt8 :=
  List.intercalate [32] ((List.range n).map fun i => decimal (i+1))

def line (N : ℕ) : List UInt8 := numbers N ++ [10]

theorem numbers_one : numbers 1 = decimal 1 := by
  simp [numbers,List.intercalate]

theorem intercalate_concat {sep : List UInt8} {l : List (List UInt8)} (h : l ≠ [])
    (x : List UInt8) : sep.intercalate (l ++ [x]) = sep.intercalate l ++ sep ++ x := by
  induction l with
  | nil => exact absurd rfl h
  | cons a l ih =>
    rcases l with _ | ⟨b,l⟩
    · simp
    · have hrest := ih (List.cons_ne_nil b l)
      rw [List.cons_append,List.cons_append,List.intercalate_cons_cons,← List.cons_append,hrest,
        List.intercalate_cons_cons]
      simp only [List.append_assoc]

theorem numbers_succ {n : ℕ} (h : 1 ≤ n) : numbers (n+1) = numbers n ++ 32 :: decimal (n+1) := by
  have hne : (List.range n).map (fun i => decimal (i+1)) ≠ [] := by simp; omega
  rw [numbers,List.range_succ,List.map_append,List.map_singleton,intercalate_concat hne,
    List.append_assoc]
  rfl

/-! The state of the chain -/

/-- An older process of the chain has nothing left to print, and waits for the next one. -/
structure Older (s : State) (p : ℕ) : Prop where
  buffer : (s.procs p).buffer = []
  pc : (s.procs p).pc = .wait (p+1) ∨
    ((s.procs p).pc = .leave ∨ (s.procs p).pc = .exited) ∧ (s.procs (p+1)).pc = .exited

/-- The newest process `a`, with number `k`, when `out` has been written -/
def Newest (N k : ℕ) (out : List UInt8) (a : Process) : Prop :=
  match a.pc with
  | .start => k = 1 ∧ out ++ a.buffer = []
  | .test => a.i = k ∧ out ++ a.buffer = numbers k
  | .print => a.i = k ∧ k < N ∧ out ++ a.buffer = numbers k
  | .flush => a.i = k ∧ k < N ∧ out ++ a.buffer = numbers (k+1)
  | .fork => a.i = k ∧ k < N ∧ out = numbers (k+1) ∧ a.buffer = []
  | .newline => out ++ a.buffer = numbers N
  | .leave => out ++ a.buffer = line N
  | .exited => out = line N ∧ a.buffer = []
  | .wait _ | .unborn => False

structure Chain (N k : ℕ) (s : State) : Prop where
  pos : 1 ≤ k
  le : k ≤ N
  next : s.next = k+1
  unborn : ∀ p, p = 0 ∨ k < p → s.procs p = ⟨.unborn,0,[]⟩
  older : ∀ p, 1 ≤ p → p < k → Older s p
  newest : Newest N k s.out (s.procs k)

section Step

variable {N k : ℕ} {s t : State}

theorem Chain.cases (h : Chain N k s) (p : ℕ) :
    s.procs p = ⟨.unborn,0,[]⟩ ∨ p = k ∨ 1 ≤ p ∧ p < k := by
  by_cases hp : p = 0 ∨ k < p
  · exact Or.inl (h.unborn p hp)
  · right
    omega

theorem Older.set {p q : ℕ} {a : Process} (h : Older s q) (hpq : q ≠ p)
    (hp : (s.procs p).pc ≠ .exited) : Older (s.set p a) q := by
  have hq := s.set_of_ne hpq a
  constructor
  · rw [hq]
    exact h.buffer
  · rw [hq]
    rcases h.pc with hwait | ⟨hpc,hexited⟩
    · exact Or.inl hwait
    · have hne : q+1 ≠ p := fun heq => hp (heq ▸ hexited)
      right
      rw [s.set_of_ne hne a]
      exact ⟨hpc,hexited⟩

theorem Chain.set_newest (h : Chain N k s) (hpc : (s.procs k).pc ≠ .exited) {a : Process}
    {out : List UInt8} (ha : Newest N k out a) : Chain N k { s.set k a with out := out } where
  pos := h.pos
  le := h.le
  next := h.next
  unborn p hp := by
    have hpos := h.pos
    have hne : p ≠ k := by omega
    rw [← h.unborn p hp]
    exact s.set_of_ne hne a
  older p hp hk := by
    have hset := (h.older p hp hk).set (a := a) (Nat.ne_of_lt hk) hpc
    exact ⟨hset.buffer,hset.pc⟩
  newest := by
    rw [← s.set_self k a] at ha
    exact ha

theorem Chain.set_older (h : Chain N k s) {p : ℕ} (hp : 1 ≤ p) (hk : p < k) {pc : Pc}
    (hpc : (s.procs p).pc ≠ .exited) (hleave : pc = .leave ∨ pc = .exited)
    (hexited : (s.procs (p+1)).pc = .exited) :
    Chain N k (s.set p ⟨pc,(s.procs p).i,[]⟩) where
  pos := h.pos
  le := h.le
  next := h.next
  unborn q hq := by
    have hne : q ≠ p := by omega
    rw [s.set_of_ne hne,h.unborn q hq]
  older q hq hqk := by
    by_cases hqp : q = p
    · subst hqp
      have hne : q+1 ≠ q := Nat.succ_ne_self q
      refine ⟨by rw [s.set_self],Or.inr ?_⟩
      rw [s.set_self,s.set_of_ne hne]
      exact ⟨hleave,hexited⟩
    · exact (h.older q hq hqk).set hqp hpc
  newest := by
    rw [s.set_of_ne (Nat.ne_of_gt hk)]
    exact h.newest

/-- The newest process forks the next one, which goes on in its place. -/
theorem Chain.fork (h : Chain N k s) (hpc : (s.procs k).pc = .fork) :
    Chain N (k+1) { (s.set k { s.procs k with pc := .wait s.next }).set s.next
      { s.procs k with pc := .test, i := (s.procs k).i+1 } with next := s.next+1 } := by
  have hnewest := h.newest
  rw [Newest,hpc] at hnewest
  obtain ⟨hi,hk,hout,hbuffer⟩ := hnewest
  have hne : k ≠ k+1 := Nat.ne_of_lt k.lt_succ_self
  rw [h.next]
  refine ⟨Nat.le_add_left 1 k,hk,rfl,fun p hp => ?_,fun p hp hlt => ?_,?_⟩
  · have hpos := h.pos
    have hchild : p ≠ k+1 := by omega
    have hparent : p ≠ k := by omega
    change ((s.set k _).set (k+1) _).procs p = _
    rw [State.set_of_ne _ hchild,State.set_of_ne _ hparent]
    exact h.unborn p (by omega)
  · have hchild : p ≠ k+1 := Nat.ne_of_lt hlt
    have hnew : ((s.set k { s.procs k with pc := .wait (k+1) }).procs (k+1)).pc ≠ .exited := by
      rw [State.set_of_ne _ hne.symm,h.unborn (k+1) (Or.inr k.lt_succ_self)]
      decide
    have holder : Older (s.set k { s.procs k with pc := .wait (k+1) }) p := by
      rcases Nat.lt_succ_iff_lt_or_eq.mp hlt with hpk | rfl
      · exact (h.older p hp hpk).set (Nat.ne_of_lt hpk) (by rw [hpc]; decide)
      · constructor
        · rw [State.set_self]
          exact hbuffer
        · rw [State.set_self]
          exact Or.inl rfl
    have hset := holder.set (a := { s.procs k with pc := .test, i := (s.procs k).i+1 }) hchild hnew
    exact ⟨hset.buffer,hset.pc⟩
  · change Newest N (k+1) s.out (((s.set k _).set (k+1) _).procs (k+1))
    rw [State.set_self]
    refine ⟨by rw [hi],?_⟩
    rw [hbuffer,List.append_nil,hout]

theorem Chain.run_newest (h : Chain N k s) (ht : runProcess N s k (s.procs k) = some t) :
    ∃ l, Chain N l t := by
  have hnewest := h.newest
  rw [Newest] at hnewest
  rcases hpc : (s.procs k).pc with _ | _ | _ | _ | _ | _ | child | _ | _ | _ <;>
    simp only [runProcess,hpc,Option.some.injEq,reduceCtorEq] at ht hnewest <;> subst ht
  case start =>
    obtain ⟨rfl,hout⟩ := hnewest
    refine ⟨1,h.set_newest (by rw [hpc]; decide) ⟨rfl,?_⟩⟩
    rw [← List.append_assoc,hout,List.nil_append,numbers_one]
  case test =>
    obtain ⟨hi,hout⟩ := hnewest
    refine ⟨k,h.set_newest (by rw [hpc]; decide) ?_⟩
    by_cases hk : k < N
    · rw [if_pos (hi.trans_lt hk)]
      exact ⟨hi,hk,hout⟩
    · have hlast : k = N := Nat.le_antisymm h.le (Nat.not_lt.mp hk)
      rw [if_neg (by rwa [hi])]
      exact hlast ▸ hout
  case print =>
    obtain ⟨hi,hk,hout⟩ := hnewest
    refine ⟨k,h.set_newest (by rw [hpc]; decide) ⟨hi,hk,?_⟩⟩
    rw [← List.append_assoc,hout,hi,numbers_succ h.pos]
  case flush =>
    obtain ⟨hi,hk,hout⟩ := hnewest
    exact ⟨k,h.set_newest (by rw [hpc]; decide) ⟨hi,hk,hout,rfl⟩⟩
  case fork => exact ⟨k+1,h.fork hpc⟩
  case newline =>
    refine ⟨k,h.set_newest (by rw [hpc]; decide) ?_⟩
    change s.out ++ ((s.procs k).buffer ++ [10]) = line N
    rw [← List.append_assoc,hnewest,line]
  case leave => exact ⟨k,h.set_newest (by rw [hpc]; decide) ⟨hnewest,rfl⟩⟩

theorem Chain.run_older (h : Chain N k s) {p : ℕ} (hp : 1 ≤ p) (hk : p < k)
    (ht : runProcess N s p (s.procs p) = some t) : Chain N k t := by
  obtain ⟨hbuffer,hwait | ⟨hleave | hexited,hnext⟩⟩ := h.older p hp hk
  · rw [runProcess,hwait,Option.ite_none_right_eq_some,Option.some.injEq] at ht
    obtain ⟨hchild,rfl⟩ := ht
    have hset := h.set_older hp hk (by simp [hwait]) (Or.inl rfl) hchild
    rwa [← hbuffer] at hset
  · rw [runProcess,hleave,Option.some.injEq] at ht
    subst ht
    rw [hbuffer,State.write_nil]
    exact h.set_older hp hk (by simp [hleave]) (Or.inr rfl) hnext
  · rw [runProcess,hexited] at ht
    exact absurd ht (by simp)

/-- The library writes out what has been printed. -/
theorem Newest.drain {out : List UInt8} {a : Process} (h : Newest N k out a) (hne : a.buffer ≠ [])
    (n : ℕ) : Newest N k (out ++ a.buffer.take n) { a with buffer := a.buffer.drop n } := by
  have hjoin : out ++ a.buffer.take n ++ a.buffer.drop n = out ++ a.buffer := by
    rw [List.append_assoc,List.take_append_drop]
  rw [Newest] at h ⊢
  rcases hpc : a.pc <;> simp only [hpc,hjoin] at h ⊢
  case fork => exact absurd h.2.2.2 hne
  case exited => exact absurd h.2 hne
  all_goals exact h

theorem Chain.drain (h : Chain N k s) {p n : ℕ} (ht : drain s p n (s.procs p) = some t) :
    Chain N k t := by
  rw [NumberChain.drain,Option.ite_none_right_eq_some,Option.some.injEq] at ht
  obtain ⟨⟨hpos,hle⟩,rfl⟩ := ht
  have hsome : (s.procs p).buffer ≠ [] := fun hnil => by
    rw [hnil,List.length_nil] at hle
    omega
  rcases h.cases p with hunborn | rfl | ⟨hp,hk⟩
  · exact absurd (by rw [hunborn]) hsome
  · have hnewest := h.newest
    have hpc : (s.procs p).pc ≠ .exited := fun hpc => by
      rw [Newest,hpc] at hnewest
      exact hsome hnewest.2
    exact h.set_newest hpc (hnewest.drain hsome n)
  · exact absurd (h.older p hp hk).buffer hsome

theorem Chain.step {a : Action} (h : Chain N k s) (ht : step N a s = some t) :
    ∃ l, Chain N l t := by
  rcases a with p | ⟨p,n⟩
  · rcases h.cases p with hunborn | rfl | ⟨hp,hk⟩
    · rw [NumberChain.step,runProcess,hunborn] at ht
      exact absurd ht (by simp)
    · exact h.run_newest ht
    · exact ⟨k,h.run_older hp hk ht⟩
  · exact ⟨k,h.drain ht⟩

end Step

theorem chain_start {N : ℕ} (h : 1 ≤ N) : Chain N 1 start where
  pos := Nat.le_refl 1
  le := h
  next := rfl
  unborn p hp := by
    have hne : p ≠ 1 := by omega
    simp [start,hne]
  older p hp hk := absurd hp (Nat.not_le.mpr hk)
  newest := by
    have hfirst : start.procs 1 = ⟨.start,0,[]⟩ := by simp [start]
    rw [hfirst]
    exact ⟨rfl,rfl⟩

theorem chain_invariant {N : ℕ} (h : 1 ≤ N) : (system N).Invariant fun s => ∃ k, Chain N k s where
  step := fun ⟨_,hs⟩ ht => hs.step ht
  start := ⟨1,chain_start h⟩

/-! Every run comes to an end. -/

def rank : Pc → ℕ
  | .unborn | .start => 8
  | .test => 7
  | .print => 6
  | .flush => 5
  | .fork => 4
  | .wait _ | .newline => 3
  | .leave => 2
  | .exited => 0

def remaining (N : ℕ) (s : State) : ℕ :=
  ∑ p ∈ Finset.range (N+1), rank (s.procs p).pc + ((line N).length - s.out.length)

theorem numbers_isPrefix {m n : ℕ} (h : m ≤ n) : numbers m <+: numbers n := by
  induction n, h using Nat.le_induction with
  | base => exact List.prefix_refl _
  | succ n hmn ih =>
    refine ih.trans ?_
    rcases Nat.eq_zero_or_pos n with rfl | hn
    · exact List.nil_prefix
    · rw [numbers_succ hn]
      exact List.prefix_append _ _

section Run

variable {N k : ℕ} {s t : State}

/-- What has been printed is the beginning of the line. -/
theorem Chain.out_prefix (h : Chain N k s) : s.out <+: line N := by
  have hline : ∀ {n}, n ≤ N → numbers n <+: line N := fun hn =>
    (numbers_isPrefix hn).trans (List.prefix_append _ _)
  have hnewest := h.newest
  have hbuffer : s.out <+: s.out ++ (s.procs k).buffer := List.prefix_append _ _
  rw [Newest] at hnewest
  rcases hpc : (s.procs k).pc <;> simp only [hpc] at hnewest
  case start => exact hbuffer.trans (hnewest.2 ▸ List.nil_prefix)
  case test => exact hbuffer.trans (hnewest.2 ▸ hline h.le)
  case print => exact hbuffer.trans (hnewest.2.2 ▸ hline h.le)
  case flush => exact hbuffer.trans (hnewest.2.2 ▸ hline hnewest.2.1)
  case fork => exact hnewest.2.2.1 ▸ hline hnewest.2.1
  case newline => exact hbuffer.trans (hnewest ▸ hline (Nat.le_refl N))
  case leave => exact hnewest ▸ hbuffer
  case exited => exact hnewest.1 ▸ List.prefix_refl _

theorem remaining_lt {p : ℕ} (hp : p ≤ N) (hle : ∀ q, rank (t.procs q).pc ≤ rank (s.procs q).pc)
    (hlt : rank (t.procs p).pc < rank (s.procs p).pc) (hout : s.out.length ≤ t.out.length) :
    remaining N t < remaining N s := by
  have hsum : ∑ q ∈ Finset.range (N+1), rank (t.procs q).pc <
      ∑ q ∈ Finset.range (N+1), rank (s.procs q).pc :=
    Finset.sum_lt_sum (fun q _ => hle q) ⟨p,Finset.mem_range.mpr (Nat.lt_succ_of_le hp),hlt⟩
  exact Nat.add_lt_add_of_lt_of_le hsum (Nat.sub_le_sub_left hout _)

theorem remaining_set_lt {p : ℕ} (hp : p ≤ N) {a : Process}
    (hlt : rank a.pc < rank (s.procs p).pc) (l : List UInt8) :
    remaining N ((s.set p a).write l) < remaining N s := by
  have hself : ((s.set p a).write l).procs p = a := s.set_self p a
  refine remaining_lt hp (fun q => ?_) (by rwa [hself]) ?_
  · by_cases hqp : q = p
    · rw [hqp,hself]
      exact hlt.le
    · have hq : ((s.set p a).write l).procs q = s.procs q := s.set_of_ne hqp a
      rw [hq]
  · have hout : ((s.set p a).write l).out = s.out ++ l := rfl
    rw [hout,List.length_append]
    exact Nat.le_add_right _ _

theorem remaining_fork_lt {p : ℕ} (hp : p ≤ N) (hpc : (s.procs p).pc = .fork)
    (hnext : s.procs s.next = ⟨.unborn,0,[]⟩) :
    remaining N { (s.set p { s.procs p with pc := .wait s.next }).set s.next
      { s.procs p with pc := .test, i := (s.procs p).i+1 } with next := s.next+1 } <
        remaining N s := by
  have hne : p ≠ s.next := fun heq => by
    rw [heq,hnext] at hpc
    exact absurd hpc (by decide)
  refine remaining_lt hp (fun q => ?_) ?_ (Nat.le_refl _)
  · by_cases hq : q = s.next
    · subst hq
      rw [State.set_self,hnext]
      exact Nat.le_succ 7
    · rw [State.set_of_ne _ hq]
      by_cases hqp : q = p
      · subst hqp
        rw [State.set_self,hpc]
        exact Nat.le_succ 3
      · rw [State.set_of_ne _ hqp]
  · rw [State.set_of_ne _ hne,State.set_self,hpc]
    exact Nat.lt_succ_self 3

theorem remaining_run_lt {p : ℕ} (hp : p ≤ N) (hnext : s.procs s.next = ⟨.unborn,0,[]⟩)
    (ht : runProcess N s p (s.procs p) = some t) : remaining N t < remaining N s := by
  have hset : ∀ {a : Process}, rank a.pc < rank (s.procs p).pc →
      remaining N (s.set p a) < remaining N s := fun hlt => by
    have hnone := remaining_set_lt hp hlt []
    rwa [State.write_nil] at hnone
  rcases hpc : (s.procs p).pc with _ | _ | _ | _ | _ | _ | child | _ | _ | _ <;>
    simp only [runProcess,hpc,Option.some.injEq,reduceCtorEq,Option.ite_none_right_eq_some] at ht
  case fork => exact ht ▸ remaining_fork_lt hp hpc hnext
  case wait =>
    obtain ⟨-,rfl⟩ := ht
    exact hset (by simp [hpc,rank])
  case test =>
    subst ht
    by_cases hi : (s.procs p).i < N <;> exact hset (by simp [hpc,hi,rank])
  all_goals subst ht
  case flush | leave => exact remaining_set_lt hp (by simp [hpc,rank]) _
  all_goals exact hset (by simp [hpc,rank])

theorem remaining_drain_lt {p n : ℕ} (ht : drain s p n (s.procs p) = some t)
    (hfits : t.out.length ≤ (line N).length) : remaining N t < remaining N s := by
  rw [drain,Option.ite_none_right_eq_some,Option.some.injEq] at ht
  obtain ⟨⟨hpos,hle⟩,rfl⟩ := ht
  have hpcs : ∀ q, (((s.set p { s.procs p with buffer := (s.procs p).buffer.drop n }).write
      ((s.procs p).buffer.take n)).procs q).pc = (s.procs q).pc := fun q => by
    by_cases hq : q = p
    · subst hq
      rw [State.write,State.set_self]
    · rw [State.write,State.set_of_ne _ hq]
  have hout : ((s.set p { s.procs p with buffer := (s.procs p).buffer.drop n }).write
      ((s.procs p).buffer.take n)).out.length = s.out.length+n := by
    rw [State.write,List.length_append,List.length_take_of_le hle]
    rfl
  rw [hout] at hfits
  simp only [remaining,hpcs,hout]
  omega

theorem Chain.remaining_lt {a : Action} (h : Chain N k s) (ht : NumberChain.step N a s = some t) :
    remaining N t < remaining N s := by
  obtain ⟨l,hchain⟩ := h.step ht
  rcases a with p | ⟨p,n⟩
  · have hp : p ≤ N := by
      rcases h.cases p with hunborn | rfl | ⟨-,hk⟩
      · rw [NumberChain.step,runProcess,hunborn] at ht
        exact absurd ht (by simp)
      · exact h.le
      · exact hk.le.trans h.le
    refine remaining_run_lt hp ?_ ht
    rw [h.next]
    exact h.unborn (k+1) (Or.inr k.lt_succ_self)
  · exact remaining_drain_lt ht hchain.out_prefix.length_le

/-- Where no process can go on, all have ended. -/
theorem Chain.exited_of_stuck (h : Chain N k s) (hs : (system N).Stuck s) {p : ℕ} (hp : 1 ≤ p)
    (hk : p ≤ k) : (s.procs p).pc = .exited := by
  have hrun : ∀ q, runProcess N s q (s.procs q) = none := fun q => hs (.run q)
  induction hk using Nat.decreasingInduction with
  | self =>
    have hnewest := h.newest
    have hnone := hrun k
    rw [Newest] at hnewest
    rcases hpc : (s.procs k).pc <;> simp [runProcess,hpc] at hnone hnewest ⊢
  | of_succ q hq ih =>
    have hnext := ih (Nat.le_add_left 1 q)
    have hnone := hrun q
    obtain ⟨-,hwait | ⟨hleave | hexited,-⟩⟩ := h.older q hp hq
    · simp [runProcess,hwait,hnext] at hnone
    · simp [runProcess,hleave] at hnone
    · exact hexited

end Run

/-- All runs come to an end, and what all processes have written there is the line of the numbers;
before that it is a beginning of this line. -/
theorem main_prints {N : ℕ} (h : 1 ≤ N) :
    (∃ bound, ∀ as s, (system N).run as (system N).start = some s → as.length ≤ bound) ∧
    (∀ s, (system N).Reachable s → s.out <+: numbers N ++ [10]) ∧
    ∀ s, (system N).Reachable s → (system N).Stuck s →
      s.out = numbers N ++ [10] ∧ ∀ p, 1 ≤ p → p < s.next → (s.procs p).pc = .exited := by
  have hchain := chain_invariant h
  refine ⟨hchain.bounded (remaining N) fun ⟨_,hs⟩ ht => hs.remaining_lt ht,fun s hs => ?_,
    fun s hs hstuck => ?_⟩
  · obtain ⟨k,hk⟩ := hchain.reachable hs
    exact hk.out_prefix
  · obtain ⟨k,hk⟩ := hchain.reachable hs
    have hlast := hk.exited_of_stuck hstuck hk.pos (Nat.le_refl k)
    have hnewest := hk.newest
    rw [Newest,hlast] at hnewest
    refine ⟨hnewest.1,fun p hp hnext => hk.exited_of_stuck hstuck hp ?_⟩
    rw [hk.next] at hnext
    exact Nat.le_of_lt_succ hnext

theorem main_prints_three :
    1 ≤ 3 ∧ (∃ bound, ∀ as s, (system 3).run as (system 3).start = some s → as.length ≤ bound) ∧
    (∀ s, (system 3).Reachable s → s.out <+: numbers 3 ++ [10]) ∧
    ∀ s, (system 3).Reachable s → (system 3).Stuck s →
      s.out = numbers 3 ++ [10] ∧ ∀ p, 1 ≤ p → p < s.next → (s.procs p).pc = .exited :=
  ⟨by decide,main_prints (by decide)⟩

end NumberChain
end SomeCode
