import SomeCode.Contributors
import SomeCode.Transition
import Mathlib.Tactic

/-! `pmap_process` of `inf20-1.c`: a process is forked for each processor, which maps one
block of the input and one item that is left over. The result, the semaphore and the array
`pids` lie in memory that all of these processes share. -/
namespace SomeCode
namespace ParallelMap

open Contributors Transition

section Share

/-- The indices that worker `i` of `p` maps -/
def Share (n p i k : ℕ) : Prop :=
  (i*(n/p) ≤ k ∧ k < i*(n/p) + n/p) ∨ (i < n%p ∧ k = n/p*p + i)

variable {n p i i' k : ℕ}

theorem block_le (hi : i < p) : i*(n/p) + n/p ≤ n/p*p := by
  calc i*(n/p) + n/p = (i+1)*(n/p) := by ring
    _ ≤ p*(n/p) := Nat.mul_le_mul_right _ hi
    _ = n/p*p := Nat.mul_comm _ _

theorem Share.lt (h : Share n p i k) (hi : i < p) : k < n := by
  have hdiv := Nat.div_add_mod n p
  have hblock := block_le (n := n) hi
  rw [Nat.mul_comm p] at hdiv
  obtain ⟨-,hk⟩ | ⟨hr,rfl⟩ := h <;> omega

theorem Share.unique (h : Share n p i k) (h' : Share n p i' k) (hi : i < p)
    (hi' : i' < p) : i = i' := by
  have hb := block_le (n := n) hi
  have hb' := block_le (n := n) hi'
  obtain ⟨h1,h2⟩ | ⟨-,he⟩ := h <;> obtain ⟨h1',h2'⟩ | ⟨-,he'⟩ := h'
  · obtain hlt | heq | hgt := lt_trichotomy i i'
    · have hle : i*(n/p) + n/p ≤ i'*(n/p) := by
        rw [← Nat.succ_mul]
        exact Nat.mul_le_mul_right _ hlt
      omega
    · exact heq
    · have hle : i'*(n/p) + n/p ≤ i*(n/p) := by
        rw [← Nat.succ_mul]
        exact Nat.mul_le_mul_right _ hgt
      omega
  · omega
  · omega
  · omega

theorem exists_share (hp : 0 < p) (hk : k < n) : ∃ i < p, Share n p i k := by
  have hdiv := Nat.div_add_mod n p
  have hmod := Nat.mod_lt n hp
  rw [Nat.mul_comm p] at hdiv
  by_cases hblock : k < n/p*p
  · have hw : 0 < n/p := Nat.pos_of_ne_zero fun h0 => by simp [h0] at hblock
    refine ⟨k/(n/p),Nat.div_lt_of_lt_mul hblock,.inl ⟨Nat.div_mul_le_self _ _,?_⟩⟩
    have hk := Nat.div_add_mod k (n/p)
    have hlt := Nat.mod_lt k hw
    rw [Nat.mul_comm] at hk
    omega
  · exact ⟨k-n/p*p,by omega,.inr ⟨by omega,by omega⟩⟩

end Share

variable {A : Type*}

/-- What a process does next. `assign i v` is before `pids[i] = v` where `fork` has returned
`v`, and `test i v` before `if (pids[i] == 0)`; in `blockStore` and `extraStore` the value of
`func` has been computed and is to be stored. -/
inductive Pc (A : Type*)
  | fork (i : ℕ)
  | assign (i v : ℕ)
  | test (i v : ℕ)
  | block (i j : ℕ)
  | blockStore (i j : ℕ) (x : A)
  | extra (i : ℕ)
  | extraStore (i : ℕ) (x : A)
  | post
  | getvalue
  | exited
  | semWait (k : ℕ)
  | waitpid (k : ℕ)
  | returned
  deriving DecidableEq

structure Process (A : Type*) where
  pc : Pc A
  parent : ℕ
  reaped : Bool

/-- The processes are numbered as they are forked, so that 0 is the one that has called
`pmap_process`; a process and an index are noted for each access to `in` and `buffer`. -/
structure State (A : Type*) where
  born : ℕ
  procs : ℕ → Process A
  pids : ℕ → ℕ
  semaphore : ℕ
  buffer : ℕ → A
  reads : List (ℕ × ℕ)
  writes : List (ℕ × ℕ)

namespace State

def setPc (s : State A) (p : ℕ) (pc : Pc A) : State A :=
  { s with procs := Function.update s.procs p { s.procs p with pc := pc } }

def fork (s : State A) (p i : ℕ) : State A :=
  { s with
    born := s.born+1
    procs := Function.update (s.setPc p (.assign i s.born)).procs s.born ⟨.assign i 0,p,false⟩ }

/-- A child of `p` that `waitpid (pids[k], &state, 0)` can wait for; 0 stands for any child. -/
def Awaits (s : State A) (p k c : ℕ) : Prop :=
  c < s.born ∧ c ≠ 0 ∧ (s.procs c).parent = p ∧ (s.procs c).reaped = false ∧
    (s.pids k = 0 ∨ s.pids k = c)

instance (s : State A) (p k c : ℕ) : Decidable (s.Awaits p k c) :=
  inferInstanceAs (Decidable (_ ∧ _))

end State

/-- A process goes on, or its `waitpid` returns the child `c`. -/
inductive Action
  | call (p : ℕ)
  | reap (p c : ℕ)
  deriving DecidableEq

section Program

variable (func : A → A) (inp : ℕ → A) (count procCnt : ℕ)

/-- A step that process `p` takes by itself -/
def pmapProcess (p : ℕ) (s : State A) : Option (State A) :=
  let work := count/procCnt
  let remainder := count%procCnt
  match (s.procs p).pc with
  | .fork i =>
    if i < procCnt then some (s.fork p i) else some (s.setPc p (.semWait 0))
  | .assign i v => some { s.setPc p (.test i v) with pids := Function.update s.pids i v }
  | .test i _ => some (s.setPc p (if s.pids i = 0 then .block i 0 else .fork (i+1)))
  | .block i j =>
    if j < work then
      some { s.setPc p (.blockStore i j (func (inp (i*work+j)))) with
        reads := (p,i*work+j) :: s.reads }
    else some (s.setPc p (.extra i))
  | .blockStore i j x =>
    some { s.setPc p (.block i (j+1)) with
      buffer := Function.update s.buffer (i*work+j) x
      writes := (p,i*work+j) :: s.writes }
  | .extra i =>
    if i < remainder then
      some { s.setPc p (.extraStore i (func (inp (work*procCnt+i)))) with
        reads := (p,work*procCnt+i) :: s.reads }
    else some (s.setPc p .post)
  | .extraStore i x =>
    some { s.setPc p .post with
      buffer := Function.update s.buffer (work*procCnt+i) x
      writes := (p,work*procCnt+i) :: s.writes }
  | .post => some { s.setPc p .getvalue with semaphore := s.semaphore+1 }
  | .getvalue => some (s.setPc p .exited)
  | .semWait k =>
    if k < procCnt then
      if s.semaphore = 0 then none
      else some { s.setPc p (.semWait (k+1)) with semaphore := s.semaphore-1 }
    else some (s.setPc p (.waitpid 0))
  | .waitpid k =>
    if k < procCnt then
      -- without a child to wait for, `waitpid` returns -1
      if ∃ c < s.born, s.Awaits p k c then none else some (s.setPc p (.waitpid (k+1)))
    else some (s.setPc p .returned)
  | .exited | .returned => none

/-- `waitpid` returns for a child that has exited. -/
def reap (p c : ℕ) (s : State A) : Option (State A) :=
  match (s.procs p).pc, (s.procs c).pc with
  | .waitpid k, .exited =>
    if k < procCnt ∧ s.Awaits p k c then
      some { s.setPc p (.waitpid (k+1)) with
        procs := Function.update (s.setPc p (.waitpid (k+1))).procs c
          { s.procs c with reaped := true } }
    else none
  | _, _ => none

def step (a : Action) (s : State A) : Option (State A) :=
  match a with
  | .call p => if p < s.born then pmapProcess func inp count procCnt p s else none
  | .reap p c => if p < s.born then reap procCnt p c s else none

/-- The mapped memory is zero at first. -/
def init (zero : A) : State A := ⟨1,fun _ => ⟨.fork 0,0,false⟩,fun _ => 0,0,fun _ => zero,[],[]⟩

def system (zero : A) : System (State A) Action :=
  ⟨init zero,step func inp count procCnt⟩

end Program

/-- The process finds in `pids[i]` what its own `fork` has returned. -/
def Own (s : State A) : Action → Prop
  | .call p =>
    match (s.procs p).pc with
    | .test i v => s.pids i = v
    | _ => True
  | .reap _ _ => True

instance (s : State A) (a : Action) : Decidable (Own s a) := by
  unfold Own
  split
  · split
    · exact inferInstanceAs (Decidable (_ = _))
    · exact inferInstanceAs (Decidable True)
  · exact inferInstanceAs (Decidable True)

def Pc.posted : Pc A → ℕ
  | .getvalue | .exited => 1
  | _ => 0

def Pc.taken : Pc A → ℕ
  | .semWait k => k
  | _ => 0

section Invariant

variable (func : A → A) (inp : ℕ → A) (count procCnt : ℕ)

/-- Where the process that called the function can be, when `born` processes are there -/
def ParentAt (born : ℕ) : Pc A → Prop
  | .fork i => born = i+1 ∧ i ≤ procCnt
  | .assign i v | .test i v => born = i+2 ∧ v = i+1 ∧ i < procCnt
  | .semWait k => born = procCnt+1 ∧ k ≤ procCnt
  | .waitpid _ | .returned => born = procCnt+1
  | _ => False

def WorkerAt (i : ℕ) : Pc A → Prop
  | .assign i' v | .test i' v => i' = i ∧ v = 0
  | .block i' j => i' = i ∧ j ≤ count/procCnt
  | .blockStore i' j x => i' = i ∧ j < count/procCnt ∧ x = func (inp (i*(count/procCnt)+j))
  | .extra i' => i' = i
  | .extraStore i' x => i' = i ∧ i < count%procCnt ∧ x = func (inp (count/procCnt*procCnt+i))
  | .post | .getvalue | .exited => True
  | _ => False

def Wrote (i : ℕ) (pc : Pc A) (k : ℕ) : Prop :=
  match pc with
  | .block _ j | .blockStore _ j _ => i*(count/procCnt) ≤ k ∧ k < i*(count/procCnt) + j
  | .extra _ | .extraStore _ _ =>
    i*(count/procCnt) ≤ k ∧ k < i*(count/procCnt) + count/procCnt
  | .post | .getvalue | .exited => Share count procCnt i k
  | _ => False

def State.posts (s : State A) : ℕ := ∑ c ∈ Finset.range s.born, (s.procs c).pc.posted

/-- What holds as long as every process reads its own entry of `pids`: process 0 forks the
workers and waits, and process `i+1` is worker `i`. -/
structure Inv (s : State A) : Prop where
  parent : ParentAt procCnt s.born (s.procs 0).pc
  worker : ∀ c, 1 ≤ c → c < s.born → WorkerAt func inp count procCnt (c-1) (s.procs c).pc
  writes : ∀ c k, (c,k) ∈ s.writes ↔
    1 ≤ c ∧ c < s.born ∧ Wrote count procCnt (c-1) (s.procs c).pc k
  nodup : s.writes.Nodup
  buffer : ∀ c k, (c,k) ∈ s.writes → s.buffer k = func (inp k)
  reads : ∀ c k, (c,k) ∈ s.reads → k < count
  posts : (s.procs 0).pc.taken + s.semaphore ≤ s.posts
  waited : ∀ k, (s.procs 0).pc = .waitpid k ∨ (s.procs 0).pc = .returned → procCnt ≤ s.posts

variable {func inp count procCnt} {s : State A} {c k : ℕ}

theorem ParentAt.pos {born : ℕ} {pc : Pc A} (h : ParentAt procCnt born pc) :
    1 ≤ born ∧ born ≤ procCnt+1 := by
  unfold ParentAt at h
  split at h <;> first | exact h.elim | omega

theorem Inv.index (hi : Inv func inp count procCnt s) (hc : 1 ≤ c) (hb : c < s.born) :
    c-1 < procCnt := by
  have := hi.parent.pos
  omega

theorem Wrote.share {i : ℕ} {pc : Pc A} (h : Wrote count procCnt i pc k)
    (hpc : WorkerAt func inp count procCnt i pc) : Share count procCnt i k := by
  cases pc with
  | block i' j =>
    obtain ⟨hl,hu⟩ := h
    obtain ⟨-,hj⟩ := hpc
    exact .inl ⟨hl,by omega⟩
  | blockStore i' j x =>
    obtain ⟨hl,hu⟩ := h
    obtain ⟨-,hj,-⟩ := hpc
    exact .inl ⟨hl,by omega⟩
  | extra | extraStore => exact .inl h
  | post | getvalue | exited => exact h
  | _ => exact h.elim

theorem Inv.writer (hi : Inv func inp count procCnt s) {i : ℕ} (hip : i < procCnt)
    (hs : Share count procCnt i k) (hw : (c,k) ∈ s.writes) : c = i+1 := by
  obtain ⟨hc,hb,hwrote⟩ := (hi.writes c k).mp hw
  have hshare := hwrote.share (hi.worker c hc hb)
  have := hshare.unique hs (hi.index hc hb) hip
  omega

section Moves

variable {q : Pc A}

@[simp] theorem setPc_procs_self : ((s.setPc c q).procs c).pc = q := by simp [State.setPc]

theorem setPc_procs_ne {d : ℕ} (h : d ≠ c) : (s.setPc c q).procs d = s.procs d := by
  simp [State.setPc,h]

theorem posts_setPc (hb : c < s.born) :
    (s.procs c).pc.posted + (s.setPc c q).posts = q.posted + s.posts := by
  refine add_sum_congr_of_mem (Finset.mem_range.mpr hb) (fun d _ hd => ?_) ?_
  · rw [setPc_procs_ne hd]
  · rw [setPc_procs_self,Nat.add_comm]

/-- What the invariant says of the places of all processes, for one of them that moves -/
theorem Inv.places (hi : Inv func inp count procCnt s) (hc : 1 ≤ c)
    (hok : WorkerAt func inp count procCnt (c-1) q) :
    ParentAt procCnt s.born ((s.setPc c q).procs 0).pc ∧ ∀ d, 1 ≤ d → d < s.born →
      WorkerAt func inp count procCnt (d-1) ((s.setPc c q).procs d).pc := by
  refine ⟨?_,fun d hd hdb => ?_⟩
  · rw [setPc_procs_ne (by omega)]
    exact hi.parent
  · by_cases hdc : d = c
    · subst hdc
      rwa [setPc_procs_self]
    · rw [setPc_procs_ne hdc]
      exact hi.worker d hd hdb

/-- What it says of the semaphore, for a worker that moves and posts `n` times -/
theorem Inv.counts (hi : Inv func inp count procCnt s) (hc : 1 ≤ c) (hb : c < s.born) {n : ℕ}
    (hp : q.posted = (s.procs c).pc.posted + n) :
    ((s.setPc c q).procs 0).pc.taken + (s.semaphore+n) ≤ (s.setPc c q).posts ∧
      ∀ k, ((s.setPc c q).procs 0).pc = .waitpid k ∨ ((s.setPc c q).procs 0).pc = .returned →
        procCnt ≤ (s.setPc c q).posts := by
  have hposts : (s.setPc c q).posts = s.posts+n := by
    have h := posts_setPc (q := q) hb
    omega
  have hold := hi.posts
  rw [setPc_procs_ne (by omega),hposts]
  exact ⟨by omega,fun k h => (hi.waited k h).trans (Nat.le_add_right _ _)⟩

theorem Inv.workerMove (hi : Inv func inp count procCnt s) (hc : 1 ≤ c) (hb : c < s.born)
    (hok : WorkerAt func inp count procCnt (c-1) q)
    (hw : ∀ k, Wrote count procCnt (c-1) q k ↔ Wrote count procCnt (c-1) (s.procs c).pc k)
    (hp : q.posted = (s.procs c).pc.posted) : Inv func inp count procCnt (s.setPc c q) := by
  obtain ⟨hparent,hworker⟩ := hi.places hc hok
  obtain ⟨hposts,hwaited⟩ := hi.counts hc hb (n := 0) hp
  refine ⟨hparent,hworker,fun d k => ?_,hi.nodup,hi.buffer,hi.reads,hposts,hwaited⟩
  by_cases hdc : d = c
  · subst hdc
    rw [setPc_procs_self,hw]
    exact hi.writes d k
  · rw [setPc_procs_ne hdc]
    exact hi.writes d k

theorem Inv.workerStore (hi : Inv func inp count procCnt s) (hc : 1 ≤ c) (hb : c < s.born)
    (hok : WorkerAt func inp count procCnt (c-1) q) {n : ℕ} {x : A}
    (hw : ∀ k, Wrote count procCnt (c-1) q k ↔
      k = n ∨ Wrote count procCnt (c-1) (s.procs c).pc k)
    (hnew : ¬ Wrote count procCnt (c-1) (s.procs c).pc n) (hx : x = func (inp n))
    (hp : q.posted = (s.procs c).pc.posted) :
    Inv func inp count procCnt { s.setPc c q with
      buffer := Function.update s.buffer n x
      writes := (c,n) :: s.writes } := by
  obtain ⟨hparent,hworker⟩ := hi.places hc hok
  obtain ⟨hposts,hwaited⟩ := hi.counts hc hb (n := 0) hp
  refine ⟨hparent,hworker,?_,?_,?_,hi.reads,hposts,hwaited⟩
  · intro d k
    rw [List.mem_cons,Prod.mk.injEq]
    by_cases hdc : d = c
    · subst hdc
      simp only [setPc_procs_self,hw,hi.writes]
      exact ⟨fun h => ⟨hc,hb,h.imp And.right fun h => h.2.2⟩,
        fun h => h.2.2.imp (fun hk => ⟨trivial,hk⟩) fun hk => ⟨hc,hb,hk⟩⟩
    · simp only [setPc_procs_ne hdc,hdc,false_and,false_or]
      exact hi.writes d k
  · exact List.nodup_cons.mpr ⟨fun hm => hnew ((hi.writes c n).mp hm).2.2,hi.nodup⟩
  · intro d k hm
    by_cases hk : k = n
    · subst hk
      exact (Function.update_self _ _ _).trans hx
    · have hold : (d,k) ∈ s.writes := (List.mem_cons.mp hm).resolve_left fun he => hk (by simp_all)
      exact (Function.update_of_ne hk _ _).trans (hi.buffer d k hold)

theorem Inv.workerPost (hi : Inv func inp count procCnt s) (hc : 1 ≤ c) (hb : c < s.born)
    (hpc : (s.procs c).pc = .post) : Inv func inp count procCnt
      { s.setPc c .getvalue with semaphore := s.semaphore+1 } := by
  obtain ⟨hparent,hworker⟩ := hi.places (q := .getvalue) hc trivial
  obtain ⟨hposts,hwaited⟩ := hi.counts (q := .getvalue) hc hb (n := 1) (by rw [hpc]; rfl)
  refine ⟨hparent,hworker,fun d k => ?_,hi.nodup,hi.buffer,hi.reads,hposts,hwaited⟩
  by_cases hdc : d = c
  · subst hdc
    have hmem := hi.writes d k
    rw [hpc] at hmem
    simp only [setPc_procs_self]
    exact hmem
  · simp only [setPc_procs_ne hdc]
    exact hi.writes d k

theorem Inv.read (hi : Inv func inp count procCnt s) {n : ℕ} (hn : n < count) :
    Inv func inp count procCnt { s with reads := (c,n) :: s.reads } :=
  ⟨hi.parent,hi.worker,hi.writes,hi.nodup,hi.buffer,fun d k hm => by
    obtain he | hm := List.mem_cons.mp hm
    · cases he
      exact hn
    · exact hi.reads d k hm,hi.posts,hi.waited⟩

theorem Inv.storePid (hi : Inv func inp count procCnt s) (f : ℕ → ℕ) :
    Inv func inp count procCnt { s with pids := f } :=
  ⟨hi.parent,hi.worker,hi.writes,hi.nodup,hi.buffer,hi.reads,hi.posts,hi.waited⟩

theorem Inv.parentMove (hi : Inv func inp count procCnt s) {sem : ℕ}
    (hok : ParentAt procCnt s.born q) (hp : q.posted = (s.procs 0).pc.posted)
    (htaken : q.taken + sem ≤ (s.procs 0).pc.taken + s.semaphore)
    (hwaited : ∀ k, q = .waitpid k ∨ q = .returned → procCnt ≤ s.posts) :
    Inv func inp count procCnt { s.setPc 0 q with semaphore := sem } := by
  have hne : ∀ d, 1 ≤ d → (s.setPc 0 q).procs d = s.procs d := fun d hd =>
    setPc_procs_ne (by omega)
  have hposts : (s.setPc 0 q).posts = s.posts := by
    have h := posts_setPc (q := q) hi.parent.pos.1
    omega
  refine ⟨?_,fun d hd hdb => ?_,fun d k => ?_,hi.nodup,hi.buffer,hi.reads,?_,?_⟩
  · change ParentAt procCnt s.born ((s.setPc 0 q).procs 0).pc
    rwa [setPc_procs_self]
  · change WorkerAt func inp count procCnt (d-1) ((s.setPc 0 q).procs d).pc
    rw [hne d hd]
    exact hi.worker d hd hdb
  · change (d,k) ∈ s.writes ↔ 1 ≤ d ∧ d < s.born ∧
      Wrote count procCnt (d-1) ((s.setPc 0 q).procs d).pc k
    by_cases hd : 1 ≤ d
    · rw [hne d hd]
      exact hi.writes d k
    · exact ⟨fun hm => absurd ((hi.writes d k).mp hm).1 hd,fun h => absurd h.1 hd⟩
  · change ((s.setPc 0 q).procs 0).pc.taken + sem ≤ (s.setPc 0 q).posts
    rw [setPc_procs_self,hposts]
    exact htaken.trans hi.posts
  · change ∀ k, ((s.setPc 0 q).procs 0).pc = _ ∨ _ → _ ≤ (s.setPc 0 q).posts
    rw [setPc_procs_self,hposts]
    exact hwaited

theorem fork_procs_child (i : ℕ) :
    (s.fork c i).procs s.born = ⟨.assign i 0,c,false⟩ := Function.update_self _ _ _

theorem fork_procs_self (hb : c < s.born) (i : ℕ) :
    ((s.fork c i).procs c).pc = .assign i s.born := by
  simp [State.fork,Function.update_of_ne hb.ne]

theorem fork_procs_ne {d : ℕ} (hd : d ≠ c) (hb : d ≠ s.born) (i : ℕ) :
    (s.fork c i).procs d = s.procs d := by
  simp [State.fork,Function.update_of_ne hb,setPc_procs_ne hd]

theorem Inv.parentFork (hi : Inv func inp count procCnt s) {i : ℕ}
    (hpc : (s.procs 0).pc = .fork i) (hlt : i < procCnt) :
    Inv func inp count procCnt (s.fork 0 i) := by
  have hborn : s.born = i+1 := by
    have h := hi.parent
    rw [hpc] at h
    exact h.1
  have h0 := fork_procs_self (s := s) (show 0 < s.born by omega) i
  have hposts : (s.fork 0 i).posts = s.posts := by
    have hsum := Finset.sum_range_succ (fun d => ((s.fork 0 i).procs d).pc.posted) s.born
    rw [fork_procs_child] at hsum
    refine (hsum.trans (Nat.add_zero _)).trans (Finset.sum_congr rfl fun d hd => ?_)
    by_cases hd0 : d = 0
    · subst hd0
      rw [h0,hpc]
      rfl
    · rw [fork_procs_ne hd0 (Finset.mem_range.mp hd).ne]
  refine ⟨?_,fun d hd hdb => ?_,fun d k => ?_,hi.nodup,hi.buffer,hi.reads,?_,fun k hk => ?_⟩
  · rw [h0]
    exact ⟨by simp [State.fork,hborn],hborn,hlt⟩
  · by_cases hd0 : d = s.born
    · subst hd0
      rw [fork_procs_child]
      exact ⟨by omega,rfl⟩
    · have hlt : d < s.born := lt_of_le_of_ne (Nat.lt_succ_iff.mp hdb) hd0
      rw [fork_procs_ne (by omega) hd0]
      exact hi.worker d hd hlt
  · by_cases hd0 : d = s.born
    · subst hd0
      rw [fork_procs_child]
      exact ⟨fun hm => absurd ((hi.writes _ k).mp hm).2.1 (lt_irrefl _),fun h => h.2.2.elim⟩
    · refine (hi.writes d k).trans (and_congr_right fun hd => ?_)
      rw [fork_procs_ne (by omega) hd0]
      refine and_congr_left fun _ => ?_
      change d < s.born ↔ d < s.born+1
      omega
  · have h := hi.posts
    rw [hpc] at h
    rw [h0,hposts]
    exact h
  · rw [h0] at hk
    simp at hk

theorem Inv.procs (hi : Inv func inp count procCnt s) {f : ℕ → Process A}
    (hf : ∀ d, (f d).pc = (s.procs d).pc) :
    Inv func inp count procCnt { s with procs := f } := by
  have hposts : ∑ d ∈ Finset.range s.born, (f d).pc.posted = s.posts :=
    Finset.sum_congr rfl fun d _ => by rw [hf]
  refine ⟨?_,fun d hd hdb => ?_,fun d k => ?_,hi.nodup,hi.buffer,hi.reads,?_,fun k hk => ?_⟩
  · rw [hf]
    exact hi.parent
  · rw [hf]
    exact hi.worker d hd hdb
  · rw [hf]
    exact hi.writes d k
  · rw [hf]
    exact hi.posts.trans hposts.ge
  · rw [hf] at hk
    exact (hi.waited k hk).trans hposts.ge

end Moves

section Steps

variable {t : State A}

theorem Inv.workerStep (hi : Inv func inp count procCnt s) (hc : 1 ≤ c) (hb : c < s.born)
    (hown : Own s (.call c)) (h : pmapProcess func inp count procCnt c s = some t) :
    Inv func inp count procCnt t := by
  have hat := hi.worker c hc hb
  have hip := hi.index hc hb
  unfold pmapProcess at h
  unfold Own at hown
  cases hpc : (s.procs c).pc with
  | assign i v =>
    simp only [hpc,Option.some.injEq] at h hat
    subst h
    exact (hi.workerMove (q := .test i v) hc hb hat (by simp [hpc,Wrote])
      (by rw [hpc]; rfl)).storePid _
  | test i v =>
    simp only [hpc,Option.some.injEq] at h hat hown
    obtain ⟨rfl,rfl⟩ := hat
    rw [if_pos hown] at h
    subst h
    refine hi.workerMove (q := .block _ 0) hc hb ⟨rfl,Nat.zero_le _⟩ (fun k => ?_) (by rw [hpc]; rfl)
    rw [hpc]
    refine ⟨fun hk => ?_,False.elim⟩
    obtain ⟨hl,hu⟩ := hk
    omega
  | block i j =>
    simp only [hpc] at h hat
    obtain ⟨rfl,hj⟩ := hat
    split_ifs at h with hlt
    · obtain rfl := Option.some.inj h
      refine Inv.read (hi.workerMove (q := .blockStore _ j _) hc hb ⟨rfl,hlt,rfl⟩
        (by simp [hpc,Wrote]) (by rw [hpc]; rfl)) ?_
      exact Share.lt (.inl ⟨Nat.le_add_right _ _,by omega⟩) hip
    · obtain rfl := Option.some.inj h
      obtain rfl : j = count/procCnt := by omega
      exact hi.workerMove (q := .extra _) hc hb rfl (by simp [hpc,Wrote]) (by rw [hpc]; rfl)
  | blockStore i j x =>
    simp only [hpc,Option.some.injEq] at h hat
    obtain ⟨rfl,hj,hx⟩ := hat
    subst h
    refine hi.workerStore (q := .block _ (j+1)) hc hb ⟨rfl,hj⟩ (fun k => ?_) ?_ hx (by rw [hpc]; rfl)
    · rw [hpc]
      simp only [Wrote]
      omega
    · rw [hpc]
      simp only [Wrote]
      omega
  | extra i =>
    simp only [hpc] at h hat
    obtain rfl := hat
    split_ifs at h with hlt
    · obtain rfl := Option.some.inj h
      refine Inv.read (hi.workerMove (q := .extraStore _ _) hc hb ⟨rfl,hlt,rfl⟩
        (by simp [hpc,Wrote]) (by rw [hpc]; rfl)) ?_
      exact Share.lt (.inr ⟨hlt,rfl⟩) hip
    · obtain rfl := Option.some.inj h
      exact hi.workerMove (q := .post) hc hb trivial (by simp [hpc,Wrote,Share,hlt]) (by rw [hpc]; rfl)
  | extraStore i x =>
    simp only [hpc,Option.some.injEq] at h hat
    obtain ⟨rfl,hlt,hx⟩ := hat
    subst h
    refine hi.workerStore (q := .post) hc hb trivial (fun k => ?_) ?_ hx (by rw [hpc]; rfl)
    · rw [hpc]
      simp only [Wrote,Share,hlt,true_and]
      exact or_comm
    · rw [hpc]
      have hblock := block_le (n := count) hip
      simp only [Wrote]
      omega
  | post =>
    simp only [hpc,Option.some.injEq] at h
    subst h
    exact hi.workerPost hc hb hpc
  | getvalue =>
    simp only [hpc,Option.some.injEq] at h
    subst h
    exact hi.workerMove (q := .exited) hc hb trivial (by simp [hpc,Wrote]) (by rw [hpc]; rfl)
  | exited => simp [hpc] at h
  | _ =>
    rw [hpc] at hat
    exact hat.elim

theorem Inv.parentStep (hi : Inv func inp count procCnt s) (hown : Own s (.call 0))
    (h : pmapProcess func inp count procCnt 0 s = some t) : Inv func inp count procCnt t := by
  have hat := hi.parent
  have hposts := hi.posts
  have hwaited := hi.waited
  unfold pmapProcess at h
  unfold Own at hown
  cases hpc : (s.procs 0).pc with
  | fork i =>
    simp only [hpc] at h hat
    split_ifs at h with hlt
    · obtain rfl := Option.some.inj h
      exact hi.parentFork hpc hlt
    · obtain rfl := Option.some.inj h
      have hborn : s.born = procCnt+1 := by have := hat.1; have := hat.2; omega
      exact hi.parentMove (q := .semWait 0) ⟨hborn,Nat.zero_le _⟩ (by rw [hpc]; rfl)
        (by rw [hpc]; exact le_rfl) (by simp)
  | assign i v =>
    simp only [hpc,Option.some.injEq] at h hat
    subst h
    exact (hi.parentMove (q := .test i v) hat (by rw [hpc]; rfl) (by rw [hpc]; exact le_rfl)
      (by simp)).storePid _
  | test i v =>
    simp only [hpc,Option.some.injEq] at h hat hown
    obtain ⟨hborn,rfl,hlt⟩ := hat
    rw [if_neg (by omega)] at h
    subst h
    exact hi.parentMove (q := .fork (i+1)) ⟨hborn,hlt⟩ (by rw [hpc]; rfl)
      (by rw [hpc]; exact le_rfl) (by simp)
  | semWait k =>
    simp only [hpc] at h hat
    obtain ⟨hborn,hk⟩ := hat
    rw [hpc] at hposts
    change k + s.semaphore ≤ s.posts at hposts
    split_ifs at h with hlt hzero
    · obtain rfl := Option.some.inj h
      refine hi.parentMove (q := .semWait (k+1)) ⟨hborn,hlt⟩ (by rw [hpc]; rfl) ?_ (by simp)
      rw [hpc]
      change k+1+(s.semaphore-1) ≤ k+s.semaphore
      omega
    · obtain rfl := Option.some.inj h
      refine hi.parentMove (q := .waitpid 0) hborn (by rw [hpc]; rfl) ?_ fun _ _ => by omega
      rw [hpc]
      exact Nat.add_le_add_right (Nat.zero_le k) _
  | waitpid k =>
    simp only [hpc] at h hat
    have hdone := hwaited k (.inl hpc)
    split_ifs at h
    · obtain rfl := Option.some.inj h
      exact hi.parentMove (q := .waitpid (k+1)) hat (by rw [hpc]; rfl)
        (by rw [hpc]; exact le_rfl) fun _ _ => hdone
    · obtain rfl := Option.some.inj h
      exact hi.parentMove (q := .returned) hat (by rw [hpc]; rfl)
        (by rw [hpc]; exact le_rfl) fun _ _ => hdone
  | returned => simp [hpc] at h
  | _ =>
    rw [hpc] at hat
    exact hat.elim

theorem Inv.reapStep (hi : Inv func inp count procCnt s) {p : ℕ}
    (h : reap procCnt p c s = some t) (hb : p < s.born) : Inv func inp count procCnt t := by
  unfold reap at h
  split at h
  · rename_i k hp hc
    have hp0 : p = 0 := by
      by_contra hne
      have hat := hi.worker p (by omega) hb
      rw [hp] at hat
      exact hat
    subst hp0
    have hat := hi.parent
    rw [hp] at hat
    split_ifs at h with hwait
    obtain rfl := Option.some.inj h
    have hmove := hi.parentMove (q := .waitpid (k+1)) hat (by rw [hp]; rfl)
      (by rw [hp]; exact le_rfl) fun _ _ => hi.waited k (.inl hp)
    refine hmove.procs fun d => ?_
    by_cases hd : d = c
    · subst hd
      have hne : d ≠ 0 := hwait.2.2.1
      have hself : Function.update (s.setPc 0 (.waitpid (k+1))).procs d
          { s.procs d with reaped := true } d = { s.procs d with reaped := true } :=
        Function.update_self _ _ _
      exact (congrArg Process.pc hself).trans (congrArg Process.pc (setPc_procs_ne hne)).symm
    · exact congrArg Process.pc (Function.update_of_ne hd _ _)
  · cases h

theorem Inv.step (hi : Inv func inp count procCnt s) {a : Action} (hown : Own s a)
    (h : step func inp count procCnt a s = some t) : Inv func inp count procCnt t := by
  cases a with
  | call p =>
    simp only [ParallelMap.step] at h
    split_ifs at h with hb
    by_cases hp : p = 0
    · subst hp
      exact hi.parentStep hown h
    · exact hi.workerStep (by omega) hb hown h
  | reap p c =>
    simp only [ParallelMap.step] at h
    split_ifs at h with hb
    exact hi.reapStep h hb

theorem inv_init (zero : A) : Inv func inp count procCnt (init zero) where
  parent := ⟨rfl,Nat.zero_le _⟩
  worker := fun c hc hb => absurd hb (by simp [init]; omega)
  writes := fun c k => ⟨fun h => absurd h (by simp [init]),fun h => absurd h.2.1 (by simp [init]; omega)⟩
  nodup := List.nodup_nil
  buffer := fun c k h => absurd h (by simp [init])
  reads := fun c k h => absurd h (by simp [init])
  posts := Nat.zero_le _
  waited := fun k h => by simp [init] at h

end Steps

section Returned

theorem Pc.posted_le (q : Pc A) : q.posted ≤ 1 := by
  cases q <;> simp [Pc.posted]

/-- When process 0 has taken the semaphore once for every worker, all have done their work. -/
theorem Inv.posted (hi : Inv func inp count procCnt s) (hr : (s.procs 0).pc = .returned)
    (hc : 1 ≤ c) (hb : c ≤ procCnt) : (s.procs c).pc.posted = 1 := by
  have hborn := hi.parent
  rw [hr] at hborn
  have hwaited := hi.waited 0 (.inr hr)
  have h0 : 0 ∈ Finset.range (procCnt+1) := Finset.mem_range.mpr (by omega)
  unfold State.posts at hwaited
  rw [show s.born = procCnt+1 from hborn,← Finset.add_sum_erase _ _ h0,hr] at hwaited
  change procCnt ≤ 0 + _ at hwaited
  have hle : ∀ d ∈ (Finset.range (procCnt+1)).erase 0, (s.procs d).pc.posted ≤ 1 :=
    fun d _ => Pc.posted_le _
  have hsum : ∑ d ∈ (Finset.range (procCnt+1)).erase 0, (s.procs d).pc.posted =
      ∑ _d ∈ (Finset.range (procCnt+1)).erase 0, 1 := by
    refine le_antisymm (Finset.sum_le_sum hle) ?_
    simp only [Finset.sum_const,smul_eq_mul,Nat.mul_one,Finset.card_erase_of_mem h0,
      Finset.card_range]
    omega
  exact (Finset.sum_eq_sum_iff_of_le hle).mp hsum c
    (Finset.mem_erase.mpr ⟨by omega,Finset.mem_range.mpr (by omega)⟩)

theorem Inv.written (hi : Inv func inp count procCnt s) (hr : (s.procs 0).pc = .returned)
    {i : ℕ} (hip : i < procCnt) (hs : Share count procCnt i k) : (i+1,k) ∈ s.writes := by
  have hborn := hi.parent
  rw [hr] at hborn
  have hposted := hi.posted hr (Nat.le_add_left 1 i) hip
  refine (hi.writes _ _).mpr ⟨by omega,by change s.born = procCnt+1 at hborn; omega,?_⟩
  rw [Nat.add_sub_cancel]
  cases hpc : (s.procs (i+1)).pc with
  | getvalue | exited => exact hs
  | _ =>
    rw [hpc] at hposted
    exact absurd hposted (by simp [Pc.posted])

end Returned

variable (func inp count)

/-- What the caller is promised: no process leaves the arrays, and when the function has
returned in the process that called it, every index has been written once, by one worker, and
the result is the input mapped. -/
structure Mapped (s : State A) : Prop where
  reads : ∀ c k, (c,k) ∈ s.reads → k < count
  writes : ∀ c k, (c,k) ∈ s.writes → k < count
  result : (s.procs 0).pc = .returned → ∀ k < count, s.buffer k = func (inp k) ∧
    ∃ c, 1 ≤ c ∧ s.writes.filter (fun w => w.2 = k) = [(c,k)]

variable {func inp count}

theorem Inv.mapped (hi : Inv func inp count procCnt s) (hp : 1 ≤ procCnt) :
    Mapped func inp count s where
  reads := hi.reads
  writes c k hm := by
    obtain ⟨hc,hb,hw⟩ := (hi.writes c k).mp hm
    exact (hw.share (hi.worker c hc hb)).lt (hi.index hc hb)
  result hr k hk := by
    obtain ⟨i,hip,hs⟩ := exists_share hp hk
    have hm := hi.written hr hip hs
    refine ⟨hi.buffer _ _ hm,i+1,by omega,?_⟩
    have hall : ∀ w ∈ s.writes.filter (fun w => w.2 = k), w = (i+1,k) := by
      rintro ⟨d,n⟩ hd
      obtain ⟨hw,hn⟩ := List.mem_filter.mp hd
      have hnk : n = k := by simpa using hn
      rw [hnk] at hw ⊢
      rw [hi.writer hip hs hw]
    have hlen : (s.writes.filter (fun w => w.2 = k)).length = 1 := by
      have hrep := List.eq_replicate_of_mem hall
      have hnd := hi.nodup.filter (fun w => decide (w.2 = k))
      rw [hrep,List.nodup_replicate] at hnd
      have hpos := List.length_pos_of_mem (List.mem_filter.mpr ⟨hm,by simp⟩ :
        (i+1,k) ∈ s.writes.filter fun w => w.2 = k)
      omega
    rw [List.eq_replicate_of_mem hall,hlen]
    rfl

end Invariant

/-- Every run in which the processes find their own values in `pids` maps the input, for every
function, every input and every number of processors, and in every interleaving. -/
theorem maps_when_own (func : A → A) (inp : ℕ → A) (zero : A) (count : ℕ) {procCnt : ℕ}
    (hp : 1 ≤ procCnt) {s : State A}
    (h : ((system func inp count procCnt zero).restrict Own).Reachable s) :
    Mapped func inp count s := by
  have hinv : ((system func inp count procCnt zero).restrict Own).Invariant
      (Inv func inp count procCnt) :=
    ⟨⟨fun hi ht => by
      obtain ⟨hown,hstep⟩ := System.restrict_step_eq_some.mp ht
      exact hi.step hown hstep⟩,inv_init zero⟩
  exact (hinv.reachable h).mapped hp

/-- Two workers map three items by turns. -/
def ownSchedule : List Action :=
  [List.replicate 6 (.call 0),[.call 1,.call 1,.call 2,.call 2],
    (List.replicate 5 [.call 2,.call 1]).flatten,[.call 2,.call 1,.call 1],
    List.replicate 4 (.call 0),[.reap 0 2,.reap 0 1,.call 0]].flatten

theorem maps_when_own_three : ∃ s,
    ((system (· + 1) (fun k => k+5) 3 2 0).restrict Own).run ownSchedule (init 0) = some s ∧
      (s.procs 0).pc = .returned ∧ ∀ k < 3, s.buffer k = k+5+1 := by
  have hrun : ∃ s,
      ((system (· + 1) (fun k => k+5) 3 2 0).restrict Own).run ownSchedule (init 0) = some s ∧
        (s.procs 0).pc = .returned := ⟨_,rfl,rfl⟩
  obtain ⟨s,hs,hr⟩ := hrun
  have hmapped := maps_when_own (· + 1) (fun k => k+5) 0 3 (by decide) ⟨ownSchedule,hs⟩
  exact ⟨s,hs,hr,fun k hk => (hmapped.result hr k hk).1⟩

/-- Worker 0 finds the process id that its parent has stored, and goes on as a parent; its own
child's zero then makes it worker 1, and nobody maps index 0. -/
theorem shared_pids_lose_a_block : ∃ s,
    (system (· + 1) (fun k => k+5) 2 2 0).Reachable s ∧ (s.procs 0).pc = .returned ∧
      s.buffer 0 = 0 ∧ s.writes = [(3,1),(2,1),(1,1)] ∧ ¬ Mapped (· + 1) (fun k => k+5) 2 s := by
  have hreach : ∃ s, (system (· + 1) (fun k => k+5) 2 2 0).Reachable s ∧
      (s.procs 0).pc = .returned ∧ s.buffer 0 = 0 ∧ s.writes = [(3,1),(2,1),(1,1)] :=
    ⟨_,⟨[.call 0,.call 1,.call 0,.call 1,.call 0,.call 1,.call 1,.call 2,.call 1,.call 2,
      .call 1,.call 1,.call 1,.call 1,.call 1,.call 1,
      .call 2,.call 2,.call 2,.call 2,.call 2,.call 2,
      .call 0,.call 0,.call 0,.call 0,.call 0,.call 0,.call 0,.reap 0 1,
      .call 3,.call 3,.call 3,.call 3,.call 3,.call 3,.call 3,.call 3,.reap 0 3,.call 0],rfl⟩,
      rfl,rfl,rfl⟩
  obtain ⟨s,hs,hr,hb,hw⟩ := hreach
  refine ⟨s,hs,hr,hb,hw,fun hm => ?_⟩
  have hres := (hm.result hr 0 (by decide)).1
  rw [hb] at hres
  exact absurd hres (by decide)

end ParallelMap
end SomeCode
