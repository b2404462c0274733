import SomeCode.PipelineChain

/-! Where the pipelines come to a stop. The programs of `inf15-3.c` run at the same time, and a
full pipe is emptied by the next program. `inf15-4.c` and `main.c` wait for a program before they
start the one that reads its output, and the output has to fit into the pipe. -/
namespace SomeCode
namespace ShellPipelines

open Processes Transition

def DeadlockFree (M : System State (ℕ × ℕ)) : Prop :=
  ∀ s, M.Reachable s → M.Stuck s → s.code 1 = some .exited

def Bounded (M : System State (ℕ × ℕ)) : Prop :=
  ∃ bound, ∀ as s, M.run as M.start = some s → as.length ≤ bound

def output : List Op → ℕ
  | [] => 0
  | .read :: ops => output ops
  | .write n :: ops => n + output ops

variable {cfg : Config} {orig0 orig1 k i d : ℕ} {rank : ℕ → ℕ} {s t : State}

theorem inputOf_eq_readEnd {pipe : ℕ → ℕ} {j x : ℕ} (h : inputOf orig0 pipe j = .readEnd x) :
    j ≠ 1 ∧ pipe (j-1) = x := by
  unfold inputOf at h
  split at h
  · cases h
  · cases h
    exact ⟨‹_›,rfl⟩

theorem outputOf_eq_writeEnd {pipe : ℕ → ℕ} {j x : ℕ} (h : outputOf orig1 k pipe j = .writeEnd x) :
    j ≠ k ∧ pipe j = x := by
  unfold outputOf at h
  split at h
  · cases h
  · cases h
    exact ⟨‹_›,rfl⟩

theorem Wired.file_zero {pipe : ℕ → ℕ} {j : ℕ} {u : FdTable} (h : Wired orig0 orig1 k pipe j u) :
    u.file 0 = some (inputOf orig0 pipe j) := by simp [FdTable.file,h.stdin]

theorem Wired.file_one {pipe : ℕ → ℕ} {j : ℕ} {u : FdTable} (h : Wired orig0 orig1 k pipe j u) :
    u.file 1 = some (outputOf orig1 k pipe j) := by simp [FdTable.file,h.stdout]

namespace Inf15_3

/-- Every child that has not ended waits for another one, and nobody else has a pipe open. -/
structure Halted (cfg : Config) (orig0 orig1 k : ℕ) (s : State) : Prop where
  blocked : ∀ j q, 1 ≤ j → j ≤ k → s.proc (j+1) = some q → q.code ≠ .exited →
    Sole orig0 orig1 k j q.fds ∧ ∃ ops, q.code = .image j ops ∧ Blocked cfg q s ops
  holder : ∀ f, (∀ n, f ≠ .other n) → s.isOpen f = true → ∃ j q, 1 ≤ j ∧ j ≤ k ∧
    s.proc (j+1) = some q ∧ q.code ≠ .exited ∧ q.fds.holds f = true

/-- A full pipe would have a reader that waits for room in the next pipe, and so on to the last
program, which writes to no pipe. -/
theorem Halted.not_full (hcap : 0 < cfg.capacity) (h : Halted cfg orig0 orig1 k s) {n j x : ℕ}
    (hn : j+n = k) (hfull : cfg.capacity ≤ s.held x) (hopen : s.isOpen (.readEnd x) = true)
    (hx : outputOf orig1 k id j = .writeEnd x) : False := by
  induction n generalizing j x with
  | zero => exact (outputOf_eq_writeEnd hx).1 hn
  | succ n ih =>
    obtain ⟨b,r,hb1,hbk,hr,hlive,hholds⟩ := h.holder _ (by simp) hopen
    obtain ⟨⟨hwired,hsole⟩,ops,-,hblocked⟩ := h.blocked b r hb1 hbk hr hlive
    obtain ⟨hb,hbx⟩ := inputOf_eq_readEnd (hsole x hholds)
    have hjx : j = x := (outputOf_eq_writeEnd hx).2
    match ops with
    | [] => exact hblocked
    | .read :: _ =>
      obtain ⟨y,hin,hempty,-⟩ := hblocked
      rw [hwired.file_zero,Option.some.injEq] at hin
      have hxy : x = y := hbx.symm.trans (inputOf_eq_readEnd hin).2
      subst hxy
      omega
    | .write _ :: _ =>
      obtain ⟨y,hout,-,hopen',hfull'⟩ := hblocked
      rw [hwired.file_one,Option.some.injEq] at hout
      have hbj : b-1 = x := hbx
      exact ih (j := b) (by omega) hfull' hopen' hout

/-- A reader that waits has a writer before it, and the first program reads from no pipe. -/
theorem Halted.ended (hcap : 0 < cfg.capacity) (h : Halted cfg orig0 orig1 k s) {j : ℕ} {q : Proc}
    (hj : 1 ≤ j) (hjk : j ≤ k) (hq : s.proc (j+1) = some q) : q.code = .exited := by
  induction j using Nat.strongRecOn generalizing q with
  | ind j ih =>
    by_contra hlive
    obtain ⟨⟨hwired,-⟩,ops,-,hblocked⟩ := h.blocked j q hj hjk hq hlive
    match ops with
    | [] => exact hblocked
    | .read :: _ =>
      obtain ⟨x,hin,-,hopen⟩ := hblocked
      rw [hwired.file_zero,Option.some.injEq] at hin
      obtain ⟨hj1,hjx⟩ := inputOf_eq_readEnd hin
      obtain ⟨b,r,hb1,hbk,hr,hblive,hholds⟩ := h.holder _ (by simp) hopen
      obtain ⟨⟨hbwired,-⟩,-⟩ := h.blocked b r hb1 hbk hr hblive
      have hbx : x = b := (hbwired.writes x hholds).1
      have hjx' : j-1 = x := hjx
      exact hblive (ih b (by omega) hb1 hbk hr)
    | .write _ :: _ =>
      obtain ⟨x,hout,-,hopen,hfull⟩ := hblocked
      rw [hwired.file_one,Option.some.injEq] at hout
      exact h.not_full hcap (Nat.add_sub_of_le hjk) hfull hopen hout

theorem halted_of_none {q : Proc} (hl : Launched cfg (plan orig0 orig1 k) (k+1) d rank s)
    (hs : ∀ a, step cfg a s = none) (hq : s.proc 1 = some q) (honly : Only q.fds []) :
    Halted cfg orig0 orig1 k s where
  blocked j r hj hjk hr hlive := by
    obtain ⟨ops,hcode,-,hsole,hblocked⟩ :=
      (hl.kid_of_none hj (by omega) hr fun c => hs (j+1,c)).resolve_left hlive
    exact ⟨hsole,ops,hcode,hblocked⟩
  holder f hf hopen := by
    obtain ⟨p,-,r,hr,hholds⟩ := isOpen_iff.mp hopen
    rcases hl.root_or_kid hr with rfl | ⟨j,rfl,hj,hjk⟩
    · rw [hq] at hr
      cases hr
      simp [honly.holds_eq_false hf] at hholds
    · refine ⟨j,r,hj,by omega,hr,fun hended => ?_,hholds⟩
      simp [(hl.kid hj hjk hr).holds_eq_false hended] at hholds

theorem ended_of_none (hcap : 0 < cfg.capacity) (hl : Launched cfg (plan orig0 orig1 k) i d rank s)
    (hs : ∀ a, step cfg a s = none) : s.code 1 = some .exited := by
  refine (hl.root_of_none fun c => hs (1,c)).resolve_right ?_
  rintro ⟨q,next,child,hq,hdi,hchild,hlive,hlaunch⟩
  obtain ⟨rfl,honly⟩ : i = k+1 ∧ Only q.fds [] := hlaunch.atRoot
  exact hlive ((halted_of_none hl hs hq honly).ended hcap (by omega) (by omega) hchild)

theorem finishes {fds : FdTable} (junk : ℕ → ℤ) (h : Initial fds orig0 orig1)
    (hcap : 0 < cfg.capacity) (hexecs : ∀ j, 2 ≤ j → j < k → cfg.execs j = true) :
    Bounded (system cfg fds (main junk (k+1))) ∧ DeadlockFree (system cfg fds (main junk (k+1))) := by
  obtain ⟨m,hm⟩ := exists_launches cfg junk h hexecs
  refine ⟨hm.bounded,fun s hr hs => ?_⟩
  obtain ⟨i,d,rank,hl⟩ := hm.reachable hr
  exact ended_of_none hcap hl hs

end Inf15_3

section Sequential

/-- What a program other than the last writes is at most what a pipe holds. -/
def Fits (cfg : Config) (k : ℕ) : Prop :=
  ∀ j, 1 ≤ j → j < k → cfg.execs j = true → output (cfg.script j) ≤ cfg.capacity

/-- How full the pipe behind program `j` is while its child runs this code -/
def Fills (cfg : Config) (j held : ℕ) : Code → Prop
  | .main _ => held = 0
  | .image _ ops => held + output ops = output (cfg.script j)
  | .exited => cfg.execs j = true → output (cfg.script j) ≤ cfg.capacity

/-- Nobody reads a pipe before the next program starts, so what program `d+1` has still to write
and what is in its pipe are its output; the programs before it had room for theirs. -/
structure Filled (cfg : Config) (k i d : ℕ) (s : State) : Prop where
  held_le : ∀ x, s.held x ≤ cfg.capacity
  fresh : ∀ x, d < x → s.held x = 0
  idle : i = d+1 → s.held d = 0
  done : ∀ j, 1 ≤ j → j ≤ d → j < k → cfg.execs j = true → output (cfg.script j) ≤ cfg.capacity
  live : i = d+2 → d+1 < k → ∃ c, s.code (d+2) = some c ∧ Fills cfg (d+1) (s.held d) c

theorem le_of_launched (h : Launched cfg (seqPlan orig0 orig1 k) i d rank s) : i ≤ d+2 := by
  obtain ⟨q,hq,-,hstage⟩ := h.root
  cases hcode : q.code with
  | main p =>
    simp only [RootStage,hcode] at hstage
    exact hstage.atRoot.1
  | image a ops => simp [RootStage,hcode] at hstage
  | exited =>
    simp only [RootStage,hcode] at hstage
    have hi : i = k+1 := hstage.2.1
    have hd : d = k := hstage.2.2
    omega

theorem isOpen_of_launched (h : Launched cfg (seqPlan orig0 orig1 k) (d+2) d rank s)
    (hdk : d+1 < k) : s.isOpen (.readEnd d) = true := by
  obtain ⟨q,hq,-,hstage⟩ := h.root
  have hpid := h.nextPid
  refine isOpen_iff.mpr ⟨1,by omega,q,hq,?_⟩
  cases hcode : q.code with
  | main p =>
    simp only [RootStage,hcode] at hstage
    exact (hstage.atRoot.2 rfl).2 (by omega)
  | image a ops => simp [RootStage,hcode] at hstage
  | exited =>
    simp only [RootStage,hcode] at hstage
    have hi : d+2 = k+1 := hstage.2.1
    omega

theorem Filled.root_step {choice i' d' : ℕ} {rank' : ℕ → ℕ} (hf : Filled cfg k i d s)
    (h : Launched cfg (seqPlan orig0 orig1 k) i d rank s)
    (ht : Launched cfg (seqPlan orig0 orig1 k) i' d' rank' t)
    (hstep : step cfg (1,choice) s = some t)
    (hcases : i' = i ∧ d' = d ∨ i' = i+1 ∧ d' = d ∨ i' = i ∧ d' = d+1) : Filled cfg k i' d' t := by
  obtain ⟨q,hq,-,hstage⟩ := h.root
  obtain ⟨hheld,hcode,hnew⟩ : t.held = s.held ∧ (∀ c ≠ 1, c ≠ s.nextPid → t.code c = s.code c) ∧
      (t.nextPid = s.nextPid ∨ ∃ next, t.code s.nextPid = some (.main next)) := by
    simp only [step,hq] at hstep
    cases hcode : q.code with
    | main p =>
      simp only [hcode] at hstep
      exact syscall_frame hq (by simp [hcode]) hstep
    | image a ops => simp [RootStage,hcode] at hstage
    | exited => simp [hcode] at hstep
  have hd := h.collected
  have hpid := h.nextPid
  have hpid' := ht.nextPid
  have hle := le_of_launched ht
  rcases hcases with ⟨rfl,rfl⟩ | ⟨rfl,rfl⟩ | ⟨rfl,rfl⟩
  · refine ⟨by rw [hheld]; exact hf.held_le,by rw [hheld]; exact hf.fresh,
      by rw [hheld]; exact hf.idle,hf.done,fun hi hdk => ?_⟩
    rw [hheld,hcode (d'+2) (by omega) (by omega)]
    exact hf.live hi hdk
  · have hi : i = d'+1 := by omega
    refine ⟨by rw [hheld]; exact hf.held_le,by rw [hheld]; exact hf.fresh,by omega,hf.done,
      fun _ _ => ?_⟩
    obtain ⟨next,hnext⟩ := hnew.resolve_left (by omega)
    rw [hpid,hi] at hnext
    rw [hheld]
    exact ⟨_,hnext,hf.idle hi⟩
  · have hi : i' = d+2 := Nat.le_antisymm (le_of_launched h) ht.collected
    refine ⟨by rw [hheld]; exact hf.held_le,fun x hx => ?_,fun _ => ?_,fun j hj hjd hjk he => ?_,
      by omega⟩
    · rw [hheld]
      exact hf.fresh x (by omega)
    · rw [hheld]
      exact hf.fresh (d+1) (Nat.lt_succ_self d)
    · by_cases hjd' : j ≤ d
      · exact hf.done j hj hjd' hjk he
      · obtain rfl : j = d+1 := by omega
        -- the child that is collected has ended
        obtain ⟨c,hc,hfills⟩ := hf.live hi hjk
        obtain ⟨r,hr,hkid⟩ := ht.kids (d+1) hj (by omega)
        rw [← hcode (d+2) (by omega) (by omega),code_eq_some hr,hkid.ended (Nat.le_refl _)] at hc
        cases hc
        exact hfills he

theorem Kid.step_code {j m choice : ℕ} {q : Proc} {p : Prog} {plan : Plan}
    (h : Kid cfg plan j q.fds p m) (hno : ∀ c, s.isChild (j+1) c = false)
    (hstep : syscall cfg (j+1) choice q s p = some t) :
    (∃ p', t.code (j+1) = some (.main p')) ∨ t.code (j+1) = some (.image j (cfg.script j)) ∨
      cfg.execs j = false ∧ t.code (j+1) = some .exited := by
  cases h with
  | dup2 | close =>
    cases hstep
    exact .inl ⟨_,(code_self rfl).trans rfl⟩
  | execlp =>
    simp only [syscall] at hstep
    split at hstep
    · cases hstep
      exact .inr (.inl ((code_self rfl).trans rfl))
    · cases hstep
      exact .inl ⟨_,(code_self rfl).trans rfl⟩
  | waitpid =>
    rw [syscall,if_neg (by simp),if_neg (by simp [hno])] at hstep
    cases hstep
    exact .inl ⟨_,(code_self rfl).trans rfl⟩
  | exit _ he =>
    cases hstep
    exact .inr (.inr ⟨he,(code_self rfl).trans rfl⟩)

theorem Filled.operated {choice : ℕ} {q : Proc} {ops : List Op} (hf : Filled cfg k (d+2) d s)
    (h : Launched cfg (seqPlan orig0 orig1 k) (d+2) d rank s) (hq : s.proc (d+2) = some q)
    (hcode : q.code = .image (d+1) ops)
    (hwired : Wired orig0 orig1 k (fun j => j-1) (d+1) q.fds)
    (hop : Operated cfg (d+2) choice q (d+1) s ops t) : Filled cfg k (d+2) d t := by
  have hbound : d+2 ≤ k+1 := h.bound
  have hlive : d+1 < k → s.held d + output ops = output (cfg.script (d+1)) := by
    intro hdk
    obtain ⟨c,hc,hfills⟩ := hf.live rfl hdk
    rw [code_eq_some hq,hcode] at hc
    cases hc
    exact hfills
  have hout : ∀ x, q.fds.file 1 = some (.writeEnd x) → d+1 < k ∧ x = d := by
    intro x hx
    rw [hwired.file_one,Option.some.injEq] at hx
    obtain ⟨hne,he⟩ := outputOf_eq_writeEnd hx
    exact ⟨by omega,he.symm⟩
  cases hop with
  | done =>
    refine ⟨hf.held_le,hf.fresh,by omega,hf.done,fun _ hdk => ⟨_,code_self rfl,fun _ => ?_⟩⟩
    rw [← hlive hdk]
    exact hf.held_le d
  | read => exact ⟨hf.held_le,hf.fresh,by omega,hf.done,fun _ hdk => ⟨_,code_self rfl,hlive hdk⟩⟩
  | @take _ x hin _ _ =>
    rw [hwired.file_zero,Option.some.injEq] at hin
    obtain ⟨hd,hx⟩ := inputOf_eq_readEnd hin
    have hxd : x < d := by omega
    refine ⟨fun y => ?_,fun y hy => ?_,by omega,hf.done,fun _ hdk => ⟨_,code_self rfl,?_⟩⟩
    · simp only [Function.update_apply]
      split
      · exact Nat.le_trans (Nat.sub_le _ _) (hf.held_le x)
      · exact hf.held_le y
    · simp only [Function.update_of_ne (show y ≠ x by omega)]
      exact hf.fresh y hy
    · simp only [Function.update_of_ne (show d ≠ x by omega)]
      exact hlive hdk
  | @write _ n hn =>
    refine ⟨hf.held_le,hf.fresh,by omega,hf.done,fun _ hdk => ⟨_,code_self rfl,?_⟩⟩
    have hwrite : q.fds.file 1 = some (.writeEnd d) := by
      simp [hwired.file_one,outputOf,Nat.ne_of_lt hdk]
    have hzero : n = 0 := hn.resolve_right fun hno => hno d hwrite
    have hh := hlive hdk
    rwa [output,hzero,Nat.zero_add] at hh
  | @put _ n x hw _ hle hroom =>
    obtain ⟨hdk,rfl⟩ := hout x hw
    refine ⟨fun y => ?_,fun y hy => ?_,by omega,hf.done,fun _ _ => ⟨_,code_self rfl,?_⟩⟩
    · simp only [Function.update_apply]
      split
      · exact hroom
      · exact hf.held_le y
    · simp only [Function.update_of_ne (show y ≠ x by omega)]
      exact hf.fresh y hy
    · have hh := hlive hdk
      simp only [output] at hh
      simp only [Function.update_self,Fills,output]
      omega
  | sigpipe hw hclosed =>
    obtain ⟨hdk,rfl⟩ := hout _ hw
    simp [isOpen_of_launched h hdk] at hclosed

theorem Filled.kid_step {j choice : ℕ} {q : Proc} (hf : Filled cfg k i d s)
    (h : Launched cfg (seqPlan orig0 orig1 k) i d rank s) (hj : 1 ≤ j) (hji : j < i)
    (hq : s.proc (j+1) = some q) (hstep : step cfg (j+1,choice) s = some t) :
    Filled cfg k i d t := by
  have hkid := h.kid hj hji hq
  have hstage := hkid.stage
  simp only [step,hq] at hstep
  have hle := le_of_launched h
  have hjd : ¬ j ≤ d := fun hjd => by simp [hkid.ended hjd] at hstep
  obtain rfl : j = d+1 := by omega
  obtain rfl : i = d+2 := by omega
  cases hcode : q.code with
  | main p =>
    simp only [hcode] at hstep
    simp only [Stage,hcode] at hstage
    have hheld := (syscall_frame hq (by simp [hcode]) hstep).1
    refine ⟨by rw [hheld]; exact hf.held_le,by rw [hheld]; exact hf.fresh,
      by rw [hheld]; exact hf.idle,hf.done,fun hi hdk => ?_⟩
    obtain ⟨c,hc,hfills⟩ := hf.live hi hdk
    rw [code_eq_some hq,hcode] at hc
    cases hc
    have hzero : s.held d = 0 := hfills
    rw [hheld]
    rcases Kid.step_code hstage (h.childless hj) hstep with ⟨p',hp⟩ | himage | ⟨he,hexit⟩
    · exact ⟨_,hp,hzero⟩
    · exact ⟨_,himage,by simp [Fills,hzero]⟩
    · exact ⟨_,hexit,fun ht => by simp [he] at ht⟩
  | image a ops =>
    simp only [hcode] at hstep
    simp only [Stage,hcode] at hstage
    obtain ⟨rfl,-,hwired,-⟩ := hstage
    exact hf.operated h hq hcode hwired (operated_of_some hstep)
  | exited => simp [hcode] at hstep

theorem Filled.step {a : ℕ × ℕ} (hf : Filled cfg k i d s)
    (h : Launched cfg (seqPlan orig0 orig1 k) i d rank s) (hstep : step cfg a s = some t) :
    ∃ i' d' rank', Launched cfg (seqPlan orig0 orig1 k) i' d' rank' t ∧ Filled cfg k i' d' t := by
  obtain ⟨p,choice⟩ := a
  obtain ⟨q,hq⟩ := exists_proc_of_step hstep
  rcases h.root_or_kid hq with rfl | ⟨j,rfl,hj,hji⟩
  · obtain ⟨i',d',rank',ht,-,hcases⟩ := h.root_step hstep
    exact ⟨i',d',rank',ht,hf.root_step h ht hstep hcases⟩
  · obtain ⟨m,-,ht⟩ := h.kid_step hj hji hq hstep
    exact ⟨i,d,_,ht,hf.kid_step h hj hji hq hstep⟩

theorem exists_filled {fds : FdTable} {p : Prog} {m : ℕ}
    (h : Launches cfg (seqPlan orig0 orig1 k) 1 0 0 fds p m)
    (hr : (system cfg fds p).Reachable s) : ∃ i d rank,
      Launched cfg (seqPlan orig0 orig1 k) i d rank s ∧ Filled cfg k i d s := by
  have hi : (system cfg fds p).Invariant fun s => ∃ i d rank,
      Launched cfg (seqPlan orig0 orig1 k) i d rank s ∧ Filled cfg k i d s := by
    refine ⟨⟨fun ⟨i,d,rank,hl,hf⟩ hs => hf.step hl hs⟩,1,0,_,h.launched,?_⟩
    exact ⟨fun _ => Nat.zero_le _,fun _ _ => rfl,fun _ => rfl,by omega,by omega⟩
  exact hi.reachable hr

/-- The child that the parent waits for can go on while its output fits. -/
theorem ended_of_fits (hfits : Fits cfg k)
    (h : Launched cfg (seqPlan orig0 orig1 k) i d rank s) (hf : Filled cfg k i d s)
    (hs : ∀ a, step cfg a s = none) : s.code 1 = some .exited := by
  refine (h.root_of_none fun c => hs (1,c)).resolve_right ?_
  rintro ⟨q,next,child,hq,hdi,hchild,hlive,hlaunch⟩
  obtain rfl : i = d+2 := Nat.le_antisymm (le_of_launched h) hdi
  obtain ⟨ops,hcode,he,hwired,hblocked⟩ :=
    (h.kid_of_none (Nat.le_add_left 1 d) hdi hchild fun c => hs (d+1+1,c)).resolve_left hlive
  have hwired : Wired orig0 orig1 k (fun j => j-1) (d+1) child.fds := hwired
  match ops with
  | [] => exact hblocked
  | .read :: rest =>
    -- the pipe it reads from has no writer any more
    obtain ⟨x,hin,-,hopen⟩ := hblocked
    rw [hwired.file_zero,Option.some.injEq] at hin
    obtain ⟨hd,hx⟩ := inputOf_eq_readEnd hin
    obtain ⟨p,-,r,hr,hholds⟩ := isOpen_iff.mp hopen
    rcases h.root_or_kid hr with rfl | ⟨j,rfl,hj,hji⟩
    · rw [hq] at hr
      cases hr
      have hwait : Waiting k (d+2) d q.fds := hlaunch.atRoot
      have hxi := ((hwait.2 rfl).1 x hholds).1
      omega
    · have hkid := h.kid hj hji hr
      by_cases hjd : j ≤ d
      · simp [hkid.holds_eq_false (hkid.ended hjd)] at hholds
      · obtain rfl : j = d+1 := by omega
        rw [hchild] at hr
        cases hr
        have hxd := (hwired.writes x hholds).1
        omega
  | .write n :: rest =>
    obtain ⟨x,hout,hn,-,hfull⟩ := hblocked
    rw [hwired.file_one,Option.some.injEq] at hout
    obtain ⟨hdk,hx⟩ := outputOf_eq_writeEnd hout
    have hbound : d+2 ≤ k+1 := h.bound
    have hxd : x = d := hx.symm
    obtain ⟨c,hc,hfills⟩ := hf.live rfl (by omega)
    rw [code_eq_some hchild,hcode] at hc
    cases hc
    have hsum : s.held d + (n + output rest) = output (cfg.script (d+1)) := hfills
    have hle := hfits (d+1) (Nat.le_add_left 1 d) (by omega) he
    rw [hxd] at hfull
    omega

/-- In programs that wait for each child in turn, a run can only end if the outputs fit. -/
theorem deadlockFree_iff_fits {fds : FdTable} {p : Prog} {m : ℕ}
    (h : Launches cfg (seqPlan orig0 orig1 k) 1 0 0 fds p m) :
    DeadlockFree (system cfg fds p) ↔ Fits cfg k := by
  constructor
  · intro hfree j hj hjk he
    obtain ⟨s,hr,hs⟩ := h.exists_stuck
    obtain ⟨i,d,rank,hl,hf⟩ := exists_filled h hr
    obtain ⟨q,hq,-,hstage⟩ := hl.root
    have hcode := hfree s hr hs
    rw [code_eq_some hq,Option.some.injEq] at hcode
    simp only [RootStage,hcode] at hstage
    have hd : d = k := hstage.2.2
    exact hf.done j hj (by omega) hjk he
  · intro hfits s hr hs
    obtain ⟨i,d,rank,hl,hf⟩ := exists_filled h hr
    exact ended_of_fits hfits hl hf hs

end Sequential

namespace MainC

def Becomes (cfg : Config) (m : ℕ) : Code → Prop
  | .main p => p = .execlp 1 .exit ∧ weight (cfg.script 1) + 1 ≤ m ∨ p = .exit ∧ 1 ≤ m
  | .image _ ops => weight ops ≤ m
  | .exited => True

structure Alone (cfg : Config) (m : ℕ) (s : State) : Prop where
  absent : ∀ p, p ≠ 1 → s.proc p = none
  root : ∃ q, s.proc 1 = some q ∧ Only q.fds [] ∧ Becomes cfg m q.code

theorem Alone.set {m n : ℕ} {q : Proc} (h : Alone cfg m s)
    (hproc : t.proc = Function.update s.proc 1 (some q)) (honly : Only q.fds [])
    (hcode : Becomes cfg n q.code) : Alone cfg n t where
  absent p hp := by
    rw [hproc,Function.update_of_ne hp]
    exact h.absent p hp
  root := ⟨q,by rw [hproc,Function.update_self],honly,hcode⟩

theorem only_nil : Only ⟨[]⟩ [] := fun f e he => by simp at he

theorem Alone.step {m : ℕ} {a : ℕ × ℕ} (h : Alone cfg m s) (hstep : step cfg a s = some t) :
    ∃ n < m, Alone cfg n t := by
  obtain ⟨p,choice⟩ := a
  obtain rfl : p = 1 := by
    by_contra hp
    simp [Processes.step,h.absent p hp] at hstep
  obtain ⟨q,hq,honly,hbecomes⟩ := h.root
  simp only [Processes.step,hq] at hstep
  cases hcode : q.code with
  | main prog =>
    simp only [hcode,Becomes] at hstep hbecomes
    rcases hbecomes with ⟨rfl,hm⟩ | ⟨rfl,hm⟩
    · have hpos : 1 ≤ weight (cfg.script 1) := Nat.le_add_left 1 _
      simp only [syscall] at hstep
      split at hstep
      · cases hstep
        exact ⟨weight (cfg.script 1),hm,h.set rfl honly.exec (Nat.le_refl _)⟩
      · cases hstep
        exact ⟨1,by omega,h.set rfl honly (.inr ⟨rfl,Nat.le_refl 1⟩)⟩
    · cases hstep
      exact ⟨0,hm,h.set rfl only_nil trivial⟩
  | image a ops =>
    simp only [hcode,Becomes] at hstep hbecomes
    obtain ⟨q',hproc,-,-,hcode',-⟩ := operate_cases hstep
    have hpos : 0 < weight ops := Nat.succ_pos _
    rcases hcode' with ⟨he,hf⟩ | ⟨⟨ops',he⟩,hf⟩
    · exact ⟨m-1,by omega,h.set hproc (hf ▸ only_nil) (by simp [he,Becomes])⟩
    · have hw := operate_weight hstep (by rw [hproc,Function.update_self]) he
      exact ⟨m-1,by omega,h.set hproc (hf ▸ honly) (by simp only [he,Becomes]; omega)⟩
  | exited => simp [hcode] at hstep

theorem file_ne_of_only {u : FdTable} {f : File} (h : Only u []) (hf : ∀ n, f ≠ .other n) (fd : ℤ) :
    u.file fd ≠ some f := by
  intro hfile
  obtain ⟨e,he,hef⟩ := Option.map_eq_some_iff.mp hfile
  have hholds : u.holds f = true := FdTable.holds_iff.mpr ⟨fd,e,he,hef⟩
  simp [h.holds_eq_false hf] at hholds

theorem Alone.ended {m : ℕ} (h : Alone cfg m s) (hs : ∀ a, Processes.step cfg a s = none) :
    s.code 1 = some .exited := by
  obtain ⟨q,hq,honly,hbecomes⟩ := h.root
  rw [code_eq_some hq,Option.some.injEq]
  have hstep : ∀ choice, Processes.step cfg (1,choice) s = none := fun choice => hs (1,choice)
  simp only [Processes.step,hq] at hstep
  cases hcode : q.code with
  | main prog =>
    have h0 := hstep 0
    simp only [hcode,Becomes] at h0 hbecomes
    rcases hbecomes with ⟨rfl,-⟩ | ⟨rfl,-⟩
    · simp only [syscall] at h0
      split at h0 <;> cases h0
    · cases h0
  | image a ops =>
    simp only [hcode] at hstep
    have hblocked := blocked_of_none hstep
    cases ops with
    | nil => exact hblocked.elim
    | cons op ops =>
      cases op with
      | read =>
        obtain ⟨x,hin,-⟩ := hblocked
        exact absurd hin (file_ne_of_only honly (by simp) 0)
      | write _ =>
        obtain ⟨x,hout,-⟩ := hblocked
        exact absurd hout (file_ne_of_only honly (by simp) 1)
  | exited => rfl

theorem runs_alone (cfg : Config) {fds : FdTable} (h : Initial fds orig0 orig1) (junk : ℕ → ℕ → ℤ) :
    Bounded (system cfg fds (main junk 2)) ∧ DeadlockFree (system cfg fds (main junk 2)) := by
  have hstart : Alone cfg (weight (cfg.script 1) + 1) (system cfg fds (main junk 2)).start := by
    refine ⟨fun p hp => ?_,⟨0,.main (main junk 2),fds,false⟩,?_,h.only,.inl ⟨rfl,Nat.le_refl _⟩⟩
    · simp [system,init,hp]
    · simp [system,init]
  have hrun : ∀ {as s}, (system cfg fds (main junk 2)).run as
      (system cfg fds (main junk 2)).start = some s → ∃ n, Alone cfg n s ∧
        as.length + n ≤ weight (cfg.script 1) + 1 := fun hr =>
    System.run_length_le_of_rank (R := Alone cfg) (fun hs ht => hs.step ht) hstart hr
  constructor
  · refine ⟨weight (cfg.script 1) + 1,fun as s hr => ?_⟩
    obtain ⟨n,-,hle⟩ := hrun hr
    omega
  · rintro s ⟨as,hr⟩ hs
    obtain ⟨n,ha,-⟩ := hrun hr
    exact ha.ended hs

end MainC

section Finish

variable {fds : FdTable}

/-- `inf15-3.c` always finishes; `inf15-4.c` and `main.c` finish where each output that is read by
a later program fits into a pipe. -/
theorem finishes_iff_fits (cfg : Config) (k : ℕ) (junk : ℕ → ℤ) (junk' : ℕ → ℕ → ℤ)
    (h : Initial fds orig0 orig1) :
    (0 < cfg.capacity → (∀ j, 2 ≤ j → j < k → cfg.execs j = true) →
      Bounded (system cfg fds (Inf15_3.main junk (k+1))) ∧
      DeadlockFree (system cfg fds (Inf15_3.main junk (k+1)))) ∧
    ((∀ j, 1 ≤ j → j < k → cfg.execs j = true) →
      Bounded (system cfg fds (Inf15_4.main (k+1))) ∧
      (DeadlockFree (system cfg fds (Inf15_4.main (k+1))) ↔ Fits cfg k)) ∧
    Bounded (system cfg fds (MainC.main junk' (k+1))) ∧
    (DeadlockFree (system cfg fds (MainC.main junk' (k+1))) ↔ Fits cfg k) := by
  refine ⟨fun hcap hexecs => Inf15_3.finishes junk h hcap hexecs,fun hexecs => ?_,?_⟩
  · obtain ⟨m,hm⟩ := Inf15_4.exists_launches cfg h hexecs
    exact ⟨hm.bounded,deadlockFree_iff_fits hm⟩
  · by_cases hk : k = 1
    · subst hk
      obtain ⟨hb,hfree⟩ := MainC.runs_alone cfg h junk'
      exact ⟨hb,fun _ j hj hj1 => by omega,fun _ => hfree⟩
    · obtain ⟨m,hm⟩ := MainC.exists_launches cfg junk' hk h
      exact ⟨hm.bounded,deadlockFree_iff_fits hm⟩

/-- Two programs that write three bytes each, with pipes for four -/
theorem finishes_two : let cfg : Config := ⟨4,fun _ => true,fun _ => [.read,.write 3]⟩
    DeadlockFree (system cfg standardFds (Inf15_3.main (fun _ => 0) 3)) ∧
    DeadlockFree (system cfg standardFds (Inf15_4.main 3)) ∧
    DeadlockFree (system cfg standardFds (MainC.main (fun _ _ => 0) 3)) := by
  intro cfg
  have hfits : Fits cfg 2 := fun _ _ _ _ => show output [.read,.write 3] ≤ 4 by decide
  obtain ⟨h3,h4,-,hm⟩ := finishes_iff_fits cfg 2 (fun _ => 0) (fun _ _ => 0) initial_standardFds
  exact ⟨(h3 (by decide) fun _ _ _ => rfl).2,(h4 fun _ _ _ => rfl).2.mpr hfits,hm.mpr hfits⟩

/-- The first of two programs writes one byte more than a pipe holds: `inf15-3.c` finishes, the
other two do not. -/
theorem full_pipe_deadlocks : let cfg : Config := ⟨65536,fun _ => true,fun _ => [.write 65537]⟩
    (Bounded (system cfg standardFds (Inf15_3.main (fun _ => 0) 3)) ∧
      DeadlockFree (system cfg standardFds (Inf15_3.main (fun _ => 0) 3))) ∧
    ¬ DeadlockFree (system cfg standardFds (Inf15_4.main 3)) ∧
    ¬ DeadlockFree (system cfg standardFds (MainC.main (fun _ _ => 0) 3)) := by
  intro cfg
  have hfits : ¬ Fits cfg 2 := fun h =>
    absurd (h 1 (Nat.le_refl 1) (Nat.lt_succ_self 1) rfl) (by decide)
  refine ⟨Inf15_3.finishes (k := 2) _ initial_standardFds (by decide) fun _ _ _ => rfl,?_,?_⟩
  · obtain ⟨m,hm⟩ := Inf15_4.exists_launches (k := 2) cfg initial_standardFds fun _ _ _ => rfl
    exact fun h => hfits ((deadlockFree_iff_fits hm).mp h)
  · obtain ⟨m,hm⟩ := MainC.exists_launches (k := 2) cfg (fun _ _ => 0) (by decide) initial_standardFds
    exact fun h => hfits ((deadlockFree_iff_fits hm).mp h)

end Finish

end ShellPipelines
end SomeCode
