import SomeCode.Processes
import Mathlib.Algebra.BigOperators.Group.Finset.Piecewise
import Mathlib.Algebra.Order.BigOperators.Group.Finset

/-! A first process that launches the programs `1` to `count` in this order, each in a child of
its own. `Launches` runs its code symbolically, with an assertion on the descriptor table at every
call; from one such run follow the descriptors of every process in every interleaving, and a bound
on the length of the runs. -/
namespace SomeCode
namespace Processes

open Transition

/-- The assertions: on the first process that has launched the programs below `i` and collected
`d` of them, on the child for program `j` before `execlp`, and behind it -/
structure Plan where
  count : ℕ
  atRoot : ℕ → ℕ → FdTable → Prog → Prop
  atKid : ℕ → FdTable → Prop
  atImage : ℕ → FdTable → Prop

def Op.weight : Op → ℕ
  | .read => 1
  | .write n => n+1

def weight (ops : List Op) : ℕ := (ops.map Op.weight).sum + 1

@[simp] theorem weight_nil : weight [] = 1 := rfl

@[simp] theorem weight_cons (op : Op) (ops : List Op) : weight (op :: ops) = op.weight + weight ops := by
  simp [weight,Nat.add_assoc]

section Launch

variable (cfg : Config) (plan : Plan)

/-- The code of the child for program `j`, and a bound on the steps to its end. Where the program
cannot be executed the child ends without a call that concerns others. -/
inductive Kid (j : ℕ) : FdTable → Prog → ℕ → Prop
  | dup2 {t : FdTable} {old : ℤ} {new : ℕ} {next : Prog} {m : ℕ} (h : plan.atKid j t)
      (hnext : Kid j (t.dup2 old new) next m) : Kid j t (.dup2 old new next) (m+1)
  | close {t : FdTable} {fd : ℤ} {next : Prog} {m : ℕ} (h : plan.atKid j t)
      (hnext : Kid j (t.close fd) next m) : Kid j t (.close fd next) (m+1)
  | execlp {t : FdTable} {next : Prog} {m : ℕ} (h : plan.atKid j t)
      (himage : cfg.execs j = true → plan.atImage j t.exec)
      (hnext : cfg.execs j = false → Kid j t next m) :
      Kid j t (.execlp j next) (weight (cfg.script j) + m + 1)
  | waitpid {t : FdTable} {next : Prog} {m : ℕ} (h : plan.atKid j t) (hnext : Kid j t next m) :
      Kid j t (.waitpid 0 next) (m+1)
  | exit {t : FdTable} (h : plan.atKid j t) (he : cfg.execs j = false) : Kid j t .exit 1

/-- The code of the first process: `i` is the next program, `d` the number of children collected,
`n` the number of pipes made. -/
inductive Launches : ℕ → ℕ → ℕ → FdTable → Prog → ℕ → Prop
  | pipe {i d n : ℕ} {t : FdTable} {cloexec : Bool} {next : ℤ → ℤ → Prog} {m : ℕ}
      (h : plan.atRoot i d t (.pipe cloexec next))
      (hnext : Launches i d (n+1) (t.pipe cloexec n).1
        (next (t.pipe cloexec n).2.1 (t.pipe cloexec n).2.2) m) :
      Launches i d n t (.pipe cloexec next) (m+1)
  | close {i d n : ℕ} {t : FdTable} {fd : ℤ} {next : Prog} {m : ℕ}
      (h : plan.atRoot i d t (.close fd next)) (hnext : Launches i d n (t.close fd) next m) :
      Launches i d n t (.close fd next) (m+1)
  | fork {i d n : ℕ} {t : FdTable} {next : ℕ → Prog} {c m : ℕ}
      (h : plan.atRoot i d t (.fork next)) (hi : i ≤ plan.count)
      (hkid : Kid cfg plan i t (next 0) c) (hnext : Launches (i+1) d n t (next (i+1)) m) :
      Launches i d n t (.fork next) (c+m+1)
  | waitpid {i d n : ℕ} {t : FdTable} {next : Prog} {m : ℕ}
      (h : plan.atRoot i d t (.waitpid (d+2) next)) (hd : d+1 < i)
      (hnext : Launches i (d+1) n t next m) : Launches i d n t (.waitpid (d+2) next) (m+1)
  | exit {i d n : ℕ} {t : FdTable} (h : plan.atRoot i d t .exit) (hi : i = plan.count+1)
      (hd : d = plan.count) : Launches i d n t .exit 1

def Stage (j : ℕ) (q : Proc) (m : ℕ) : Prop :=
  match q.code with
  | .main p => Kid cfg plan j q.fds p m
  | .image i ops => i = j ∧ cfg.execs j = true ∧ plan.atImage j q.fds ∧ weight ops ≤ m
  | .exited => q.fds = ⟨[]⟩

def RootStage (i d n : ℕ) (q : Proc) (m : ℕ) : Prop :=
  match q.code with
  | .main p => Launches cfg plan i d n q.fds p m
  | .image _ _ => False
  | .exited => q.fds = ⟨[]⟩ ∧ i = plan.count+1 ∧ d = plan.count

def Proc.Ran (q : Proc) : Prop :=
  match q.code with
  | .main _ => False
  | _ => True

def ImageOk (e : Image) : Prop :=
  1 ≤ e.prog ∧ e.prog ≤ plan.count ∧
    ∃ t, plan.atImage e.prog t ∧ e.stdin = t.file 0 ∧ e.stdout = t.file 1

/-- What is known of the child for program `j` -/
structure KidOf (d j : ℕ) (s : State) (q : Proc) (m : ℕ) : Prop where
  parent : q.parent = 1
  reaped : q.reaped = decide (j ≤ d)
  stage : Stage cfg plan j q m
  ended : j ≤ d → q.code = .exited
  ran : cfg.execs j = true → q.Ran → j ∈ s.images.map Image.prog

/-- Process `j+1` is the child for program `j`, and `rank` bounds the steps of each process. -/
structure Launched (i d : ℕ) (rank : ℕ → ℕ) (s : State) : Prop where
  nextPid : s.nextPid = i+1
  collected : d < i
  bound : i ≤ plan.count+1
  images : ∀ e ∈ s.images, ImageOk plan e
  root : ∃ q, s.proc 1 = some q ∧ q.parent = 0 ∧ RootStage cfg plan i d s.nextPipe q (rank 1)
  kids : ∀ j, 1 ≤ j → j < i → ∃ q, s.proc (j+1) = some q ∧ KidOf cfg plan d j s q (rank (j+1))
  absent : ∀ p, p = 0 ∨ i < p → s.proc p = none

end Launch

section Step

variable {cfg : Config} {plan : Plan} {i d : ℕ} {rank : ℕ → ℕ} {s t : State}

def total (i : ℕ) (rank : ℕ → ℕ) : ℕ := ∑ p ∈ Finset.range (i+1), rank p

theorem total_update {p m : ℕ} (hp : p ≤ i) (hm : m < rank p) :
    total i (Function.update rank p m) < total i rank := by
  refine Finset.sum_lt_sum (fun c _ => ?_) ⟨p,Finset.mem_range.mpr (by omega),by simpa using hm⟩
  by_cases hc : c = p
  · subst hc
    simpa using hm.le
  · simp [hc]

theorem total_fork {m c : ℕ} (hi : 1 ≤ i) (h : c + m < rank 1) :
    total (i+1) (Function.update (Function.update rank 1 m) (i+1) c) < total i rank := by
  have hsum : ∑ p ∈ Finset.range (i+1), Function.update (Function.update rank 1 m) (i+1) c p =
      total i (Function.update rank 1 m) := by
    refine Finset.sum_congr rfl fun p hp => Function.update_of_ne ?_ _ _
    have hh := Finset.mem_range.mp hp
    omega
  have hmem : 1 ∈ Finset.range (i+1) := Finset.mem_range.mpr (by omega)
  have hm := Finset.sum_update_of_mem hmem rank m
  have hr := Finset.sum_update_of_mem hmem rank (rank 1)
  rw [Function.update_eq_self] at hr
  rw [total,Finset.sum_range_succ,hsum,Function.update_self]
  simp only [total]
  omega

theorem Launched.set_kid {j m : ℕ} {q q' : Proc} (h : Launched cfg plan i d rank s)
    (hj : 1 ≤ j) (hji : j < i) (hq : s.proc (j+1) = some q) (hlive : q.code ≠ .exited)
    (hproc : t.proc = Function.update s.proc (j+1) (some q')) (hparent : q'.parent = q.parent)
    (hreaped : q'.reaped = q.reaped) (hpid : t.nextPid = s.nextPid)
    (hpipe : t.nextPipe = s.nextPipe) (himages : ∀ e ∈ t.images, ImageOk plan e)
    (hold : s.images ⊆ t.images) (hran : cfg.execs j = true → q'.Ran → j ∈ t.images.map Image.prog)
    (hstage : Stage cfg plan j q' m) :
    Launched cfg plan i d (Function.update rank (j+1) m) t where
  nextPid := hpid.trans h.nextPid
  collected := h.collected
  bound := h.bound
  images := himages
  root := by
    rw [hproc,hpipe,Function.update_of_ne (by omega),Function.update_of_ne (by omega)]
    exact h.root
  kids k hk hki := by
    obtain ⟨r,hr,hkid⟩ := h.kids k hk hki
    by_cases hkj : k = j
    · subst hkj
      rw [hq] at hr
      cases hr
      exact ⟨q',by rw [hproc,Function.update_self],hparent.trans hkid.parent,
        hreaped.trans hkid.reaped,by rwa [Function.update_self],
        fun hd => absurd (hkid.ended hd) hlive,hran⟩
    · have hne : k+1 ≠ j+1 := by omega
      refine ⟨r,by rw [hproc,Function.update_of_ne hne,hr],hkid.parent,hkid.reaped,?_,hkid.ended,
        fun he hr => List.map_subset _ hold (hkid.ran he hr)⟩
      rw [Function.update_of_ne hne]
      exact hkid.stage
  absent p hp := by
    rw [hproc,Function.update_of_ne (by omega)]
    exact h.absent p hp

theorem Launched.set_root {m : ℕ} {q' : Proc} (h : Launched cfg plan i d rank s)
    (hproc : t.proc = Function.update s.proc 1 (some q')) (hparent : q'.parent = 0)
    (hpid : t.nextPid = s.nextPid) (himages : t.images = s.images)
    (hstage : RootStage cfg plan i d t.nextPipe q' m) :
    Launched cfg plan i d (Function.update rank 1 m) t where
  nextPid := hpid.trans h.nextPid
  collected := h.collected
  bound := h.bound
  images := by rw [himages]; exact h.images
  root := ⟨q',by rw [hproc,Function.update_self],hparent,by rwa [Function.update_self]⟩
  kids k hk hki := by
    have hne : k+1 ≠ 1 := by omega
    obtain ⟨r,hr,hkid⟩ := h.kids k hk hki
    refine ⟨r,by rw [hproc,Function.update_of_ne hne,hr],hkid.parent,hkid.reaped,?_,hkid.ended,
      by rw [himages]; exact hkid.ran⟩
    rw [Function.update_of_ne hne]
    exact hkid.stage
  absent p hp := by
    have hd := h.collected
    rw [hproc,Function.update_of_ne (by omega)]
    exact h.absent p hp

theorem Launched.fork {m c : ℕ} {q q' : Proc} (h : Launched cfg plan i d rank s)
    (hi : i ≤ plan.count) (himages : t.images = s.images)
    (hproc : t.proc = Function.update (Function.update s.proc 1 (some q)) (i+1) (some q'))
    (hpid : t.nextPid = i+1+1) (hparent : q'.parent = 1) (hreaped : q'.reaped = false)
    (hran : ¬q'.Ran) (hzero : q.parent = 0)
    (hroot : RootStage cfg plan (i+1) d t.nextPipe q m)
    (hkid : Stage cfg plan i q' c) :
    Launched cfg plan (i+1) d (Function.update (Function.update rank 1 m) (i+1) c) t where
  nextPid := hpid
  collected := by have hd := h.collected; omega
  bound := by omega
  images := by rw [himages]; exact h.images
  root := by
    have hd := h.collected
    have hne : 1 ≠ i+1 := by omega
    refine ⟨q,?_,hzero,?_⟩
    · rw [hproc,Function.update_of_ne hne,Function.update_self]
    · rwa [Function.update_of_ne hne,Function.update_self]
  kids k hk hki := by
    have hd := h.collected
    by_cases hkj : k = i
    · subst hkj
      refine ⟨q',by rw [hproc,Function.update_self],hparent,?_,by rwa [Function.update_self],
        by omega,fun _ hr => absurd hr hran⟩
      rw [hreaped]
      exact (decide_eq_false (by omega)).symm
    · have hne : k+1 ≠ i+1 := by omega
      have hne' : k+1 ≠ 1 := by omega
      obtain ⟨r,hr,hkid⟩ := h.kids k hk (by omega)
      refine ⟨r,?_,hkid.parent,hkid.reaped,?_,hkid.ended,by rw [himages]; exact hkid.ran⟩
      · rw [hproc,Function.update_of_ne hne,Function.update_of_ne hne',hr]
      · rw [Function.update_of_ne hne,Function.update_of_ne hne']
        exact hkid.stage
  absent p hp := by
    rw [hproc,Function.update_of_ne (by omega),Function.update_of_ne (by omega)]
    exact h.absent p (by omega)

theorem Launched.collect {m : ℕ} {q child : Proc} (h : Launched cfg plan i d rank s)
    (hd : d+1 < i) (hchild : s.proc (d+1+1) = some child) (hcode : child.code = .exited)
    (hproc : t.proc = Function.update (Function.update s.proc (d+1+1)
      (some { child with reaped := true })) 1 (some q))
    (hpid : t.nextPid = s.nextPid) (himages : t.images = s.images) (hzero : q.parent = 0)
    (hroot : RootStage cfg plan i (d+1) t.nextPipe q m) :
    Launched cfg plan i (d+1) (Function.update rank 1 m) t where
  nextPid := hpid.trans h.nextPid
  collected := hd
  bound := h.bound
  images := by rw [himages]; exact h.images
  root := ⟨q,by rw [hproc,Function.update_self],hzero,by rwa [Function.update_self]⟩
  kids k hk hki := by
    have hne : k+1 ≠ 1 := by omega
    obtain ⟨r,hr,hkid⟩ := h.kids k hk hki
    by_cases hkd : k = d+1
    · subst hkd
      rw [hchild] at hr
      cases hr
      refine ⟨{ child with reaped := true },?_,hkid.parent,by simp,?_,fun _ => hcode,
        by rw [himages]; exact hkid.ran⟩
      · rw [hproc,Function.update_of_ne hne,Function.update_self]
      · have hstage := hkid.stage
        rw [Function.update_of_ne hne]
        simp only [Stage,hcode] at hstage ⊢
        exact hstage
    · refine ⟨r,?_,hkid.parent,?_,?_,fun hk => hkid.ended (by omega),
        by rw [himages]; exact hkid.ran⟩
      · rw [hproc,Function.update_of_ne hne,Function.update_of_ne (by omega),hr]
      · rw [hkid.reaped]
        exact decide_eq_decide.mpr (by omega)
      · rw [Function.update_of_ne hne]
        exact hkid.stage
  absent p hp := by
    rw [hproc,Function.update_of_ne (by omega),Function.update_of_ne (by omega)]
    exact h.absent p hp

theorem operate_weight {p choice a : ℕ} {q q' : Proc} {ops ops' : List Op}
    (h : operate cfg p choice q a s ops = some t) (hq : t.proc p = some q')
    (hcode : q'.code = .image a ops') : weight ops' < weight ops := by
  cases operated_of_some h with
  | done | sigpipe =>
    simp only [setProc_proc,Function.update_self,Option.some.injEq] at hq
    subst hq
    cases hcode
  | read | take | write | put =>
    simp only [setProc_proc,Function.update_self,Option.some.injEq] at hq
    subst hq
    cases hcode
    simp only [weight_cons,Op.weight]
    omega

theorem Launched.mem_range {p : ℕ} {q : Proc} (h : Launched cfg plan i d rank s)
    (hp : s.proc p = some q) : 1 ≤ p ∧ p ≤ i := by
  have hh := h.absent p
  rw [hp] at hh
  by_contra hn
  cases hh (by omega)

theorem Launched.root_of {q : Proc} (h : Launched cfg plan i d rank s) (hq : s.proc 1 = some q) :
    q.parent = 0 ∧ RootStage cfg plan i d s.nextPipe q (rank 1) := by
  obtain ⟨r,hr,hroot⟩ := h.root
  rw [hq] at hr
  cases hr
  exact hroot

theorem Launched.kid {j : ℕ} {q : Proc} (h : Launched cfg plan i d rank s) (hj : 1 ≤ j)
    (hji : j < i) (hq : s.proc (j+1) = some q) : KidOf cfg plan d j s q (rank (j+1)) := by
  obtain ⟨r,hr,hkid⟩ := h.kids j hj hji
  rw [hq] at hr
  cases hr
  exact hkid

theorem Launched.root_or_kid {p : ℕ} {q : Proc} (h : Launched cfg plan i d rank s)
    (hp : s.proc p = some q) : p = 1 ∨ ∃ j, p = j+1 ∧ 1 ≤ j ∧ j < i := by
  obtain ⟨hp1,hpi⟩ := h.mem_range hp
  by_cases h1 : p = 1
  · exact .inl h1
  · exact .inr ⟨p-1,by omega,by omega,by omega⟩

theorem KidOf.holds_eq_false {j m : ℕ} {q : Proc} (h : KidOf cfg plan d j s q m)
    (hcode : q.code = .exited) (f : File) : q.fds.holds f = false := by
  have hstage := h.stage
  simp only [Stage,hcode] at hstage
  simp [hstage,FdTable.holds]

theorem Launched.childless {j : ℕ} (h : Launched cfg plan i d rank s) (hj : 1 ≤ j) (c : ℕ) :
    s.isChild (j+1) c = false := by
  rw [State.isChild,Option.any_eq_false]
  intro q hq
  rcases h.root_or_kid hq with rfl | ⟨a,rfl,ha,hai⟩
  · simp [(h.root_of hq).1]
  · have hne : 1 ≠ j+1 := by omega
    rw [(h.kid ha hai hq).parent]
    exact decide_eq_false fun hh => hne hh.1

theorem Launched.set_main {j m : ℕ} {q : Proc} {u : FdTable} {next : Prog}
    (h : Launched cfg plan i d rank s) (hj : 1 ≤ j) (hji : j < i) (hq : s.proc (j+1) = some q)
    (hlive : q.code ≠ .exited)
    (hproc : t.proc = Function.update s.proc (j+1) (some { q with fds := u, code := .main next }))
    (hpid : t.nextPid = s.nextPid) (hpipe : t.nextPipe = s.nextPipe) (himages : t.images = s.images)
    (hnext : Kid cfg plan j u next m) :
    Launched cfg plan i d (Function.update rank (j+1) m) t :=
  h.set_kid hj hji hq hlive hproc rfl rfl hpid hpipe (by rw [himages]; exact h.images)
    (by rw [himages]; exact List.Subset.refl _) (fun _ => False.elim) hnext

theorem Launched.kid_step {j choice : ℕ} {q : Proc} (h : Launched cfg plan i d rank s)
    (hj : 1 ≤ j) (hji : j < i) (hq : s.proc (j+1) = some q)
    (hstep : step cfg (j+1,choice) s = some t) :
    ∃ m < rank (j+1), Launched cfg plan i d (Function.update rank (j+1) m) t := by
  have hkid := h.kid hj hji hq
  have hstage := hkid.stage
  simp only [step,hq] at hstep
  cases hcode : q.code with
  | main p =>
    have hlive : q.code ≠ .exited := by simp [hcode]
    simp only [hcode] at hstep
    simp only [Stage,hcode] at hstage
    generalize hm : rank (j+1) = m at hstage
    cases hstage with
    | dup2 _ hnext =>
      cases hstep
      exact ⟨_,Nat.lt_succ_self _,h.set_main hj hji hq hlive rfl rfl rfl rfl hnext⟩
    | close _ hnext =>
      cases hstep
      exact ⟨_,Nat.lt_succ_self _,h.set_main hj hji hq hlive rfl rfl rfl rfl hnext⟩
    | @execlp _ next m _ himage hnext =>
      simp only [syscall] at hstep
      split at hstep
      · rename_i he
        cases hstep
        have hbound := h.bound
        refine ⟨weight (cfg.script j),by omega,h.set_kid hj hji hq hlive rfl rfl rfl rfl rfl ?_
          (List.subset_cons_self _ _) (fun _ _ => List.mem_cons_self)
          ⟨rfl,he,himage he,Nat.le_refl _⟩⟩
        exact List.forall_mem_cons.mpr
          ⟨⟨hj,show j ≤ plan.count by omega,_,himage he,rfl,rfl⟩,h.images⟩
      · rename_i he
        cases hstep
        exact ⟨m,by omega,h.set_main hj hji hq hlive rfl rfl rfl rfl (hnext (by simpa using he))⟩
    | waitpid _ hnext =>
      rw [syscall,if_neg (by simp),if_neg (by simp [h.childless hj])] at hstep
      cases hstep
      exact ⟨_,Nat.lt_succ_self _,h.set_main hj hji hq hlive rfl rfl rfl rfl hnext⟩
    | exit _ he =>
      cases hstep
      exact ⟨0,Nat.one_pos,h.set_kid hj hji hq hlive rfl rfl rfl rfl rfl h.images
        (List.Subset.refl _) (fun ht => by simp [he] at ht) rfl⟩
  | image a ops =>
    simp only [hcode] at hstep
    simp only [Stage,hcode] at hstage
    obtain ⟨rfl,he,himage,hle⟩ := hstage
    have hpos : 0 < weight ops := by simp [weight]
    obtain ⟨q',hproc,hparent,hreaped,hcode',hpid,hpipe,himages,-⟩ := operate_cases hstep
    refine ⟨rank (a+1) - 1,by omega,?_⟩
    refine h.set_kid hj hji hq (by simp [hcode]) hproc hparent hreaped hpid hpipe
      (by rw [himages]; exact h.images) (by rw [himages]; exact List.Subset.refl _)
      (fun _ _ => ?_) ?_
    · rw [himages]
      exact hkid.ran he (by simp [Proc.Ran,hcode])
    rcases hcode' with ⟨hc,hf⟩ | ⟨⟨ops',hc⟩,hf⟩
    · simpa only [Stage,hc] using hf
    · have hw := operate_weight hstep (by rw [hproc,Function.update_self]) hc
      simp only [Stage,hc,hf]
      exact ⟨trivial,he,himage,by omega⟩
  | exited => simp [hcode] at hstep

theorem Launched.root_step {choice : ℕ} (h : Launched cfg plan i d rank s)
    (hstep : step cfg (1,choice) s = some t) : ∃ i' d' rank',
      Launched cfg plan i' d' rank' t ∧ total i' rank' < total i rank ∧
        (i' = i ∧ d' = d ∨ i' = i+1 ∧ d' = d ∨ i' = i ∧ d' = d+1) := by
  have hd := h.collected
  obtain ⟨q,hq,hparent0,hstage⟩ := h.root
  simp only [step,hq] at hstep
  cases hcode : q.code with
  | main p =>
    simp only [hcode] at hstep
    simp only [RootStage,hcode] at hstage
    generalize hm : rank 1 = m at hstage
    cases hstage with
    | pipe _ hnext =>
      cases hstep
      exact ⟨i,d,_,h.set_root rfl hparent0 rfl rfl hnext,
        total_update (by omega) (by omega),.inl ⟨rfl,rfl⟩⟩
    | close _ hnext =>
      cases hstep
      exact ⟨i,d,_,h.set_root rfl hparent0 rfl rfl hnext,
        total_update (by omega) (by omega),.inl ⟨rfl,rfl⟩⟩
    | @fork _ _ _ _ next c m _ hi hkid hnext =>
      cases hstep
      have hpid := h.nextPid
      have hroot : RootStage cfg plan (i+1) d s.nextPipe (q.goto (next s.nextPid)) m := by
        rw [hpid]
        exact hnext
      let child : Proc := ⟨1,.main (next 0),q.fds,false⟩
      have hproc : Function.update (Function.update s.proc 1 (some (q.goto (next s.nextPid))))
          s.nextPid (some child) = Function.update (Function.update s.proc 1
            (some (q.goto (next s.nextPid)))) (i+1) (some child) := by rw [hpid]
      exact ⟨i+1,d,_,h.fork hi rfl hproc (congrArg (·+1) hpid) rfl rfl id hparent0 hroot hkid,
        total_fork (by omega) (by omega),.inr (.inl ⟨rfl,rfl⟩)⟩
    | waitpid _ hdi hnext =>
      obtain ⟨child,hchild,hkid⟩ := h.kids (d+1) (by omega) hdi
      have his : s.isChild 1 (d+2) = true := by
        simp [State.isChild,hchild,hkid.parent,hkid.reaped]
      rw [syscall,if_pos (by omega),if_pos his] at hstep
      obtain ⟨child',-,hchild',hended,rfl⟩ := reap_cases hq (by simp [hcode]) hstep
      rw [hchild] at hchild'
      cases hchild'
      exact ⟨i,d+1,_,h.collect hdi hchild hended rfl rfl rfl hparent0 (q := q.goto _) hnext,
        total_update (by omega) (by omega),.inr (.inr ⟨rfl,rfl⟩)⟩
    | exit _ hi hd' =>
      cases hstep
      exact ⟨i,d,_,h.set_root (m := 0) rfl hparent0 rfl rfl ⟨rfl,hi,hd'⟩,
        total_update (by omega) (by omega),.inl ⟨rfl,rfl⟩⟩
  | image a ops => simp [RootStage,hcode] at hstage
  | exited => simp [hcode] at hstep

/-- One step: the indices stay, or the next program is launched, or a child is collected. -/
theorem Launched.step {a : ℕ × ℕ} (h : Launched cfg plan i d rank s)
    (hstep : step cfg a s = some t) : ∃ i' d' rank',
      Launched cfg plan i' d' rank' t ∧ total i' rank' < total i rank ∧
        (i' = i ∧ d' = d ∨ i' = i+1 ∧ d' = d ∨ i' = i ∧ d' = d+1) := by
  obtain ⟨p,choice⟩ := a
  obtain ⟨q,hq⟩ := exists_proc_of_step hstep
  rcases h.root_or_kid hq with rfl | ⟨j,rfl,hj,hji⟩
  · exact h.root_step hstep
  · obtain ⟨m,hm,ht⟩ := h.kid_step hj hji hq hstep
    exact ⟨i,d,_,ht,total_update hji hm,.inl ⟨rfl,rfl⟩⟩

theorem Launches.launched {fds : FdTable} {p : Prog} {m : ℕ}
    (h : Launches cfg plan 1 0 0 fds p m) :
    Launched cfg plan 1 0 (fun _ => m) (init fds p) where
  nextPid := rfl
  collected := Nat.one_pos
  bound := Nat.le_add_left 1 _
  images := nofun
  root := ⟨⟨0,.main p,fds,false⟩,by simp [init],rfl,h⟩
  kids j hj hj1 := by omega
  absent q hq := by
    simp only [init]
    rw [Function.update_of_ne (by omega)]

theorem Launches.reachable {fds : FdTable} {p : Prog} {m : ℕ}
    (h : Launches cfg plan 1 0 0 fds p m) (hr : (system cfg fds p).Reachable s) :
    ∃ i d rank, Launched cfg plan i d rank s := by
  have hi : (system cfg fds p).Invariant fun s => ∃ i d rank, Launched cfg plan i d rank s := by
    refine ⟨⟨fun ⟨i,d,rank,hl⟩ hs => ?_⟩,1,0,_,h.launched⟩
    obtain ⟨i',d',rank',hl',-⟩ := hl.step hs
    exact ⟨i',d',rank',hl'⟩
  exact hi.reachable hr

def Left (cfg : Config) (plan : Plan) (m : ℕ) (s : State) : Prop :=
  ∃ i d rank, Launched cfg plan i d rank s ∧ total i rank = m

theorem Left.step {m : ℕ} {a : ℕ × ℕ}
    (h : Left cfg plan m s) (hstep : Processes.step cfg a s = some t) :
    ∃ n < m, Left cfg plan n t := by
  obtain ⟨i,d,rank,hl,rfl⟩ := h
  obtain ⟨i',d',rank',hl',hlt,-⟩ := hl.step hstep
  exact ⟨_,hlt,i',d',rank',hl',rfl⟩

theorem Launches.bounded {fds : FdTable} {p : Prog} {m : ℕ}
    (h : Launches cfg plan 1 0 0 fds p m) :
    ∃ bound, ∀ as s, (system cfg fds p).run as (system cfg fds p).start = some s →
      as.length ≤ bound := by
  have hleft : Left cfg plan _ (system cfg fds p).start := ⟨1,0,_,h.launched,rfl⟩
  refine ⟨total 1 fun _ => m,fun as s hr => ?_⟩
  obtain ⟨n,-,hle⟩ := System.run_length_le_of_rank (R := Left cfg plan)
    (fun hs ht => hs.step ht) hleft hr
  exact Nat.le_of_add_right_le hle

theorem Launches.exists_stuck {fds : FdTable} {p : Prog} {m : ℕ}
    (h : Launches cfg plan 1 0 0 fds p m) :
    ∃ s, (system cfg fds p).Reachable s ∧ (system cfg fds p).Stuck s := by
  have hleft : Left cfg plan _ (system cfg fds p).start := ⟨1,0,_,h.launched,rfl⟩
  obtain ⟨as,s,hr,hs⟩ := System.exists_stuck_of_rank (M := system cfg fds p)
    (R := Left cfg plan) (fun hs ht => hs.step ht) hleft
  exact ⟨s,⟨as,hr⟩,hs⟩

theorem Kid.executed {j : ℕ} {t : FdTable} (h : plan.atKid j t) (himage : plan.atImage j t.exec)
    (he : cfg.execs j = true) (next : Prog) :
    Kid cfg plan j t (.execlp j next) (weight (cfg.script j) + 0 + 1) := by
  have hnext : cfg.execs j = false → Kid cfg plan j t next 0 := fun hf => by simp [he] at hf
  exact .execlp h (fun _ => himage) hnext

theorem Kid.atKid {j m : ℕ} {t : FdTable} {p : Prog}
    (h : Kid cfg plan j t p m) : plan.atKid j t := by
  cases h <;> assumption

theorem Launches.atRoot {n m : ℕ} {t : FdTable} {p : Prog}
    (h : Launches cfg plan i d n t p m) : plan.atRoot i d t p := by
  cases h <;> assumption

/-- No `fork` and no `waitpid` comes any more. -/
def Prog.Over : Prog → Prop
  | .close _ next => next.Over
  | .exit => True
  | _ => False

theorem Launches.all_collected {n m : ℕ} {t : FdTable} {p : Prog}
    (h : Launches cfg plan i d n t p m) (hp : p.Over) : d = plan.count := by
  induction h with
  | pipe => cases hp
  | close _ _ ih => exact ih hp
  | fork => cases hp
  | waitpid => cases hp
  | exit _ _ hd => exact hd

/-- No `fork` comes any more. -/
def Prog.ForkFree : Prog → Prop
  | .close _ next | .waitpid _ next => next.ForkFree
  | .exit => True
  | _ => False

theorem Launches.all_launched {n m : ℕ} {t : FdTable} {p : Prog}
    (h : Launches cfg plan i d n t p m) (hp : p.ForkFree) : i = plan.count+1 := by
  induction h with
  | pipe => cases hp
  | close _ _ ih => exact ih hp
  | fork => cases hp
  | waitpid _ _ _ ih => exact ih hp
  | exit _ hi _ => exact hi

/-- The first process cannot take a step: it has ended or waits for a child that has not. -/
theorem Launched.root_of_none (h : Launched cfg plan i d rank s)
    (hs : ∀ choice, Processes.step cfg (1,choice) s = none) : s.code 1 = some .exited ∨
      ∃ q next child, s.proc 1 = some q ∧ d+1 < i ∧ s.proc (d+2) = some child ∧
        child.code ≠ .exited ∧
        Launches cfg plan i d s.nextPipe q.fds (.waitpid (d+2) next) (rank 1) := by
  obtain ⟨q,hq,-,hstage⟩ := h.root
  have h0 := hs (d+2)
  simp only [Processes.step,hq] at h0
  cases hcode : q.code with
  | main p =>
    simp only [hcode] at h0
    simp only [RootStage,hcode] at hstage
    generalize rank 1 = m at hstage ⊢
    have hl := hstage
    cases hstage with
    | pipe | close | fork | exit => cases h0
    | waitpid _ hd _ =>
      obtain ⟨child,hchild,hkid⟩ := h.kids (d+1) (by omega) hd
      refine .inr ⟨q,_,child,hq,hd,hchild,fun hended => ?_,hl⟩
      have his : s.isChild 1 (d+2) = true := by simp [State.isChild,hchild,hkid.parent,hkid.reaped]
      obtain ⟨parent,code,fds,reaped⟩ := child
      cases hended
      simp [syscall,his,reap,hchild] at h0
  | image a ops => simp [RootStage,hcode] at hstage
  | exited => exact .inl (by rw [code_eq_some hq,hcode])

theorem Launched.kid_of_none {j : ℕ} {q : Proc} (h : Launched cfg plan i d rank s) (hj : 1 ≤ j)
    (hji : j < i) (hq : s.proc (j+1) = some q)
    (hs : ∀ choice, Processes.step cfg (j+1,choice) s = none) : q.code = .exited ∨
      ∃ ops, q.code = .image j ops ∧ cfg.execs j = true ∧ plan.atImage j q.fds ∧
        Blocked cfg q s ops := by
  have hstage := (h.kid hj hji hq).stage
  simp only [Processes.step,hq] at hs
  cases hcode : q.code with
  | main p =>
    have h0 := hs 0
    simp only [hcode] at h0
    simp only [Stage,hcode] at hstage
    generalize rank (j+1) = m at hstage
    cases hstage with
    | dup2 | close | exit => cases h0
    | execlp =>
      simp only [syscall] at h0
      split at h0 <;> cases h0
    | waitpid =>
      rw [syscall,if_neg (by simp),if_neg (by simp [h.childless hj])] at h0
      cases h0
  | image a ops =>
    simp only [hcode] at hs
    simp only [Stage,hcode] at hstage
    obtain ⟨rfl,he,himage,-⟩ := hstage
    exact .inr ⟨ops,rfl,he,himage,blocked_of_none hs⟩
  | exited => exact .inl rfl

/-- The first process is at a `waitpid`, and what follows it is in `P`. -/
def Waits (s : State) (P : Prog → Prop) : Prop :=
  ∃ q pid next, s.proc 1 = some q ∧ q.code = .main (.waitpid pid next) ∧ P next

theorem Launched.of_waits {P : Prog → Prop} (h : Launched cfg plan i d rank s)
    (hw : Waits s P) : ∃ q pid next, s.proc 1 = some q ∧ P next ∧
      Launches cfg plan i d s.nextPipe q.fds (.waitpid pid next) (rank 1) := by
  obtain ⟨q,pid,next,hq,hcode,hnext⟩ := hw
  have hstage := (h.root_of hq).2
  simp only [RootStage,hcode] at hstage
  exact ⟨q,pid,next,hq,hnext,hstage⟩

theorem Launched.of_over (h : Launched cfg plan i d rank s) (hw : Waits s Prog.Over)
    {j : ℕ} {q : Proc} (hj : 1 ≤ j) (hji : j < i) (hq : s.proc (j+1) = some q)
    (hlive : q.code ≠ .exited) : j = plan.count := by
  obtain ⟨q1,pid,next,-,hover,hl⟩ := h.of_waits hw
  have hd : d+1 = plan.count := by
    generalize rank 1 = m at hl
    cases hl with
    | waitpid _ _ hnext => exact hnext.all_collected hover
  have hbound := h.bound
  have hjd : ¬ j ≤ d := fun hjd => hlive ((h.kid hj hji hq).ended hjd)
  omega

end Step

end Processes
end SomeCode
