import SomeCode.ForkTree

/-! The calls by which the first process opens and closes descriptors. What holds of them whenever
it waits for its children is read off its code alone, whatever the other processes do. -/
namespace SomeCode
namespace Processes

open Transition

/-- A call, with the numbers that it returns or is given -/
inductive Call
  | pipe (r w : ℤ)
  | close (fd : ℤ)
  deriving DecidableEq

/-- The numbers that the calls of `pipe` have returned -/
def returned (l : List Call) : List ℤ :=
  l.flatMap fun
    | .pipe r w => [r,w]
    | .close _ => []

/-- The numbers that have been given to `close` -/
def closed (l : List Call) : List ℤ :=
  l.filterMap fun
    | .pipe _ _ => none
    | .close fd => some fd

@[simp] theorem returned_append (l l' : List Call) :
    returned (l ++ l') = returned l ++ returned l' :=
  List.flatMap_append

@[simp] theorem closed_append (l l' : List Call) : closed (l ++ l') = closed l ++ closed l' :=
  List.filterMap_append

/-- What a process calls next, when `n` pipes have been made -/
def Proc.call (n : ℕ) (q : Proc) : List Call :=
  match q.code with
  | .main (.pipe cloexec _) => [.pipe (q.fds.pipe cloexec n).2.1 (q.fds.pipe cloexec n).2.2]
  | .main (.close fd _) => [.close fd]
  | _ => []

def callAt (a : ℕ × ℕ) (s : State) : List Call :=
  if a.1 = 1 then ((s.proc 1).map (Proc.call s.nextPipe)).getD [] else []

def calls (cfg : Config) : List (ℕ × ℕ) → State → List Call
  | [], _ => []
  | a :: as, s => callAt a s ++ ((step cfg a s).map (calls cfg as)).getD []

/-- From this code on, with the calls so far: whenever the process waits or ends, `post` holds of
its calls and of its descriptors, and it executes no program. -/
def Prog.Meets (post : List Call → FdTable → Prop) : Prog → List Call → FdTable → Prop
  | .pipe cloexec next, l, t => ∀ n, (next (t.pipe cloexec n).2.1 (t.pipe cloexec n).2.2).Meets post
      (l ++ [.pipe (t.pipe cloexec n).2.1 (t.pipe cloexec n).2.2]) (t.pipe cloexec n).1
  | .dup2 old new next, l, t => next.Meets post l (t.dup2 old new)
  | .close fd next, l, t => next.Meets post (l ++ [.close fd]) (t.close fd)
  | .fork next, l, t => ∀ pid, pid ≠ 0 → (next pid).Meets post l t
  | .execlp _ _, _, _ => False
  | .waitpid _ next, l, t => post l t ∧ next.Meets post l t
  | .exit, l, t => post l t

def Prog.Waits : Prog → Prop
  | .waitpid _ _ | .exit => True
  | _ => False

def State.Waiting (s : State) (t : FdTable) : Prop :=
  ∃ q p, s.proc 1 = some q ∧ q.code = .main p ∧ p.Waits ∧ q.fds = t

variable {cfg : Config} {post : List Call → FdTable → Prop} {l : List Call} {s t : State}

theorem Prog.Meets.here {p : Prog} {fds : FdTable} (h : p.Meets post l fds) (hp : p.Waits) :
    post l fds := by
  cases p with
  | waitpid pid next => exact h.1
  | exit => exact h
  | _ => cases hp

structure AtRoot (post : List Call → FdTable → Prop) (l : List Call) (s : State) : Prop where
  zero : s.proc 0 = none
  fresh : 2 ≤ s.nextPid
  root : ∃ q, s.proc 1 = some q ∧ q.parent = 0 ∧
    (q.code = .exited ∨ ∃ p, q.code = .main p ∧ p.Meets post l q.fds)

theorem AtRoot.of_proc (h : AtRoot post l s) (h0 : t.proc 0 = s.proc 0) (h1 : t.proc 1 = s.proc 1)
    (hpid : s.nextPid ≤ t.nextPid) : AtRoot post l t :=
  ⟨h0.trans h.zero,h.fresh.trans hpid,by rw [h1]; exact h.root⟩

/-- The first process has no parent that could collect it. -/
theorem AtRoot.reap_ne {p c : ℕ} (h : AtRoot post l s) (hp : s.proc p ≠ none)
    (hc : s.isChild p c = true) : c ≠ 1 := by
  rintro rfl
  obtain ⟨q,hq,hparent,-⟩ := h.root
  simp only [State.isChild,hq,Option.any_some,decide_eq_true_eq,hparent] at hc
  obtain ⟨rfl,-⟩ := hc
  exact hp h.zero

theorem AtRoot.other_reap {p c : ℕ} {q : Proc} {next : Prog} (h : AtRoot post l s) (hp : p ≠ 1)
    (hq : s.proc p = some q) (hmain : q.code ≠ .exited) (hc : s.isChild p c = true)
    (hs : reap p c q next s = some t) : AtRoot post l t := by
  have hc1 := h.reap_ne (by simp [hq]) hc
  have hp0 : p ≠ 0 := by
    rintro rfl
    rw [h.zero] at hq
    cases hq
  have hc0 : c ≠ 0 := by
    rintro rfl
    simp [State.isChild,h.zero] at hc
  obtain ⟨child,-,-,-,rfl⟩ := reap_cases hq hmain hs
  refine h.of_proc ?_ ?_ (Nat.le_refl _)
  · simp [hp0.symm,hc0.symm]
  · simp [hp.symm,hc1.symm]

theorem AtRoot.other_step {p choice : ℕ} (h : AtRoot post l s) (hp : p ≠ 1)
    (hs : step cfg (p,choice) s = some t) : AtRoot post l t := by
  obtain ⟨q,hq⟩ := exists_proc_of_step hs
  have hp0 : p ≠ 0 := by
    rintro rfl
    rw [h.zero] at hq
    cases hq
  have hset : ∀ {v : State} {r : Proc}, v.proc = Function.update s.proc p (some r) →
      s.nextPid ≤ v.nextPid → AtRoot post l v := fun hv hpid =>
    h.of_proc (by rw [hv,Function.update_of_ne hp0.symm]) (by rw [hv,Function.update_of_ne hp.symm])
      hpid
  simp only [step,hq] at hs
  cases hcode : q.code with
  | exited => simp [hcode] at hs
  | image i ops =>
    simp only [hcode] at hs
    obtain ⟨q',hproc,-,-,-,hpid,-⟩ := operate_cases hs
    exact hset hproc hpid.ge
  | main prog =>
    simp only [hcode] at hs
    have hmain : q.code ≠ .exited := by simp [hcode]
    cases prog with
    | pipe | dup2 | close | exit =>
      cases hs
      exact hset rfl (Nat.le_refl _)
    | fork next =>
      cases hs
      have hfresh := h.fresh
      refine h.of_proc ?_ ?_ (Nat.le_succ _)
      · have h0 : (0 : ℕ) ≠ s.nextPid := by omega
        simp [h0,hp0.symm]
      · have h1 : (1 : ℕ) ≠ s.nextPid := by omega
        simp [h1,hp.symm]
    | execlp i next =>
      simp only [syscall] at hs
      split at hs
      all_goals
        cases hs
        exact hset rfl (Nat.le_refl _)
    | waitpid pid next =>
      simp only [syscall] at hs
      split_ifs at hs with h1 h2 h3 h4
      · exact h.other_reap hp hq hmain h2 hs
      · cases hs
        exact hset (r := q.goto next) rfl (Nat.le_refl _)
      · exact h.other_reap hp hq hmain h4 hs
      · cases hs
        exact hset (r := q.goto next) rfl (Nat.le_refl _)

theorem AtRoot.waitpid {pid choice : ℕ} {q : Proc} {next : Prog} (h : AtRoot post l s)
    (hq : s.proc 1 = some q) (hparent : q.parent = 0) (hcode : q.code ≠ .exited)
    (hmeets : next.Meets post l q.fds)
    (hs : syscall cfg 1 choice q s (.waitpid pid next) = some t) : AtRoot post l t := by
  have hgo : AtRoot post l (s.setProc 1 (q.goto next)) :=
    ⟨by simp [h.zero],h.fresh,q.goto next,by simp,hparent,.inr ⟨next,rfl,hmeets⟩⟩
  have hreap : ∀ c, reap 1 c q next s = some t → AtRoot post l t := by
    intro c hr
    obtain ⟨child,-,hc,-,rfl⟩ := reap_cases hq hcode hr
    have hc0 : c ≠ 0 := by
      rintro rfl
      simp [h.zero] at hc
    exact ⟨by simp [h.zero,hc0.symm],h.fresh,q.goto next,by simp,hparent,.inr ⟨next,rfl,hmeets⟩⟩
  simp only [syscall] at hs
  split_ifs at hs
  · exact hreap _ hs
  · cases hs
    exact hgo
  · exact hreap _ hs
  · cases hs
    exact hgo

theorem AtRoot.root_step {choice : ℕ} (h : AtRoot post l s) (hs : step cfg (1,choice) s = some t) :
    AtRoot post (l ++ callAt (1,choice) s) t := by
  obtain ⟨q,hq,hparent,hcode⟩ := h.root
  rcases hcode with hcode | ⟨prog,hcode,hmeets⟩
  · simp [step,hq,hcode] at hs
  have hset : ∀ {v : State} {q' : Proc} {l' : List Call},
      v.proc = Function.update s.proc 1 (some q') → s.nextPid = v.nextPid → q'.parent = 0 →
      (q'.code = .exited ∨ ∃ p, q'.code = .main p ∧ p.Meets post l' q'.fds) →
      AtRoot post l' v := by
    intro v q' l' hv hpid hparent' hcode'
    refine ⟨?_,hpid ▸ h.fresh,q',by rw [hv,Function.update_self],hparent',hcode'⟩
    rw [hv,Function.update_of_ne (by decide),h.zero]
  simp only [step,hq,hcode] at hs
  simp only [callAt,hq,if_true,Option.map_some,Option.getD_some,Proc.call,hcode]
  cases prog with
  | pipe cloexec next =>
    cases hs
    exact hset rfl rfl hparent (.inr ⟨_,rfl,hmeets s.nextPipe⟩)
  | dup2 old new next =>
    cases hs
    rw [List.append_nil]
    exact hset rfl rfl hparent (.inr ⟨_,rfl,hmeets⟩)
  | close fd next =>
    cases hs
    exact hset rfl rfl hparent (.inr ⟨_,rfl,hmeets⟩)
  | fork next =>
    cases hs
    rw [List.append_nil]
    have hfresh := h.fresh
    have h0 : (0 : ℕ) ≠ s.nextPid := by omega
    have h1 : (1 : ℕ) ≠ s.nextPid := by omega
    refine ⟨by simp [h0,h.zero],Nat.le_succ_of_le hfresh,q.goto (next s.nextPid),by simp [h1],
      hparent,.inr ⟨_,rfl,hmeets _ h0.symm⟩⟩
  | execlp i next => cases hmeets
  | waitpid pid next =>
    rw [List.append_nil]
    exact h.waitpid hq hparent (by simp [hcode]) hmeets.2 hs
  | exit =>
    cases hs
    exact hset rfl rfl hparent (.inl rfl)

theorem AtRoot.run {as : List (ℕ × ℕ)} {fds : FdTable} {p : Prog}
    (h : AtRoot post l s) (hr : (system cfg fds p).run as s = some t) :
    AtRoot post (l ++ calls cfg as s) t := by
  induction as generalizing l s with
  | nil =>
    cases hr
    rwa [calls,List.append_nil]
  | cons a as ih =>
    obtain ⟨u,hu,ht⟩ := System.run_cons_eq_some.mp hr
    have hu' : step cfg a s = some u := hu
    rw [calls,hu',Option.map_some,Option.getD_some,← List.append_assoc]
    obtain ⟨p,choice⟩ := a
    by_cases hp : p = 1
    · subst hp
      exact ih (h.root_step hu') ht
    · rw [callAt,if_neg hp,List.append_nil]
      exact ih (h.other_step hp hu') ht

/-- The condition holds in every run, whenever the first process waits or ends. -/
theorem Prog.Meets.sound {fds t : FdTable} {p : Prog} (h : p.Meets post [] fds) {as : List (ℕ × ℕ)}
    (hr : (system cfg fds p).run as (init fds p) = some s) (hs : s.Waiting t) :
    post (calls cfg as (init fds p)) t := by
  have hinit : AtRoot post [] (init fds p) := ⟨rfl,Nat.le_refl 2,_,rfl,rfl,.inr ⟨p,rfl,h⟩⟩
  obtain ⟨-,-,q,hq,-,hcode⟩ := hinit.run hr
  obtain ⟨q',p',hq',hcode',hwaits,rfl⟩ := hs
  obtain rfl : q = q' := Option.some.inj (hq.symm.trans hq')
  rcases hcode with hcode | ⟨p'',hcode,hmeets⟩
  · simp [hcode] at hcode'
  · obtain rfl : p'' = p' := by simpa [hcode] using hcode'
    rw [List.nil_append] at hmeets
    exact hmeets.here hwaits

def GetsToWait (cfg : Config) (fds : FdTable) (p : Prog) (s : State) : Prop :=
  ∃ as t fds', (system cfg fds p).run as s = some t ∧ t.Waiting fds'

variable {fds : FdTable} {p : Prog}

theorem GetsToWait.step {c : ℕ} (hs : step cfg (1,c) s = some t)
    (h : GetsToWait cfg fds p t) : GetsToWait cfg fds p s := by
  obtain ⟨as,u,fds',hr,hw⟩ := h
  exact ⟨(1,c) :: as,u,fds',System.run_cons_eq_some.mpr ⟨t,hs,hr⟩,hw⟩

/-- None of its calls before that blocks. -/
theorem Prog.Meets.getsToWait {code : Prog} {q : Proc} (h : code.Meets post l q.fds)
    (hfresh : 2 ≤ s.nextPid) (hq : s.proc 1 = some q) (hcode : q.code = .main code) :
    GetsToWait cfg fds p s := by
  induction code generalizing s q l with
  | pipe cloexec next ih =>
    have hnext := h s.nextPipe
    exact .step (c := 0) ((step_main hq hcode).trans rfl)
      (ih _ _ (q := { q with fds := (q.fds.pipe cloexec s.nextPipe).1, code := .main _ }) hnext
        hfresh (Function.update_self (1 : ℕ) _ s.proc) rfl)
  | dup2 old new next ih =>
    exact .step (c := 0) ((step_main hq hcode).trans rfl)
      (ih (q := { q with fds := q.fds.dup2 old new, code := .main next }) h hfresh (by simp) rfl)
  | close fd next ih =>
    exact .step (c := 0) ((step_main hq hcode).trans rfl)
      (ih (q := { q with fds := q.fds.close fd, code := .main next }) h hfresh (by simp) rfl)
  | fork next ih =>
    have h0 : s.nextPid ≠ 0 := by omega
    have h1 : (1 : ℕ) ≠ s.nextPid := by omega
    exact .step (c := 0) ((step_main hq hcode).trans rfl)
      (ih _ (q := q.goto (next s.nextPid)) (h _ h0) (by simp; omega) (by simp [h1]) rfl)
  | execlp i next ih => cases h
  | waitpid pid next ih => exact ⟨[],s,q.fds,rfl,q,_,hq,hcode,trivial,rfl⟩
  | exit => exact ⟨[],s,q.fds,rfl,q,_,hq,hcode,trivial,rfl⟩

end Processes
end SomeCode
