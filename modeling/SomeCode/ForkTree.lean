import SomeCode.Processes

/-! Which processes fork and what they execute. `Spawns` says of a program that it starts its
programs one after another in children that do not fork, and `Leaks` that some child comes to a
`fork` of its own; both follow the program call by call, and depend on no particular one. -/
namespace SomeCode
namespace Processes

open Transition

/-- A process that does not fork and executes at most program `i` -/
inductive Single (execs : ℕ → Bool) (i : ℕ) : Prog → Prop
  | pipe {cloexec : Bool} {next : ℤ → ℤ → Prog} (h : ∀ r w, Single execs i (next r w)) :
      Single execs i (.pipe cloexec next)
  | dup2 {old : ℤ} {new : ℕ} {next : Prog} (h : Single execs i next) :
      Single execs i (.dup2 old new next)
  | close {fd : ℤ} {next : Prog} (h : Single execs i next) : Single execs i (.close fd next)
  | waitpid {pid : ℕ} {next : Prog} (h : Single execs i next) : Single execs i (.waitpid pid next)
  | execlp {next : Prog} (h : execs i = false → Single execs i next) :
      Single execs i (.execlp i next)
  | exit : Single execs i .exit

/-- A process that forks for program `i` and the following ones in this order -/
inductive Spawns (execs : ℕ → Bool) : ℕ → Prog → Prop
  | pipe {i : ℕ} {cloexec : Bool} {next : ℤ → ℤ → Prog} (h : ∀ r w, Spawns execs i (next r w)) :
      Spawns execs i (.pipe cloexec next)
  | close {i : ℕ} {fd : ℤ} {next : Prog} (h : Spawns execs i next) : Spawns execs i (.close fd next)
  | waitpid {i pid : ℕ} {next : Prog} (h : Spawns execs i next) :
      Spawns execs i (.waitpid pid next)
  | fork {i : ℕ} {next : ℕ → Prog} (hchild : Single execs i (next 0))
      (h : ∀ pid, pid ≠ 0 → Spawns execs (i+1) (next pid)) : Spawns execs i (.fork next)
  | exit {i : ℕ} : Spawns execs i .exit

/-- A process without children that comes to a `fork` -/
inductive Reforks (execs : ℕ → Bool) : Prog → Prop
  | pipe {cloexec : Bool} {next : ℤ → ℤ → Prog} (h : ∀ r w, Reforks execs (next r w)) :
      Reforks execs (.pipe cloexec next)
  | dup2 {old : ℤ} {new : ℕ} {next : Prog} (h : Reforks execs next) :
      Reforks execs (.dup2 old new next)
  | close {fd : ℤ} {next : Prog} (h : Reforks execs next) : Reforks execs (.close fd next)
  | waitpid {pid : ℕ} {next : Prog} (h : Reforks execs next) : Reforks execs (.waitpid pid next)
  | execlp {i : ℕ} {next : Prog} (hi : execs i = false) (h : Reforks execs next) :
      Reforks execs (.execlp i next)
  | fork {next : ℕ → Prog} : Reforks execs (.fork next)

/-- A process that comes, with all earlier children ended, to one that forks -/
inductive Leaks (execs : ℕ → Bool) : Prog → Prop
  | pipe {cloexec : Bool} {next : ℤ → ℤ → Prog} (h : ∀ r w, Leaks execs (next r w)) :
      Leaks execs (.pipe cloexec next)
  | close {fd : ℤ} {next : Prog} (h : Leaks execs next) : Leaks execs (.close fd next)
  | waitpid {pid : ℕ} {next : Prog} (hp : pid ≠ 0) (h : Leaks execs next) :
      Leaks execs (.waitpid pid next)
  | later {i : ℕ} {next : ℕ → Prog} (hchild : Single execs i (next 0))
      (h : ∀ pid, pid ≠ 0 → Leaks execs (next pid)) : Leaks execs (.fork next)
  | here {next : ℕ → Prog} (h : Reforks execs (next 0)) : Leaks execs (.fork next)

/-- Each program is executed at most once, and only the first process forks. -/
structure OnceEach (s : State) : Prop where
  images : (s.images.map Image.prog).Nodup
  forks : ∀ p ∈ s.forks, p = 1

/-- The first process is about to start program `i`; process `j+1` is the child for program `j`. -/
structure Tree (execs : ℕ → Bool) (i : ℕ) (s : State) : Prop where
  pos : 1 ≤ i
  nextPid : s.nextPid = i+1
  root : s.code 1 = some .exited ∨ ∃ p, s.code 1 = some (.main p) ∧ Spawns execs i p
  kids : ∀ j, 1 ≤ j → j < i → ∀ p, s.code (j+1) = some (.main p) →
    Single execs j p ∧ ∀ e ∈ s.images, e.pid ≠ j+1
  bound : ∀ p, s.code p ≠ none → 1 ≤ p ∧ p ≤ i
  images : ∀ e ∈ s.images, e.pid = e.prog+1 ∧ 1 ≤ e.prog ∧ e.prog < i
  nodup : (s.images.map Image.prog).Nodup
  forks : ∀ p ∈ s.forks, p = 1

section Tree

variable {cfg : Config} {i : ℕ} {s t : State}

theorem Tree.onceEach (h : Tree cfg.execs i s) : OnceEach s := ⟨h.nodup,h.forks⟩

theorem Tree.goto {p : ℕ} {code : Code} (h : Tree cfg.execs i s) (hp : s.code p ≠ none)
    (hcode : t.code = Function.update s.code p (some code)) (hpid : t.nextPid = s.nextPid)
    (himages : t.images = s.images) (hforks : t.forks = s.forks)
    (hroot : p = 1 → code = .exited ∨ ∃ c, code = .main c ∧ Spawns cfg.execs i c)
    (hkid : ∀ j c, 1 ≤ j → j < i → p = j+1 → code = .main c →
      Single cfg.execs j c ∧ ∀ e ∈ s.images, e.pid ≠ j+1) : Tree cfg.execs i t where
  pos := h.pos
  nextPid := hpid.trans h.nextPid
  root := by
    rw [hcode]
    by_cases h1 : p = 1
    · subst h1
      simpa using hroot rfl
    · simpa [Ne.symm h1] using h.root
  kids j hj hji c hc := by
    rw [hcode] at hc
    rw [himages]
    by_cases hjp : p = j+1
    · subst hjp
      simp only [Function.update_self,Option.some.injEq] at hc
      exact hkid j c hj hji rfl hc
    · rw [Function.update_of_ne (Ne.symm hjp)] at hc
      exact h.kids j hj hji c hc
  bound c hc := by
    by_cases hcp : c = p
    · exact h.bound c (hcp ▸ hp)
    · rw [hcode,Function.update_of_ne hcp] at hc
      exact h.bound c hc
  images := by rw [himages]; exact h.images
  nodup := by rw [himages]; exact h.nodup
  forks := by rw [hforks]; exact h.forks

theorem Tree.fork {next : ℕ → Prog} (h : Tree cfg.execs i s)
    (hcode : t.code = Function.update (Function.update s.code 1 (some (.main (next (i+1)))))
      (i+1) (some (.main (next 0)))) (hpid : t.nextPid = i+1+1)
    (himages : t.images = s.images) (hforks : t.forks = 1 :: s.forks)
    (hchild : Single cfg.execs i (next 0)) (hnext : Spawns cfg.execs (i+1) (next (i+1))) :
    Tree cfg.execs (i+1) t where
  pos := by omega
  nextPid := hpid
  root := by
    have hpos := h.pos
    rw [hcode,Function.update_of_ne (by omega),Function.update_self]
    exact .inr ⟨_,rfl,hnext⟩
  kids j hj hji c hc := by
    rw [himages]
    by_cases hjp : j = i
    · subst hjp
      rw [hcode,Function.update_self] at hc
      cases hc
      refine ⟨hchild,fun e he => ?_⟩
      have hh := h.images e he
      omega
    · rw [hcode,Function.update_of_ne (by omega),Function.update_of_ne (by omega)] at hc
      exact h.kids j hj (by omega) c hc
  bound c hc := by
    by_cases hci : c = i+1
    · omega
    · by_cases hc1 : c = 1
      · omega
      · rw [hcode,Function.update_of_ne hci,Function.update_of_ne hc1] at hc
        have hh := h.bound c hc
        omega
  images e he := by
    rw [himages] at he
    have hh := h.images e he
    omega
  nodup := by rw [himages]; exact h.nodup
  forks := by
    rw [hforks]
    simpa using h.forks

theorem Tree.exec {j : ℕ} {ops : List Op} {e : Image} (h : Tree cfg.execs i s) (hj : 1 ≤ j)
    (hji : j < i) (hfree : ∀ e ∈ s.images, e.pid ≠ j+1) (hp : s.code (j+1) ≠ none)
    (hcode : t.code = Function.update s.code (j+1) (some (.image j ops)))
    (hpid : t.nextPid = s.nextPid) (he : e.pid = j+1 ∧ e.prog = j)
    (himages : t.images = e :: s.images) (hforks : t.forks = s.forks) : Tree cfg.execs i t where
  pos := h.pos
  nextPid := hpid.trans h.nextPid
  root := by
    rw [hcode,Function.update_of_ne (by omega)]
    exact h.root
  kids k hk hki c hc := by
    rw [hcode] at hc
    by_cases hkj : k = j
    · subst hkj
      simp at hc
    · rw [Function.update_of_ne (by omega)] at hc
      have hh := h.kids k hk hki c hc
      refine ⟨hh.1,?_⟩
      rw [himages]
      simp only [List.forall_mem_cons]
      exact ⟨by omega,hh.2⟩
  bound c hc := by
    by_cases hcp : c = j+1
    · exact h.bound c (hcp ▸ hp)
    · rw [hcode,Function.update_of_ne hcp] at hc
      exact h.bound c hc
  images := by
    rw [himages]
    simp only [List.forall_mem_cons]
    exact ⟨by omega,h.images⟩
  nodup := by
    rw [himages,List.map_cons,List.nodup_cons]
    refine ⟨fun hm => ?_,h.nodup⟩
    obtain ⟨e',he',heq⟩ := List.mem_map.mp hm
    exact hfree e' he' (by rw [(h.images e' he').1,heq,he.2])
  forks := by rw [hforks]; exact h.forks

theorem Tree.root_step {choice : ℕ} {q : Proc} {p : Prog} (h : Tree cfg.execs i s)
    (hp : s.proc 1 = some q) (hq : q.code = .main p) (hspawns : Spawns cfg.execs i p)
    (hstep : syscall cfg 1 choice q s p = some t) : ∃ i', Tree cfg.execs i' t := by
  have hsome : s.code 1 ≠ none := by simp [code_eq_some hp]
  have hroot : ∀ {c}, Spawns cfg.execs i c → 1 = 1 → (Code.main c = .exited ∨
      ∃ d, Code.main c = .main d ∧ Spawns cfg.execs i d) := fun hs _ => .inr ⟨_,rfl,hs⟩
  have hkid : ∀ {code : Code} j c, 1 ≤ j → j < i → 1 = j+1 → code = .main c →
      Single cfg.execs j c ∧ ∀ e ∈ s.images, e.pid ≠ j+1 := by omega
  cases hspawns with
  | pipe hn =>
    cases hstep
    exact ⟨i,h.goto hsome (code_of_proc rfl) rfl rfl rfl (hroot (hn _ _)) hkid⟩
  | close hn =>
    cases hstep
    exact ⟨i,h.goto hsome (code_of_proc rfl) rfl rfl rfl (hroot hn) hkid⟩
  | waitpid hn =>
    obtain ⟨hcode,-,hpid,himages,hforks⟩ := waitpid_cases hp (by simp [hq]) hstep
    exact ⟨i,h.goto hsome hcode hpid himages hforks (hroot hn) hkid⟩
  | fork hchild hn =>
    cases hstep
    have hpid := h.nextPid
    refine ⟨i+1,h.fork ?_ (congrArg (·+1) hpid) rfl rfl hchild (hn _ (by omega))⟩
    rw [← hpid]
    exact (code_setProc _ _ _).trans (by rw [code_setProc]; rfl)
  | exit =>
    cases hstep
    exact ⟨i,h.goto hsome (code_of_proc rfl) rfl rfl rfl (fun _ => .inl rfl) hkid⟩

theorem Tree.kid_step {j choice : ℕ} {q : Proc} {p : Prog} (h : Tree cfg.execs i s) (hj : 1 ≤ j)
    (hji : j < i) (hp : s.proc (j+1) = some q) (hq : q.code = .main p)
    (hstep : syscall cfg (j+1) choice q s p = some t) : Tree cfg.execs i t := by
  have hsome : s.code (j+1) ≠ none := by simp [code_eq_some hp]
  obtain ⟨hsingle,hfree⟩ := h.kids j hj hji p (by rw [code_eq_some hp,hq])
  have hroot : ∀ {code : Code}, j+1 = 1 → code = .exited ∨
      ∃ c, code = .main c ∧ Spawns cfg.execs i c := by omega
  have hkid : ∀ {c}, Single cfg.execs j c → ∀ k d, 1 ≤ k → k < i → j+1 = k+1 →
      Code.main c = .main d → Single cfg.execs k d ∧ ∀ e ∈ s.images, e.pid ≠ k+1 := by
    intro c hc k d _ _ hk hd
    cases hd
    obtain rfl : j = k := by omega
    exact ⟨hc,hfree⟩
  cases hsingle with
  | pipe hn =>
    cases hstep
    exact h.goto hsome (code_of_proc rfl) rfl rfl rfl hroot (hkid (hn _ _))
  | dup2 hn =>
    cases hstep
    exact h.goto hsome (code_of_proc rfl) rfl rfl rfl hroot (hkid hn)
  | close hn =>
    cases hstep
    exact h.goto hsome (code_of_proc rfl) rfl rfl rfl hroot (hkid hn)
  | waitpid hn =>
    obtain ⟨hcode,-,hpid,himages,hforks⟩ := waitpid_cases hp (by simp [hq]) hstep
    exact h.goto hsome hcode hpid himages hforks hroot (hkid hn)
  | execlp hn =>
    simp only [syscall] at hstep
    split at hstep
    · cases hstep
      exact h.exec hj hji hfree hsome
        (code_of_proc (q := ⟨q.parent,.image j (cfg.script j),q.fds.exec,q.reaped⟩) rfl) rfl
        ⟨rfl,rfl⟩ rfl rfl
    · cases hstep
      rename_i hfails
      exact h.goto hsome (code_of_proc (q := q.goto _) rfl) rfl rfl rfl hroot
        (hkid (hn (by simpa using hfails)))
  | exit =>
    cases hstep
    exact h.goto hsome (code_of_proc (q := q.exit) rfl) rfl rfl rfl hroot
      (fun _ _ _ _ _ hc => by cases hc)

theorem Tree.step {a : ℕ × ℕ} (h : Tree cfg.execs i s) (hstep : step cfg a s = some t) :
    ∃ i', Tree cfg.execs i' t := by
  obtain ⟨p,choice⟩ := a
  unfold Processes.step at hstep
  split at hstep
  · cases hstep
  · rename_i q hp
    have hsome : s.code p ≠ none := by simp [code_eq_some hp]
    obtain ⟨hp1,hpi⟩ := h.bound p hsome
    split at hstep
    · rename_i c hq
      by_cases h1 : p = 1
      · subst h1
        rcases h.root with he | ⟨d,hd,hspawns⟩
        · rw [code_eq_some hp,hq] at he
          cases he
        · rw [code_eq_some hp,hq] at hd
          cases hd
          exact h.root_step hp hq hspawns hstep
      · obtain ⟨j,rfl⟩ : ∃ j, p = j+1 := ⟨p-1,by omega⟩
        exact ⟨i,h.kid_step (by omega) (by omega) hp hq hstep⟩
    · rename_i x ops hq
      obtain ⟨q',hproc,-,-,hcode,hpid,-,himages,hforks⟩ := operate_cases hstep
      refine ⟨i,h.goto hsome (code_of_proc hproc) hpid himages hforks ?_ ?_⟩
      · rintro rfl
        rcases h.root with he | ⟨d,hd,-⟩
        · rw [code_eq_some hp,hq] at he
          cases he
        · rw [code_eq_some hp,hq] at hd
          cases hd
      · intro j c _ _ _ hc
        rcases hcode with ⟨he,-⟩ | ⟨⟨ops',he⟩,-⟩
        · rw [hc] at he
          cases he
        · rw [hc] at he
          cases he
    · cases hstep

/-- A first process that spawns its programs keeps every run in order. -/
theorem Spawns.onceEach {fds : FdTable} {p : Prog} (h : Spawns cfg.execs 1 p)
    (hr : (system cfg fds p).Reachable s) : OnceEach s := by
  have hi : (system cfg fds p).Invariant fun s => ∃ i, Tree cfg.execs i s := by
    refine ⟨⟨fun ⟨_,hi⟩ hs => hi.step hs⟩,1,Nat.le_refl 1,rfl,.inr ⟨p,?_,h⟩,?_,?_,?_,?_,?_⟩
    · simp [system,init,State.code]
    · omega
    · intro c hc
      by_cases h1 : c = 1
      · omega
      · simp [system,init,State.code,h1] at hc
    · simp [system,init]
    · simp [system,init]
    · simp [system,init]
  obtain ⟨_,ht⟩ := hi.reachable hr
  exact ht.onceEach

end Tree

structure Frame (p : ℕ) (s t : State) : Prop where
  others : ∀ d, d ≠ p → t.proc d = s.proc d
  self : (t.proc p).map (fun q => (q.parent,q.reaped)) = (s.proc p).map fun q => (q.parent,q.reaped)
  nextPid : t.nextPid = s.nextPid

section Leaks

variable {cfg : Config} {fds : FdTable} {main : Prog} {p : ℕ} {q : Proc} {c : Prog} {s t u : State}

theorem Frame.trans (h : Frame p s t) (h' : Frame p t u) : Frame p s u :=
  ⟨fun d hd => (h'.others d hd).trans (h.others d hd),h'.self.trans h.self,
    h'.nextPid.trans h.nextPid⟩

theorem Frame.of_proc {r : Proc} (hp : s.proc p = some q)
    (h : t.proc = Function.update s.proc p (some r))
    (hparent : r.parent = q.parent) (hreaped : r.reaped = q.reaped)
    (hpid : t.nextPid = s.nextPid) : Frame p s t :=
  ⟨fun d hd => by rw [h,Function.update_of_ne hd],by simp [h,hp,hparent,hreaped],hpid⟩

theorem isChild_eq (s : State) (a d : ℕ) : s.isChild a d =
    ((s.proc d).map fun q => (q.parent,q.reaped)).any fun v => v.1 = a ∧ v.2 = false := by
  cases h : s.proc d <;> simp [State.isChild,h]

theorem Frame.isChild (h : Frame p s t) (a d : ℕ) : t.isChild a d = s.isChild a d := by
  rw [isChild_eq,isChild_eq]
  by_cases hd : d = p
  · rw [hd,h.self]
  · rw [h.others d hd]

def Childless (p : ℕ) (s : State) : Prop := ∀ d, s.isChild p d = false

structure Advance (cfg : Config) (p : ℕ) (s : State) (next : Prog) (t : State) : Prop where
  step : step cfg (p,0) s = some t
  frame : Frame p s t
  code : ∃ q, t.proc p = some q ∧ q.code = .main next

theorem Advance.childless {next : Prog} (h : Advance cfg p s next t) (hc : Childless p s) :
    Childless p t := fun d => (h.frame.isChild p d).trans (hc d)

theorem Advance.run {next : Prog} {as : List (ℕ × ℕ)} (h : Advance cfg p s next t)
    (hr : (system cfg fds main).run as t = some u) :
    (system cfg fds main).run ((p,0) :: as) s = some u :=
  System.run_cons_eq_some.mpr ⟨t,h.step,hr⟩

/-- The statement carries over from the state after the step to the one before it. -/
theorem Advance.exists_run {next : Prog} {P : State → Prop} (h : Advance cfg p s next t)
    (hc : Childless p s)
    (hnext : ∀ {q}, t.proc p = some q → q.code = .main next → Childless p t →
      ∃ as u, (system cfg fds main).run as t = some u ∧ P u) :
    ∃ as u, (system cfg fds main).run as s = some u ∧ P u := by
  obtain ⟨q,hp,hq⟩ := h.code
  obtain ⟨as,u,hr,hu⟩ := hnext hp hq (h.childless hc)
  exact ⟨_,u,h.run hr,hu⟩

theorem step_main {choice : ℕ} (hp : s.proc p = some q) (hq : q.code = .main c) :
    step cfg (p,choice) s = syscall cfg p choice q s c := by
  simp [step,hp,hq]

theorem Advance.of_syscall {q' : Proc} {next : Prog} (hp : s.proc p = some q)
    (hq : q.code = .main c) (hstep : syscall cfg p 0 q s c = some t)
    (hproc : t.proc = Function.update s.proc p (some q')) (hparent : q'.parent = q.parent)
    (hreaped : q'.reaped = q.reaped) (hpid : t.nextPid = s.nextPid)
    (hcode : q'.code = .main next) : Advance cfg p s next t where
  step := (step_main hp hq).trans hstep
  frame := .of_proc hp hproc hparent hreaped hpid
  code := ⟨q',by rw [hproc,Function.update_self],hcode⟩

theorem exists_advance_pipe (cfg : Config) {cloexec : Bool} {next : ℤ → ℤ → Prog} (hp : s.proc p = some q)
    (hq : q.code = .main (.pipe cloexec next)) : ∃ r w t, Advance cfg p s (next r w) t :=
  ⟨_,_,_,.of_syscall hp hq rfl rfl rfl rfl rfl rfl⟩

theorem exists_advance_dup2 (cfg : Config) {old : ℤ} {new : ℕ} {next : Prog} (hp : s.proc p = some q)
    (hq : q.code = .main (.dup2 old new next)) : ∃ t, Advance cfg p s next t :=
  ⟨_,.of_syscall hp hq rfl rfl rfl rfl rfl rfl⟩

theorem exists_advance_close (cfg : Config) {fd : ℤ} {next : Prog} (hp : s.proc p = some q)
    (hq : q.code = .main (.close fd next)) : ∃ t, Advance cfg p s next t :=
  ⟨_,.of_syscall hp hq rfl rfl rfl rfl rfl rfl⟩

theorem exists_advance_waitpid (cfg : Config) {pid : ℕ} {next : Prog} (hp : s.proc p = some q)
    (hq : q.code = .main (.waitpid pid next)) (hc : Childless p s) :
    ∃ t, Advance cfg p s next t := by
  have hstep : syscall cfg p 0 q s (.waitpid pid next) = some (s.setProc p (q.goto next)) := by
    simp [syscall,hc _]
  exact ⟨_,.of_syscall hp hq hstep rfl rfl rfl rfl rfl⟩

theorem exists_advance_execlp (cfg : Config) {i : ℕ} {next : Prog} (hp : s.proc p = some q)
    (hq : q.code = .main (.execlp i next)) (hi : cfg.execs i = false) :
    ∃ t, Advance cfg p s next t := by
  have hstep : syscall cfg p 0 q s (.execlp i next) = some (s.setProc p (q.goto next)) := by
    simp [syscall,hi]
  exact ⟨_,.of_syscall hp hq hstep rfl rfl rfl rfl rfl⟩

theorem exists_exit_execlp {i : ℕ} {next : Prog} (hscript : ∀ i, cfg.script i = [])
    (hp : s.proc p = some q) (hq : q.code = .main (.execlp i next)) (hi : cfg.execs i = true) :
    ∃ as t, (system cfg fds main).run as s = some t ∧ Frame p s t ∧ t.code p = some .exited := by
  let q' : Proc := { q with fds := q.fds.exec, code := .image i [] }
  let t : State := { s.setProc p q' with images := ⟨p,i,q'.fds.file 0,q'.fds.file 1⟩ :: s.images }
  have h1 : step cfg (p,0) s = some t := by
    rw [step_main hp hq]
    simp [syscall,hi,hscript,t,q']
  have hproc : t.proc p = some q' := by simp [t]
  have h2 : step cfg (p,0) t = some (t.setProc p q'.exit) := by
    simp [step,hproc,q',operate]
  refine ⟨[(p,0),(p,0)],t.setProc p q'.exit,?_,?_,?_⟩
  · exact System.run_cons_eq_some.mpr ⟨t,h1,System.run_single h2⟩
  · exact Frame.trans (t := t) (.of_proc hp rfl rfl rfl rfl) (.of_proc hproc rfl rfl rfl rfl)
  · rw [code_setProc,Function.update_self]
    rfl

theorem Single.exists_exit (fds : FdTable) (main : Prog) {i : ℕ} (h : Single cfg.execs i c)
    (hscript : ∀ i, cfg.script i = [])
    (hp : s.proc p = some q) (hq : q.code = .main c) (hc : Childless p s) :
    ∃ as t, (system cfg fds main).run as s = some t ∧ Frame p s t ∧ t.code p = some .exited := by
  induction h generalizing s q with
  | pipe _ ih =>
    obtain ⟨r,w,t,ha⟩ := exists_advance_pipe cfg hp hq
    exact ha.exists_run hc fun hp' hq' hc' =>
      (ih r w hp' hq' hc').imp fun _ ⟨u,hr,hf,hu⟩ => ⟨u,hr,ha.frame.trans hf,hu⟩
  | dup2 _ ih =>
    obtain ⟨t,ha⟩ := exists_advance_dup2 cfg hp hq
    exact ha.exists_run hc fun hp' hq' hc' =>
      (ih hp' hq' hc').imp fun _ ⟨u,hr,hf,hu⟩ => ⟨u,hr,ha.frame.trans hf,hu⟩
  | close _ ih =>
    obtain ⟨t,ha⟩ := exists_advance_close cfg hp hq
    exact ha.exists_run hc fun hp' hq' hc' =>
      (ih hp' hq' hc').imp fun _ ⟨u,hr,hf,hu⟩ => ⟨u,hr,ha.frame.trans hf,hu⟩
  | waitpid _ ih =>
    obtain ⟨t,ha⟩ := exists_advance_waitpid cfg hp hq hc
    exact ha.exists_run hc fun hp' hq' hc' =>
      (ih hp' hq' hc').imp fun _ ⟨u,hr,hf,hu⟩ => ⟨u,hr,ha.frame.trans hf,hu⟩
  | execlp _ ih =>
    cases hi : cfg.execs i with
    | false =>
      obtain ⟨t,ha⟩ := exists_advance_execlp cfg hp hq hi
      exact ha.exists_run hc fun hp' hq' hc' =>
        (ih hi hp' hq' hc').imp fun _ ⟨u,hr,hf,hu⟩ => ⟨u,hr,ha.frame.trans hf,hu⟩
    | true => exact exists_exit_execlp hscript hp hq hi
  | exit =>
    refine ⟨[(p,0)],s.setProc p q.exit,?_,.of_proc hp rfl rfl rfl rfl,?_⟩
    · exact System.run_single ((step_main hp hq).trans rfl)
    · rw [code_setProc,Function.update_self]
      rfl

theorem Reforks.exists_fork (fds : FdTable) (main : Prog) (h : Reforks cfg.execs c) (hp : s.proc p = some q)
    (hq : q.code = .main c) (hc : Childless p s) :
    ∃ as t, (system cfg fds main).run as s = some t ∧ p ∈ t.forks := by
  induction h generalizing s q with
  | pipe _ ih =>
    obtain ⟨r,w,t,ha⟩ := exists_advance_pipe cfg hp hq
    exact ha.exists_run hc (ih r w)
  | dup2 _ ih =>
    obtain ⟨t,ha⟩ := exists_advance_dup2 cfg hp hq
    exact ha.exists_run hc ih
  | close _ ih =>
    obtain ⟨t,ha⟩ := exists_advance_close cfg hp hq
    exact ha.exists_run hc ih
  | waitpid _ ih =>
    obtain ⟨t,ha⟩ := exists_advance_waitpid cfg hp hq hc
    exact ha.exists_run hc ih
  | execlp hi _ ih =>
    obtain ⟨t,ha⟩ := exists_advance_execlp cfg hp hq hi
    exact ha.exists_run hc ih
  | fork =>
    exact ⟨[(p,0)],_,System.run_single ((step_main hp hq).trans rfl),List.mem_cons_self⟩

/-- Every process but the first is a child of the first and has ended. -/
structure Quiet (s : State) : Prop where
  nextPid : 2 ≤ s.nextPid
  fresh : ∀ d, s.nextPid ≤ d → s.proc d = none
  parents : ∀ d q, s.proc d = some q → q.parent = if d = 1 then 0 else 1
  ended : ∀ d q, d ≠ 1 → s.proc d = some q → q.code = .exited

theorem Quiet.move (h : Quiet s) (hothers : ∀ d, d ≠ p → t.proc d = s.proc d)
    (hself : (t.proc p).map Proc.parent = (s.proc p).map Proc.parent)
    (hpid : t.nextPid = s.nextPid) (hcode : p ≠ 1 → s.proc p ≠ none → t.code p = some .exited) :
    Quiet t where
  nextPid := hpid ▸ h.nextPid
  fresh d hd := by
    have hnone := h.fresh d (hpid ▸ hd)
    by_cases hdp : d = p
    · subst hdp
      simpa [hnone] using hself
    · rw [hothers d hdp,hnone]
  parents d r hr := by
    by_cases hdp : d = p
    · subst hdp
      rw [hr] at hself
      obtain ⟨r',hr',he⟩ := Option.map_eq_some_iff.mp hself.symm
      exact he.symm.trans (h.parents d r' hr')
    · rw [hothers d hdp] at hr
      exact h.parents d r hr
  ended d r hd hr := by
    by_cases hdp : d = p
    · subst hdp
      have hsome : s.proc d ≠ none := by
        intro hn
        simp [hr,hn] at hself
      have hh := hcode hd hsome
      simpa [State.code,hr] using hh
    · rw [hothers d hdp] at hr
      exact h.ended d r hd hr

theorem Quiet.frame (h : Quiet s) (hf : Frame p s t)
    (hcode : p ≠ 1 → s.proc p ≠ none → t.code p = some .exited) : Quiet t := by
  refine h.move hf.others ?_ hf.nextPid hcode
  have hh := congrArg (Option.map Prod.fst) hf.self
  simpa [Function.comp_def] using hh

theorem Quiet.waitpid {pid : ℕ} {next : Prog} (h : Quiet s) (hp : s.proc 1 = some q)
    (hq : q.code = .main (.waitpid pid next)) (h0 : pid ≠ 0) :
    ∃ t, step cfg (1,0) s = some t ∧ Quiet t ∧ ∃ q', t.proc 1 = some q' ∧ q'.code = .main next := by
  rw [step_main hp hq]
  by_cases hchild : s.isChild 1 pid = true
  · obtain ⟨child,hc,hparent⟩ : ∃ child, s.proc pid = some child ∧ child.parent = 1 := by
      simp only [State.isChild,Option.any_eq_true,decide_eq_true_eq] at hchild
      obtain ⟨child,hc,hh⟩ := hchild
      exact ⟨child,hc,hh.1⟩
    have hne : pid ≠ 1 := by
      intro he
      have hh := h.parents pid child hc
      rw [if_pos he] at hh
      omega
    have hended := h.ended pid child hne hc
    let s' := s.setProc pid { child with reaped := true }
    refine ⟨s'.setProc 1 (q.goto next),?_,?_,q.goto next,by simp,rfl⟩
    · obtain ⟨parent,code,fds,reaped⟩ := child
      cases hended
      simp [syscall,h0,hchild,reap,hc,s']
    · have hq' : Quiet s' := by
        refine h.move (p := pid) (fun d hd => ?_) ?_ rfl fun _ _ => ?_
        · simp [s',hd]
        · simp [s',hc]
        · simp [s',code_setProc,hended]
      have hp' : s'.proc 1 = some q := by simpa [s',hne.symm] using hp
      exact hq'.frame (.of_proc (r := q.goto next) hp' rfl rfl rfl rfl) (absurd rfl)
  · refine ⟨s.setProc 1 (q.goto next),by simp [syscall,h0,hchild],?_,q.goto next,by simp,rfl⟩
    exact h.frame (.of_proc (r := q.goto next) hp rfl rfl rfl rfl) (absurd rfl)

theorem Quiet.grow {r : Proc} (h : Quiet s) (hothers : ∀ d, d ≠ s.nextPid → t.proc d = s.proc d)
    (hr : t.proc s.nextPid = some r) (hparent : r.parent = 1) (hcode : r.code = .exited)
    (hpid : t.nextPid = s.nextPid+1) : Quiet t where
  nextPid := by have hh := h.nextPid; omega
  fresh d hd := by
    rw [hothers d (by omega)]
    exact h.fresh d (by omega)
  parents d r' hr' := by
    by_cases hd : d = s.nextPid
    · subst hd
      rw [hr] at hr'
      cases hr'
      have hh := h.nextPid
      rw [if_neg (by omega),hparent]
    · exact h.parents d r' (hothers d hd ▸ hr')
  ended d r' hd hr' := by
    by_cases hdp : d = s.nextPid
    · subst hdp
      rw [hr] at hr'
      cases hr'
      exact hcode
    · exact h.ended d r' hd (hothers d hdp ▸ hr')

/-- Behind a `fork` of the first process: `mid` is the state without the child. -/
theorem Quiet.forked (cfg : Config) {next : ℕ → Prog} (h : Quiet s) (hp : s.proc 1 = some q)
    (hq : q.code = .main (.fork next)) : ∃ mid t child, step cfg (1,0) s = some t ∧ Quiet mid ∧
      mid.nextPid = s.nextPid ∧ mid.proc 1 = some (q.goto (next s.nextPid)) ∧
      t.proc = Function.update mid.proc s.nextPid (some child) ∧ child.parent = 1 ∧
      child.code = .main (next 0) ∧ t.nextPid = s.nextPid+1 ∧ Childless s.nextPid t := by
  have hnext := h.nextPid
  have hmid : Quiet (s.setProc 1 (q.goto (next s.nextPid))) :=
    h.frame (.of_proc (r := q.goto _) hp rfl rfl rfl rfl) (absurd rfl)
  refine ⟨s.setProc 1 (q.goto (next s.nextPid)),_,⟨1,.main (next 0),q.fds,false⟩,
    (step_main hp hq).trans rfl,hmid,rfl,by simp,rfl,rfl,rfl,rfl,fun d => ?_⟩
  rw [State.isChild,Option.any_eq_false]
  intro r hr
  have hparent : r.parent ≤ 1 := by
    by_cases hd : d = s.nextPid
    · subst hd
      simp only [setProc_proc,Function.update_self,Option.some.injEq] at hr
      simp [← hr]
    · simp only [setProc_proc,Function.update_of_ne hd] at hr
      rw [hmid.parents d r hr]
      split <;> omega
  rw [decide_eq_false_iff_not]
  omega

theorem Quiet.fork {next : ℕ → Prog} {i : ℕ} (h : Quiet s) (hp : s.proc 1 = some q)
    (hq : q.code = .main (.fork next)) (hscript : ∀ i, cfg.script i = [])
    (hchild : Single cfg.execs i (next 0)) :
    ∃ as t, (system cfg fds main).run as s = some t ∧ Quiet t ∧
      ∃ q', t.proc 1 = some q' ∧ q'.code = .main (next s.nextPid) := by
  have hnext := h.nextPid
  obtain ⟨mid,t,child,hstep,hmid,hpid,hroot,hproc,hparent,hcode,htpid,hchildless⟩ :=
    h.forked cfg hp hq
  have hc : t.proc s.nextPid = some child := by rw [hproc,Function.update_self]
  obtain ⟨as,u,hr,hf,hexit⟩ :=
    hchild.exists_exit fds main hscript hc hcode hchildless
  have hothers : ∀ d, d ≠ s.nextPid → u.proc d = mid.proc d := fun d hd => by
    rw [hf.others d hd,hproc,Function.update_of_ne hd]
  obtain ⟨r,hr',hrcode⟩ := Option.map_eq_some_iff.mp hexit
  have hrparent : r.parent = 1 := by
    have hself := hf.self
    simp only [hr',hc,Option.map_some,Option.some.injEq,Prod.mk.injEq] at hself
    exact hself.1.trans hparent
  refine ⟨(1,0) :: as,u,System.run_cons_eq_some.mpr ⟨t,hstep,hr⟩,?_,q.goto _,?_,rfl⟩
  · rw [← hpid] at hothers hr'
    exact hmid.grow hothers hr' hrparent hrcode (hf.nextPid.trans (htpid.trans (by rw [hpid])))
  · rw [hothers 1 (by omega),hroot]

theorem Advance.quiet {next : Prog} (h : Advance cfg 1 s next t) (hs : Quiet s) : Quiet t :=
  hs.frame h.frame (absurd rfl)

theorem Leaks.exists_fork (fds : FdTable) (main : Prog) (h : Leaks cfg.execs c)
    (hscript : ∀ i, cfg.script i = [])
    (hp : s.proc 1 = some q) (hq : q.code = .main c) (hquiet : Quiet s) :
    ∃ as t, (system cfg fds main).run as s = some t ∧ ∃ p ∈ t.forks, p ≠ 1 := by
  induction h generalizing s q with
  | pipe _ ih =>
    obtain ⟨r,w,t,ha⟩ := exists_advance_pipe cfg hp hq
    obtain ⟨q',hp',hq'⟩ := ha.code
    obtain ⟨as,u,hr,hu⟩ := ih r w hp' hq' (ha.quiet hquiet)
    exact ⟨_,u,ha.run hr,hu⟩
  | close _ ih =>
    obtain ⟨t,ha⟩ := exists_advance_close cfg hp hq
    obtain ⟨q',hp',hq'⟩ := ha.code
    obtain ⟨as,u,hr,hu⟩ := ih hp' hq' (ha.quiet hquiet)
    exact ⟨_,u,ha.run hr,hu⟩
  | waitpid h0 _ ih =>
    obtain ⟨t,ht,hqt,q',hp',hq'⟩ := hquiet.waitpid hp hq h0
    obtain ⟨as,u,hr,hu⟩ := ih hp' hq' hqt
    exact ⟨_,u,System.run_cons_eq_some.mpr ⟨t,ht,hr⟩,hu⟩
  | later hchild _ ih =>
    obtain ⟨as,t,hr,hqt,q',hp',hq'⟩ := hquiet.fork hp hq hscript hchild
    have hpid := hquiet.nextPid
    obtain ⟨bs,u,hr',hu⟩ := ih _ (by omega) hp' hq' hqt
    exact ⟨_,u,System.run_trans hr hr',hu⟩
  | here hrefork =>
    have hpid := hquiet.nextPid
    obtain ⟨mid,t,child,hstep,-,-,-,hproc,-,hcode,-,hchildless⟩ := hquiet.forked cfg hp hq
    have hc : t.proc s.nextPid = some child := by rw [hproc,Function.update_self]
    obtain ⟨as,u,hr,hu⟩ := hrefork.exists_fork fds main hc hcode hchildless
    exact ⟨_,u,System.run_cons_eq_some.mpr ⟨t,hstep,hr⟩,s.nextPid,hu,by omega⟩

theorem Leaks.not_onceEach (fds : FdTable) (h : Leaks cfg.execs main) (hscript : ∀ i, cfg.script i = []) :
    ∃ s, (system cfg fds main).Reachable s ∧ ¬ OnceEach s := by
  have hquiet : Quiet (init fds main) := by
    refine ⟨Nat.le_refl 2,fun d hd => ?_,fun d r hr => ?_,fun d r hd hr => ?_⟩
    · simp only [init] at hd ⊢
      rw [Function.update_of_ne (by omega)]
    · by_cases h1 : d = 1
      · subst h1
        simp only [init,Function.update_self,Option.some.injEq] at hr
        simp [← hr]
      · simp [init,h1] at hr
    · simp [init,hd] at hr
  obtain ⟨as,s,hr,p,hp,hne⟩ := h.exists_fork fds main hscript
    (q := ⟨0,.main main,fds,false⟩) (by simp [init]) rfl hquiet
  exact ⟨s,⟨as,hr⟩,fun ho => hne (ho.forks p hp)⟩

end Leaks

end Processes
end SomeCode
