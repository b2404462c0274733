import SomeCode.PipeDeadlock
import SomeCode.ExecFailure

/-! `inf15-1.c` runs two programs at the same time, with a pipe from the first to the second. A child
whose `execlp` fails goes on with the code of the parent. -/
namespace SomeCode
namespace ShellPipelines
namespace Inf15_1

open Processes Transition

def finish (pid : ℕ) (r : ℤ) (pid_2 : ℕ) : Prog :=
  .close r (.waitpid pid (.waitpid pid_2 .exit))

def second (r w : ℤ) (pid : ℕ) : Prog :=
  .close w (.fork fun pid_2 =>
    if pid_2 = 0 then .dup2 r 0 (.close r (.execlp 2 (finish pid r pid_2)))
    else finish pid r pid_2)

def main : Prog :=
  .pipe false fun r w => .fork fun pid =>
    if pid = 0 then .dup2 w 1 (.close w (.close r (.execlp 1 (second r w pid))))
    else second r w pid

section Orderly

variable {execs : ℕ → Bool}

theorem single_finish (pid : ℕ) (r : ℤ) (pid_2 : ℕ) : Single execs 2 (finish pid r pid_2) :=
  .close (.waitpid (.waitpid .exit))

theorem main_spawns (h : execs 1 = true) : Spawns execs 1 main := by
  apply Spawns.pipe
  intro r w
  apply Spawns.fork
  · refine .dup2 (.close (.close (.execlp fun hf => ?_)))
    rw [h] at hf
    cases hf
  · intro pid hpid
    rw [if_neg hpid]
    refine .close (.fork ?_ fun pid_2 hpid_2 => ?_)
    · exact .dup2 (.close (.execlp fun _ => single_finish _ _ _))
    · rw [if_neg hpid_2]
      exact .close (.waitpid (.waitpid .exit))

theorem main_leaks (h : execs 1 = false) : Leaks execs main := by
  apply Leaks.pipe
  intro r w
  exact .here (.dup2 (.close (.close (.execlp h (.close .fork)))))

theorem exists_child_forks {cfg : Config} (h : cfg.execs 1 = false) (fds : FdTable) :
    ∃ s, (system cfg fds main).Reachable s ∧ 2 ∈ s.forks := by
  let r : ℤ := (fds.pipe false 0).2.1
  let w : ℤ := (fds.pipe false 0).2.2
  obtain ⟨s,q,hrun,hq,hcode,hchildless⟩ : ∃ s q,
      (system cfg fds main).run [(1,0),(1,0)] (init fds main) = some s ∧ s.proc 2 = some q ∧
      q.code = .main (.dup2 w 1 (.close w (.close r (.execlp 1 (second r w 0))))) ∧
      Childless 2 s := by
    refine ⟨_,_,rfl,rfl,rfl,fun d => ?_⟩
    by_cases h2 : d = 2
    · subst h2
      rfl
    · by_cases h1 : d = 1
      · subst h1
        rfl
      · simp [State.isChild,State.setProc,init,h1,h2]
  have hreforks : Reforks cfg.execs (.dup2 w 1 (.close w (.close r (.execlp 1 (second r w 0))))) :=
    .dup2 (.close (.close (.execlp h (.close .fork))))
  obtain ⟨as,t,hrest,hforks⟩ := hreforks.exists_fork fds main hq hcode hchildless
  exact ⟨t,⟨_,System.run_trans hrun hrest⟩,hforks⟩

/-- Each of the two programs is started at most once, and only the parent forks, in every run exactly
if the first one can be executed; otherwise its child forks in some run, whatever the second program
is and does. -/
theorem pair_orderly_iff (execs : ℕ → Bool) : (Orderly execs main ↔ execs 1 = true) ∧
    (execs 1 = false → ∀ capacity script fds,
      ∃ s, (system ⟨capacity,execs,script⟩ fds main).Reachable s ∧ 2 ∈ s.forks) := by
  refine ⟨⟨fun h => ?_,fun h => orderly_of_spawns (main_spawns h)⟩,
    fun h capacity script fds => exists_child_forks h fds⟩
  by_contra hf
  exact not_orderly_of_leaks (main_leaks (by simpa using hf)) h

end Orderly

section Finishes

variable {cfg : Config} {orig0 orig1 : ℕ} {fds t : FdTable} {s : State}

def ends (j : ℕ) : List (ℤ × Entry) :=
  if j = 1 then [(1,⟨.writeEnd 0,false⟩)] else [(0,⟨.readEnd 0,false⟩)]

/-- The first program writes to the pipe, the second one reads it, and neither has the other end. -/
structure Connected (orig0 orig1 j : ℕ) (t : FdTable) : Prop where
  stdin : t.get 0 = some ⟨inputOf orig0 (fun _ => 0) j,false⟩
  stdout : t.get 1 = some ⟨outputOf orig1 2 (fun _ => 0) j,false⟩
  only : Only t (ends j)

/-- The parent has closed the pipe when it waits. -/
def plan (orig0 orig1 : ℕ) : Plan where
  count := 2
  atRoot i _ t
    | .waitpid _ _ => i = 3 ∧ Only t []
    | _ => True
  atKid _ _ := True
  atImage := Connected orig0 orig1

theorem connected_first {r w : ℤ} (h0 : t.get 0 = some ⟨.other orig0,false⟩)
    (h1 : t.get 1 = some ⟨.other orig1,false⟩) (hw : t.get w = some ⟨.writeEnd 0,false⟩)
    (hr : t.get r = some ⟨.readEnd 0,false⟩)
    (ht : Only t [(r,⟨.readEnd 0,false⟩),(w,⟨.writeEnd 0,false⟩)]) :
    Connected orig0 orig1 1 (((t.dup2 w 1).close w).close r).exec := by
  have hw0 : w ≠ 0 := FdTable.ne_of_get hw h0 (by simp)
  have hw1 : w ≠ 1 := FdTable.ne_of_get hw h1 (by simp)
  have hr0 : r ≠ 0 := FdTable.ne_of_get hr h0 (by simp)
  have hr1 : r ≠ 1 := FdTable.ne_of_get hr h1 (by simp)
  have hget := FdTable.get_dup2 hw (n := 1) (by exact_mod_cast hw1)
  constructor
  · simp [hget,FdTable.get_exec,FdTable.get_close,hw0.symm,hr0.symm,h0,inputOf]
  · simp [hget,FdTable.get_exec,FdTable.get_close,hw1.symm,hr1.symm,outputOf]
  · have hdup := ht.dup2 hw (n := 1) (by exact_mod_cast hw1)
    have hclose : Only (((t.dup2 w 1).close w).close r) [(1,⟨.writeEnd 0,false⟩)] :=
      (hdup.close (f := w) (r := [(1,⟨.writeEnd 0,false⟩),(r,⟨.readEnd 0,false⟩)]) (by simp)).close
        (by simp)
    exact hclose.exec

theorem connected_second {r : ℤ} (h0 : t.get 0 = some ⟨.other orig0,false⟩)
    (h1 : t.get 1 = some ⟨.other orig1,false⟩) (hr : t.get r = some ⟨.readEnd 0,false⟩)
    (ht : Only t [(r,⟨.readEnd 0,false⟩)]) :
    Connected orig0 orig1 2 ((t.dup2 r 0).close r).exec := by
  have hr0 : r ≠ 0 := FdTable.ne_of_get hr h0 (by simp)
  have hr1 : r ≠ 1 := FdTable.ne_of_get hr h1 (by simp)
  have hget := FdTable.get_dup2 hr (n := 0) (by exact_mod_cast hr0)
  constructor
  · simp [hget,FdTable.get_exec,FdTable.get_close,hr0.symm,inputOf]
  · simp [hget,FdTable.get_exec,FdTable.get_close,hr1.symm,h1,outputOf]
  · have hdup := ht.dup2 hr (n := 0) (by exact_mod_cast hr0)
    have hclose : Only ((t.dup2 r 0).close r) [(0,⟨.readEnd 0,false⟩)] := hdup.close (by simp)
    exact hclose.exec

theorem executed {j : ℕ} (h : Connected orig0 orig1 j t.exec) (he : cfg.execs j = true) (next : Prog) :
    Kid cfg (plan orig0 orig1) j t (.execlp j next) (weight (cfg.script j) + 0 + 1) :=
  Kid.executed trivial h he next

theorem exists_launches_pair (h : Initial fds orig0 orig1) (hexecs : ∀ j, cfg.execs j = true) :
    ∃ m, Launches cfg (plan orig0 orig1) 1 0 0 fds main m := by
  let r : ℤ := (fds.pipe false 0).2.1
  let w : ℤ := (fds.pipe false 0).2.2
  let t := (fds.pipe false 0).1
  have h0 : t.get 0 = some ⟨.other orig0,false⟩ := FdTable.get_pipe_old h.stdin
  have h1 : t.get 1 = some ⟨.other orig1,false⟩ := FdTable.get_pipe_old h.stdout
  have hr : t.get r = some ⟨.readEnd 0,false⟩ := FdTable.get_pipe_read fds false 0
  have hw : t.get w = some ⟨.writeEnd 0,false⟩ := FdTable.get_pipe_write fds false 0
  have ht : Only t [(r,⟨.readEnd 0,false⟩),(w,⟨.writeEnd 0,false⟩)] := h.only.pipe
  have hw0 : w ≠ 0 := FdTable.ne_of_get hw h0 (by simp)
  have hw1 : w ≠ 1 := FdTable.ne_of_get hw h1 (by simp)
  have hrw : r ≠ w := FdTable.ne_of_get hr hw (by simp)
  have hkid1 : Kid cfg (plan orig0 orig1) 1 t
      (.dup2 w 1 (.close w (.close r (.execlp 1 (second r w 0))))) _ :=
    .dup2 trivial (.close trivial (.close trivial (executed (connected_first h0 h1 hw hr ht) (hexecs 1) _)))
  -- the parent has closed the write end when it starts the second program
  have ht' : Only (t.close w) [(r,⟨.readEnd 0,false⟩)] := ht.close (by simp)
  have hkid2 : Kid cfg (plan orig0 orig1) 2 (t.close w)
      (.dup2 r 0 (.close r (.execlp 2 (finish 2 r 0)))) _ :=
    .dup2 trivial (.close trivial (executed (connected_second (by simp [hw0.symm,h0]) (by simp [hw1.symm,h1])
      (by simp [hrw,hr]) ht') (hexecs 2) _))
  have ht'' : Only ((t.close w).close r) [] := ht'.close (by simp)
  have hroot : Launches cfg (plan orig0 orig1) 3 0 1 (t.close w) (finish 2 r 3) _ :=
    .close trivial (.waitpid ⟨rfl,ht''⟩ (by decide) (.waitpid ⟨rfl,ht''⟩ (by decide)
      (.exit trivial rfl rfl)))
  exact ⟨_,.pipe trivial (.fork trivial (show 1 ≤ 2 by decide) hkid1 (.close trivial
    (.fork trivial le_rfl hkid2 hroot)))⟩

end Finishes

section Halt

variable {cfg : Config} {orig0 orig1 i d : ℕ} {fds : FdTable} {s : State} {rank : ℕ → ℕ}

theorem Connected.holder {j : ℕ} {t : FdTable} (h : Connected orig0 orig1 j t) {f : File}
    (hf : ∀ n, f ≠ .other n) (hh : t.holds f = true) :
    j = 1 ∧ f = .writeEnd 0 ∨ j ≠ 1 ∧ f = .readEnd 0 := by
  rcases h.only.mem_of_holds hf hh with ⟨v,hv,rfl⟩
  unfold ends at hv
  split at hv
  · rw [List.mem_singleton.1 hv]
    exact .inl ⟨‹_›,rfl⟩
  · rw [List.mem_singleton.1 hv]
    exact .inr ⟨‹_›,rfl⟩

theorem Connected.blocked {j : ℕ} {q : Proc} {ops : List Op} (hj : j = 1 ∨ j = 2)
    (h : Connected orig0 orig1 j q.fds) (hb : Blocked cfg q s ops) :
    j = 1 ∧ s.isOpen (.readEnd 0) = true ∧ cfg.capacity ≤ s.held 0 ∨
      j = 2 ∧ s.isOpen (.writeEnd 0) = true ∧ s.held 0 = 0 := by
  have hin : q.fds.file 0 = some (inputOf orig0 (fun _ => 0) j) := by
    simp [FdTable.file,h.stdin]
  have hout : q.fds.file 1 = some (outputOf orig1 2 (fun _ => 0) j) := by
    simp [FdTable.file,h.stdout]
  cases ops with
  | nil => exact hb.elim
  | cons op ops =>
    cases op with
    | read =>
      rcases hb with ⟨x,hx,hheld,hopen⟩
      rw [hin] at hx
      rcases hj with rfl | rfl
      · cases hx
      · cases hx
        exact .inr ⟨rfl,hopen,hheld⟩
    | write n =>
      rcases hb with ⟨x,hx,-,hopen,hfull⟩
      rw [hout] at hx
      rcases hj with rfl | rfl
      · cases hx
        exact .inl ⟨rfl,hopen,hfull⟩
      · cases hx

/-- Whatever the two programs read and write, and in every order of their steps, the three
processes come to an end. -/
theorem pair_finishes (h : Initial fds orig0 orig1) (hcap : 0 < cfg.capacity)
    (hexecs : ∀ j, cfg.execs j = true) :
    Bounded (system cfg fds main) ∧ DeadlockFree (system cfg fds main) := by
  rcases exists_launches_pair h hexecs with ⟨m,hm⟩
  refine ⟨hm.bounded,?_⟩
  intro s hr hs
  rcases hm.reachable hr with ⟨i,d,rank,hl⟩
  refine (hl.root_of_none fun c => hs (1,c)).resolve_right ?_
  rintro ⟨q,next,child,hq,hdi,hchild,hlive,hlaunch⟩
  obtain ⟨rfl,honly⟩ : i = 3 ∧ Only q.fds [] := hlaunch.atRoot
  have hwaits : ∀ j r, 1 ≤ j → j < 3 → s.proc (j+1) = some r → r.code ≠ .exited →
      Connected orig0 orig1 j r.fds ∧
      (j = 1 ∧ s.isOpen (.readEnd 0) = true ∧ cfg.capacity ≤ s.held 0 ∨
        j = 2 ∧ s.isOpen (.writeEnd 0) = true ∧ s.held 0 = 0) := by
    intro j r hj hj3 hr hlive
    rcases (hl.kid_of_none hj hj3 hr fun c => hs (j+1,c)).resolve_left hlive with
      ⟨ops,-,-,himage,hblocked⟩
    exact ⟨himage,Connected.blocked (by omega) himage hblocked⟩
  -- an end of the pipe that is open is that of a program that waits
  have hopen : ∀ f, (∀ n, f ≠ .other n) → s.isOpen f = true → ∃ j r, 1 ≤ j ∧ j < 3 ∧
      s.proc (j+1) = some r ∧ r.code ≠ .exited ∧ r.fds.holds f = true := by
    intro f hf ho
    rcases isOpen_iff.1 ho with ⟨p,-,r,hr,hholds⟩
    rcases hl.root_or_kid hr with rfl | ⟨j,rfl,hj,hj3⟩
    · rw [hq] at hr
      cases hr
      simp [honly.holds_eq_false hf] at hholds
    · refine ⟨j,r,hj,hj3,hr,?_,hholds⟩
      intro hended
      simp [(hl.kid hj hj3 hr).holds_eq_false hended] at hholds
  rcases (hwaits (d+1) child (by omega) hdi hchild hlive).2 with ⟨-,hro,hfull⟩ | ⟨-,hwo,hempty⟩
  · rcases hopen _ (by simp) hro with ⟨j,r,hj,hj3,hr,hrlive,hholds⟩
    rcases hwaits j r hj hj3 hr hrlive with ⟨hconn,⟨rfl,-,-⟩ | ⟨-,-,hempty⟩⟩
    · rcases hconn.holder (by simp) hholds with ⟨-,hf⟩ | ⟨hne,-⟩
      · cases hf
      · exact hne rfl
    · omega
  · rcases hopen _ (by simp) hwo with ⟨j,r,hj,hj3,hr,hrlive,hholds⟩
    rcases hwaits j r hj hj3 hr hrlive with ⟨hconn,⟨-,-,hfull⟩ | ⟨rfl,-,-⟩⟩
    · omega
    · rcases hconn.holder (by simp) hholds with ⟨h1,-⟩ | ⟨-,hf⟩
      · cases h1
      · cases hf

theorem pair_finishes_full : let cfg : Config := ⟨4,fun _ => true,fun _ => [.write 65537]⟩
    Bounded (system cfg standardFds main) ∧ DeadlockFree (system cfg standardFds main) :=
  pair_finishes initial_standardFds (by decide) fun _ => rfl

/-- In every state of every run the first program writes to the pipe and the second one reads it, and
a reader that has emptied it gets to the end of the input once the first program has ended. -/
theorem pair_chained (h : Initial fds orig0 orig1) (hexecs : ∀ j, cfg.execs j = true)
    (hr : (system cfg fds main).Reachable s) :
    (∀ e ∈ s.images, 1 ≤ e.prog ∧ e.prog ≤ 2 ∧ e.stdin = some (inputOf orig0 (fun _ => 0) e.prog) ∧
      e.stdout = some (outputOf orig1 2 (fun _ => 0) e.prog)) ∧
    (s.code 1 = some .exited → ∀ j, 1 ≤ j → j ≤ 2 → j ∈ s.images.map Image.prog) ∧
    ∀ c q ops choice, Waits s (fun _ => True) → s.code 2 = some .exited → s.held 0 = 0 →
      s.proc c = some q → q.code = .image 2 (.read :: ops) →
      step cfg (c,choice) s = some (s.setProc c { q with code := .image 2 ops }) := by
  rcases exists_launches_pair h hexecs with ⟨m,hm⟩
  rcases hm.reachable hr with ⟨i,d,rank,hl⟩
  refine ⟨?_,?_,?_⟩
  · intro e he
    rcases hl.images e he with ⟨h1,hle,t,ht,hin,hout⟩
    exact ⟨h1,hle,by simp [hin,FdTable.file,ht.stdin],by simp [hout,FdTable.file,ht.stdout]⟩
  · intro hcode j hj hj2
    rcases hl.root with ⟨q,hq,-,hstage⟩
    rw [code_eq_some hq,Option.some.injEq] at hcode
    simp only [RootStage,hcode] at hstage
    obtain ⟨-,hi,hd⟩ : _ ∧ i = 3 ∧ d = 2 := hstage
    rcases hl.kids j hj (by omega) with ⟨r,-,hkid⟩
    exact hkid.ran (hexecs j) (by simp [Proc.Ran,hkid.ended (by omega)])
  · intro c q ops choice hw hended hheld hq hcode
    rcases hl.of_waits hw with ⟨q1,pid,next,hq1,-,hlaunch⟩
    obtain ⟨rfl,honly⟩ : i = 3 ∧ Only q1.fds [] := hlaunch.atRoot
    have hreader : c = 3 ∧ Connected orig0 orig1 2 q.fds := by
      rcases hl.root_or_kid hq with rfl | ⟨j,rfl,hj,hj3⟩
      · have hroot := (hl.root_of hq).2
        simp [RootStage,hcode] at hroot
      · have hstage := (hl.kid hj hj3 hq).stage
        simp only [Stage,hcode] at hstage
        obtain ⟨rfl,-,himage,-⟩ := hstage
        exact ⟨rfl,himage⟩
    rcases hreader with ⟨rfl,hconn⟩
    apply step_read_eof hq hcode hconn.stdin hheld
    rw [isOpen_eq_false]
    intro p hp r hr
    rw [← Bool.not_eq_true]
    intro hholds
    -- the parent has closed the pipe, and the first program has ended
    rcases hl.root_or_kid hr with rfl | ⟨j,rfl,hj,hj3⟩
    · rw [hq1] at hr
      cases hr
      simp [honly.holds_eq_false] at hholds
    · obtain rfl | rfl : j = 1 ∨ j = 2 := by omega
      · rw [code_eq_some hr,Option.some.injEq] at hended
        simp [(hl.kid hj hj3 hr).holds_eq_false hended] at hholds
      · rw [hq] at hr
        cases hr
        rcases hconn.holder (by simp) hholds with ⟨h1,-⟩ | ⟨-,hf⟩
        · cases h1
        · cases hf

theorem pair_chained_first : let cfg : Config := ⟨4,fun _ => true,fun _ => [.read]⟩
    ∃ s, (system cfg standardFds main).Reachable s ∧
      s.images = [⟨2,1,some (.other 0),some (.writeEnd 0)⟩] ∧
      ∀ e ∈ s.images, e.stdout = some (outputOf 1 2 (fun _ => 0) e.prog) := by
  intro cfg
  have hex : ∃ s, (system cfg standardFds main).Reachable s ∧
      s.images = [⟨2,1,some (.other 0),some (.writeEnd 0)⟩] :=
    ⟨_,⟨List.replicate 2 (1,0) ++ List.replicate 4 (2,0),rfl⟩,rfl⟩
  rcases hex with ⟨s,hr,himages⟩
  have hchained := pair_chained initial_standardFds (fun _ => rfl) hr
  exact ⟨s,hr,himages,fun e he => (hchained.1 e he).2.2.2⟩

end Halt

end Inf15_1
end ShellPipelines
end SomeCode
