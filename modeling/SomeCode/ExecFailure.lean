import SomeCode.ForkTree
import SomeCode.ShellPipelines

/-! What becomes of the pipelines of `inf15-3.c` and `inf15-4.c` where `execlp` fails: the child
goes on with the code of the parent. -/
namespace SomeCode
namespace ShellPipelines

open Processes Transition

variable {execs : ℕ → Bool}

/-- In every run, whatever the programs do and the descriptors are at the start -/
def Orderly (execs : ℕ → Bool) (p : Prog) : Prop :=
  ∀ capacity script fds s, (system ⟨capacity,execs,script⟩ fds p).Reachable s → OnceEach s

theorem orderly_of_spawns {p : Prog} (h : Spawns execs 1 p) : Orderly execs p :=
  fun _ _ _ _ hr => Spawns.onceEach h hr

theorem not_orderly_of_leaks {p : Prog} (h : Leaks execs p) : ¬ Orderly execs p := by
  intro ho
  let cfg : Config := ⟨0,execs,fun _ => []⟩
  obtain ⟨s,hr,hs⟩ : ∃ s, (system cfg standardFds p).Reachable s ∧ ¬ OnceEach s :=
    Leaks.not_onceEach standardFds h fun _ => rfl
  exact hs (ho _ _ _ _ hr)

theorem runOne_spawns : Spawns execs 1 runOne :=
  .fork (.execlp fun _ => .waitpid .exit) fun pid hpid => by
    rw [if_neg hpid]
    exact .waitpid .exit

namespace Inf15_3

theorem spawns_makePipe {j : ℕ} {next : (ℕ → ℤ) → Prog} (h : ∀ fd, Spawns execs j (next fd))
    (n i : ℕ) (fd : ℕ → ℤ) : Spawns execs j (.loop makePipe n i fd next) := by
  induction n generalizing i fd with
  | zero => exact h fd
  | succ n ih => exact .pipe fun _ _ => ih _ _

theorem leaks_makePipe {next : (ℕ → ℤ) → Prog} (h : ∀ fd, Leaks execs (next fd))
    (n i : ℕ) (fd : ℕ → ℤ) : Leaks execs (.loop makePipe n i fd next) := by
  induction n generalizing i fd with
  | zero => exact h fd
  | succ n ih => exact .pipe fun _ _ => ih _ _

theorem spawns_finish (j argc : ℕ) (fd : ℕ → ℤ) (pids : ℕ → ℕ) :
    Spawns execs j (finish argc fd pids) := by
  have hwait : ∀ n i, Spawns execs j (.loop (waitOne pids) n i () fun _ => .exit) := by
    intro n
    induction n with
    | zero => exact fun _ => .exit
    | succ n ih => exact fun i => .waitpid (ih (i+1))
  have hclose : ∀ n i, Spawns execs j (.loop (closeOne fd) n i () fun _ =>
      .loop (waitOne pids) (argc-1) 1 () fun _ => .exit) := by
    intro n
    induction n with
    | zero => exact fun _ => hwait _ _
    | succ n ih => exact fun i => .close (ih (i+1))
  exact hclose _ _

theorem spawns_startLast {k : ℕ} (fd : ℕ → ℤ) (pids : ℕ → ℕ) :
    Spawns execs k (startLast (k+1) fd pids) :=
  .fork (.dup2 (.execlp fun _ => .exit)) fun pid hpid => by
    rw [if_neg hpid]
    exact spawns_finish _ _ _ _

theorem spawns_start {fd : ℕ → ℤ} {n i : ℕ} (h : ∀ j, i ≤ j → j < i+n → execs j = true)
    {next : (ℕ → ℕ) → Prog} (hnext : ∀ pids, Spawns execs (i+n) (next pids)) (pids : ℕ → ℕ) :
    Spawns execs i (.loop (start fd) n i pids next) := by
  induction n generalizing i pids with
  | zero => exact hnext pids
  | succ n ih =>
    have hi : execs i = true := h i (by omega) (by omega)
    refine .fork (.dup2 (.dup2 (.execlp fun hf => ?_))) fun pid hpid => ?_
    · simp [hi] at hf
    · rw [if_neg hpid]
      refine ih (fun j hj hjn => h j (by omega) (by omega)) (fun pids => ?_) _
      rw [Nat.add_right_comm]
      exact hnext pids

theorem reforks_start {fd : ℕ → ℤ} {next : (ℕ → ℕ) → Prog} (hnext : ∀ pids, Reforks execs (next pids))
    (n i : ℕ) (pids : ℕ → ℕ) : Reforks execs (.loop (start fd) n i pids next) := by
  cases n with
  | zero => exact hnext pids
  | succ n => exact .fork

theorem leaks_start {fd : ℕ → ℤ} {n i j : ℕ} (hij : i ≤ j) (hjn : j < i+n) (hj : execs j = false)
    {next : (ℕ → ℕ) → Prog} (hnext : ∀ pids, Reforks execs (next pids)) (pids : ℕ → ℕ) :
    Leaks execs (.loop (start fd) n i pids next) := by
  induction n generalizing i pids with
  | zero => omega
  | succ n ih =>
    cases hi : execs i with
    | false => exact .here (.dup2 (.dup2 (.execlp hi (reforks_start hnext _ _ _))))
    | true =>
      have hne : i ≠ j := by
        rintro rfl
        simp [hi] at hj
      refine .later (i := i) (.dup2 (.dup2 (.execlp fun hf => ?_))) fun pid hpid => ?_
      · simp [hi] at hf
      · rw [if_neg hpid]
        exact ih (by omega) (by omega) _

theorem main_spawns {k : ℕ} (junk : ℕ → ℤ) (h : ∀ i, 2 ≤ i → i < k → execs i = true) :
    Spawns execs 1 (main junk (k+1)) := by
  unfold main
  split
  · exact .exit
  split
  · exact runOne_spawns
  refine spawns_makePipe (fun fd => ?_) _ _ _
  refine .fork (.dup2 (.execlp fun _ => .exit)) fun pid hpid => ?_
  rw [if_neg hpid]
  refine spawns_start (fun j hj hjk => h j hj (by omega)) (fun pids => ?_) _
  have hk : 2 + (k+1-3) = k := by omega
  rw [hk]
  exact spawns_startLast fd pids

theorem main_leaks {k j : ℕ} (junk : ℕ → ℤ) (h2 : 2 ≤ j) (hjk : j < k) (hj : execs j = false) :
    Leaks execs (main junk (k+1)) := by
  unfold main
  rw [if_neg (by omega),if_neg (by omega)]
  refine leaks_makePipe (fun fd => ?_) _ _ _
  refine .later (i := 1) (.dup2 (.execlp fun _ => .exit)) fun pid hpid => ?_
  rw [if_neg hpid]
  exact leaks_start h2 (by omega) hj (fun _ => .fork) _

end Inf15_3

namespace Inf15_4

theorem spawns_startLast {k : ℕ} (input : ℤ) : Spawns execs k (startLast (k+1) input) :=
  .fork (.dup2 (.close (.execlp fun _ => .waitpid (.close .exit)))) fun pid hpid => by
    rw [if_neg hpid]
    exact .waitpid (.close .exit)

theorem spawns_start {n i : ℕ} (h : ∀ j, i ≤ j → j < i+n → execs j = true) {next : ℤ → Prog}
    (hnext : ∀ input, Spawns execs (i+n) (next input)) (input : ℤ) :
    Spawns execs i (.loop start n i input next) := by
  induction n generalizing i input with
  | zero => exact hnext input
  | succ n ih =>
    have hi : execs i = true := h i (by omega) (by omega)
    refine .pipe fun r w => .fork (.dup2 (.dup2 (.close (.execlp fun hf => ?_)))) fun pid hpid => ?_
    · simp [hi] at hf
    · rw [if_neg hpid]
      refine .waitpid (.close (.close ?_))
      refine ih (fun j hj hjn => h j (by omega) (by omega)) (fun input => ?_) _
      rw [Nat.add_right_comm]
      exact hnext input

theorem reforks_start {next : ℤ → Prog} (hnext : ∀ input, Reforks execs (next input)) (n i : ℕ)
    (input : ℤ) : Reforks execs (.loop start n i input next) := by
  cases n with
  | zero => exact hnext input
  | succ n => exact .pipe fun _ _ => .fork

theorem leaks_start {n i j : ℕ} (hij : i ≤ j) (hjn : j < i+n) (hj : execs j = false)
    {next : ℤ → Prog} (hnext : ∀ input, Reforks execs (next input)) (input : ℤ) :
    Leaks execs (.loop start n i input next) := by
  induction n generalizing i input with
  | zero => omega
  | succ n ih =>
    refine .pipe fun r w => ?_
    cases hi : execs i with
    | false =>
      exact .here (.dup2 (.dup2 (.close (.execlp hi (.waitpid (.close (.close
        (reforks_start hnext _ _ _))))))))
    | true =>
      have hne : i ≠ j := by
        rintro rfl
        simp [hi] at hj
      refine .later (i := i) (.dup2 (.dup2 (.close (.execlp fun hf => ?_)))) fun pid hpid => ?_
      · simp [hi] at hf
      · rw [if_neg hpid]
        exact .waitpid hpid (.close (.close (ih (by omega) (by omega) _)))

theorem main_spawns {k : ℕ} (h : ∀ i, 1 ≤ i → i < k → execs i = true) :
    Spawns execs 1 (main (k+1)) := by
  unfold main
  split
  · exact .exit
  split
  · exact runOne_spawns
  have h1 : execs 1 = true := h 1 (by omega) (by omega)
  refine .pipe fun r w => .fork (.dup2 (.close (.execlp fun hf => ?_))) fun pid hpid => ?_
  · simp [h1] at hf
  · rw [if_neg hpid]
    refine .waitpid (.close (spawns_start (fun j hj hjk => h j (by omega) (by omega))
      (fun input => ?_) _))
    have hk : 2 + (k+1-3) = k := by omega
    rw [hk]
    exact spawns_startLast input

theorem main_leaks {k j : ℕ} (h1 : 1 ≤ j) (hjk : j < k) (hj : execs j = false) :
    Leaks execs (main (k+1)) := by
  unfold main
  rw [if_neg (by omega),if_neg (by omega)]
  refine .pipe fun r w => ?_
  cases he : execs 1 with
  | false =>
    exact .here (.dup2 (.close (.execlp he (.waitpid (.close (reforks_start (fun _ => .fork) _ _ _))))))
  | true =>
    have hne : j ≠ 1 := by
      rintro rfl
      simp [he] at hj
    refine .later (i := 1) (.dup2 (.close (.execlp fun hf => ?_))) fun pid hpid => ?_
    · simp [he] at hf
    · rw [if_neg hpid]
      exact .waitpid hpid (.close (leaks_start (by omega) (by omega) hj (fun _ => .fork) _))

end Inf15_4

/-- With `k` programs, `inf15-3.c` keeps its runs in order just where all programs but the first
and the last can be executed, and `inf15-4.c` where all but the last can. -/
theorem orderly_iff (junk : ℕ → ℤ) (k : ℕ) (execs : ℕ → Bool) :
    (Orderly execs (Inf15_3.main junk (k+1)) ↔ ∀ i, 2 ≤ i → i < k → execs i = true) ∧
    (Orderly execs (Inf15_4.main (k+1)) ↔ ∀ i, 1 ≤ i → i < k → execs i = true) := by
  refine ⟨⟨fun h i h2 hik => ?_,fun h => orderly_of_spawns (Inf15_3.main_spawns junk h)⟩,
    ⟨fun h i h1 hik => ?_,fun h => orderly_of_spawns (Inf15_4.main_spawns h)⟩⟩
  · by_contra hi
    exact not_orderly_of_leaks (Inf15_3.main_leaks junk h2 hik (by simpa using hi)) h
  · by_contra hi
    exact not_orderly_of_leaks (Inf15_4.main_leaks h1 hik (by simpa using hi)) h

/-- The second of three programs fails in `inf15-3.c`, the first of two in `inf15-4.c`: the last
program is started twice. -/
theorem starts_last_twice :
    (∃ s, (system ⟨65536,fun i => i ≠ 2,fun _ => []⟩ standardFds
      (Inf15_3.main (fun _ => 0) 4)).Reachable s ∧ s.images.map Image.prog = [3,3] ∧ s.forks = [3,1,1,1]) ∧
    (∃ s, (system ⟨65536,fun i => i ≠ 1,fun _ => []⟩ standardFds (Inf15_4.main 3)).Reachable s ∧
      s.images.map Image.prog = [2,2] ∧ s.forks = [1,2,1]) ∧
    ¬ Orderly (fun i => i ≠ 2) (Inf15_3.main (fun _ => 0) 4) ∧
    ¬ Orderly (fun i => i ≠ 1) (Inf15_4.main 3) := by
  have h3 : ∃ s, (system ⟨65536,fun i => i ≠ 2,fun _ => []⟩ standardFds
      (Inf15_3.main (fun _ => 0) 4)).Reachable s ∧
      s.images.map Image.prog = [3,3] ∧ s.forks = [3,1,1,1] :=
    ⟨_,⟨List.replicate 7 (1,0) ++ List.replicate 4 (3,0) ++ [(4,0),(4,0),(5,0),(5,0)],rfl⟩,rfl,rfl⟩
  have h4 : ∃ s, (system ⟨65536,fun i => i ≠ 1,fun _ => []⟩ standardFds (Inf15_4.main 3)).Reachable s ∧
      s.images.map Image.prog = [2,2] ∧ s.forks = [1,2,1] :=
    ⟨_,⟨[(1,0),(1,0)] ++ List.replicate 6 (2,0) ++ List.replicate 4 (3,0) ++
      List.replicate 3 (2,0) ++ List.replicate 3 (1,0) ++ List.replicate 3 (4,0),rfl⟩,rfl,rfl⟩
  refine ⟨h3,h4,fun h => ?_,fun h => ?_⟩
  · obtain ⟨s,hr,himages,-⟩ := h3
    have hnodup := (h _ _ _ s hr).images
    rw [himages] at hnodup
    exact absurd hnodup (by decide)
  · obtain ⟨s,hr,himages,-⟩ := h4
    have hnodup := (h _ _ _ s hr).images
    rw [himages] at hnodup
    exact absurd hnodup (by decide)

end ShellPipelines
end SomeCode
