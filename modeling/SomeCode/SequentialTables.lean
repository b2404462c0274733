import SomeCode.PipelineTables

/-! The descriptor tables of `inf15-4.c` and `main.c`, which wait for each program before they
start the next. Pipe `j-1` is the one behind program `j`. -/
namespace SomeCode
namespace ShellPipelines

open Processes Transition

variable {orig0 orig1 k : ℕ} {t : FdTable} {cfg : Config}

/-- At most one child is not collected. While there is one, the parent has the read end of its
pipe open and no write end but that of this pipe, and no write end at all for the last program. -/
def Waiting (k i d : ℕ) (t : FdTable) : Prop :=
  i ≤ d+2 ∧ (i = d+2 → (∀ x, t.holds (.writeEnd x) = true → x+2 = i ∧ i ≤ k) ∧
    (i ≤ k → t.holds (.readEnd (i-2)) = true))

/-- The child for program `j` has no write end but that of its own pipe. -/
def Own (k j : ℕ) (t : FdTable) : Prop :=
  ∀ x, t.holds (.writeEnd x) = true → x+1 = j ∧ j ≠ k

def seqPlan (orig0 orig1 k : ℕ) : Plan where
  count := k
  atRoot i d t _ := Waiting k i d t
  atKid := Own k
  atImage := Wired orig0 orig1 k fun j => j-1

theorem Waiting.of_lt {d : ℕ} (t : FdTable) : Waiting k (d+1) d t := ⟨by omega,by omega⟩

theorem Own.of_only {j : ℕ} {l : List (ℤ × Entry)} (ht : Only t l)
    (hl : ∀ v ∈ l, ∀ x, v.2.file = .writeEnd x → x+1 = j ∧ j ≠ k) : Own k j t := by
  intro x hx
  obtain ⟨v,hv,hfile⟩ := ht.mem_of_holds (by simp) hx
  exact hl v hv x hfile

theorem holds_of_get {fd : ℤ} {f : File} {c : Bool} (h : t.get fd = some ⟨f,c⟩) : t.holds f = true :=
  FdTable.holds_iff.mpr ⟨fd,_,h,rfl⟩

theorem Own.close {j : ℕ} (h : Own k j t) (f : ℤ) : Own k j (t.close f) := by
  intro x hx
  obtain ⟨fd,e,he,hfile⟩ := FdTable.holds_iff.mp hx
  rw [FdTable.get_close,Function.update_apply] at he
  split at he
  · cases he
  · exact h x (FdTable.holds_iff.mpr ⟨fd,e,he,hfile⟩)

theorem Waiting.of_only {d : ℕ} {l : List (ℤ × Entry)} {fd : ℤ} (ht : Only t l)
    (hl : ∀ v ∈ l, ∀ x, v.2.file = .writeEnd x → x = d) (hdk : d+2 ≤ k)
    (hr : t.get fd = some ⟨.readEnd d,false⟩) : Waiting k (d+2) d t := by
  refine ⟨Nat.le_refl _,fun _ => ⟨fun x hx => ?_,fun _ => holds_of_get hr⟩⟩
  obtain ⟨v,hv,hfile⟩ := ht.mem_of_holds (by simp) hx
  exact ⟨by rw [hl v hv x hfile],hdk⟩

theorem Waiting.of_last {d : ℕ} {l : List (ℤ × Entry)} (ht : Only t l)
    (hl : ∀ v ∈ l, ∀ x, v.2.file ≠ .writeEnd x) (hdk : d+1 = k) : Waiting k (d+2) d t := by
  refine ⟨Nat.le_refl _,fun _ => ⟨fun x hx => ?_,by omega⟩⟩
  obtain ⟨v,hv,hfile⟩ := ht.mem_of_holds (by simp) hx
  exact absurd hfile (hl v hv x)

/-- Between two programs: the read end of pipe `x` is open under `input`, and nothing else. -/
structure Held (orig0 orig1 x : ℕ) (input : ℤ) (t : FdTable) : Prop where
  stdin : t.get 0 = some ⟨.other orig0,false⟩
  stdout : t.get 1 = some ⟨.other orig1,false⟩
  reads : t.get input = some ⟨.readEnd x,false⟩
  only : Only t [(input,⟨.readEnd x,false⟩)]

structure Piped (orig0 orig1 e : ℕ) (input r w : ℤ) (u : FdTable) : Prop where
  stdin : u.get 0 = some ⟨.other orig0,false⟩
  stdout : u.get 1 = some ⟨.other orig1,false⟩
  reads : u.get input = some ⟨.readEnd e,false⟩
  read : u.get r = some ⟨.readEnd (e+1),false⟩
  write : u.get w = some ⟨.writeEnd (e+1),false⟩
  only : Only u [(r,⟨.readEnd (e+1),false⟩),(w,⟨.writeEnd (e+1),false⟩),(input,⟨.readEnd e,false⟩)]

theorem Held.pipe {e : ℕ} {input : ℤ} (h : Held orig0 orig1 e input t) :
    Piped orig0 orig1 e input (t.pipe false (e+1)).2.1 (t.pipe false (e+1)).2.2
      (t.pipe false (e+1)).1 where
  stdin := FdTable.get_pipe_old h.stdin
  stdout := FdTable.get_pipe_old h.stdout
  reads := FdTable.get_pipe_old h.reads
  read := FdTable.get_pipe_read _ _ _
  write := FdTable.get_pipe_write _ _ _
  only := h.only.pipe

theorem Piped.ne {e : ℕ} {input r w : ℤ} (h : Piped orig0 orig1 e input r w t) :
    input ≠ 0 ∧ input ≠ 1 ∧ r ≠ 0 ∧ r ≠ 1 ∧ w ≠ 0 ∧ w ≠ 1 ∧ input ≠ r ∧ input ≠ w ∧ r ≠ w :=
  ⟨FdTable.ne_of_get h.reads h.stdin (by simp),FdTable.ne_of_get h.reads h.stdout (by simp),
    FdTable.ne_of_get h.read h.stdin (by simp),FdTable.ne_of_get h.read h.stdout (by simp),
    FdTable.ne_of_get h.write h.stdin (by simp),FdTable.ne_of_get h.write h.stdout (by simp),
    FdTable.ne_of_get h.reads h.read (by simp),FdTable.ne_of_get h.reads h.write (by simp),
    FdTable.ne_of_get h.read h.write (by simp)⟩

theorem Piped.waiting {e : ℕ} {input r w : ℤ} (h : Piped orig0 orig1 e input r w t)
    (hk : e+3 ≤ k) : Waiting k (e+1+2) (e+1) t :=
  .of_only h.only (by simp) hk h.read

theorem Piped.own {e : ℕ} {input r w : ℤ} (h : Piped orig0 orig1 e input r w t) (hk : e+2 ≠ k) :
    Own k (e+2) t := .of_only h.only (by simp [hk])

structure First (orig0 orig1 : ℕ) (r w : ℤ) (t : FdTable) : Prop where
  stdin : t.get 0 = some ⟨.other orig0,false⟩
  stdout : t.get 1 = some ⟨.other orig1,false⟩
  read : t.get r = some ⟨.readEnd 0,false⟩
  write : t.get w = some ⟨.writeEnd 0,false⟩
  only : Only t [(r,⟨.readEnd 0,false⟩),(w,⟨.writeEnd 0,false⟩)]

theorem First.of_initial (h : Initial t orig0 orig1) :
    First orig0 orig1 (t.pipe false 0).2.1 (t.pipe false 0).2.2 (t.pipe false 0).1 where
  stdin := FdTable.get_pipe_old h.stdin
  stdout := FdTable.get_pipe_old h.stdout
  read := FdTable.get_pipe_read _ _ _
  write := FdTable.get_pipe_write _ _ _
  only := h.only.pipe

theorem First.ne {r w : ℤ} (h : First orig0 orig1 r w t) : r ≠ 0 ∧ r ≠ 1 ∧ w ≠ 0 ∧ w ≠ 1 ∧ r ≠ w :=
  ⟨FdTable.ne_of_get h.read h.stdin (by simp),FdTable.ne_of_get h.read h.stdout (by simp),
    FdTable.ne_of_get h.write h.stdin (by simp),FdTable.ne_of_get h.write h.stdout (by simp),
    FdTable.ne_of_get h.read h.write (by simp)⟩

theorem First.waiting {r w : ℤ} (h : First orig0 orig1 r w t) (hk : 2 ≤ k) : Waiting k 2 0 t :=
  .of_only h.only (by simp) hk h.read

theorem First.kid {r w : ℤ} (h : First orig0 orig1 r w t) (hk : k ≠ 1) {rest : Prog} {m : ℕ}
    (hrest : cfg.execs 1 = false → ∀ t, Own k 1 t → Kid cfg (seqPlan orig0 orig1 k) 1 t rest m) :
    Kid cfg (seqPlan orig0 orig1 k) 1 t (.dup2 w 1 (.close r (.execlp 1 rest)))
      (weight (cfg.script 1) + m + 1 + 1 + 1) := by
  obtain ⟨hr0,hr1,hw0,hw1,hrw⟩ := h.ne
  have hget := FdTable.get_dup2 (n := 1) h.write (by simpa using hw1)
  have h1 := h.only.dup2 (n := 1) h.write (by simpa using hw1)
  have h2 := h1.close (f := r) (r := [(1,⟨.writeEnd 0,false⟩),(w,⟨.writeEnd 0,false⟩)]) (by simp)
  have hown : Own k 1 ((t.dup2 w 1).close r) := .of_only h2 (by simp [hk.symm])
  refine .dup2 (.of_only h.only (by simp [hk.symm])) (.close (.of_only h1 (by simp [hk.symm]))
    (.execlp hown (fun _ => .of_only ?_ ?_ h2.exec ?_) fun he => hrest he _ hown))
  · simp [hget,hr0.symm,inputOf,h.stdin]
  · simp [hget,hr1.symm,outputOf,hk.symm]
  · simp [outputOf,hk.symm]

namespace Inf15_4

theorem kid_last {e : ℕ} {input : ℤ} (h : Held orig0 orig1 e input t) :
    Kid cfg (seqPlan orig0 orig1 (e+2)) (e+2) t (.dup2 input 0 (.close input
      (.execlp (e+2) (.waitpid 0 (.close input .exit)))))
      (weight (cfg.script (e+2)) + (1+1+1) + 1 + 1 + 1) := by
  have hne0 : input ≠ 0 := FdTable.ne_of_get h.reads h.stdin (by simp)
  have hne1 : input ≠ 1 := FdTable.ne_of_get h.reads h.stdout (by simp)
  have hget := FdTable.get_dup2 (n := 0) h.reads (by simpa using hne0)
  have h1 := h.only.dup2 (n := 0) h.reads (by simpa using hne0)
  have h2 := h1.close (f := input) (r := [(0,⟨.readEnd e,false⟩)]) (by simp)
  have hown : Own (e+2) (e+2) ((t.dup2 input 0).close input) := .of_only h2 (by simp)
  refine .dup2 (.of_only h.only (by simp)) (.close (.of_only h1 (by simp))
    (.execlp hown (fun _ => .of_only ?_ ?_ h2.exec (by simp)) fun he =>
      .waitpid hown (.close hown (.exit (hown.close _) he))))
  · simp [hget,hne0.symm,inputOf]
  · simp [hget,hne1.symm,outputOf,h.stdout]

theorem exists_startLast {e n : ℕ} {input : ℤ} (h : Held orig0 orig1 e input t) :
    ∃ m, Launches cfg (seqPlan orig0 orig1 (e+2)) (e+2) (e+1) n t (startLast (e+2+1) input) m := by
  refine ⟨_,.fork (m := 1+1+1) (.of_lt t) (Nat.le_refl _) (kid_last h) ?_⟩
  rw [if_neg (by omega)]
  have hw : Waiting (e+2) (e+1+2) (e+1) t := .of_last h.only (by simp) rfl
  refine .waitpid hw (Nat.lt_succ_self _) (.close (.of_lt _) (.exit (.of_lt _) rfl rfl))

theorem kid_middle {e : ℕ} {input r w : ℤ} (h : Piped orig0 orig1 e input r w t) (hk : e+2 ≠ k)
    (hexec : cfg.execs (e+2) = true) (rest : Prog) : Kid cfg (seqPlan orig0 orig1 k) (e+2) t
      (.dup2 input 0 (.dup2 w 1 (.close w (.execlp (e+2) rest))))
      (weight (cfg.script (e+2)) + 0 + 1 + 1 + 1 + 1) := by
  obtain ⟨hi0,hi1,-,-,hw0,hw1,-,hiw,-⟩ := h.ne
  have hget0 := FdTable.get_dup2 (n := 0) h.reads (by simpa using hi0)
  have hw : (t.dup2 input 0).get w = some ⟨.writeEnd (e+1),false⟩ := by simp [hget0,hw0,h.write]
  have hget1 := FdTable.get_dup2 (n := 1) hw (by simpa using hw1)
  have h1 := h.only.dup2 (n := 0) h.reads (by simpa using hi0)
  have h2 := h1.dup2 (n := 1) hw (by simpa using hw1)
  have h3 := h2.close (f := w) (r := [(1,⟨.writeEnd (e+1),false⟩),(0,⟨.readEnd e,false⟩),
    (r,⟨.readEnd (e+1),false⟩),(input,⟨.readEnd e,false⟩)]) (by simp)
  have hown : Own k (e+2) (((t.dup2 input 0).dup2 w 1).close w) := .of_only h3 (by simp [hk])
  have himage : Wired orig0 orig1 k (fun j => j-1) (e+2)
      (((t.dup2 input 0).dup2 w 1).close w).exec := by
    refine .of_only ?_ ?_ h3.exec ?_
    · simp [hget1,hget0,hw0.symm,inputOf]
    · simp [hget1,hw1.symm,outputOf,hk]
    · simp [outputOf,hk]
  exact .dup2 (h.own hk) (.dup2 (.of_only h1 (by simp [hk])) (.close (.of_only h2 (by simp [hk]))
    (.executed hown himage hexec rest)))

theorem close_both {e : ℕ} {input r w : ℤ} (h : Piped orig0 orig1 e input r w t) :
    Held orig0 orig1 (e+1) r ((t.close input).close w) := by
  obtain ⟨hi0,hi1,-,-,hw0,hw1,hir,-,hrw⟩ := h.ne
  have h1 := h.only.close (f := input) (r := [(r,⟨.readEnd (e+1),false⟩),(w,⟨.writeEnd (e+1),false⟩)])
    (by simp)
  refine ⟨?_,?_,?_,h1.close (by simp)⟩
  · simp [hi0.symm,hw0.symm,h.stdin]
  · simp [hi1.symm,hw1.symm,h.stdout]
  · simp [hir.symm,hrw,h.read]

theorem exists_start {e n : ℕ} {input : ℤ} {next : ℤ → Prog} (h : Held orig0 orig1 e input t)
    (hn : e+2+n = k) (hexecs : ∀ j, e+2 ≤ j → j < k → cfg.execs j = true)
    (hnext : ∀ input t e, Held orig0 orig1 e input t → e+2 = k →
      ∃ m, Launches cfg (seqPlan orig0 orig1 k) k (e+1) (e+1) t (next input) m) :
    ∃ m, Launches cfg (seqPlan orig0 orig1 k) (e+2) (e+1) (e+1) t
      (.loop start n (e+2) input next) m := by
  induction n generalizing e input t with
  | zero =>
    obtain rfl : e+2 = k := hn
    exact hnext input t e h rfl
  | succ n ih =>
    have hp := h.pipe
    obtain ⟨m,hm⟩ := ih (close_both hp) (by omega) fun j hj => hexecs j (by omega)
    refine ⟨_,.pipe (.of_lt t) (.fork (m := m+1+1+1) (.of_lt _) (show e+2 ≤ k by omega)
      (kid_middle hp (by omega) (hexecs _ (Nat.le_refl _) (by omega)) _) ?_)⟩
    rw [if_neg (by omega)]
    exact .waitpid (hp.waiting (by omega)) (Nat.lt_succ_self _)
      (.close (.of_lt _) (.close (.of_lt _) hm))

theorem exists_startFirst (hk : 2 ≤ k) (h : Initial t orig0 orig1)
    (hexecs : ∀ j, 1 ≤ j → j < k → cfg.execs j = true) :
    ∃ m, Launches cfg (seqPlan orig0 orig1 k) 1 0 0 t (startFirst (k+1)) m := by
  have hf := First.of_initial h
  obtain ⟨hr0,hr1,hw0,hw1,hrw⟩ := hf.ne
  have hheld : Held orig0 orig1 0 (t.pipe false 0).2.1
      ((t.pipe false 0).1.close (t.pipe false 0).2.2) := by
    refine ⟨?_,?_,?_,hf.only.close (by simp)⟩
    · simp [hw0.symm,hf.stdin]
    · simp [hw1.symm,hf.stdout]
    · simp [hrw,hf.read]
  have hlast : ∀ input t e, Held orig0 orig1 e input t → e+2 = k →
      ∃ m, Launches cfg (seqPlan orig0 orig1 k) k (e+1) (e+1) t (startLast (k+1) input) m := by
    rintro input t e he rfl
    exact exists_startLast he
  obtain ⟨m,hm⟩ := exists_start (n := k+1-3) hheld (by omega) (fun j hj => hexecs j (by omega)) hlast
  refine ⟨_,.pipe (.of_lt t) (.fork (m := m+1+1) (.of_lt _) (show 1 ≤ k by omega)
    (hf.kid (m := 0) (by omega) fun he => ?_) ?_)⟩
  · simp [hexecs 1 (Nat.le_refl 1) (by omega)] at he
  · rw [if_neg (by omega)]
    exact .waitpid (hf.waiting hk) (Nat.lt_succ_self _) (.close (.of_lt _) hm)

theorem exists_runOne (h : Initial t orig0 orig1) :
    ∃ m, Launches cfg (seqPlan orig0 orig1 1) 1 0 0 t runOne m := by
  have hown : Own 1 1 t := .of_only h.only (by simp)
  have hkid : Kid cfg (seqPlan orig0 orig1 1) 1 t (.execlp 1 (.waitpid 0 .exit))
      (weight (cfg.script 1) + (1+1) + 1) := by
    refine .execlp hown (fun _ => .of_only ?_ ?_ h.only.exec (by simp)) fun he =>
      .waitpid hown (.exit hown he)
    · simp [h.stdin,inputOf]
    · simp [h.stdout,outputOf]
  refine ⟨_,.fork (m := 1+1) (.of_lt t) (Nat.le_refl 1) hkid ?_⟩
  exact .waitpid (.of_last h.only (by simp) rfl) (Nat.lt_succ_self 1) (.exit (.of_lt t) rfl rfl)

/-- The parent of `inf15-4.c` runs as planned where the programs before the last can be executed. -/
theorem exists_launches (cfg : Config) (h : Initial t orig0 orig1)
    (hexecs : ∀ j, 1 ≤ j → j < k → cfg.execs j = true) :
    ∃ m, Launches cfg (seqPlan orig0 orig1 k) 1 0 0 t (main (k+1)) m := by
  unfold main
  match k, hexecs with
  | 0, _ => exact ⟨1,.exit (.of_lt t) rfl rfl⟩
  | 1, _ => exact exists_runOne h
  | n+2, hexecs => exact exists_startFirst (by omega) h hexecs

end Inf15_4

namespace MainC

/-- Behind round `e+1` of the loop: the pipe behind program `e+1` is in `pipes_[e % 2]`, with both
ends open, and the other pipe has at most its read end open. -/
structure Turned (orig0 orig1 e : ℕ) (v : Vars) (t : FdTable) : Prop where
  execError : v.execError = 0
  output : v.output = e % 2
  input : v.input = 1 - e % 2
  stdin : t.get 0 = some ⟨.other orig0,false⟩
  stdout : t.get 1 = some ⟨.other orig1,false⟩
  read : t.get (v.pipes (e % 2) 0) = some ⟨.readEnd e,false⟩
  write : t.get (v.pipes (e % 2) 1) = some ⟨.writeEnd e,false⟩
  old : t.get (v.pipes (1 - e % 2) 0) = none ∨
    t.get (v.pipes (1 - e % 2) 0) = some ⟨.readEnd (e-1),false⟩ ∧ 1 ≤ e
  only : Only t [(v.pipes (e % 2) 0,⟨.readEnd e,false⟩),(v.pipes (e % 2) 1,⟨.writeEnd e,false⟩),
    (v.pipes (1 - e % 2) 0,⟨.readEnd (e-1),false⟩)]

theorem Turned.close {e : ℕ} {v : Vars} (h : Turned orig0 orig1 e v t) :
    Held orig0 orig1 e (v.pipes (e % 2) 0)
      ((t.close (v.pipes (e % 2) 1)).close (v.pipes (1 - e % 2) 0)) ∧
    Held orig0 orig1 e (v.pipes (e % 2) 0)
      ((t.close (v.pipes (1 - e % 2) 0)).close (v.pipes (e % 2) 1)) := by
  have hw0 : v.pipes (e % 2) 1 ≠ 0 := FdTable.ne_of_get h.write h.stdin (by simp)
  have hw1 : v.pipes (e % 2) 1 ≠ 1 := FdTable.ne_of_get h.write h.stdout (by simp)
  have hrw : v.pipes (e % 2) 0 ≠ v.pipes (e % 2) 1 := FdTable.ne_of_get h.read h.write (by simp)
  have hold : ∀ f e', t.get f = some e' → (∀ x, e' = ⟨.readEnd x,false⟩ → x = e) →
      f ≠ v.pipes (1 - e % 2) 0 := by
    rintro f e' hf hx rfl
    rcases h.old with hn | ⟨hs,he⟩
    · simp [hn] at hf
    · rw [hs] at hf
      cases hf
      have hh := hx _ rfl
      omega
  have h0 := hold 0 _ h.stdin (by simp)
  have h1 := hold 1 _ h.stdout (by simp)
  have hr := hold _ _ h.read (by simp)
  have hl := h.only.close (f := v.pipes (e % 2) 1) (r := [(v.pipes (e % 2) 0,⟨.readEnd e,false⟩),
    (v.pipes (1 - e % 2) 0,⟨.readEnd (e-1),false⟩)]) (by simp)
  have hl' := h.only.close (f := v.pipes (1 - e % 2) 0)
    (r := [(v.pipes (e % 2) 0,⟨.readEnd e,false⟩),(v.pipes (e % 2) 1,⟨.writeEnd e,false⟩)])
    (by simp)
  constructor
  · refine ⟨?_,?_,?_,hl.close (by simp)⟩
    · simp [h0,hw0.symm,h.stdin]
    · simp [h1,hw1.symm,h.stdout]
    · simp [hr,hrw,h.read]
  · refine ⟨?_,?_,?_,hl'.close (by simp)⟩
    · simp [h0,hw0.symm,h.stdin]
    · simp [h1,hw1.symm,h.stdout]
    · simp [hr,hrw,h.read]

/-- A child whose `execlp` has failed closes four numbers and leaves. -/
theorem kid_closeBoth {j : ℕ} (h : Own k j t) (he : cfg.execs j = false) (v : Vars) :
    Kid cfg (seqPlan orig0 orig1 k) j t (closeBoth v) (1+1+1+1+1) :=
  .close h (.close (h.close _) (.close ((h.close _).close _) (.close (((h.close _).close _).close _)
    (.exit ((((h.close _).close _).close _).close _) he))))

theorem kid_middle {e : ℕ} {input r w : ℤ} (h : Piped orig0 orig1 e input r w t) (hk : e+2 ≠ k)
    (v : Vars) : Kid cfg (seqPlan orig0 orig1 k) (e+2) t
      (.dup2 w 1 (.close r (.dup2 input 0 (.execlp (e+2) (closeBoth v)))))
      (weight (cfg.script (e+2)) + (1+1+1+1+1) + 1 + 1 + 1 + 1) := by
  obtain ⟨hi0,hi1,hr0,hr1,-,hw1,hir,-,-⟩ := h.ne
  have hget1 := FdTable.get_dup2 (n := 1) h.write (by simpa using hw1)
  have hin : ((t.dup2 w 1).close r).get input = some ⟨.readEnd e,false⟩ := by
    simp [hget1,hir,hi1,h.reads]
  have hget0 := FdTable.get_dup2 (n := 0) hin (by simpa using hi0)
  have h1 := h.only.dup2 (n := 1) h.write (by simpa using hw1)
  have h2 := h1.close (f := r) (r := [(1,⟨.writeEnd (e+1),false⟩),(w,⟨.writeEnd (e+1),false⟩),
    (input,⟨.readEnd e,false⟩)]) (by simp)
  have h3 := h2.dup2 (n := 0) hin (by simpa using hi0)
  have hown : Own k (e+2) (((t.dup2 w 1).close r).dup2 input 0) := .of_only h3 (by simp [hk])
  refine .dup2 (h.own hk) (.close (.of_only h1 (by simp [hk])) (.dup2 (.of_only h2 (by simp [hk]))
    (.execlp hown (fun _ => .of_only ?_ ?_ h3.exec ?_) fun he => kid_closeBoth hown he v)))
  · simp [hget0,inputOf]
  · simp [hget0,hget1,hr1.symm,outputOf,hk]
  · simp [outputOf,hk]

theorem kid_last {e : ℕ} {input f : ℤ} (h : Held orig0 orig1 e input t) :
    Kid cfg (seqPlan orig0 orig1 (e+2)) (e+2) t
      (.dup2 input 0 (.execlp (e+2) (.close f .exit))) (weight (cfg.script (e+2)) + (1+1) + 1 + 1) := by
  have hne0 : input ≠ 0 := FdTable.ne_of_get h.reads h.stdin (by simp)
  have hget := FdTable.get_dup2 (n := 0) h.reads (by simpa using hne0)
  have h1 := h.only.dup2 (n := 0) h.reads (by simpa using hne0)
  have hown : Own (e+2) (e+2) (t.dup2 input 0) := .of_only h1 (by simp)
  refine .dup2 (.of_only h.only (by simp)) (.execlp hown (fun _ => .of_only ?_ ?_ h1.exec (by simp))
    fun he => .close hown (.exit (hown.close _) he))
  · simp [hget,inputOf]
  · simp [hget,outputOf,h.stdout]

theorem exists_startLast {e n : ℕ} {v : Vars} (h : Turned orig0 orig1 e v t) :
    ∃ m, Launches cfg (seqPlan orig0 orig1 (e+2)) (e+2) (e+1) n t (startLast (e+2+1) v) m := by
  have hheld := h.close.2
  unfold startLast
  simp only [h.execError,h.input,h.output]
  rw [if_neg (by decide)]
  refine ⟨_,.close (.of_lt t) (.close (.of_lt _) (.fork (m := 1+1+1) (.of_lt _) (Nat.le_refl _)
    (kid_last hheld) ?_))⟩
  rw [if_neg (by omega),if_neg (by decide)]
  have hempty := hheld.only.close (f := v.pipes (e % 2) 0) (r := []) (by simp)
  have h1 : Waiting (e+2) (e+1+2) (e+1) ((t.close (v.pipes (1 - e % 2) 0)).close (v.pipes (e % 2) 1)) :=
    .of_last hheld.only (by simp) rfl
  have h2 := Waiting.of_last (d := e+1) hempty (by simp) rfl
  exact .close h1 (.waitpid h2 (Nat.lt_succ_self _) (.exit (.of_lt _) rfl rfl))

/-- The variables behind round `e+2`: its input is the pipe made in the round before. -/
def Vars.turn (v : Vars) (e : ℕ) (r w : ℤ) : Vars :=
  ({ v with input := e % 2, output := 1 - e % 2 } : Vars).setPipe (1 - e % 2) r w

theorem start_eq {e : ℕ} {v : Vars} (hv : v.execError = 0) (next : Vars → Prog) :
    start (e+2) v next = .close (v.pipes (e % 2) 1) (.close (v.pipes (1 - e % 2) 0)
      (.pipe false fun r w => .fork fun pid =>
        if pid = 0 then .dup2 w 1 (.close r (.dup2 (v.pipes (e % 2) 0) 0
          (.execlp (e+2) (closeBoth (v.turn e r w)))))
        else .waitpid pid (next (v.turn e r w)))) := by
  have hvars : (if (e+2-1) % 2 = 0 then { v with input := 1, output := 0 }
      else { v with input := 0, output := 1 } : Vars) =
      { v with input := e % 2, output := 1 - e % 2 } := by
    rcases Nat.mod_two_eq_zero_or_one e with he | he
    · rw [if_neg (by omega),he]
    · rw [if_pos (by omega),he]
  have hne : e % 2 ≠ 1 - e % 2 := by omega
  unfold start startNext
  rw [if_neg (by rw [hv]; decide),if_neg (by omega)]
  simp only [hvars]
  simp [Vars.turn,Vars.setPipe,hne]

theorem Turned.next {e : ℕ} {v : Vars} (h : Turned orig0 orig1 e v t) {u : FdTable} {r w : ℤ}
    (hp : Piped orig0 orig1 e (v.pipes (e % 2) 0) r w u) :
    Turned orig0 orig1 (e+1) (v.turn e r w) u := by
  have ho : (e+1) % 2 = 1 - e % 2 := by omega
  have hi : 1 - (1 - e % 2) = e % 2 := by omega
  have hne : e % 2 ≠ 1 - e % 2 := by omega
  constructor
  · exact h.execError
  · exact ho.symm
  · rw [ho,hi]
    rfl
  · exact hp.stdin
  · exact hp.stdout
  · simpa [ho,Vars.turn,Vars.setPipe] using hp.read
  · simpa [ho,Vars.turn,Vars.setPipe] using hp.write
  · right
    simpa [ho,hi,hne,Vars.turn,Vars.setPipe] using hp.reads
  · simpa [ho,hi,hne,Vars.turn,Vars.setPipe] using hp.only

theorem exists_start {e n : ℕ} {v : Vars} {next : Vars → Prog} (h : Turned orig0 orig1 e v t)
    (hn : e+2+n = k) (hnext : ∀ v t e, Turned orig0 orig1 e v t → e+2 = k →
      ∃ m, Launches cfg (seqPlan orig0 orig1 k) k (e+1) (e+1) t (next v) m) :
    ∃ m, Launches cfg (seqPlan orig0 orig1 k) (e+2) (e+1) (e+1) t
      (.loop start n (e+2) v next) m := by
  induction n generalizing e v t with
  | zero =>
    obtain rfl : e+2 = k := hn
    exact hnext v t e h rfl
  | succ n ih =>
    have hp := h.close.1.pipe
    obtain ⟨m,hm⟩ := ih (h.next hp) (by omega)
    rw [Prog.loop,start_eq h.execError]
    refine ⟨_,.close (.of_lt t) (.close (.of_lt _) (.pipe (.of_lt _)
      (.fork (m := m+1) (.of_lt _) (show e+2 ≤ k by omega) (kid_middle hp (by omega) _) ?_)))⟩
    rw [if_neg (by omega)]
    exact .waitpid (hp.waiting (by omega)) (Nat.lt_succ_self _) hm

/-- The variables behind round 1, where `-1` stands for a read end before the first pipe. -/
def Vars.turnFirst (v : Vars) : Vars :=
  { ({ v with output := 0, input := 1 } : Vars) with
    pipes := Function.update v.pipes 1 (Function.update (v.pipes 1) 0 (-1)) }

theorem start_one {v : Vars} (hv : v.execError = 0) (next : Vars → Prog) :
    start 1 v next = .fork fun pid =>
      if pid = 0 then .dup2 (v.pipes 0 1) 1 (.close (v.pipes 0 0) (.execlp 1 .exit))
      else .waitpid pid (next v.turnFirst) := by
  unfold start startFirst
  rw [if_neg (by rw [hv]; decide),if_pos rfl]
  rfl

theorem First.turned {v : Vars} (h : First orig0 orig1 (v.pipes 0 0) (v.pipes 0 1) t)
    (hv : v.execError = 0) : Turned orig0 orig1 0 v.turnFirst t where
  execError := hv
  output := rfl
  input := rfl
  stdin := h.stdin
  stdout := h.stdout
  read := by simpa [Vars.turnFirst] using h.read
  write := by simpa [Vars.turnFirst] using h.write
  old := .inl (by simpa [Vars.turnFirst] using FdTable.get_negSucc t 0)
  only fd e he := (h.only fd e he).imp_right fun hm => by
    simp only [List.mem_cons,List.not_mem_nil,or_false] at hm
    simpa [Vars.turnFirst] using Or.imp_right Or.inl hm

/-- The parent of `main.c` runs as planned, but for a single program, which it becomes itself. -/
theorem exists_launches (cfg : Config) (junk : ℕ → ℕ → ℤ) (hk : k ≠ 1) (h : Initial t orig0 orig1) :
    ∃ m, Launches cfg (seqPlan orig0 orig1 k) 1 0 0 t (main junk (k+1)) m := by
  unfold main
  match k, hk with
  | 0, _ => exact ⟨1,.exit (.of_lt t) rfl rfl⟩
  | n+2, _ =>
    rw [if_neg (by omega),if_neg (by omega)]
    have hf := First.of_initial h
    let v := (⟨junk,0,0,0⟩ : Vars).setPipe 0 (t.pipe false 0).2.1 (t.pipe false 0).2.2
    have hv : First orig0 orig1 (v.pipes 0 0) (v.pipes 0 1) (t.pipe false 0).1 := by
      simpa [v,Vars.setPipe] using hf
    have hlast : ∀ v t e, Turned orig0 orig1 e v t → e+2 = n+2 →
        ∃ m, Launches cfg (seqPlan orig0 orig1 (n+2)) (n+2) (e+1) (e+1) t
          (startLast (n+2+1) v) m := by
      rintro v t e he hen
      rw [← hen]
      exact exists_startLast he
    obtain ⟨m,hm⟩ := exists_start (n := n) (First.turned hv rfl) (by omega) hlast
    have hfirst : Launches cfg (seqPlan orig0 orig1 (n+2)) 1 0 1 (t.pipe false 0).1
        (.loop start (n+1) 1 v (startLast (n+2+1)))
        (weight (cfg.script 1) + 1 + 1 + 1 + 1 + (m+1) + 1) := by
      rw [Prog.loop,start_one rfl]
      refine .fork (m := m+1) (.of_lt _) (Nat.le_add_left 1 _)
        (hv.kid (by omega) fun he t ht => .exit ht he) ?_
      rw [if_neg (by omega)]
      exact .waitpid (hv.waiting (by omega)) (Nat.lt_succ_self _) hm
    exact ⟨_,.pipe (.of_lt t) hfirst⟩

end MainC

end ShellPipelines
end SomeCode
