import SomeCode.Launch
import SomeCode.ShellPipelines

/-! The descriptor tables of the three pipelines: which pipe every program reads and writes, and
who has its ends open once the parent waits. -/
namespace SomeCode
namespace ShellPipelines

open Processes Transition

/-- An open file that is no pipe of the run -/
def Plain (e : Entry) : Prop := ∃ n, e = ⟨.other n,false⟩

/-- Apart from plain files only the entries of the list are open. -/
def Only (t : FdTable) (l : List (ℤ × Entry)) : Prop :=
  ∀ fd e, t.get fd = some e → Plain e ∨ (fd,e) ∈ l

section Only

variable {t : FdTable} {l r : List (ℤ × Entry)}

theorem Only.pipe {c : Bool} {x : ℕ} (h : Only t l) : Only (t.pipe c x).1
    ((((t.pipe c x).2.1 : ℤ),⟨.readEnd x,c⟩) :: (((t.pipe c x).2.2 : ℤ),⟨.writeEnd x,c⟩) :: l) := by
  intro fd e he
  obtain ⟨-,-,-,hget⟩ := FdTable.get_pipe t c x
  rw [hget,Function.update_apply,Function.update_apply] at he
  split at he
  · cases he
    simp [*]
  split at he
  · cases he
    simp [*]
  · exact (h fd e he).imp_right fun hm => by simp [hm]

theorem Only.close {f : ℤ} (h : Only t l) (hl : ∀ v ∈ l, v.1 = f ∨ v ∈ r) :
    Only (t.close f) r := by
  intro fd e he
  rw [FdTable.get_close,Function.update_apply] at he
  split at he
  · cases he
  · rename_i hne
    exact (h fd e he).imp_right fun hm => (hl _ hm).resolve_left hne

theorem Only.dup2 {old : ℤ} {n : ℕ} {e : Entry} (h : Only t l) (he : t.get old = some e)
    (hne : old ≠ n) : Only (t.dup2 old n) (((n : ℤ),⟨e.file,false⟩) :: l) := by
  intro f e' he'
  rw [FdTable.get_dup2 he hne,Function.update_apply] at he'
  split at he'
  · cases he'
    simp [*]
  · exact (h f e' he').imp_right fun hm => by simp [hm]

theorem Only.exec (h : Only t l) : Only t.exec (l.filter fun v => !v.2.cloexec) := by
  intro f e he
  rw [FdTable.get_exec,Option.filter_eq_some_iff] at he
  exact (h f e he.1).imp_right fun hm => List.mem_filter.mpr ⟨hm,he.2⟩

theorem Only.mem_of_holds {f : File} (h : Only t l) (hf : ∀ n, f ≠ .other n)
    (ht : t.holds f = true) : ∃ v ∈ l, v.2.file = f := by
  obtain ⟨fd,e,he,hfile⟩ := FdTable.holds_iff.mp ht
  rcases h fd e he with ⟨n,rfl⟩ | hm
  · exact absurd hfile.symm (hf n)
  · exact ⟨_,hm,hfile⟩

theorem Only.holds_eq_false {f : File} (h : Only t []) (hf : ∀ n, f ≠ .other n) :
    t.holds f = false := by
  rw [← Bool.not_eq_true]
  intro ht
  obtain ⟨v,hv,-⟩ := h.mem_of_holds hf ht
  cases hv

end Only

/-- Standard input and output as programs get them; the files of other numbers are plain. -/
structure Initial (fds : FdTable) (orig0 orig1 : ℕ) : Prop where
  stdin : fds.get 0 = some ⟨.other orig0,false⟩
  stdout : fds.get 1 = some ⟨.other orig1,false⟩
  only : Only fds []

/-- The standard input of program `j` of `k`; `pipe j` is the pipe behind program `j`. -/
def inputOf (orig0 : ℕ) (pipe : ℕ → ℕ) (j : ℕ) : File :=
  if j = 1 then .other orig0 else .readEnd (pipe (j-1))

def outputOf (orig1 : ℕ) (k : ℕ) (pipe : ℕ → ℕ) (j : ℕ) : File :=
  if j = k then .other orig1 else .writeEnd (pipe j)

/-- Program `j` is connected, and writes to no pipe but its own. -/
structure Wired (orig0 orig1 k : ℕ) (pipe : ℕ → ℕ) (j : ℕ) (t : FdTable) : Prop where
  stdin : t.get 0 = some ⟨inputOf orig0 pipe j,false⟩
  stdout : t.get 1 = some ⟨outputOf orig1 k pipe j,false⟩
  writes : ∀ x, t.holds (.writeEnd x) = true → x = pipe j ∧ j ≠ k

/-- Where only standard output is left that may be a write end -/
theorem Wired.of_only {orig0 orig1 k j : ℕ} {pipe : ℕ → ℕ} {t : FdTable} {l : List (ℤ × Entry)}
    (h0 : t.get 0 = some ⟨inputOf orig0 pipe j,false⟩)
    (h1 : t.get 1 = some ⟨outputOf orig1 k pipe j,false⟩) (ht : Only t l)
    (hl : ∀ v ∈ l, ∀ x, v.2.file = .writeEnd x → v.2.file = outputOf orig1 k pipe j) :
    Wired orig0 orig1 k pipe j t where
  stdin := h0
  stdout := h1
  writes x hx := by
    obtain ⟨v,hv,hfile⟩ := ht.mem_of_holds (by simp) hx
    have hout := hl v hv x hfile
    rw [hfile,outputOf] at hout
    split at hout
    · cases hout
    · cases hout
      exact ⟨rfl,‹_›⟩

namespace Inf15_3

structure Opened (orig0 orig1 n : ℕ) (fd : ℕ → ℤ) (t : FdTable) : Prop where
  stdin : t.get 0 = some ⟨.other orig0,false⟩
  stdout : t.get 1 = some ⟨.other orig1,false⟩
  ends : ∀ a < n, t.get (fd (2*a)) = some ⟨.readEnd a,true⟩ ∧
    t.get (fd (2*a+1)) = some ⟨.writeEnd a,true⟩
  only : ∀ f e, t.get f = some e → Plain e ∨ e.cloexec = true ∧ ∃ a < 2*n, f = fd a

theorem Opened.pipe {orig0 orig1 n : ℕ} {fd : ℕ → ℤ} {t : FdTable} (h : Opened orig0 orig1 n fd t) :
    Opened orig0 orig1 (n+1)
      (Function.update (Function.update fd (2*n) (t.pipe true n).2.1) (2*n+1) (t.pipe true n).2.2)
      (t.pipe true n).1 := by
  obtain ⟨-,-,-,hget⟩ := FdTable.get_pipe t true n
  constructor
  · exact FdTable.get_pipe_old h.stdin
  · exact FdTable.get_pipe_old h.stdout
  · intro a ha
    by_cases han : a = n
    · subst han
      rw [Function.update_of_ne (by omega),Function.update_self,Function.update_self]
      exact ⟨FdTable.get_pipe_read t true a,FdTable.get_pipe_write t true a⟩
    · rw [Function.update_of_ne (by omega),Function.update_of_ne (by omega),
        Function.update_of_ne (by omega),Function.update_of_ne (by omega)]
      have hends := h.ends a (by omega)
      exact ⟨FdTable.get_pipe_old hends.1,FdTable.get_pipe_old hends.2⟩
  · intro f e he
    rw [hget,Function.update_apply,Function.update_apply] at he
    split at he
    · cases he
      refine .inr ⟨rfl,2*n+1,by omega,?_⟩
      rw [Function.update_self]
      assumption
    split at he
    · cases he
      refine .inr ⟨rfl,2*n,by omega,?_⟩
      rw [Function.update_of_ne (by omega),Function.update_self]
      assumption
    · refine (h.only f e he).imp_right fun ⟨hc,a,ha,hf⟩ => ⟨hc,a,by omega,?_⟩
      rw [Function.update_of_ne (by omega),Function.update_of_ne (by omega),hf]

structure Std (input output : File) (t : FdTable) : Prop where
  stdin : t.get 0 = some ⟨input,false⟩
  stdout : t.get 1 = some ⟨output,false⟩
  only : ∀ f e, t.get f = some e → f = 0 ∨ f = 1 ∨ Plain e ∨ e.cloexec = true

section Std

variable {input output file : File} {t : FdTable} {f : ℤ}

theorem Opened.std {orig0 orig1 n : ℕ} {fd : ℕ → ℤ} (h : Opened orig0 orig1 n fd t) :
    Std (.other orig0) (.other orig1) t :=
  ⟨h.stdin,h.stdout,fun f e he => .inr (.inr ((h.only f e he).imp_right And.left))⟩

theorem Std.ne (h : Std input output t) (hf : t.get f = some ⟨file,true⟩) : f ≠ 0 ∧ f ≠ 1 := by
  constructor
  · rintro rfl
    have hh := hf.symm.trans h.stdin
    simp at hh
  · rintro rfl
    have hh := hf.symm.trans h.stdout
    simp at hh

theorem Std.get_dup2 (h : Std input output t) (hf : t.get f = some ⟨file,true⟩) {n : ℕ}
    (hn : n ≤ 1) : (t.dup2 f n).get = Function.update t.get n (some ⟨file,false⟩) := by
  have hne := h.ne hf
  exact FdTable.get_dup2 hf (by omega)

theorem Std.dup2_out (h : Std input output t) (hf : t.get f = some ⟨file,true⟩) :
    Std input file (t.dup2 f 1) := by
  have hget := h.get_dup2 hf (n := 1) (Nat.le_refl 1)
  refine ⟨by simpa [hget] using h.stdin,by simp [hget],fun g e he => ?_⟩
  rw [hget,Function.update_apply] at he
  split at he
  · exact .inr (.inl ‹_›)
  · exact h.only g e he

theorem Std.dup2_in (h : Std input output t) (hf : t.get f = some ⟨file,true⟩) :
    Std file output (t.dup2 f 0) := by
  have hget := h.get_dup2 hf (n := 0) (Nat.zero_le 1)
  refine ⟨by simp [hget],by simpa [hget] using h.stdout,fun g e he => ?_⟩
  rw [hget,Function.update_apply] at he
  split at he
  · exact .inl ‹_›
  · exact h.only g e he

theorem Std.get_dup2_cloexec (h : Std input output t) (hf : t.get f = some ⟨file,true⟩) {g : ℤ}
    {e : Entry} (hg : t.get g = some e) (he : e.cloexec = true) {n : ℕ} (hn : n ≤ 1) :
    (t.dup2 f n).get g = some e := by
  have hg' : t.get g = some ⟨e.file,true⟩ := by rw [hg,← he]
  have hne := h.ne hg'
  rw [h.get_dup2 hf hn,Function.update_of_ne (by omega),hg]

end Std

/-- Program `j` is connected and has no other pipe open. -/
def Sole (orig0 orig1 k j : ℕ) (t : FdTable) : Prop :=
  Wired orig0 orig1 k id j t ∧ ∀ x, t.holds (.readEnd x) = true → inputOf orig0 id j = .readEnd x

theorem Std.exec {orig0 orig1 k j : ℕ} {t : FdTable}
    (h : Std (inputOf orig0 id j) (outputOf orig1 k id j) t) : Sole orig0 orig1 k j t.exec := by
  obtain ⟨h0,h1,hall⟩ := h
  have honly : Only t.exec [(0,⟨inputOf orig0 id j,false⟩),(1,⟨outputOf orig1 k id j,false⟩)] := by
    intro f e he
    rw [FdTable.get_exec,Option.filter_eq_some_iff] at he
    rcases hall f e he.1 with rfl | rfl | hp | hc
    · rw [h0] at he
      cases he.1
      exact .inr List.mem_cons_self
    · rw [h1] at he
      cases he.1
      exact .inr (List.mem_cons_of_mem _ List.mem_cons_self)
    · exact .inl hp
    · simp [hc] at he
  have hin : ∀ x, inputOf orig0 id j ≠ .writeEnd x := by
    intro x
    unfold inputOf
    split <;> simp
  refine ⟨.of_only (by simp [h0]) (by simp [h1]) honly ?_,fun x hx => ?_⟩
  · simp [hin]
  · obtain ⟨v,hv,hfile⟩ := honly.mem_of_holds (by simp) hx
    simp only [List.mem_cons,List.not_mem_nil,or_false] at hv
    rcases hv with rfl | rfl
    · exact hfile
    · simp only [outputOf] at hfile
      split at hfile <;> cases hfile

variable {orig0 orig1 n k : ℕ} {fd : ℕ → ℤ} {t : FdTable}

theorem Opened.first (h : Opened orig0 orig1 n fd t) (hn : 1 < n) (hk : k ≠ 1) :
    Sole orig0 orig1 k 1 (t.dup2 (fd 3) 1).exec := by
  have hstd := h.std.dup2_out (h.ends 1 hn).2
  refine Std.exec ?_
  simpa [inputOf,outputOf,hk.symm] using hstd

theorem Opened.middle (h : Opened orig0 orig1 n fd t) {j : ℕ} (hj : 1 < j) (hjn : j < n) (hjk : j ≠ k) :
    Sole orig0 orig1 k j ((t.dup2 (fd (2*j+1)) 1).dup2 (fd (2*(j-1))) 0).exec := by
  have hout := (h.ends j hjn).2
  have hin := (h.ends (j-1) (by omega)).1
  have hstd := (h.std.dup2_out hout).dup2_in
    (h.std.get_dup2_cloexec hout hin rfl (Nat.le_refl 1))
  have h1 : j ≠ 1 := by omega
  refine Std.exec ?_
  simpa [inputOf,outputOf,hjk,h1] using hstd

theorem Opened.last (h : Opened orig0 orig1 n fd t) (hk : 1 < k) (hkn : k ≤ n) :
    Sole orig0 orig1 k k (t.dup2 (fd (2*(k-1))) 0).exec := by
  have hstd := h.std.dup2_in (h.ends (k-1) (by omega)).1
  have h1 : k ≠ 1 := by omega
  refine Std.exec ?_
  simpa [inputOf,outputOf,h1] using hstd

/-- The parent waits only when all programs are launched, with no pipe open. -/
def plan (orig0 orig1 k : ℕ) : Plan where
  count := k
  atRoot i _ t
    | .waitpid _ _ => i = k+1 ∧ Only t []
    | _ => True
  atKid _ _ := True
  atImage := Sole orig0 orig1 k

variable (cfg : Config)

theorem exists_makePipe {i d a : ℕ} {next : (ℕ → ℤ) → Prog} (h : Opened orig0 orig1 a fd t) (n : ℕ)
    (hnext : ∀ fd t, Opened orig0 orig1 (a+n) fd t →
      ∃ m, Launches cfg (plan orig0 orig1 k) i d (a+n) t (next fd) m) :
    ∃ m, Launches cfg (plan orig0 orig1 k) i d a t (.loop makePipe n a fd next) m := by
  induction n generalizing a fd t with
  | zero => exact hnext fd t h
  | succ n ih =>
    obtain ⟨m,hm⟩ := ih h.pipe fun fd t ho => by
      rw [Nat.add_right_comm]
      exact hnext fd t (by rwa [Nat.add_right_comm] at ho)
    exact ⟨m+1,.pipe trivial hm⟩

theorem exists_waitOne {d a n : ℕ} {pids : ℕ → ℕ} (ht : Only t []) (had : a = d+1) (hk : d+n = k)
    (hpids : ∀ j, 1 ≤ j → j ≤ k → pids j = j+1) {x : ℕ} :
    ∃ m, Launches cfg (plan orig0 orig1 k) (k+1) d x t
      (.loop (waitOne pids) n a () fun _ => .exit) m := by
  induction n generalizing d a with
  | zero => exact ⟨1,.exit trivial rfl hk⟩
  | succ n ih =>
    obtain ⟨m,hm⟩ := ih (d := d+1) (a := a+1) (by omega) (by omega)
    have hpid : pids a = d+2 := by rw [hpids a (by omega) (by omega),had]
    refine ⟨m+1,?_⟩
    simp only [Prog.loop,waitOne,hpid]
    exact .waitpid ⟨rfl,ht⟩ (by omega) hm

theorem exists_closeOne {a b c : ℕ} {next : Unit → Prog}
    (ht : ∀ f e, t.get f = some e → Plain e ∨ ∃ x, a ≤ x ∧ x < b ∧ f = fd x) (hc : b ≤ a+c)
    {x : ℕ} (hnext : ∀ t, Only t [] →
      ∃ m, Launches cfg (plan orig0 orig1 k) (k+1) 0 x t (next ()) m) :
    ∃ m, Launches cfg (plan orig0 orig1 k) (k+1) 0 x t (.loop (closeOne fd) c a () next) m := by
  induction c generalizing a t with
  | zero =>
    refine hnext t fun f e he => .inl ((ht f e he).resolve_right ?_)
    rintro ⟨x,h1,h2,-⟩
    omega
  | succ c ih =>
    obtain ⟨m,hm⟩ := ih (a := a+1) (t := t.close (fd a)) (fun f e he => by
      rw [FdTable.get_close,Function.update_apply] at he
      split at he
      · cases he
      · rename_i hne
        refine (ht f e he).imp_right fun ⟨x,h1,h2,hf⟩ => ⟨x,?_,h2,hf⟩
        have hxa : x ≠ a := by
          rintro rfl
          exact hne hf
        omega) (by omega)
    exact ⟨m+1,.close trivial hm⟩

theorem exists_finish {pids : ℕ → ℕ} (h : Opened orig0 orig1 (k+1) fd t)
    (hpids : ∀ j, 1 ≤ j → j ≤ k → pids j = j+1) {x : ℕ} :
    ∃ m, Launches cfg (plan orig0 orig1 k) (k+1) 0 x t (finish (k+1) fd pids) m := by
  refine exists_closeOne cfg (b := 2*(k+1)) (fun f e he => ?_) (by omega) fun t ht => ?_
  · exact (h.only f e he).imp_right fun ⟨_,a,ha,hf⟩ => ⟨a,by omega,ha,hf⟩
  · exact exists_waitOne cfg ht rfl (by omega) hpids

theorem exists_startLast {pids : ℕ → ℕ} (h : Opened orig0 orig1 (k+1) fd t) (hk : 2 ≤ k)
    (hpids : ∀ j, 1 ≤ j → j < k → pids j = j+1) {x : ℕ} :
    ∃ m, Launches cfg (plan orig0 orig1 k) k 0 x t (startLast (k+1) fd pids) m := by
  have hall : ∀ j, 1 ≤ j → j ≤ k → Function.update pids k (k+1) j = j+1 := fun j hj hjk => by
    by_cases hjk' : j = k
    · rw [hjk',Function.update_self]
    · rw [Function.update_of_ne hjk',hpids j hj (by omega)]
  obtain ⟨m,hm⟩ := exists_finish cfg h hall (x := x)
  have hfd : 2*(k+1)-4 = 2*(k-1) := by omega
  have hkid : Kid cfg (plan orig0 orig1 k) k t
      (.dup2 (fd (2*(k+1)-4)) 0 (.execlp (k+1-1) .exit)) (weight (cfg.script k) + 1 + 1 + 1) := by
    rw [hfd]
    exact .dup2 trivial (.execlp trivial (fun _ => h.last (by omega) (by omega)) (.exit trivial))
  refine ⟨_,.fork (m := m) trivial (Nat.le_refl k) hkid ?_⟩
  rw [if_neg (by omega)]
  exact hm

theorem exists_start {i n : ℕ} {pids : ℕ → ℕ} {next : (ℕ → ℕ) → Prog}
    (h : Opened orig0 orig1 (k+1) fd t) (hi : 1 < i) (hn : i+n = k)
    (hexecs : ∀ j, i ≤ j → j < k → cfg.execs j = true) (hpids : ∀ j, 1 ≤ j → j < i → pids j = j+1) {x : ℕ}
    (hnext : ∀ pids, (∀ j, 1 ≤ j → j < k → pids j = j+1) →
      ∃ m, Launches cfg (plan orig0 orig1 k) k 0 x t (next pids) m) :
    ∃ m, Launches cfg (plan orig0 orig1 k) i 0 x t (.loop (start fd) n i pids next) m := by
  induction n generalizing i pids with
  | zero =>
    obtain rfl : i = k := hn
    exact hnext pids hpids
  | succ n ih =>
    have hnew : ∀ j, 1 ≤ j → j < i+1 → Function.update pids i (i+1) j = j+1 := fun j hj hji => by
      by_cases hj' : j = i
      · rw [hj',Function.update_self]
      · rw [Function.update_of_ne hj',hpids j hj (by omega)]
    obtain ⟨m,hm⟩ := ih (i := i+1) (by omega) (by omega) (fun j hj => hexecs j (by omega)) hnew
    have hkid : ∀ rest, Kid cfg (plan orig0 orig1 k) i t
        (.dup2 (fd (2*i+1)) 1 (.dup2 (fd (2*(i-1))) 0 (.execlp i rest)))
        (weight (cfg.script i) + 0 + 1 + 1 + 1) := fun rest =>
      .dup2 trivial (.dup2 trivial (.executed trivial (h.middle hi (by omega) (by omega))
        (hexecs i (Nat.le_refl i) (by omega)) rest))
    refine ⟨_,.fork (m := m) trivial (show i ≤ k by omega) (hkid _) ?_⟩
    rw [if_neg (by omega)]
    exact hm

theorem exists_runOne (h : Initial t orig0 orig1) :
    ∃ m, Launches cfg (plan orig0 orig1 1) 1 0 0 t runOne m := by
  have hstd : Std (inputOf orig0 id 1) (outputOf orig1 1 id 1) t :=
    ⟨h.stdin,h.stdout,fun f e he => .inr (.inr (.inl ((h.only f e he).resolve_right (by simp))))⟩
  have hkid : Kid cfg (plan orig0 orig1 1) 1 t (.execlp 1 (.waitpid 0 .exit))
      (weight (cfg.script 1) + (1+1) + 1) :=
    .execlp trivial (fun _ => hstd.exec) fun he => .waitpid trivial (.exit trivial he)
  refine ⟨_,.fork (m := 1+1) trivial (Nat.le_refl 1) hkid ?_⟩
  exact .waitpid ⟨rfl,h.only⟩ (Nat.lt_succ_self 1) (.exit trivial rfl rfl)

/-- The parent of `inf15-3.c` runs as planned where the programs in the middle can be executed. -/
theorem exists_launches (junk : ℕ → ℤ) (h : Initial t orig0 orig1)
    (hexecs : ∀ j, 2 ≤ j → j < k → cfg.execs j = true) :
    ∃ m, Launches cfg (plan orig0 orig1 k) 1 0 0 t (main junk (k+1)) m := by
  unfold main
  match k, hexecs with
  | 0, _ => exact ⟨1,.exit trivial rfl rfl⟩
  | 1, _ => exact exists_runOne cfg h
  | n+2, hexecs =>
    rw [if_neg (by omega),if_neg (by omega)]
    have h0 : Opened orig0 orig1 0 junk t :=
      ⟨h.stdin,h.stdout,by omega,fun f e he => .inl ((h.only f e he).resolve_right (by simp))⟩
    refine exists_makePipe cfg h0 (n+2+1) fun fd t ho => ?_
    rw [Nat.zero_add] at ho ⊢
    have hfirst : ∀ j, 1 ≤ j → j < 2 → Function.update (fun _ => 0) 1 2 j = j+1 := fun j hj hj2 => by
      obtain rfl : j = 1 := by omega
      rw [Function.update_self]
    obtain ⟨m,hm⟩ := exists_start cfg (x := n+2+1) ho (Nat.lt_succ_self 1) (n := n+2+1-3) (by omega)
      hexecs hfirst fun pids hpids => exists_startLast cfg ho (by omega) hpids
    have hkid : Kid cfg (plan orig0 orig1 (n+2)) 1 t (.dup2 (fd 3) 1 (.execlp 1 .exit))
        (weight (cfg.script 1) + 1 + 1 + 1) :=
      .dup2 trivial (.execlp trivial (fun _ => ho.first (by omega) (by omega)) (.exit trivial))
    refine ⟨_,.fork (m := m) trivial (show 1 ≤ n+2 by omega) hkid ?_⟩
    rw [if_neg (by omega)]
    exact hm

end Inf15_3

end ShellPipelines
end SomeCode
