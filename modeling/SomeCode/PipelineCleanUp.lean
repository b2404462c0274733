import SomeCode.CallTrace
import SomeCode.ShellPipelines

/-! The clean-up in the parent of `inf15-3.c`. Its loop goes over one element of `fd` more than the
calls of `pipe2` have set, so that it closes some other number too. -/
namespace SomeCode
namespace ShellPipelines

open Processes Transition

namespace Inf15_3

/-- What the clean-up is to do: each end of a pipe is closed once, and the three standard
descriptors stay open. -/
structure CleansUp (l : List Call) (t : FdTable) : Prop where
  once : (closed l).Perm (returned l)
  standard : ∀ f ∈ [(0 : ℤ),1,2], t.get f ≠ none

/-- What it does: the number that `malloc` has left behind the others is closed like them. -/
structure CleanedUp (junk : ℕ → ℤ) (argc : ℕ) (fds : FdTable) (l : List Call) (t : FdTable) :
    Prop where
  length_eq : (returned l).length = 2*argc
  nodup : (returned l).Nodup
  closed_eq : closed l = returned l ++ [junk (2*argc)]
  fds_eq : t.get = Function.update fds.get (junk (2*argc)) none

/-- After `n` calls of `pipe2` -/
structure Piped (junk : ℕ → ℤ) (fds : FdTable) (n : ℕ) (fd : ℕ → ℤ) (l : List Call) (t : FdTable) :
    Prop where
  rest : ∀ j, 2*n ≤ j → fd j = junk j
  returned_eq : returned l = (List.range (2*n)).map fd
  closed_eq : closed l = []
  nodup : (returned l).Nodup
  fresh : ∀ f ∈ returned l, fds.get f = none ∧ t.get f ≠ none
  others : ∀ f ∉ returned l, t.get f = fds.get f

variable {junk : ℕ → ℤ} {fds t : FdTable} {fd : ℕ → ℤ} {l : List Call}

theorem Piped.zero : Piped junk fds 0 junk [] fds where
  rest _ _ := rfl
  returned_eq := rfl
  closed_eq := rfl
  nodup := List.nodup_nil
  fresh _ h := by cases h
  others _ _ := rfl

theorem Piped.pipe {n : ℕ} (h : Piped junk fds n fd l t) (x : ℕ) :
    Piped junk fds (n+1)
      (Function.update (Function.update fd (2*n) (t.pipe true x).2.1) (2*n+1) (t.pipe true x).2.2)
      (l ++ [.pipe (t.pipe true x).2.1 (t.pipe true x).2.2]) (t.pipe true x).1 := by
  obtain ⟨hr,hw,hne,hget⟩ := FdTable.get_pipe t true x
  have hread := FdTable.get_pipe_read t true x
  have hwrite := FdTable.get_pipe_write t true x
  have hne' : ((t.pipe true x).2.1 : ℤ) ≠ (t.pipe true x).2.2 := by exact_mod_cast hne
  generalize ((t.pipe true x).2.1 : ℤ) = r at *
  generalize ((t.pipe true x).2.2 : ℤ) = w at *
  have hnew : returned [.pipe r w] = [r,w] := rfl
  have hrold : r ∉ returned l := fun hm => (h.fresh r hm).2 hr
  have hwold : w ∉ returned l := fun hm => (h.fresh w hm).2 hw
  have hfd : ∀ j < 2*n, Function.update (Function.update fd (2*n) r) (2*n+1) w j = fd j := by
    intro j hj
    rw [Function.update_of_ne (by omega),Function.update_of_ne (by omega)]
  constructor
  · intro j hj
    rw [Function.update_of_ne (by omega),Function.update_of_ne (by omega)]
    exact h.rest j (by omega)
  · have hrange : 2*(n+1) = 2*n+1+1 := rfl
    rw [returned_append,hnew,h.returned_eq,hrange,List.range_succ,List.range_succ]
    simp only [List.map_append,List.map_cons,List.map_nil,List.append_assoc,List.cons_append,
      List.nil_append,Function.update_self]
    rw [Function.update_of_ne (by omega),Function.update_self]
    congr 1
    exact List.map_congr_left fun j hj => (hfd j (List.mem_range.mp hj)).symm
  · rw [closed_append,h.closed_eq]
    rfl
  · rw [returned_append,hnew]
    refine List.nodup_append'.mpr ⟨h.nodup,by simpa using hne',?_⟩
    simp [List.disjoint_right,hrold,hwold]
  · intro f hf
    rw [returned_append,hnew,List.mem_append] at hf
    rcases hf with hf | hf
    · have hfr : f ≠ r := ne_of_mem_of_not_mem hf hrold
      have hfw : f ≠ w := ne_of_mem_of_not_mem hf hwold
      rw [hget,Function.update_of_ne hfw,Function.update_of_ne hfr]
      exact h.fresh f hf
    · simp only [List.mem_cons,List.not_mem_nil,or_false] at hf
      rcases hf with rfl | rfl
      · exact ⟨(h.others f hrold).symm.trans hr,by simp [hread]⟩
      · exact ⟨(h.others f hwold).symm.trans hw,by simp [hwrite]⟩
  · intro f hf
    rw [returned_append,hnew,List.mem_append,not_or] at hf
    simp only [List.mem_cons,List.not_mem_nil,or_false,not_or] at hf
    rw [hget,Function.update_of_ne hf.2.2,Function.update_of_ne hf.2.1]
    exact h.others f hf.1

theorem get_foldl_close (ns : List ℤ) (t : FdTable) (f : ℤ) :
    (ns.foldl FdTable.close t).get f = if f ∈ ns then none else t.get f := by
  induction ns generalizing t with
  | nil => simp
  | cons n ns ih =>
    rw [List.foldl_cons,ih,FdTable.get_close,Function.update_apply]
    by_cases hn : f = n
    · simp [hn]
    · simp [hn]

variable {post : List Call → FdTable → Prop}

theorem meets_makePipe {n : ℕ} {next : (ℕ → ℤ) → Prog} (h : Piped junk fds n fd l t) (k : ℕ)
    (hnext : ∀ fd l t, Piped junk fds (n+k) fd l t → (next fd).Meets post l t) :
    (Prog.loop makePipe k n fd next).Meets post l t := by
  induction k generalizing n fd l t with
  | zero => exact hnext fd l t h
  | succ k ih =>
    intro x
    refine ih (h.pipe x) fun fd' l' t' h' => hnext fd' l' t' ?_
    rwa [Nat.add_right_comm] at h'

theorem meets_start {next : (ℕ → ℕ) → Prog} (h : ∀ pids, (next pids).Meets post l t) (n i : ℕ)
    (pids : ℕ → ℕ) : (Prog.loop (start fd) n i pids next).Meets post l t := by
  induction n generalizing i pids with
  | zero => exact h pids
  | succ n ih =>
    intro pid hpid
    dsimp only
    rw [if_neg hpid]
    exact ih (i+1) _

theorem meets_closeOne {next : Unit → Prog} (n i : ℕ)
    (h : (next ()).Meets post (l ++ ((List.range' i n).map fd).map .close)
      (((List.range' i n).map fd).foldl FdTable.close t)) :
    (Prog.loop (closeOne fd) n i () next).Meets post l t := by
  induction n generalizing i l t with
  | zero => simpa [Prog.loop] using h
  | succ n ih =>
    refine ih (i+1) ?_
    rw [List.append_assoc]
    exact h

theorem meets_waitOne (h : post l t) (pids : ℕ → ℕ) (n i : ℕ) :
    (Prog.loop (waitOne pids) n i () fun _ => .exit).Meets post l t := by
  induction n generalizing i with
  | zero => exact h
  | succ n ih => exact ⟨h,ih (i+1)⟩

theorem returned_map_close (ns : List ℤ) : returned (ns.map .close) = [] := by
  simp [returned,List.flatMap_map]

theorem closed_map_close (ns : List ℤ) : closed (ns.map .close) = ns := by
  simp [closed,List.filterMap_map]

theorem Piped.cleanedUp {argc : ℕ} (h : Piped junk fds argc fd l t) : CleanedUp junk argc fds
    (l ++ ((List.range' 0 (2*argc+1)).map fd).map .close)
    (((List.range' 0 (2*argc+1)).map fd).foldl FdTable.close t) := by
  have hall : (List.range' 0 (2*argc+1)).map fd = returned l ++ [junk (2*argc)] := by
    rw [← List.range_eq_range',List.range_succ,List.map_append,← h.returned_eq,List.map_singleton,
      h.rest _ (Nat.le_refl _)]
  rw [hall]
  have hreturned : returned (l ++ (returned l ++ [junk (2*argc)]).map .close) = returned l := by
    rw [returned_append,returned_map_close,List.append_nil]
  constructor
  · rw [hreturned,h.returned_eq,List.length_map,List.length_range]
  · rw [hreturned]
    exact h.nodup
  · rw [hreturned,closed_append,h.closed_eq,closed_map_close,List.nil_append]
  · funext f
    rw [get_foldl_close,Function.update_apply]
    by_cases hjunk : f = junk (2*argc)
    · simp [hjunk]
    · by_cases hf : f ∈ returned l
      · simp [hf,(h.fresh f hf).1]
      · simp [hf,hjunk,h.others f hf]

theorem main_meets {argc : ℕ} (h3 : 3 ≤ argc) (junk : ℕ → ℤ) (fds : FdTable) :
    (main junk argc).Meets (CleanedUp junk argc fds) [] fds := by
  rw [main,if_neg (by omega),if_neg (by omega)]
  refine meets_makePipe .zero argc fun fd l t h => ?_
  rw [Nat.zero_add] at h
  intro pid hpid
  dsimp only
  rw [if_neg hpid]
  refine meets_start (fun pids => ?_) _ _ _
  intro pid' hpid'
  dsimp only
  rw [if_neg hpid']
  exact meets_closeOne _ _ (meets_waitOne h.cleanedUp _ _ _)

theorem CleanedUp.not_cleansUp {argc : ℕ} (h : CleanedUp junk argc fds l t) : ¬ CleansUp l t := by
  intro hc
  have hlength := hc.once.length_eq
  rw [h.closed_eq,List.length_append,List.length_singleton] at hlength
  omega

/-- The parent gets to where it waits, and whenever it waits it has closed one number too many:
what `malloc` left in the last element of the array. The standard descriptors are open still if
that is none of them. -/
theorem never_cleans_up {argc : ℕ} (h3 : 3 ≤ argc) (cfg : Config) {fds : FdTable}
    (hstd : ∀ f ∈ [(0 : ℤ),1,2], fds.get f ≠ none) (junk : ℕ → ℤ) :
    GetsToWait cfg fds (main junk argc) (init fds (main junk argc)) ∧
    ∀ as s t, (system cfg fds (main junk argc)).run as (init fds (main junk argc)) = some s →
      s.Waiting t →
      CleanedUp junk argc fds (calls cfg as (init fds (main junk argc))) t ∧
      ¬ CleansUp (calls cfg as (init fds (main junk argc))) t ∧
      ((∀ f ∈ [(0 : ℤ),1,2], t.get f ≠ none) ↔ junk (2*argc) ∉ [(0 : ℤ),1,2]) := by
  have hmeets := main_meets h3 junk fds
  refine ⟨hmeets.getsToWait (Nat.le_refl 2) rfl rfl,fun as s t hr hs => ?_⟩
  have hdone := hmeets.sound hr hs
  refine ⟨hdone,hdone.not_cleansUp,?_⟩
  rw [hdone.fds_eq]
  constructor
  · intro hopen hmem
    exact hopen _ hmem (Function.update_self ..)
  · intro hmem f hf
    rw [Function.update_of_ne (ne_of_mem_of_not_mem hf hmem)]
    exact hstd f hf

theorem never_cleans_up_three :
    GetsToWait ⟨65536,fun _ => true,fun _ => []⟩ standardFds (main (fun _ => -1) 3)
      (init standardFds (main (fun _ => -1) 3)) ∧
    ∀ as s t, (system ⟨65536,fun _ => true,fun _ => []⟩ standardFds (main (fun _ => -1) 3)).run as
        (init standardFds (main (fun _ => -1) 3)) = some s → s.Waiting t →
      CleanedUp (fun _ => -1) 3 standardFds (calls ⟨65536,fun _ => true,fun _ => []⟩ as
        (init standardFds (main (fun _ => -1) 3))) t ∧
      ¬ CleansUp (calls ⟨65536,fun _ => true,fun _ => []⟩ as
        (init standardFds (main (fun _ => -1) 3))) t ∧
      ((∀ f ∈ [(0 : ℤ),1,2], t.get f ≠ none) ↔ -1 ∉ [(0 : ℤ),1,2]) :=
  never_cleans_up (by decide) _ (by decide) _

/-- With zeros in the memory of `malloc` the parent closes its standard input. -/
theorem closes_stdin : ∃ as s t, (system ⟨65536,fun _ => true,fun _ => []⟩ standardFds
      (main (fun _ => 0) 3)).run as (init standardFds (main (fun _ => 0) 3)) = some s ∧
    s.Waiting t ∧ closed (calls ⟨65536,fun _ => true,fun _ => []⟩ as
      (init standardFds (main (fun _ => 0) 3))) = [3,4,5,6,7,8,0] ∧
    t.get 0 = none := by
  refine ⟨List.replicate 12 (1,0),_,_,rfl,⟨_,_,rfl,rfl,trivial,rfl⟩,?_,?_⟩
  · rfl
  · rfl

end Inf15_3

end ShellPipelines
end SomeCode
