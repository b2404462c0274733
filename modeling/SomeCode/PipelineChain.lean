import SomeCode.SequentialTables

/-! The chain that all three programs build: program `j` writes to the pipe that program `j+1`
reads. At the last `waitpid` of the parent the write ends of the pipes are closed, but for those
that a child of `inf15-3.c` has until its `execlp` closes them. -/
namespace SomeCode
namespace ShellPipelines

open Processes Transition

/-- The programs `1` to `k` are in a chain, where `pipe j` is the pipe behind program `j`. `late`
stands for children that have write ends open before their `execlp`. -/
structure Chained (cfg : Config) (orig0 orig1 k : ℕ) (pipe : ℕ → ℕ) (late : Prop) (s : State) :
    Prop where
  distinct : ∀ i j, 1 ≤ i → 1 ≤ j → pipe i = pipe j → i = j
  images : ∀ e ∈ s.images, 1 ≤ e.prog ∧ e.prog ≤ k ∧ e.stdin = some (inputOf orig0 pipe e.prog) ∧
    e.stdout = some (outputOf orig1 k pipe e.prog)
  ran : s.code 1 = some .exited → ∀ j, 1 ≤ j → j ≤ k → j ∈ s.images.map Image.prog
  writers : Waits s Prog.ForkFree → ∀ j p q, 1 ≤ j → j < k → s.proc p = some q →
    q.fds.holds (.writeEnd (pipe j)) = true →
    (∃ ops, q.code = .image j ops) ∨ late ∧ p ≠ 1 ∧ ∃ prog, q.code = .main prog
  eof : Waits s Prog.ForkFree → ∀ j p q ops choice, 1 ≤ j → j < k → s.proc p = some q →
    q.code = .image (j+1) (.read :: ops) → s.held (pipe j) = 0 →
    (∀ c ops, s.code c ≠ some (.image j ops)) →
    (late → (∀ c ≠ 1, ∀ prog, s.code c ≠ some (.main prog)) ∨ Waits s Prog.Over) →
    step cfg (p,choice) s = some (s.setProc p { q with code := .image (j+1) ops })

section Chained

variable {cfg : Config} {plan : Plan} {i d k orig0 orig1 : ℕ} {rank : ℕ → ℕ} {s : State}
  {pipe : ℕ → ℕ} {late : Prop}

/-- What the plan says about the first process at a `waitpid` behind the last `fork`, and about
the child for the last program -/
structure Closes (cfg : Config) (plan : Plan) (late : Prop) : Prop where
  root : ∀ {i d n t pid next m}, Launches cfg plan i d n t (.waitpid pid next) m →
    next.ForkFree → (∀ x, t.holds (.writeEnd x) = false) ∧ (late ∨ d+1 = plan.count)
  kid : late ∨ ∀ t, plan.atKid plan.count t → ∀ x, t.holds (.writeEnd x) = false

theorem writers_of_launched (h : Launched cfg plan i d rank s)
    (himage : ∀ j t, plan.atImage j t → Wired orig0 orig1 plan.count pipe j t)
    (hpipe : ∀ i j, 1 ≤ i → 1 ≤ j → pipe i = pipe j → i = j)
    (hcloses : Closes cfg plan late) (hw : Waits s Prog.ForkFree) {j p : ℕ} {q : Proc}
    (hj : 1 ≤ j) (hq : s.proc p = some q) (hx : q.fds.holds (.writeEnd (pipe j)) = true) :
    (∃ ops, q.code = .image j ops) ∨ late ∧ p ≠ 1 ∧ ∃ prog, q.code = .main prog := by
  obtain ⟨q1,pid,next,hq1,hfree,hl⟩ := h.of_waits hw
  obtain ⟨hroot,hlate⟩ := hcloses.root hl hfree
  rcases h.root_or_kid hq with rfl | ⟨a,rfl,ha,hai⟩
  · rw [hq1] at hq
    cases hq
    simp [hroot] at hx
  have hkid := h.kid ha hai hq
  have hstage := hkid.stage
  cases hcode : q.code with
  | main prog =>
    refine .inr ⟨by_contra fun hn => ?_,by omega,prog,rfl⟩
    have hd := hlate.resolve_left hn
    have hbound := h.bound
    have had : ¬ a ≤ d := fun had => by simp [hkid.ended had] at hcode
    obtain rfl : a = plan.count := by omega
    simp only [Stage,hcode] at hstage
    simp [hcloses.kid.resolve_left hn _ hstage.atKid] at hx
  | image b ops =>
    simp only [Stage,hcode] at hstage
    obtain ⟨rfl,-,hwired,-⟩ := hstage
    have hjb := hpipe _ _ hj ha ((himage _ _ hwired).writes _ hx).1
    exact .inl ⟨ops,by rw [hjb]⟩
  | exited => simp [hkid.holds_eq_false hcode] at hx

theorem chained_of_launched (h : Launched cfg plan i d rank s) (hk : plan.count = k)
    (himage : ∀ j t, plan.atImage j t → Wired orig0 orig1 k pipe j t)
    (hpipe : ∀ i j, 1 ≤ i → 1 ≤ j → pipe i = pipe j → i = j)
    (hcloses : Closes cfg plan late) (hexecs : ∀ j, cfg.execs j = true) :
    Chained cfg orig0 orig1 k pipe late s where
  distinct := hpipe
  images e he := by
    obtain ⟨h1,hle,t,ht,hin,hout⟩ := h.images e he
    have hwired := himage _ _ ht
    exact ⟨h1,hk ▸ hle,by simp [hin,FdTable.file,hwired.stdin],
      by simp [hout,FdTable.file,hwired.stdout]⟩
  ran hcode j hj hjk := by
    obtain ⟨q,hq,hstage⟩ := h.root
    rw [code_eq_some hq,Option.some.injEq] at hcode
    simp only [RootStage,hcode] at hstage
    obtain ⟨-,hi,hd⟩ := hstage
    obtain ⟨r,-,hkid⟩ := h.kids j hj (by omega)
    exact hkid.ran (hexecs j) (by simp [Proc.Ran,hkid.ended (by omega)])
  writers hw j p q hj _ hq hx := by
    subst hk
    exact writers_of_launched h himage hpipe hcloses hw hj hq hx
  eof hw j p q ops choice hj hjk hq hcode hheld hnone hlate := by
    subst hk
    rcases h.root_or_kid hq with rfl | ⟨a,rfl,ha,hai⟩
    · have hroot := (h.root_of hq).2
      simp [RootStage,hcode] at hroot
    have hstage := (h.kid ha hai hq).stage
    simp only [Stage,hcode] at hstage
    obtain ⟨rfl,-,hwired,-⟩ := hstage
    refine step_read_eof hq hcode ((himage _ _ hwired).stdin.trans ?_) hheld ?_
    · simp [inputOf,Nat.ne_of_gt hj]
    -- a holder of the write end would be program `j`, or a child that is late
    rw [isOpen_eq_false]
    intro c hc r hr
    rw [← Bool.not_eq_true]
    intro hx
    rcases writers_of_launched h himage hpipe hcloses hw hj hr hx with ⟨ops',ho⟩ | ⟨hl,hc1,prog,hm⟩
    · exact hnone c ops' (by rw [code_eq_some hr,ho])
    · rcases hlate hl with hall | hover
      · exact hall c hc1 prog (by rw [code_eq_some hr,hm])
      · obtain ⟨b,rfl,hb,hbi⟩ := (h.root_or_kid hr).resolve_left hc1
        have h1 := h.of_over hover ha hai hq (by simp [hcode])
        have h2 := h.of_over hover hb hbi hr (by simp [hm])
        obtain rfl : b = j+1 := h2.trans h1.symm
        rw [hq] at hr
        cases hr
        simp [hcode] at hm

end Chained

section SameChain

variable {orig0 orig1 k : ℕ} {fds : FdTable} {cfg : Config}

theorem Inf15_3.closes : Closes cfg (Inf15_3.plan orig0 orig1 k) True where
  root hl _ := by
    have ht : Only _ [] := hl.atRoot.2
    exact ⟨fun x => ht.holds_eq_false (by simp),.inl trivial⟩
  kid := .inl trivial

theorem seqPlan_closes : Closes cfg (seqPlan orig0 orig1 k) False where
  root {i d _ t _ _ _} hl hfree := by
    have hi : i = k+1 := hl.all_launched hfree
    have hwait : Waiting k i d t := hl.atRoot
    have hd : d+1 < i := by cases hl with | waitpid _ hd _ => exact hd
    have hid : i = d+2 := by
      have hle := hwait.1
      omega
    refine ⟨fun x => ?_,.inr (show d+1 = k by omega)⟩
    rw [← Bool.not_eq_true]
    intro hx
    have hik := (hwait.2 hid).1 x hx
    omega
  kid := .inr fun t ht x => by
    rw [← Bool.not_eq_true]
    exact fun hx => (ht x hx).2 rfl

/-- All three programs build the same chain, for any number of programs that can be executed. -/
theorem same_chain (capacity : ℕ) (script : ℕ → List Op) (junk : ℕ → ℤ) (junk' : ℕ → ℕ → ℤ)
    (hk : 2 ≤ k) (h : Initial fds orig0 orig1) :
    let cfg : Config := ⟨capacity,fun _ => true,script⟩
    (∀ s, (system cfg fds (Inf15_3.main junk (k+1))).Reachable s →
      Chained cfg orig0 orig1 k id True s) ∧
    (∀ s, (system cfg fds (Inf15_4.main (k+1))).Reachable s →
      Chained cfg orig0 orig1 k (fun j => j-1) False s) ∧
    ∀ s, (system cfg fds (MainC.main junk' (k+1))).Reachable s →
      Chained cfg orig0 orig1 k (fun j => j-1) False s := by
  intro cfg
  have hexecs : ∀ i, cfg.execs i = true := fun _ => rfl
  have hid : ∀ i j, 1 ≤ i → 1 ≤ j → id i = id j → i = j := fun _ _ _ _ he => he
  have hpred : ∀ i j, 1 ≤ i → 1 ≤ j → i-1 = j-1 → i = j := by omega
  refine ⟨fun s hs => ?_,fun s hs => ?_,fun s hs => ?_⟩
  · obtain ⟨m,hm⟩ := Inf15_3.exists_launches cfg junk h fun j _ _ => hexecs j
    obtain ⟨i,d,rank,hl⟩ := hm.reachable hs
    exact chained_of_launched hl rfl (fun _ _ hw => hw.1) hid Inf15_3.closes hexecs
  · obtain ⟨m,hm⟩ := Inf15_4.exists_launches (k := k) cfg h fun j _ _ => hexecs j
    obtain ⟨i,d,rank,hl⟩ := hm.reachable hs
    exact chained_of_launched hl rfl (fun _ _ hw => hw) hpred seqPlan_closes hexecs
  · obtain ⟨m,hm⟩ := MainC.exists_launches cfg junk' (show k ≠ 1 by omega) h
    obtain ⟨i,d,rank,hl⟩ := hm.reachable hs
    exact chained_of_launched hl rfl (fun _ _ hw => hw) hpred seqPlan_closes hexecs

theorem initial_standardFds : Initial standardFds 0 1 where
  stdin := rfl
  stdout := rfl
  only fd e he := by
    refine .inl ?_
    match fd with
    | .ofNat 0 | .ofNat 1 | .ofNat 2 => cases he; exact ⟨_,rfl⟩
    | .ofNat (n+3) | .negSucc _ => cases he

/-- Two programs, as a shell starts them -/
theorem same_chain_two :
    let cfg : Config := ⟨65536,fun _ => true,fun _ => [.write 1]⟩
    (∀ s, (system cfg standardFds (Inf15_3.main (fun _ => 0) 3)).Reachable s →
      Chained cfg 0 1 2 id True s) ∧
    (∀ s, (system cfg standardFds (Inf15_4.main 3)).Reachable s →
      Chained cfg 0 1 2 (fun j => j-1) False s) ∧
    ∀ s, (system cfg standardFds (MainC.main (fun _ _ => 0) 3)).Reachable s →
      Chained cfg 0 1 2 (fun j => j-1) False s :=
  same_chain 65536 (fun _ => [.write 1]) (fun _ => 0) (fun _ _ => 0) (Nat.le_refl 2)
    initial_standardFds

/-- The parent of `inf15-3.c` is at its last `waitpid`, and the child for the last program, which
has yet to call `execlp`, has the write end of the first program's pipe open. -/
theorem write_end_before_exec : ∃ s q,
    (system ⟨65536,fun _ => true,fun _ => []⟩ standardFds (Inf15_3.main (fun _ => -1) 3)).Reachable s ∧
    Waits s Prog.Over ∧ ⟨2,1,some (.other 0),some (.writeEnd 1)⟩ ∈ s.images ∧
    s.proc 3 = some q ∧ (∃ p, q.code = .main p) ∧ q.fds.holds (.writeEnd 1) = true :=
  ⟨_,_,⟨List.replicate 12 (1,0) ++ List.replicate 3 (2,0) ++ [(1,0)],rfl⟩,
    ⟨_,_,_,rfl,rfl,by trivial⟩,List.mem_cons_self,rfl,⟨_,rfl⟩,rfl⟩

end SameChain

end ShellPipelines
end SomeCode
