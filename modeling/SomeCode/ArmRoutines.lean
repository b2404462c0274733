import SomeCode.Arm

/-! The routines `f`, `summ`, `solve` and `calculate` in ARM assembly, the C functions that two of
them stand for, and what the calling convention asks of them. -/
namespace SomeCode
namespace Arm

open ByteMemory MachineCode Isa

/-! The routines; the places of the labels are noted beside the instructions. -/

/-- `inf03-0.s` -/
def f : Code := [
  .op (.mla .r0 .r3 .r0 .r1),
  .op (.mla .r0 .r3 .r0 .r2),
  .ret]

/-- `inf03-1.s` -/
def summ : Code := [
  .op (.mov .r3 (.imm 0)),
  .op (.push [.r4]),
  .op (.cmp .r3 (.reg .r1)), -- 2 = .loop
  .branch .ge 8,
  .op (.ldr .r4 .r2 (.lsl .r3 2)),
  .op (.add .r3 .r3 (.imm 1)),
  .op (.add .r0 .r0 (.reg .r4)),
  .branch .al 2,
  .op (.pop [.r4]), -- 8 = .end
  .ret]

/-- `inf03-2.s` -/
def solve : Code := [
  .op (.push [.r4,.r5]),
  .op (.mov .r4 (.reg .r0)),
  .op (.mov .r5 (.imm 0)),
  .op (.mla .r4 .r5 .r4 .r1), -- 3 = .loop
  .op (.mla .r4 .r5 .r4 .r2),
  .op (.mla .r4 .r5 .r4 .r3),
  .op (.cmp .r4 (.imm 0)),
  .op (.mov .r4 (.reg .r0)),
  .branch .eq 13,
  .op (.add .r5 .r5 (.imm 1)),
  .op (.cmp .r5 (.imm 255)),
  .branch .eq 16,
  .branch .ne 3,
  .op (.mov .r0 (.reg .r5)), -- 13 = .exit
  .op (.pop [.r4,.r5]),
  .ret,
  .op (.mov .r0 (.imm 0)), -- 16 = .exit_not_found
  .op (.pop [.r4,.r5]),
  .ret]

/-- Where the linker puts the variables -/
structure Symbols where
  A : BitVec 32
  B : BitVec 32
  C : BitVec 32
  D : BitVec 32
  R : BitVec 32

/-- `inf04-0.s`, up to the return -/
def calculateBody (sym : Symbols) : List Op := [
  .ldrAddress .r1 sym.A,
  .ldr .r1 .r1 (.imm 0),
  .ldrAddress .r2 sym.B,
  .ldr .r2 .r2 (.imm 0),
  .ldrAddress .r3 sym.C,
  .ldr .r3 .r3 (.imm 0),
  .ldrAddress .r4 sym.D,
  .ldr .r4 .r4 (.imm 0),
  .ldrAddress .r5 sym.R,
  .mov .r0 (.imm 0),
  .mul .r0 .r1 .r2,
  .mla .r0 .r3 .r4 .r0,
  .str .r0 .r5]

def calculate (sym : Symbols) : Code := (calculateBody sym).map .op ++ [.ret]

/-- `summ` of `ams2.c` from `i` on; `X` are the words of the array. -/
def cSumm (N : BitVec 32) (X : ℕ → BitVec 32) (i : ℕ) (x0 : BitVec 32) : BitVec 32 :=
  if (i : ℤ) < N.toInt then cSumm N X (i+1) (x0 + X i) else x0
termination_by (N.toInt-i).toNat
decreasing_by omega

/-- `ans` of `inf03-2.c` -/
def answer (A B C D : BitVec 32) (divider : ℕ) : BitVec 32 :=
  let d := BitVec.ofNat 32 divider
  ((A*d+B)*d+C)*d+D

/-- `solve` of `inf03-2.c` from `divider` on -/
def cSolve (A B C D : BitVec 32) (divider : ℕ) : BitVec 32 :=
  if divider < 255 then
    if answer A B C D divider = 0 then BitVec.ofNat 32 divider else cSolve A B C D (divider+1)
  else 0
termination_by 255-divider

theorem f_returns (s : State) : isa.Returns f s (s.reg .lr)
    (s.set .r0 (s.reg .r3 * (s.reg .r3 * s.reg .r0 + s.reg .r1) + s.reg .r2)) := by
  have hrun := Returns.straight (M := isa) [.mla .r0 .r3 .r0 .r1,.mla .r0 .r3 .r0 .r2] s
  simpa [exec,State.set,f] using hrun

/-! `summ` -/

theorem ofNat_shiftLeft_two (k : ℕ) : BitVec.ofNat 32 k <<< 2 = BitVec.ofNat 32 (4*k) := by
  apply BitVec.eq_of_toNat_eq
  simp [Nat.shiftLeft_eq]
  omega

def words (m : Memory 32) (a : BitVec 32) (i : ℕ) : BitVec 32 := word m (a + BitVec.ofNat 32 (4*i))

theorem cSumm_of_lt {N : BitVec 32} {i : ℕ} (h : (i : ℤ) < N.toInt) (X : ℕ → BitVec 32)
    (x0 : BitVec 32) : cSumm N X i x0 = cSumm N X (i+1) (x0 + X i) := by
  rw [cSumm,if_pos h]

theorem cSumm_of_le {N : BitVec 32} {i : ℕ} (h : N.toInt ≤ i) (X : ℕ → BitVec 32)
    (x0 : BitVec 32) : cSumm N X i x0 = x0 := by
  rw [cSumm,if_neg (by omega)]

/-- Where `.loop` begins for the first time -/
def summEntered (s : State) : State := exec (.push [.r4]) (s.set .r3 0)

/-- After `k` rounds; what is left of the loop in C gives the same result. -/
structure SummAt (s : State) (k : ℕ) (t : State) : Prop where
  r3 : t.reg .r3 = BitVec.ofNat 32 k
  other : ∀ r, r ≠ .r0 → r ≠ .r3 → r ≠ .r4 → t.reg r = (summEntered s).reg r
  mem : t.mem = (summEntered s).mem
  result : cSumm (s.reg .r1) (words (summEntered s).mem (s.reg .r2)) k (t.reg .r0) =
    cSumm (s.reg .r1) (words (summEntered s).mem (s.reg .r2)) 0 (s.reg .r0)

theorem summ_entered (s : State) :
    isa.Runs summ (.inside 0 s) (.inside 2 (summEntered s)) ∧ SummAt s 0 (summEntered s) := by
  refine ⟨runs_ops _ _ [.mov .r3 (.imm 0),.push [.r4]] s ⟨_,rfl⟩,?_⟩
  refine ⟨?_,fun r _ _ _ => rfl,rfl,?_⟩
  · simp [summEntered,push_reg]
  · simp [summEntered,push_reg]

theorem toInt_ofNat_of_lt {N : BitVec 32} {k : ℕ} (h : k ≤ N.toInt.toNat) :
    (BitVec.ofNat 32 k).toInt = k := by
  have hlt := N.toInt_lt
  have hnat : (BitVec.ofNat 32 k).toNat = k := by
    rw [BitVec.toNat_ofNat,Nat.mod_eq_of_lt (by omega)]
  rw [BitVec.toInt_eq_toNat_cond,hnat,if_pos (by omega)]

theorem summ_round {s t : State} {k : ℕ} (hk : k < (s.reg .r1).toInt.toNat) (h : SummAt s k t) :
    ∃ u, isa.Runs summ (.inside 2 t) (.inside 2 u) ∧ SummAt s (k+1) u := by
  have hr1 : t.reg .r1 = s.reg .r1 := h.other .r1 (by decide) (by decide) (by decide)
  have hr2 : t.reg .r2 = s.reg .r2 := h.other .r2 (by decide) (by decide) (by decide)
  have hcmp := runs_ops summ 2 [.cmp .r3 (.reg .r1)] t ⟨_,rfl⟩
  have hge : Cond.ge.holds (exec (.cmp .r3 (.reg .r1)) t) = false := by
    change ((cmpFlags (t.reg .r3) (t.reg .r1)).n == (cmpFlags (t.reg .r3) (t.reg .r1)).v) = false
    rw [cmpFlags_ge,h.r3,hr1,toInt_ofNat_of_lt (Nat.le_of_lt hk),decide_eq_false_iff_not]
    omega
  have hbody := runs_ops summ 4 [.ldr .r4 .r2 (.lsl .r3 2),.add .r3 .r3 (.imm 1),
    .add .r0 .r0 (.reg .r4)] (exec (.cmp .r3 (.reg .r1)) t) ⟨_,rfl⟩
  have hrun := ((hcmp.trans (Runs.passed rfl hge)).trans hbody).trans (Runs.taken rfl rfl)
  refine ⟨_,hrun,?_⟩
  refine ⟨?_,fun r h0 h3 h4 => ?_,?_,?_⟩
  · simp [exec,h.r3,BitVec.ofNat_add,Operand.value]
  · simp [exec,h0,h3,h4,h.other r h0 h3 h4]
  · simp [exec,h.mem]
  · have hr0 : (isa.execAll [.ldr .r4 .r2 (.lsl .r3 2),.add .r3 .r3 (.imm 1),
        .add .r0 .r0 (.reg .r4)] (exec (.cmp .r3 (.reg .r1)) t)).reg .r0 =
          t.reg .r0 + words (summEntered s).mem (s.reg .r2) k := by
      simp [exec,Operand.value,h.r3,hr2,h.mem,words,ofNat_shiftLeft_two]
    rw [hr0,← h.result,cSumm_of_lt (by omega) _ (t.reg .r0)]

/-- Registers are restored, and the sum is that of C over the array as it is behind the push. -/
theorem summ_returns (s : State) : ∃ t, isa.Returns summ s (s.reg .lr) t ∧
    (∀ r, r ≠ .r0 → r ≠ .r3 → t.reg r = s.reg r) ∧ t.mem = (summEntered s).mem ∧
    t.reg .r0 = cSumm (s.reg .r1) (words (summEntered s).mem (s.reg .r2)) 0 (s.reg .r0) := by
  obtain ⟨hentry,hstart⟩ := summ_entered s
  obtain ⟨u,hloop,hu⟩ := Runs.loop (n := (s.reg .r1).toInt.toNat)
    (fun k hk t ht => summ_round hk ht) hstart
  have hr1 : u.reg .r1 = s.reg .r1 := hu.other .r1 (by decide) (by decide) (by decide)
  have hcmp := runs_ops summ 2 [.cmp .r3 (.reg .r1)] u ⟨_,rfl⟩
  have hge : Cond.ge.holds (exec (.cmp .r3 (.reg .r1)) u) = true := by
    change ((cmpFlags (u.reg .r3) (u.reg .r1)).n == (cmpFlags (u.reg .r3) (u.reg .r1)).v) = true
    rw [cmpFlags_ge,hu.r3,hr1,toInt_ofNat_of_lt (Nat.le_refl _),decide_eq_true_iff]
    omega
  have hpop := runs_ops summ 8 [.pop [.r4]] (exec (.cmp .r3 (.reg .r1)) u) ⟨_,rfl⟩
  have hrun := (((hentry.trans hloop).trans hcmp).trans (Runs.taken rfl hge)).trans
    (hpop.trans (Runs.ret rfl))
  have hreg : ∀ r, (exec (.pop [.r4]) (exec (.cmp .r3 (.reg .r1)) u)).reg r = _ :=
    pop_reg (s := s.set .r3 0) (by decide)
      (hu.other .sp (by decide) (by decide) (by decide)) hu.mem
  refine ⟨exec (.pop [.r4]) (exec (.cmp .r3 (.reg .r1)) u),?_,fun r h0 h3 => ?_,hu.mem,?_⟩
  · have hlr : (exec (.pop [.r4]) (exec (.cmp .r3 (.reg .r1)) u)).reg .lr = s.reg .lr := by
      rw [hreg]
      exact hu.other .lr (by decide) (by decide) (by decide)
    rw [← hlr]
    exact hrun
  · rw [hreg]
    by_cases hsp : r = .sp
    · rw [if_pos hsp,hsp,State.set_reg,if_neg (by decide)]
    · by_cases h4 : r = .r4
      · rw [if_neg hsp,h4,if_pos List.mem_cons_self,State.set_reg,if_neg (by decide)]
      · rw [if_neg hsp,if_neg (by simpa using h4)]
        change u.reg r = s.reg r
        rw [hu.other r h0 h3 h4,summEntered,push_reg,if_neg hsp,State.set_reg,if_neg h3]
  · rw [hreg,← hu.result,cSumm_of_le (by omega)]
    rfl

/-! `solve` -/

def solveEntered (s : State) : State := exec (.push [.r4,.r5]) s

/-- At `.loop`, when `k` values have been tried -/
structure SolveAt (s : State) (k : ℕ) (t : State) : Prop where
  r4 : t.reg .r4 = s.reg .r0
  r5 : t.reg .r5 = BitVec.ofNat 32 k
  other : ∀ r, r ≠ .r4 → r ≠ .r5 → t.reg r = (solveEntered s).reg r
  mem : t.mem = (solveEntered s).mem

theorem solve_entered (s : State) :
    ∃ t, isa.Runs solve (.inside 0 s) (.inside 3 t) ∧ SolveAt s 0 t := by
  refine ⟨_,runs_ops _ _ [.push [.r4,.r5],.mov .r4 (.reg .r0),.mov .r5 (.imm 0)] s ⟨_,rfl⟩,?_⟩
  refine ⟨?_,?_,fun r h4 h5 => ?_,rfl⟩
  · simp [exec,Operand.value]
  · simp [exec,Operand.value]
  · simp [exec,h4,h5,solveEntered]

def tryValue : List Op := [.mla .r4 .r5 .r4 .r1,.mla .r4 .r5 .r4 .r2,.mla .r4 .r5 .r4 .r3,
  .cmp .r4 (.imm 0),.mov .r4 (.reg .r0)]

def answerOf (s : State) (k : ℕ) : BitVec 32 :=
  answer (s.reg .r0) (s.reg .r1) (s.reg .r2) (s.reg .r3) k

theorem solve_try {s t : State} {k : ℕ} (h : SolveAt s k t) :
    SolveAt s k (isa.execAll tryValue t) ∧
    Cond.eq.holds (isa.execAll tryValue t) = decide (answerOf s k = 0) := by
  have hreg : ∀ r, r ≠ .r4 → r ≠ .r5 → r ≠ .sp → t.reg r = s.reg r := by
    intro r h4 h5 hsp
    rw [h.other r h4 h5,solveEntered,push_reg,if_neg hsp]
  have hr0 := hreg .r0 (by decide) (by decide) (by decide)
  refine ⟨⟨?_,?_,fun r h4 h5 => ?_,h.mem⟩,?_⟩
  · simp [tryValue,exec,Operand.value,hr0]
  · simp [tryValue,exec,h.r5]
  · simp [tryValue,exec,h4,h.other r h4 h5]
  · have hz : Cond.eq.holds (isa.execAll tryValue t) = (cmpFlags (answerOf s k) 0).z := by
      simp [tryValue,exec,Operand.value,Cond.holds,h.r4,h.r5,hreg,answerOf,answer,BitVec.mul_comm]
    rw [hz,cmpFlags_z]

/-- All registers but the result are restored, and nothing has been written besides the push. -/
structure SolveDone (s : State) (v : BitVec 32) (t : State) : Prop where
  other : ∀ r, r ≠ .r0 → t.reg r = s.reg r
  mem : t.mem = (solveEntered s).mem
  result : t.reg .r0 = v

theorem solve_leave {s t : State} {k i : ℕ} (h : SolveAt s k t) (o : Operand)
    (hops : [Op.mov .r0 o,.pop [.r4,.r5]].map Instr.op <+: solve.drop i)
    (hret : solve[i+2]? = some .ret) :
    ∃ u, isa.Runs solve (.inside i t) (.outside (s.reg .lr) u) ∧ SolveDone s (o.value t) u := by
  have hrun := (runs_ops _ _ [.mov .r0 o,.pop [.r4,.r5]] t hops).trans (Runs.ret hret)
  have hreg : ∀ r, (exec (.pop [.r4,.r5]) (t.set .r0 (o.value t))).reg r = _ :=
    pop_reg (s := s) (by decide) (h.other .sp (by decide) (by decide)) h.mem
  have hother : ∀ r, r ≠ .r0 → (exec (.pop [.r4,.r5]) (t.set .r0 (o.value t))).reg r = s.reg r := by
    intro r h0
    rw [hreg]
    by_cases hsp : r = .sp
    · rw [if_pos hsp,hsp]
    · by_cases hsaved : r ∈ [Reg.r4,.r5]
      · rw [if_neg hsp,if_pos hsaved]
      · rw [if_neg hsp,if_neg hsaved,State.set_reg,if_neg h0]
        simp only [List.mem_cons,List.not_mem_nil,or_false,not_or] at hsaved
        rw [h.other r hsaved.1 hsaved.2,solveEntered,push_reg,if_neg hsp]
  refine ⟨_,?_,⟨hother,h.mem,?_⟩⟩
  · rw [← hother .lr (by decide)]
    exact hrun
  · rw [hreg,if_neg (by decide),if_neg (by decide),State.set_reg,if_pos rfl]

theorem solve_found {s t : State} {k : ℕ} (h : SolveAt s k t) (hk : answerOf s k = 0) :
    ∃ u, isa.Runs solve (.inside 3 t) (.outside (s.reg .lr) u) ∧
      SolveDone s (BitVec.ofNat 32 k) u := by
  obtain ⟨hat,hz⟩ := solve_try h
  rw [hk,decide_eq_true rfl] at hz
  obtain ⟨u,hrun,hu⟩ := solve_leave (i := 13) hat (.reg .r5) ⟨_,rfl⟩ rfl
  rw [Operand.value,hat.r5] at hu
  exact ⟨u,((runs_ops solve 3 tryValue t ⟨_,rfl⟩).trans (Runs.taken rfl hz)).trans
    hrun,hu⟩

theorem solve_next {s t : State} {k : ℕ} (h : SolveAt s k t) (hk : answerOf s k ≠ 0) :
    ∃ u, isa.Runs solve (.inside 3 t) (.inside 11 u) ∧ SolveAt s (k+1) u ∧
      Cond.eq.holds u = decide (BitVec.ofNat 32 (k+1) = 255) := by
  obtain ⟨hat,hz⟩ := solve_try h
  rw [decide_eq_false hk] at hz
  have hadd := runs_ops solve 9 [.add .r5 .r5 (.imm 1),.cmp .r5 (.imm 255)]
    (isa.execAll tryValue t) ⟨_,rfl⟩
  refine ⟨_,((runs_ops solve 3 tryValue t ⟨_,rfl⟩).trans
    (Runs.passed rfl hz)).trans hadd,⟨?_,?_,fun r h4 h5 => ?_,hat.mem⟩,?_⟩
  · simp [exec,hat.r4]
  · simp [exec,hat.r5,Operand.value,BitVec.ofNat_add]
  · simp [exec,h5,hat.other r h4 h5]
  · rw [← cmpFlags_z]
    simp [exec,hat.r5,Operand.value,Cond.holds,BitVec.ofNat_add]

theorem ofNat_ne_last {k : ℕ} (h : k < 255) : BitVec.ofNat 32 k ≠ 255 := by
  intro he
  have hnat := congrArg BitVec.toNat he
  rw [BitVec.toNat_ofNat,Nat.mod_eq_of_lt (by omega)] at hnat
  change k = 255 at hnat
  omega

theorem solve_round {s t : State} {k : ℕ} (hlt : k < 254) (h : SolveAt s k t)
    (hk : answerOf s k ≠ 0) :
    ∃ u, isa.Runs solve (.inside 3 t) (.inside 3 u) ∧ SolveAt s (k+1) u := by
  obtain ⟨u,hrun,hu,hz⟩ := solve_next h hk
  rw [decide_eq_false (ofNat_ne_last (by omega))] at hz
  have hnot : Cond.ne.holds u = true := by rw [Cond.holds_ne,hz]; rfl
  exact ⟨u,(hrun.trans (Runs.passed rfl hz)).trans (Runs.taken rfl hnot),hu⟩

theorem solve_notFound {s t : State} (h : SolveAt s 254 t) (hk : answerOf s 254 ≠ 0) :
    ∃ u, isa.Runs solve (.inside 3 t) (.outside (s.reg .lr) u) ∧ SolveDone s 0 u := by
  obtain ⟨u,hrun,hu,hz⟩ := solve_next h hk
  obtain ⟨v,hleave,hv⟩ := solve_leave (i := 16) hu (.imm 0) ⟨_,rfl⟩ rfl
  exact ⟨v,(hrun.trans (Runs.taken rfl hz)).trans hleave,hv⟩

/-- The least divider that is a solution, or 0 -/
def IsLeast (A B C D : BitVec 32) (v : BitVec 32) : Prop :=
  (∃ d < 255, answer A B C D d = 0 ∧ (∀ e < d, answer A B C D e ≠ 0) ∧ v = BitVec.ofNat 32 d) ∨
  (∀ d < 255, answer A B C D d ≠ 0) ∧ v = 0

theorem IsLeast.unique {A B C D v w : BitVec 32} (hv : IsLeast A B C D v)
    (hw : IsLeast A B C D w) : v = w := by
  obtain ⟨d,hd,hzero,hleast,rfl⟩ | ⟨hnone,rfl⟩ := hv <;>
    obtain ⟨e,he,hzero',hleast',rfl⟩ | ⟨hnone',rfl⟩ := hw
  · obtain hlt | rfl | hgt := lt_trichotomy d e
    · exact absurd hzero (hleast' d hlt)
    · rfl
    · exact absurd hzero' (hleast e hgt)
  · exact absurd hzero (hnone' d hd)
  · exact absurd hzero' (hnone e he)
  · rfl

theorem cSolve_isLeast (A B C D : BitVec 32) : IsLeast A B C D (cSolve A B C D 0) := by
  suffices h : ∀ k ≤ 255, (∀ e < k, answer A B C D e ≠ 0) → IsLeast A B C D (cSolve A B C D k) from
    h 0 (by decide) (by simp)
  intro k hk hbefore
  fun_induction cSolve A B C D k with
  | case1 k hlt hzero => exact .inl ⟨k,hlt,hzero,hbefore,rfl⟩
  | case2 k hlt hzero ih =>
    refine ih hlt fun e he => ?_
    obtain hless | rfl := Nat.lt_succ_iff_lt_or_eq.mp he
    · exact hbefore e hless
    · exact hzero
  | case3 k hge => exact .inr ⟨fun d hd => hbefore d (by omega),rfl⟩

theorem solve_returns (s : State) : ∃ v t, isa.Returns solve s (s.reg .lr) t ∧ SolveDone s v t ∧
    IsLeast (s.reg .r0) (s.reg .r1) (s.reg .r2) (s.reg .r3) v := by
  obtain ⟨t,hentry,hstart⟩ := solve_entered s
  -- as long as no solution has been met the loop comes back to its beginning
  have hloop : ∀ n ≤ 254, (∀ k < n, answerOf s k ≠ 0) →
      ∃ u, isa.Runs solve (.inside 3 t) (.inside 3 u) ∧ SolveAt s n u :=
    fun n hn hne => Runs.loop (fun k hk u hu => solve_round (by omega) hu (hne k hk)) hstart
  by_cases hsome : ∃ d < 255, answerOf s d = 0
  · have hspec := Nat.find_spec hsome
    have hleast : ∀ e < Nat.find hsome, answerOf s e ≠ 0 := fun e he hzero =>
      Nat.find_min hsome he ⟨by omega,hzero⟩
    obtain ⟨u,hu,hat⟩ := hloop (Nat.find hsome) (by omega) hleast
    obtain ⟨w,hw,hdone⟩ := solve_found hat hspec.2
    exact ⟨_,w,(hentry.trans hu).trans hw,hdone,.inl ⟨_,hspec.1,hspec.2,hleast,rfl⟩⟩
  · have hnone : ∀ d < 255, answerOf s d ≠ 0 := fun d hd hzero => hsome ⟨d,hd,hzero⟩
    obtain ⟨u,hu,hat⟩ := hloop 254 (Nat.le_refl _) fun k hk => hnone k (by omega)
    obtain ⟨w,hw,hdone⟩ := solve_notFound hat (hnone 254 (by decide))
    exact ⟨_,w,(hentry.trans hu).trans hw,hdone,.inr ⟨hnone,rfl⟩⟩

/-! `calculate` -/

/-- `r4` and `r5` hold the value of `D` and the address of `R` in the end. -/
theorem calculate_returns (sym : Symbols) (s : State) :
    ∃ t, isa.Returns (calculate sym) s (s.reg .lr) t ∧
    (∀ r ∉ [Reg.r0,.r1,.r2,.r3,.r4,.r5], t.reg r = s.reg r) ∧
    t.reg .r4 = word s.mem sym.D ∧ t.reg .r5 = sym.R ∧
    t.mem = setWord s.mem sym.R (word s.mem sym.C * word s.mem sym.D +
      word s.mem sym.A * word s.mem sym.B) := by
  have hrun := Returns.straight (M := isa) (calculateBody sym) s
  have hother : ∀ r ∉ [Reg.r0,.r1,.r2,.r3,.r4,.r5],
      (isa.execAll (calculateBody sym) s).reg r = s.reg r := by
    intro r hr
    simp only [List.mem_cons,List.not_mem_nil,or_false,not_or] at hr
    simp [calculateBody,exec,hr]
  refine ⟨isa.execAll (calculateBody sym) s,?_,hother,?_,?_,?_⟩
  · rwa [isa_leave,hother .lr (by decide)] at hrun
  · simp [calculateBody,exec,Operand.value]
  · simp [calculateBody,exec]
  · simp [calculateBody,exec,Operand.value]

/-! The calling convention -/

inductive Routine
  | f | summ | solve | calculate
  deriving DecidableEq

def Routine.code (sym : Symbols) : Routine → Code
  | .f => Arm.f
  | .summ => Arm.summ
  | .solve => Arm.solve
  | .calculate => Arm.calculate sym

/-- The bytes that a routine pushes -/
def Routine.stack : Routine → ℕ
  | .f | .calculate => 0
  | .summ => 4
  | .solve => 8

def calleeSaved : List Reg := [.r4,.r5,.r6,.r7,.r8,.r9,.r10,.r11,.sp]

theorem ne_of_calleeSaved {r r' : Reg} (hr : r ∈ calleeSaved) (h : r' ∉ calleeSaved) : r ≠ r' :=
  fun he => h (he ▸ hr)

/-- The memory that a routine may write to -/
def Routine.Owns (routine : Routine) (sym : Symbols) (s : State) (x : BitVec 32) : Prop :=
  Within (s.reg .sp - BitVec.ofNat 32 routine.stack) routine.stack x ∨
    routine = .calculate ∧ Within sym.R 4 x

/-- What a caller relies on -/
structure Preserved (sym : Symbols) (routine : Routine) (s t : State) : Prop where
  saved : ∀ r ∈ calleeSaved, t.reg r = s.reg r
  mem : ∀ x, ¬ routine.Owns sym s x → t.mem x = s.mem x

/-- Every routine returns; `calculate` preserves what it must if the registers that it does not
save hold what it leaves in them. -/
theorem preserved_iff (sym : Symbols) (routine : Routine) (s : State) :
    ∃ t, isa.Returns (routine.code sym) s (s.reg .lr) t ∧
      (Preserved sym routine s t ↔
        (routine = .calculate → s.reg .r4 = word s.mem sym.D ∧ s.reg .r5 = sym.R)) := by
  have hmem : ∀ routine : Routine, ∀ x, ¬ routine.Owns sym s x →
      ¬ Within (s.reg .sp - BitVec.ofNat 32 routine.stack) routine.stack x :=
    fun _ _ hx hstack => hx (.inl hstack)
  cases routine with
  | f =>
    refine ⟨_,f_returns s,fun _ h => absurd h (by decide),fun _ => ⟨fun r hr => ?_,fun x _ => rfl⟩⟩
    have h0 : r ≠ .r0 := ne_of_calleeSaved hr (by decide)
    rw [State.set_reg,if_neg h0]
  | summ =>
    obtain ⟨t,ht,hreg,hm,-⟩ := summ_returns s
    refine ⟨t,ht,fun _ h => absurd h (by decide),fun _ => ⟨fun r hr => ?_,fun x hx => ?_⟩⟩
    · have h0 : r ≠ .r0 := ne_of_calleeSaved hr (by decide)
      have h3 : r ≠ .r3 := ne_of_calleeSaved hr (by decide)
      exact hreg r h0 h3
    · rw [hm]
      exact push_mem [.r4] (by decide) (s.set .r3 0) (hmem .summ x hx)
  | solve =>
    obtain ⟨v,t,ht,hdone,-⟩ := solve_returns s
    refine ⟨t,ht,fun _ h => absurd h (by decide),fun _ => ⟨fun r hr => ?_,fun x hx => ?_⟩⟩
    · have h0 : r ≠ .r0 := ne_of_calleeSaved hr (by decide)
      exact hdone.other r h0
    · rw [hdone.mem]
      exact push_mem [.r4,.r5] (by decide) s (hmem .solve x hx)
  | calculate =>
    obtain ⟨t,ht,hreg,h4,h5,hm⟩ := calculate_returns sym s
    refine ⟨t,ht,fun h _ => ?_,fun h => ⟨fun r hr => ?_,fun x hx => ?_⟩⟩
    · rw [← h.saved .r4 (by decide),← h.saved .r5 (by decide)]
      exact ⟨h4,h5⟩
    · obtain ⟨hr4,hr5⟩ := h rfl
      by_cases hr4' : r = .r4
      · rw [hr4',h4,hr4]
      · by_cases hr5' : r = .r5
        · rw [hr5',h5,hr5]
        · refine hreg r fun hmem => ?_
          simp only [List.mem_cons,List.not_mem_nil,or_false,hr4',hr5'] at hmem
          obtain rfl | rfl | rfl | rfl := hmem <;> exact absurd hr (by decide)
    · rw [hm,setWord,store_of_not_within fun hR => hx (.inr ⟨rfl,hR⟩)]

def zeroState : State := ⟨fun r => if r = .r4 then 1 else 0,fun _ => 0,⟨false,false,false,false⟩⟩

def someSymbols : Symbols := ⟨0x100,0x104,0x108,0x10c,0x110⟩

/-- A caller that keeps 1 in `r4` gets back the value of `D`. -/
theorem calculate_not_preserved :
    ∃ t, isa.Returns (calculate someSymbols) zeroState (zeroState.reg .lr) t ∧
      zeroState.reg .r4 = 1 ∧ t.reg .r4 = 0 ∧
      ¬ Preserved someSymbols .calculate zeroState t := by
  obtain ⟨t,ht,-,h4,-,-⟩ := calculate_returns someSymbols zeroState
  have hzero : word zeroState.mem someSymbols.D = 0 := by decide
  refine ⟨t,ht,rfl,h4.trans hzero,fun h => ?_⟩
  have hsaved := h.saved .r4 (by decide)
  rw [h4,hzero] at hsaved
  exact absurd hsaved (by decide)

/-! Assembly and C -/

theorem cSumm_congr {N : BitVec 32} {X Y : ℕ → BitVec 32}
    (h : ∀ i : ℕ, (i : ℤ) < N.toInt → X i = Y i) (k : ℕ) (x0 : BitVec 32) :
    cSumm N X k x0 = cSumm N Y k x0 := by
  fun_induction cSumm N X k x0 with
  | case1 k x0 hlt ih => rw [cSumm_of_lt hlt,← h k hlt,ih]
  | case2 k x0 hge => rw [cSumm_of_le (by omega)]

theorem words_summEntered {s : State}
    (h : Apart (s.reg .sp - 4) 4 (s.reg .r2) (4*(s.reg .r1).toInt.toNat)) {i : ℕ}
    (hi : (i : ℤ) < (s.reg .r1).toInt) :
    words (summEntered s).mem (s.reg .r2) i = words s.mem (s.reg .r2) i := by
  have hfits : 4*(s.reg .r1).toInt.toNat ≤ 2^32 := by
    by_contra hlarge
    refine h (s.reg .sp - 4) ?_ (Nat.lt_trans (BitVec.isLt _) (by omega))
    rw [Within,BitVec.sub_self]
    decide
  refine load_congr (fun x hx => push_mem [.r4] (by decide) (s.set .r3 0) fun hstack => ?_)
    (by decide)
  exact h x hstack ((hx.of_add (by omega)).mono (by omega))

def arrayState : State :=
  ⟨fun r => match r with | .r0 => 5 | .r1 => 2 | .r2 => 0x100 | .sp => 0x1000 | _ => 0,
    fun a => a.setWidth 8,⟨false,false,false,false⟩⟩

def IsRoot (A B C D x : BitVec 32) : Prop := A*(x*x*x) + B*(x*x) + C*x + D = 0

instance (A B C D x : BitVec 32) : Decidable (IsRoot A B C D x) := inferInstanceAs (Decidable (_ = _))

/-- A root is returned if there is one from 1 to 255. -/
def FindsRoot (A B C D v : BitVec 32) : Prop :=
  (∃ x : ℕ, 0 < x ∧ x < 256 ∧ IsRoot A B C D (BitVec.ofNat 32 x)) → IsRoot A B C D v

/-- One of the values that are tried is a root. -/
def HasTried (A B C D : BitVec 32) : Prop := ∃ x < 255, IsRoot A B C D (BitVec.ofNat 32 x)

theorem answer_eq_zero_iff {A B C D : BitVec 32} {x : ℕ} :
    answer A B C D x = 0 ↔ IsRoot A B C D (BitVec.ofNat 32 x) := by
  have hhorner : answer A B C D x = A*(BitVec.ofNat 32 x*BitVec.ofNat 32 x*BitVec.ofNat 32 x) +
      B*(BitVec.ofNat 32 x*BitVec.ofNat 32 x) + C*BitVec.ofNat 32 x + D := by
    rw [answer]
    ring
  rw [hhorner,IsRoot]

theorem findsRoot_iff {A B C D v : BitVec 32} (h : IsLeast A B C D v) :
    FindsRoot A B C D v ↔ (IsRoot A B C D 255 → HasTried A B C D) := by
  obtain ⟨d,hd,hzero,-,rfl⟩ | ⟨hnone,rfl⟩ := h
  · have hroot := answer_eq_zero_iff.mp hzero
    exact ⟨fun _ _ => ⟨d,hd,hroot⟩,fun _ _ => hroot⟩
  · have htried : ¬ HasTried A B C D := fun ⟨x,hx,hroot⟩ =>
      hnone x hx (answer_eq_zero_iff.mpr hroot)
    -- the value for "not found" has been tried as well
    have hzero : ¬ IsRoot A B C D 0 := fun hroot =>
      hnone 0 (by decide) (answer_eq_zero_iff.mpr hroot)
    constructor
    · intro hfinds hlast
      exact absurd (hfinds ⟨255,by decide,by decide,hlast⟩) hzero
    · rintro hlast ⟨x,-,hx,hroot⟩
      obtain hlt | rfl := Nat.lt_succ_iff_lt_or_eq.mp hx
      · exact absurd ⟨x,hlt,hroot⟩ htried
      · exact absurd (hlast hroot) htried

/-- The last value of the range is not tried. -/
theorem solve_findsRoot_iff (s : State) :
    ((∃ t, isa.Returns solve s (s.reg .lr) t ∧
      FindsRoot (s.reg .r0) (s.reg .r1) (s.reg .r2) (s.reg .r3) (t.reg .r0)) ↔
        (IsRoot (s.reg .r0) (s.reg .r1) (s.reg .r2) (s.reg .r3) 255 →
          HasTried (s.reg .r0) (s.reg .r1) (s.reg .r2) (s.reg .r3))) ∧
    ∀ A B C D, FindsRoot A B C D (cSolve A B C D 0) ↔ (IsRoot A B C D 255 → HasTried A B C D) := by
  refine ⟨?_,fun A B C D => findsRoot_iff (cSolve_isLeast A B C D)⟩
  obtain ⟨v,t,ht,hdone,hv⟩ := solve_returns s
  rw [← findsRoot_iff hv,← hdone.result]
  constructor
  · rintro ⟨u,hu,hfinds⟩
    rwa [(hu.unique ht).2] at hfinds
  · exact fun hfinds => ⟨t,ht,hfinds⟩

def linearState : State :=
  ⟨fun r => match r with | .r2 => 1 | .r3 => -255 | .sp => 0x1000 | _ => 0,
    fun _ => 0,⟨false,false,false,false⟩⟩

theorem linear_not_tried : ¬ HasTried 0 0 1 (-255) := by
  rintro ⟨x,hx,hroot⟩
  simp only [IsRoot,zero_mul,zero_add,one_mul] at hroot
  have heq := eq_neg_of_add_eq_zero_left hroot
  rw [neg_neg] at heq
  exact ofNat_ne_last hx heq

theorem linear_not_found :
    (∃ t, isa.Returns solve linearState 0 t ∧ t.reg .r0 = 0 ∧ ¬ FindsRoot 0 0 1 (-255) (t.reg .r0)) ∧
    cSolve 0 0 1 (-255) 0 = 0 ∧ ¬ FindsRoot 0 0 1 (-255) (cSolve 0 0 1 (-255) 0) := by
  have hlast : IsRoot 0 0 1 (-255) 255 := by decide
  have hnone : ∀ v, IsLeast 0 0 1 (-255) v → v = 0 ∧ ¬ FindsRoot 0 0 1 (-255) v := by
    intro v hv
    have hnot : ¬ FindsRoot 0 0 1 (-255) v := fun h =>
      linear_not_tried ((findsRoot_iff hv).mp h hlast)
    obtain ⟨d,hd,hzero,-,rfl⟩ | ⟨-,hv⟩ := hv
    · exact absurd ⟨d,hd,answer_eq_zero_iff.mp hzero⟩ linear_not_tried
    · exact ⟨hv,hnot⟩
  obtain ⟨v,t,ht,hdone,hv⟩ := solve_returns linearState
  have hzero := hnone v hv
  rw [← hdone.result] at hzero
  exact ⟨⟨t,ht,hzero⟩,hnone _ (cSolve_isLeast 0 0 1 (-255))⟩

end Arm
end SomeCode
