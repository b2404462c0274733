import SomeCode.Arm

/-! `main` of `inf04-2.s` copies the digits of its standard input to the standard output. It calls
`fgetc` and `fputc`, which leave what they like in the registers that they need not keep. -/
namespace SomeCode
namespace DigitFilter

open ByteMemory MachineCode Arm

/-- What the registers that a call need not keep, the flags and the memory are behind it; where the
variables `stdin` and `stdout` are, and the streams that they point to. A call changes neither these
variables nor the `frame`, which is what `main` has pushed. -/
structure Libc where
  reg : Arm.State → Reg → BitVec 32
  flags : Arm.State → Flags
  mem : Arm.State → Memory 32
  result : Arm.State → BitVec 32
  stdin : BitVec 32
  stdout : BitVec 32
  inFile : BitVec 32
  outFile : BitVec 32
  frame : ∀ s x, Within (s.reg .sp) 20 x → mem s x = s.mem x
  vars : ∀ s x, Within stdin 4 x ∨ Within stdout 4 x → mem s x = s.mem x

structure State extends Arm.State where
  input : List (BitVec 8)
  output : List (BitVec 8)

/-- A call that returns `v` -/
def Libc.call (L : Libc) (v : BitVec 32) (s : Arm.State) : Arm.State where
  reg
    | .r0 => v
    | .r1 => L.reg s .r1
    | .r2 => L.reg s .r2
    | .r3 => L.reg s .r3
    | .r12 => L.reg s .r12
    | .lr => L.reg s .lr
    | r => s.reg r
  mem := L.mem s
  flags := L.flags s

def EOF : BitVec 32 := -1

/-- `cmn` is the only instruction that is not among those of `Arm`, apart from the calls. -/
inductive Op
  | base (o : Arm.Op)
  | cmn (rn : Reg) (v : BitVec 32)
  | fgetc
  | fputc

inductive Cond
  | al | eq | pl | mi

def cmnFlags (a b : BitVec 32) : Flags where
  n := (a+b).msb
  z := a+b == 0
  c := decide (2^32 ≤ a.toNat + b.toNat)
  v := a.msb == b.msb && (a+b).msb != a.msb

def exec (L : Libc) : Op → State → State
  | .base o, s => { s with toState := Arm.exec o s.toState }
  | .cmn rn v, s => { s with flags := cmnFlags (s.reg rn) v }
  | .fgetc, s =>
    if s.reg .r0 = L.inFile then
      match s.input with
      | [] => { s with toState := L.call EOF s.toState }
      | b :: rest => ⟨L.call (b.setWidth 32) s.toState,rest,s.output⟩
    else { s with toState := L.call (L.result s.toState) s.toState }
  | .fputc, s =>
    if s.reg .r1 = L.outFile then
      ⟨L.call (L.result s.toState) s.toState,s.input,s.output ++ [(s.reg .r0).setWidth 8]⟩
    else { s with toState := L.call (L.result s.toState) s.toState }

def Cond.holds : Cond → State → Bool
  | .al, _ => true
  | .eq, s => s.flags.z
  | .pl, s => !s.flags.n
  | .mi, s => s.flags.n

/-- The return is `pop {r4, r5, r6, ip, pc}`. -/
def isa (L : Libc) : Isa Op Cond State (BitVec 32) where
  exec := exec L
  holds := Cond.holds
  leave s :=
    let t := Arm.exec (.pop [.r4,.r5,.r6,.r12]) s.toState
    (word t.mem (t.reg .sp),{ s with toState := t.set .sp (t.reg .sp + 4) })

def main (L : Libc) : List (Instr Op Cond) :=
  [.op (.base (.push [.r4,.r5,.r6,.r12,.lr])),
   .op (.base (.ldrAddress .r4 L.stdin)),
   .op (.base (.ldrAddress .r5 L.stdout)),
   -- .loop
   .op (.base (.ldr .r0 .r4 (.imm 0))),
   .op .fgetc,
   .op (.cmn .r0 1),
   .branch .eq 17,
   .op (.base (.mov .r6 (.imm 57))),
   .op (.base (.add .r6 .r6 (.imm 1))),
   .op (.base (.cmp .r0 (.reg .r6))),
   .branch .pl 3,
   .op (.base (.cmp .r0 (.imm 48))),
   .branch .mi 3,
   .branch .al 14,
   -- .out
   .op (.base (.ldr .r1 .r5 (.imm 0))),
   .op .fputc,
   .branch .al 3,
   -- .exit
   .ret]

theorem runs_ops (L : Libc) (i : ℕ) (s : State) (ops : List Op)
    (h : ops.map Instr.op <+: (main L).drop i) : (isa L).Runs (main L) (.inside i s)
      (.inside (i+ops.length) ((isa L).execAll ops s)) :=
  Isa.Runs.ops ops h

theorem runs_taken (L : Libc) (i : ℕ) (s : State) {c : Cond} {target : ℕ}
    (h : (main L)[i]? = some (.branch c target)) (hc : c.holds s = true) :
    (isa L).Runs (main L) (.inside i s) (.inside target s) :=
  Isa.Runs.taken h hc

theorem runs_passed (L : Libc) (i : ℕ) (s : State) {c : Cond} {target : ℕ}
    (h : (main L)[i]? = some (.branch c target)) (hc : c.holds s = false) :
    (isa L).Runs (main L) (.inside i s) (.inside (i+1) s) :=
  Isa.Runs.passed h hc

def isDigit (b : BitVec 8) : Bool := 48 ≤ b.toNat && b.toNat ≤ 57

/-- What `main` relies on: its variables hold the streams, and are not in the frame. -/
structure Starts (L : Libc) (s : State) : Prop where
  stdin : word s.mem L.stdin = L.inFile
  stdout : word s.mem L.stdout = L.outFile
  apart : ∀ x, Within L.stdin 4 x ∨ Within L.stdout 4 x → ¬Within (s.reg .sp - 20) 20 x

def saved : List Reg := [.r4,.r5,.r6,.r12,.lr]

structure Inside (L : Libc) (s₀ s : State) : Prop where
  r4 : s.reg .r4 = L.stdin
  r5 : s.reg .r5 = L.stdout
  sp : s.reg .sp = s₀.reg .sp - 20
  kept : ∀ r ∈ [Reg.r7,.r8,.r9,.r10,.r11], s.reg r = s₀.reg r
  frame : ∀ x, Within (s₀.reg .sp - 20) 20 x → s.mem x = (Arm.exec (.push saved) s₀.toState).mem x
  vars : ∀ x, Within L.stdin 4 x ∨ Within L.stdout 4 x → s.mem x = s₀.mem x

/-- At `.loop`, when `k` bytes have been read -/
structure AtLoop (L : Libc) (s₀ : State) (k : ℕ) (s : State) : Prop extends Inside L s₀ s where
  input : s.input = s₀.input.drop k
  output : s.output = s₀.output ++ (s₀.input.take k).filter isDigit

structure Read (L : Libc) (s₀ : State) (b : BitVec 8) (input output : List (BitVec 8))
    (s : State) : Prop extends Inside L s₀ s where
  r0 : s.reg .r0 = b.setWidth 32
  input_eq : s.input = input
  output_eq : s.output = output

variable {L : Libc} {s₀ s : State} {k : ℕ} {b : BitVec 8} {input output : List (BitVec 8)}

theorem Inside.call (h : Inside L s₀ s) (v : BitVec 32) (input output : List (BitVec 8)) :
    Inside L s₀ ⟨L.call v s.toState,input,output⟩ where
  r4 := h.r4
  r5 := h.r5
  sp := h.sp
  kept r hr := by
    rw [← h.kept r hr]
    fin_cases hr <;> rfl
  frame x hx := (L.frame s.toState x (by rw [h.sp]; exact hx)).trans (h.frame x hx)
  vars x hx := (L.vars s.toState x hx).trans (h.vars x hx)

theorem Inside.set (h : Inside L s₀ s) {r : Reg} (hr : r ∈ [Reg.r0,.r1,.r6]) (v : BitVec 32)
    (input output : List (BitVec 8)) : Inside L s₀ ⟨s.toState.set r v,input,output⟩ := by
  have hne : ∀ q ∈ [Reg.r4,.r5,.sp,.r7,.r8,.r9,.r10,.r11], (s.toState.set r v).reg q = s.reg q := by
    intro q hq
    rw [State.set_reg,if_neg]
    rintro rfl
    fin_cases hr <;> simp at hq
  exact ⟨(hne _ (by simp)).trans h.r4,(hne _ (by simp)).trans h.r5,(hne _ (by simp)).trans h.sp,
    fun q hq => (hne q (by simp at hq ⊢; tauto)).trans (h.kept q hq),h.frame,h.vars⟩

theorem Inside.flags (h : Inside L s₀ s) (f : Flags) :
    Inside L s₀ { s with flags := f } :=
  ⟨h.r4,h.r5,h.sp,h.kept,h.frame,h.vars⟩

theorem Inside.word_eq (h : Inside L s₀ s) {a : BitVec 32} (ha : a = L.stdin ∨ a = L.stdout) :
    word s.mem a = word s₀.mem a := by
  refine load_congr (fun x hx => h.vars x ?_) (by decide)
  rcases ha with rfl | rfl
  · exact .inl hx
  · exact .inr hx

/-! A byte is compared -/

theorem cmn_EOF : (cmnFlags EOF 1).z = true := by decide

theorem cmn_byte (b : BitVec 8) : (cmnFlags (b.setWidth 32) 1).z = false := by
  have hlt := b.isLt
  have hne : b.setWidth 32 + 1 ≠ 0 := by
    intro h
    have hnat := congrArg BitVec.toNat h
    rw [BitVec.toNat_add,BitVec.toNat_setWidth] at hnat
    change (b.toNat % 2^32 + 1) % 2^32 = 0 at hnat
    omega
  exact beq_eq_false_iff_ne.2 hne

/-- The sign of the difference tells which one is less, as both are small. -/
theorem cmp_byte (b c : BitVec 8) :
    (cmpFlags (b.setWidth 32) (c.setWidth 32)).n = decide (b.toNat < c.toNat) := by
  have hb := b.isLt
  have hc := c.isLt
  have hsub : (b.setWidth 32 - c.setWidth 32).toNat = (2^32-c.toNat+b.toNat) % 2^32 := by
    rw [BitVec.toNat_sub,BitVec.toNat_setWidth,BitVec.toNat_setWidth,
      Nat.mod_eq_of_lt (a := b.toNat) (by omega),Nat.mod_eq_of_lt (a := c.toNat) (by omega)]
  change (b.setWidth 32 - c.setWidth 32).msb = _
  rw [BitVec.msb_eq_decide,hsub,decide_eq_decide]
  omega

theorem isDigit_eq_true {b : BitVec 8} (hlow : 48 ≤ b.toNat) (hhigh : b.toNat < 58) :
    isDigit b = true := by
  simp [isDigit,hlow]
  omega

theorem isDigit_of_ge {b : BitVec 8} (h : 58 ≤ b.toNat) : isDigit b = false := by
  simp [isDigit]
  omega

theorem isDigit_of_lt {b : BitVec 8} (h : b.toNat < 48) : isDigit b = false := by
  simp [isDigit]
  omega

/-! `.loop` -/

theorem ldr_inFile (hs : Starts L s₀) (h : Inside L s₀ s) :
    exec L (.base (.ldr .r0 .r4 (.imm 0))) s =
      ⟨s.toState.set .r0 L.inFile,s.input,s.output⟩ := by
  have hword : word s.mem (s.reg .r4 + 0) = L.inFile := by
    rw [h.r4,← hs.stdin,← h.word_eq (.inl rfl)]
    simp
  simp only [exec,Arm.exec,Operand.value,hword]

theorem ldr_outFile (hs : Starts L s₀) (h : Inside L s₀ s) :
    exec L (.base (.ldr .r1 .r5 (.imm 0))) s =
      ⟨s.toState.set .r1 L.outFile,s.input,s.output⟩ := by
  have hword : word s.mem (s.reg .r5 + 0) = L.outFile := by
    rw [h.r5,← hs.stdout,← h.word_eq (.inr rfl)]
    simp
  simp only [exec,Arm.exec,Operand.value,hword]

def fetch : List Op := [.base (.ldr .r0 .r4 (.imm 0)),.fgetc,.cmn .r0 1]

theorem fetch_nil (hs : Starts L s₀) (h : Inside L s₀ s) (hinput : s.input = []) :
    ∃ u, (isa L).Runs (main L) (.inside 3 s) (.inside 17 u) ∧ Inside L s₀ u ∧
      u.reg .r0 = EOF ∧ u.input = [] ∧ u.output = s.output := by
  have hops : (isa L).execAll fetch s =
      ⟨{ L.call EOF (s.toState.set .r0 L.inFile) with flags := cmnFlags EOF 1 },[],s.output⟩ := by
    change exec L (.cmn .r0 1) (exec L .fgetc (exec L _ s)) = _
    rw [ldr_inFile hs h,hinput]
    simp [exec,Libc.call]
  have hrun := (runs_ops L 3 s fetch ⟨_,rfl⟩).trans
    (Isa.Runs.taken rfl (by rw [hops]; exact cmn_EOF))
  refine ⟨_,hrun,?_⟩
  rw [hops]
  exact ⟨((h.set (by simp) _ s.input s.output).call EOF _ _).flags _,rfl,rfl,rfl⟩

theorem fetch_cons (hs : Starts L s₀) (h : Inside L s₀ s) (hinput : s.input = b :: input) :
    ∃ u, (isa L).Runs (main L) (.inside 3 s) (.inside 7 u) ∧ Read L s₀ b input s.output u := by
  have hops : (isa L).execAll fetch s =
      ⟨{ L.call (b.setWidth 32) (s.toState.set .r0 L.inFile) with
        flags := cmnFlags (b.setWidth 32) 1 },input,s.output⟩ := by
    change exec L (.cmn .r0 1) (exec L .fgetc (exec L _ s)) = _
    rw [ldr_inFile hs h,hinput]
    simp [exec,Libc.call]
  have hrun := (runs_ops L 3 s fetch ⟨_,rfl⟩).trans
    (Isa.Runs.passed rfl (by rw [hops]; exact cmn_byte b))
  refine ⟨_,hrun,?_⟩
  rw [hops]
  exact ⟨((h.set (by simp) _ s.input s.output).call _ _ _).flags _,rfl,rfl,rfl⟩

theorem Read.compare_nine (h : Read L s₀ b input output s) :
    ∃ u, (isa L).Runs (main L) (.inside 7 s) (.inside 10 u) ∧ Read L s₀ b input output u ∧
      u.flags.n = decide (b.toNat < 58) := by
  have hrun := runs_ops L 7 s
    [.base (.mov .r6 (.imm 57)),.base (.add .r6 .r6 (.imm 1)),.base (.cmp .r0 (.reg .r6))] ⟨_,rfl⟩
  refine ⟨_,hrun,⟨?_,h.r0,h.input_eq,h.output_eq⟩,?_⟩
  · exact ((h.toInside.set (by simp) _ s.input s.output).set (by simp) _ s.input s.output).flags _
  · have hcmp := cmp_byte b 58
    rw [← h.r0] at hcmp
    exact hcmp

theorem Read.compare_zero (h : Read L s₀ b input output s) :
    ∃ u, (isa L).Runs (main L) (.inside 11 s) (.inside 12 u) ∧ Read L s₀ b input output u ∧
      u.flags.n = decide (b.toNat < 48) := by
  have hrun := runs_ops L 11 s
    [.base (.cmp .r0 (.imm 48))] ⟨_,rfl⟩
  refine ⟨_,hrun,⟨h.toInside.flags _,h.r0,h.input_eq,h.output_eq⟩,?_⟩
  have hcmp := cmp_byte b 48
  rw [← h.r0] at hcmp
  exact hcmp

theorem Read.put (hs : Starts L s₀) (h : Read L s₀ b input output s) :
    ∃ u, (isa L).Runs (main L) (.inside 14 s) (.inside 3 u) ∧ Inside L s₀ u ∧
      u.input = input ∧ u.output = output ++ [b] := by
  have hbyte : (b.setWidth 32).setWidth 8 = b := by simp
  have hops : (isa L).execAll [.base (.ldr .r1 .r5 (.imm 0)),.fputc] s =
      ⟨L.call (L.result (s.toState.set .r1 L.outFile)) (s.toState.set .r1 L.outFile),input,
        output ++ [b]⟩ := by
    change exec L .fputc (exec L _ s) = _
    rw [ldr_outFile hs h.toInside,h.input_eq,h.output_eq]
    simp [exec,h.r0,hbyte]
  have hrun := (runs_ops L 14 s
    [.base (.ldr .r1 .r5 (.imm 0)),.fputc] ⟨_,rfl⟩).trans (Isa.Runs.taken rfl rfl)
  refine ⟨_,hrun,?_⟩
  rw [hops]
  exact ⟨(h.toInside.set (by simp) _ s.input s.output).call _ _ _,rfl,rfl⟩

theorem Read.decide_byte (hs : Starts L s₀) (h : Read L s₀ b input output s) :
    ∃ u, (isa L).Runs (main L) (.inside 7 s) (.inside 3 u) ∧ Inside L s₀ u ∧
      u.input = input ∧ u.output = output ++ [b].filter isDigit := by
  rcases h.compare_nine with ⟨t,hnine,ht,hn⟩
  by_cases hhigh : b.toNat < 58
  · rw [decide_eq_true hhigh] at hn
    have hpass := runs_passed L 10 t rfl
      (congrArg (!·) hn)
    rcases ht.compare_zero with ⟨u,hzero,hu,hn'⟩
    by_cases hlow : b.toNat < 48
    · rw [decide_eq_true hlow] at hn'
      have htake := runs_taken L 12 _ rfl hn'
      refine ⟨u,((hnine.trans hpass).trans hzero).trans htake,hu.toInside,hu.input_eq,?_⟩
      simp [isDigit_of_lt hlow,hu.output_eq]
    · rw [decide_eq_false hlow] at hn'
      have hpass' := runs_passed L 12 _ rfl hn'
      have hout := runs_taken L 13 u rfl rfl
      rcases hu.put hs with ⟨v,hput,hv,hinput,houtput⟩
      refine ⟨v,(((hnine.trans hpass).trans hzero).trans (hpass'.trans hout)).trans hput,hv,
        hinput,?_⟩
      simp [isDigit_eq_true (not_lt.1 hlow) hhigh,houtput]
  · rw [decide_eq_false hhigh] at hn
    have htake := runs_taken L 10 t rfl
      (congrArg (!·) hn)
    refine ⟨t,hnine.trans htake,ht.toInside,ht.input_eq,?_⟩
    simp [isDigit_of_ge (not_lt.1 hhigh),ht.output_eq]

theorem AtLoop.round (hs : Starts L s₀) (hk : k < s₀.input.length) (h : AtLoop L s₀ k s) :
    ∃ u, (isa L).Runs (main L) (.inside 3 s) (.inside 3 u) ∧ AtLoop L s₀ (k+1) u := by
  have hinput : s.input = s₀.input[k] :: s₀.input.drop (k+1) := by
    rw [h.input,List.drop_eq_getElem_cons hk]
  rcases fetch_cons hs h.toInside hinput with ⟨t,hfetch,ht⟩
  rcases ht.decide_byte hs with ⟨u,hrun,hu,hleft,hout⟩
  refine ⟨u,hfetch.trans hrun,hu,hleft,?_⟩
  rw [hout,h.output,List.append_assoc,← List.filter_append,List.take_append_getElem hk]

/-! The frame -/

theorem push_word (hs : Starts L s) {x : BitVec 32}
    (hx : Within L.stdin 4 x ∨ Within L.stdout 4 x) :
    (Arm.exec (.push saved) s.toState).mem x = s.mem x :=
  push_mem saved (by decide) s.toState (hs.apart x hx)

theorem Starts.enter (hs : Starts L s) :
    ∃ u, (isa L).Runs (main L) (.inside 0 s) (.inside 3 u) ∧ AtLoop L s 0 u := by
  have hrun := runs_ops L 0 s
    [.base (.push saved),.base (.ldrAddress .r4 L.stdin),.base (.ldrAddress .r5 L.stdout)] ⟨_,rfl⟩
  refine ⟨_,hrun,⟨?_,?_,?_,?_,?_,?_⟩,?_,?_⟩
  · simp [isa,exec,Arm.exec]
  · simp [isa,exec,Arm.exec]
  · simp [isa,exec,Arm.exec,saved]
  · intro r hr
    fin_cases hr <;> simp [isa,exec,Arm.exec]
  · intro x hx
    rfl
  · intro x hx
    exact push_word hs hx
  · rfl
  · simp [isa,exec]

/-- The calls have left what has been pushed. -/
theorem Inside.pop (h : Inside L s₀ s) (r : Reg) :
    loadAll s.mem saved (s.reg .sp) s.reg r = if r ∈ saved then s₀.reg r else s.reg r := by
  have hcongr : loadAll s.mem saved (s₀.reg .sp - 20) s.reg =
      loadAll (Arm.exec (.push saved) s₀.toState).mem saved (s₀.reg .sp - 20) s.reg :=
    loadAll_congr (fun x hx => h.frame x hx) (by decide) s.reg
  rw [h.sp,hcongr]
  exact loadAll_storeAll _ _ (by decide) _ r

theorem Inside.leave (h : Inside L s₀ s) : ((isa L).leave s).1 = s₀.reg .lr ∧
    ((isa L).leave s).2.reg .sp = s₀.reg .sp ∧
    ((isa L).leave s).2.reg .r0 = s.reg .r0 ∧
    (∀ r ∈ [Reg.r4,.r5,.r6,.r7,.r8,.r9,.r10,.r11], ((isa L).leave s).2.reg r = s₀.reg r) ∧
    ((isa L).leave s).2.input = s.input ∧ ((isa L).leave s).2.output = s.output := by
  have hsum : s.reg .sp + BitVec.ofNat 32 4 + BitVec.ofNat 32 4 + BitVec.ofNat 32 4 +
      BitVec.ofNat 32 4 = s.reg .sp + BitVec.ofNat 32 16 := by
    simp [BitVec.add_assoc]
  have hlr : word s.mem (s.reg .sp + BitVec.ofNat 32 16) = s₀.reg .lr := by
    rw [← hsum]
    exact h.pop .lr
  have hsaved : ∀ r ≠ .lr, r ≠ .sp → ((isa L).leave s).2.reg r =
      loadAll s.mem saved (s.reg .sp) s.reg r := by
    intro r hr hsp
    simp [isa,Arm.exec,hsp,loadAll,saved,hr]
  refine ⟨?_,?_,?_,?_,rfl,rfl⟩
  · rw [← hlr]
    simp [isa,Arm.exec]
  · simp [isa,Arm.exec,h.sp,BitVec.add_assoc]
  · rw [hsaved .r0 (by decide) (by decide),h.pop,if_neg (by decide)]
  · intro r hr
    have hlr : r ≠ .lr := by rintro rfl; simp at hr
    have hsp : r ≠ .sp := by rintro rfl; simp at hr
    rw [hsaved r hlr hsp,h.pop]
    split
    · rfl
    · rename_i hnot
      apply h.kept
      fin_cases hr <;> simp [saved] at hnot ⊢

/-- All of the input is read, its digits are written in their order, and the registers are as the
convention asks for. The result of `main` is the last one of `fgetc`. -/
theorem filters (L : Libc) (s : State) (hs : Starts L s) :
    ∃ t, (isa L).Returns (main L) s (s.reg .lr) t ∧ t.input = [] ∧
      t.output = s.output ++ s.input.filter isDigit ∧ t.reg .r0 = EOF ∧
      ∀ r ∈ [Reg.r4,.r5,.r6,.r7,.r8,.r9,.r10,.r11,.sp], t.reg r = s.reg r := by
  rcases hs.enter with ⟨u,henter,hu⟩
  rcases Isa.Runs.loop (fun k hk t ht => ht.round hs hk) hu with ⟨v,hloop,hv⟩
  rcases fetch_nil hs hv.toInside (by rw [hv.input,List.drop_length]) with
    ⟨w,hfetch,hw,hr0,hinput,houtput⟩
  have hret : (isa L).Runs (main L) (.inside 17 w)
      (.outside ((isa L).leave w).1 ((isa L).leave w).2) := Isa.Runs.ret rfl
  rcases hw.leave with ⟨haddress,hsp,hresult,hkept,hin,hout⟩
  refine ⟨((isa L).leave w).2,?_,hin.trans hinput,?_,hresult.trans hr0,?_⟩
  · rw [← haddress]
    exact ((henter.trans hloop).trans hfetch).trans hret
  · rw [hout,houtput,hv.output,List.take_length]
  · intro r hr
    by_cases hstack : r = .sp
    · rw [hstack,hsp]
    · exact hkept r (by simp at hr ⊢; tauto)

/-- Calls that change nothing besides `r0`; `fputc` returns the byte that it has written. -/
def quiet : Libc where
  reg := State.reg
  flags := State.flags
  mem := State.mem
  result s := ((s.reg .r0).setWidth 8).setWidth 32
  stdin := 4096
  stdout := 4100
  inFile := 1
  outFile := 2
  frame _ _ _ := rfl
  vars _ _ _ := rfl

/-- The input is `a7:0`. -/
def sample : State where
  reg _ := 8192
  mem := setWord (setWord (fun _ => 0) 4096 1) 4100 2
  flags := ⟨false,false,false,false⟩
  input := [97,55,58,48]
  output := []

theorem filters_sample :
    ∃ t, (isa quiet).Returns (main quiet) sample 8192 t ∧ t.output = [55,48] := by
  have hs : Starts quiet sample := by
    refine ⟨by decide +kernel,by decide +kernel,?_⟩
    rintro x (hx | hx)
    · exact apart_of_le (by decide) (by decide) x hx
    · exact apart_of_le (by decide) (by decide) x hx
  rcases filters quiet sample hs with ⟨t,hreturns,-,houtput,-⟩
  exact ⟨t,hreturns,houtput⟩

end DigitFilter
end SomeCode
