import SomeCode.X64Stack

/-! `syscall` of `sys_asm.s`: a call under the C convention becomes a call of the kernel. -/
namespace SomeCode
namespace SyscallWrapper

open ByteMemory MachineCode X64

/-- What the kernel does in a state: the result, what it leaves in the two registers that the
instruction itself uses, and the memory. What the routine has on the stack is left alone. -/
structure Kernel where
  result : X64.State → BitVec 64
  rcx : X64.State → BitVec 64
  r11 : X64.State → BitVec 64
  mem : X64.State → Memory 64
  stack : ∀ s x, Within (s.reg .rsp) 72 x → mem s x = s.mem x

/-- `calls` are the states in which the kernel has been called. -/
structure State extends X64.State where
  calls : List X64.State

inductive Op
  | base (o : X64.Op)
  | syscall

variable (kernel : Kernel)

def Kernel.call (s : X64.State) : X64.State :=
  { ((s.set .rax (kernel.result s)).set .rcx (kernel.rcx s)).set .r11 (kernel.r11 s) with
    mem := kernel.mem s }

def exec : Op → State → State
  | .base o, s => { s with toState := X64.exec o s.toState }
  | .syscall, s => ⟨kernel.call s.toState,s.calls ++ [s.toState]⟩

def isa : Isa Op X64.Cond State (BitVec 64) where
  exec := exec kernel
  holds c s := c.holds s.toState
  leave s := ((X64.isa.leave s.toState).1,{ s with toState := (X64.isa.leave s.toState).2 })

def entry : List Move := [
  .push .rbx (by decide),
  .push .rbp (by decide),
  .push .r12 (by decide),
  .push .r13 (by decide),
  .push .r14 (by decide),
  .push .r15 (by decide),
  .push .r11 (by decide),
  .push .rcx (by decide),
  .push .r9 (by decide),
  .push .r8 (by decide),
  .push .rcx (by decide),
  .push .rdx (by decide),
  .push .rsi (by decide),
  .push .rdi (by decide),
  .pop .rax (by decide),
  .pop .rdi (by decide),
  .pop .rsi (by decide),
  .pop .rdx (by decide),
  .pop .r10 (by decide),
  .pop .r8 (by decide)]

def exit : List Move := [
  .pop .rcx (by decide),
  .pop .r11 (by decide),
  .pop .r15 (by decide),
  .pop .r14 (by decide),
  .pop .r13 (by decide),
  .pop .r12 (by decide),
  .pop .rbp (by decide),
  .pop .rbx (by decide)]

def moveOps (moves : List Move) : List Op := moves.map fun move => .base move.op

/-- The routine, up to the return -/
def syscallBody : List Op := moveOps entry ++ .syscall :: moveOps exit

def syscall : List (Instr Op X64.Cond) := syscallBody.map .op ++ [.ret]

/-- Where the C convention has the arguments behind the number -/
def argument (s : X64.State) : ℕ → BitVec 64
  | 0 => s.reg .rsi
  | 1 => s.reg .rdx
  | 2 => s.reg .rcx
  | 3 => s.reg .r8
  | 4 => s.reg .r9
  | n+5 => qword s.mem (s.reg .rsp + 8 + BitVec.ofNat 64 (8*n))

/-- Where the kernel looks for them -/
def kernelReg : ℕ → Reg
  | 0 => .rdi
  | 1 => .rsi
  | 2 => .rdx
  | 3 => .r10
  | 4 => .r8
  | _ => .r9

/-- A call with up to six arguments -/
structure Call (number : BitVec 64) (args : List (BitVec 64)) (s : State) : Prop where
  length_le : args.length ≤ 6
  number : s.reg .rdi = number
  args : ∀ i < args.length, args[i]? = some (argument s.toState i)
  fresh : s.calls = []

def calleeSaved : List Reg := [.rbx,.rbp,.r12,.r13,.r14,.r15]

/-- The kernel is called once, with the number and the arguments; its result is returned, and the
registers are restored. -/
structure Passes (number : BitVec 64) (args : List (BitVec 64)) (s t : State) (u : X64.State) :
    Prop where
  calls : t.calls = [u]
  number : u.reg .rax = number
  args : ∀ i < args.length, args[i]? = some (u.reg (kernelReg i))
  result : t.reg .rax = kernel.result u
  rsp : t.reg .rsp = s.reg .rsp + 8
  saved : ∀ r ∈ calleeSaved, t.reg r = s.reg r

theorem execAll_moves (moves : List Move) (s : State) :
    (isa kernel).execAll (moveOps moves) s =
      { s with toState := X64.isa.execAll (moves.map Move.op) s.toState } := by
  induction moves generalizing s with
  | nil => rfl
  | cons move moves ih => exact ih (exec kernel (.base move.op) s)

variable {kernel}

def calledReg (s : X64.State) : Reg → BitVec 64
  | .rax => s.reg .rdi
  | .rdi => s.reg .rsi
  | .rsi => s.reg .rdx
  | .rdx => s.reg .rcx
  | .r10 => s.reg .r8
  | .r8 => s.reg .r9
  | r => s.reg r

def frame (s : X64.State) : List (BitVec 64) :=
  [s.reg .rcx,s.reg .r11,s.reg .r15,s.reg .r14,s.reg .r13,s.reg .r12,s.reg .rbp,s.reg .rbx,
    qword s.mem (s.reg .rsp)]

def called (s : X64.State) : X64.State := X64.isa.execAll (entry.map Move.op) s

theorem called_matches (s : X64.State) :
    Matches (s.reg .rsp + 8) (called s) ⟨calledReg s,frame s⟩ := by
  have hstart : Matches (s.reg .rsp + 8) s ⟨s.reg,[qword s.mem (s.reg .rsp)]⟩ :=
    ⟨fun _ _ => rfl,rfl,rfl,trivial⟩
  have hrun : runMoves entry ⟨s.reg,[qword s.mem (s.reg .rsp)]⟩ = some ⟨calledReg s,frame s⟩ := by
    refine congrArg some (congrArg (Shadow.mk · (frame s)) ?_)
    funext r
    cases r <;> rfl
  exact hstart.moves hrun (by simp [entry])

def answeredReg (kernel : Kernel) (s : X64.State) : Reg → BitVec 64
  | .rax => kernel.result (called s)
  | .rcx => kernel.rcx (called s)
  | .r11 => kernel.r11 (called s)
  | r => calledReg s r

theorem call_reg (kernel : Kernel) (u : X64.State) (r : Reg) : (kernel.call u).reg r =
    if r = .r11 then kernel.r11 u else if r = .rcx then kernel.rcx u else
      if r = .rax then kernel.result u else u.reg r := by
  simp [Kernel.call]

theorem answered_matches (kernel : Kernel) (s : X64.State) :
    Matches (s.reg .rsp + 8) (kernel.call (called s)) ⟨answeredReg kernel s,frame s⟩ := by
  have h := called_matches s
  have hrsp : (kernel.call (called s)).reg .rsp = (called s).reg .rsp := by
    rw [call_reg,if_neg (by decide),if_neg (by decide),if_neg (by decide)]
  have hlen : 8*(frame s).length ≤ 2^64 := by simp [frame]
  refine ⟨fun r hr => ?_,?_,?_⟩
  · rw [call_reg,h.reg r hr]
    cases r <;> rfl
  · rw [hrsp]
    exact h.rsp
  · rw [hrsp]
    exact h.stack.congr hlen fun x hx => (kernel.stack (called s) x hx).symm

def returned (kernel : Kernel) (s : X64.State) : X64.State :=
  X64.isa.execAll (exit.map Move.op) (kernel.call (called s))

/-- The registers in the end: those that the kernel uses are restored as well. -/
def returnedReg (kernel : Kernel) (s : X64.State) : Reg → BitVec 64
  | .rcx => s.reg .rcx
  | .r11 => s.reg .r11
  | r => answeredReg kernel s r

theorem returned_matches (kernel : Kernel) (s : X64.State) :
    Matches (s.reg .rsp + 8) (returned kernel s)
      ⟨returnedReg kernel s,[qword s.mem (s.reg .rsp)]⟩ := by
  have hrun : runMoves exit ⟨answeredReg kernel s,frame s⟩ =
      some ⟨returnedReg kernel s,[qword s.mem (s.reg .rsp)]⟩ := by
    refine congrArg some (congrArg (Shadow.mk · _) ?_)
    funext r
    cases r <;> rfl
  exact (answered_matches kernel s).moves hrun (by simp [exit,frame])

theorem syscall_returns (kernel : Kernel) (s : State) :
    (isa kernel).Returns syscall s (qword s.mem (s.reg .rsp))
      ⟨(returned kernel s.toState).set .rsp (s.reg .rsp + 8),s.calls ++ [called s.toState]⟩ := by
  have hrun := Isa.Returns.straight (M := isa kernel) syscallBody s
  have hbody : (isa kernel).execAll syscallBody s =
      ⟨returned kernel s.toState,s.calls ++ [called s.toState]⟩ := by
    rw [syscallBody,Isa.execAll_append,execAll_moves,Isa.execAll_cons,execAll_moves]
    rfl
  have h := returned_matches kernel s.toState
  have hrsp : (returned kernel s.toState).reg .rsp + 8 = s.reg .rsp + 8 := h.rsp
  have haddress : qword (returned kernel s.toState).mem ((returned kernel s.toState).reg .rsp) =
      qword s.mem (s.reg .rsp) := h.stack.1
  rw [hbody] at hrun
  change (isa kernel).Returns syscall s
    (qword (returned kernel s.toState).mem ((returned kernel s.toState).reg .rsp))
    ⟨(returned kernel s.toState).set .rsp ((returned kernel s.toState).reg .rsp + 8),
      s.calls ++ [called s.toState]⟩ at hrun
  rwa [haddress,hrsp] at hrun

theorem called_kernelReg (s : X64.State) {i : ℕ} (hi : i < 5) :
    (called s).reg (kernelReg i) = argument s i := by
  have h := (called_matches s).reg (kernelReg i)
  interval_cases i <;> exact h (by decide)

/-- The last argument is not passed: the register for it still holds the one before. -/
theorem called_r9 (s : X64.State) : (called s).reg .r9 = argument s 4 :=
  (called_matches s).reg .r9 (by decide)

variable {number : BitVec 64} {args : List (BitVec 64)} {s : State}

/-- The result and the registers of the caller, whatever the kernel leaves in its own -/
theorem returned_reg (kernel : Kernel) (s : X64.State) :
    (returned kernel s).reg .rax = kernel.result (called s) ∧
      ∀ r ∈ calleeSaved, (returned kernel s).reg r = s.reg r := by
  have h := returned_matches kernel s
  refine ⟨h.reg .rax (by decide),fun r hr => ?_⟩
  simp only [calleeSaved,List.mem_cons,List.not_mem_nil,or_false] at hr
  rcases hr with rfl | rfl | rfl | rfl | rfl | rfl <;> exact h.reg _ (by decide)

theorem passes_of_args (kernel : Kernel) (h : Call number args s)
    (hargs : ∀ i < args.length, args[i]? = some ((called s.toState).reg (kernelReg i))) :
    Passes kernel number args s
      ⟨(returned kernel s.toState).set .rsp (s.reg .rsp + 8),s.calls ++ [called s.toState]⟩
      (called s.toState) := by
  obtain ⟨hresult,hsaved⟩ := returned_reg kernel s.toState
  have hset : ∀ r, r ≠ .rsp → ((returned kernel s.toState).set .rsp (s.reg .rsp + 8)).reg r =
      (returned kernel s.toState).reg r := fun r hr => by rw [State.set_reg,if_neg hr]
  constructor
  · simp [h.fresh]
  · exact ((called_matches s.toState).reg .rax (by decide)).trans h.number
  · exact hargs
  · exact (hset .rax (by decide)).trans hresult
  · exact (State.set_reg ..).trans (if_pos rfl)
  · intro r hr
    exact (hset r (by rintro rfl; exact absurd hr (by decide))).trans (hsaved r hr)

/-- Six arguments are passed as they should be if the last two are the same. -/
theorem syscall_passes_iff (kernel : Kernel) (h : Call number args s) :
    (∃ t u, (isa kernel).Returns syscall s (qword s.mem (s.reg .rsp)) t ∧
      Passes kernel number args s t u) ↔ (args.length = 6 → args[5]? = args[4]?) := by
  have hreturns := syscall_returns kernel s
  constructor
  · rintro ⟨t,u,ht,hpasses⟩ hsix
    have hcalls := hpasses.calls
    rw [(ht.unique hreturns).2,h.fresh] at hcalls
    obtain rfl := List.singleton_inj.mp hcalls
    have hlast : args[5]? = some ((called s.toState).reg .r9) := hpasses.args 5 (by omega)
    rw [hlast,called_r9,h.args 4 (by omega)]
  · intro hsame
    refine ⟨_,_,hreturns,passes_of_args kernel h fun i hi => ?_⟩
    have hle := h.length_le
    by_cases hi5 : i < 5
    · rw [called_kernelReg _ hi5,h.args i hi]
    · obtain rfl : i = 5 := by omega
      have hr9 : (called s.toState).reg (kernelReg 5) = argument s.toState 4 := called_r9 _
      rw [hsame (by omega),h.args 4 (by omega),hr9]

/-! A call of `write` with some more arguments -/

/-- What `write` to the standard output returns, for bytes on the page at `0x9000` or at an address
with nothing behind it -/
def writeResult (u : X64.State) : BitVec 64 :=
  if u.reg .rsi = 0x9000 ∧ (u.reg .rdx).toNat ≤ 4096 then u.reg .rdx else -14

/-- `ENOSYS` is returned for all other calls. -/
def writeKernel : Kernel where
  result u := if u.reg .rax = 1 ∧ u.reg .rdi = 1 then writeResult u else -38
  rcx _ := 0x401030
  r11 _ := 0x246
  mem u := u.mem
  stack _ _ _ := rfl

def sampleState : State where
  reg r := match r with
    | .rdi => 1 | .rsi => 1 | .rdx => 0x9000 | .rcx => 3 | .r8 => 4 | .r9 => 5 | .rsp => 0x8000
    | _ => 0
  mem a := if a = 0x8008 then 6 else 0
  flags := ⟨false,false,false⟩
  calls := []

theorem sampleCall {n : ℕ} (hn : n ≤ 6) : Call 1 ([1,0x9000,3,4,5,6].take n) sampleState where
  length_le := by simp
  number := rfl
  args i hi := by
    rw [List.length_take] at hi
    rw [List.getElem?_take_of_lt (by omega)]
    have hall : ∀ i < 6, ([1,0x9000,3,4,5,6] : List (BitVec 64))[i]? =
        some (argument sampleState.toState i) := by decide
    exact hall i (by omega)
  fresh := rfl

theorem syscall_passes_iff_three : ∃ t u, (isa writeKernel).Returns syscall sampleState 0 t ∧
    Passes writeKernel 1 [1,0x9000,3] sampleState t u ∧ t.reg .rax = 3 := by
  have hcall : Call 1 [1,0x9000,3] sampleState := sampleCall (show 3 ≤ 6 by decide)
  obtain ⟨t,u,ht,hpasses⟩ := (syscall_passes_iff writeKernel hcall).2 nofun
  have hrdi : 1 = u.reg .rdi := Option.some.inj (hpasses.args 0 (by decide))
  have hrsi : 0x9000 = u.reg .rsi := Option.some.inj (hpasses.args 1 (by decide))
  have hrdx : 3 = u.reg .rdx := Option.some.inj (hpasses.args 2 (by decide))
  refine ⟨t,u,ht,hpasses,?_⟩
  rw [hpasses.result]
  simp [writeKernel,writeResult,hpasses.number,← hrdi,← hrsi,← hrdx]

/-- The sixth argument is lost. -/
theorem not_passes_six : ¬ ∃ t u, (isa writeKernel).Returns syscall sampleState 0 t ∧
    Passes writeKernel 1 [1,0x9000,3,4,5,6] sampleState t u := by
  rintro ⟨t,u,ht,hpasses⟩
  have hcalls := hpasses.calls
  rw [(ht.unique (syscall_returns writeKernel sampleState)).2] at hcalls
  obtain rfl := List.singleton_inj.mp hcalls
  have hlast : some 6 = some ((called sampleState.toState).reg .r9) := hpasses.args 5 (by decide)
  rw [called_r9] at hlast
  exact absurd hlast (by decide)

end SyscallWrapper
end SomeCode
