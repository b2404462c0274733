import SomeCode.ByteMemory
import SomeCode.MachineCode

/-! A part of x86-64: quadwords in registers and memory, additions and comparisons, pushes and pops. -/
namespace SomeCode
namespace X64

open ByteMemory MachineCode

inductive Reg
  | rax | rbx | rcx | rdx | rsi | rdi | rbp | rsp | r8 | r9 | r10 | r11 | r12 | r13 | r14 | r15
  deriving DecidableEq

structure Flags where
  zf : Bool
  sf : Bool
  of : Bool

structure State where
  reg : Reg → BitVec 64
  mem : Memory 64
  flags : Flags

def dword (m : Memory 64) (a : BitVec 64) : BitVec 32 := load m 4 a

def qword (m : Memory 64) (a : BitVec 64) : BitVec 64 := load m 8 a

def setDword (m : Memory 64) (a : BitVec 64) (v : BitVec 32) : Memory 64 := store m 4 a v

def setQword (m : Memory 64) (a v : BitVec 64) : Memory 64 := store m 8 a v

/-- `QWORD PTR S[rip]` for a symbol at `a`, and `QWORD PTR [base+index*4]` -/
inductive Place
  | symbol (a : BitVec 64)
  | scaled (base index : Reg)

inductive Operand
  | imm (v : BitVec 64)
  | reg (r : Reg)
  | mem (p : Place)

/-- `movMem` is `mov` to the memory. -/
inductive Op
  | mov (rd : Reg) (o : Operand)
  | movMem (p : Place) (r : Reg)
  | add (rd : Reg) (o : Operand)
  | inc (rd : Reg)
  | cmp (a b : Operand)
  | push (r : Reg)
  | pop (r : Reg)

inductive Cond
  | always | le

def Place.address (s : State) : Place → BitVec 64
  | .symbol a => a
  | .scaled base index => s.reg base + s.reg index * 4

def Operand.value (s : State) : Operand → BitVec 64
  | .imm v => v
  | .reg r => s.reg r
  | .mem p => qword s.mem (p.address s)

def cmpFlags (a b : BitVec 64) : Flags where
  zf := a-b == 0
  sf := (a-b).msb
  of := a.msb != b.msb && (a-b).msb != a.msb

def addFlags (a b : BitVec 64) : Flags where
  zf := a+b == 0
  sf := (a+b).msb
  of := a.msb == b.msb && (a+b).msb != a.msb

def State.set (s : State) (r : Reg) (v : BitVec 64) : State :=
  { s with reg := Function.update s.reg r v }

@[simp] theorem State.set_reg (s : State) (r q : Reg) (v : BitVec 64) :
    (s.set r v).reg q = if q = r then v else s.reg q :=
  Function.update_apply ..

@[simp] theorem State.set_mem (s : State) (r : Reg) (v : BitVec 64) : (s.set r v).mem = s.mem := rfl

def exec : Op → State → State
  | .mov rd o, s => s.set rd (o.value s)
  | .movMem p r, s => { s with mem := setQword s.mem (p.address s) (s.reg r) }
  | .add rd o, s => { s.set rd (s.reg rd + o.value s) with flags := addFlags (s.reg rd) (o.value s) }
  | .inc rd, s => { s.set rd (s.reg rd + 1) with flags := addFlags (s.reg rd) 1 }
  | .cmp a b, s => { s with flags := cmpFlags (a.value s) (b.value s) }
  | .push r, s =>
    { s.set .rsp (s.reg .rsp - 8) with mem := setQword s.mem (s.reg .rsp - 8) (s.reg r) }
  | .pop r, s => (s.set .rsp (s.reg .rsp + 8)).set r (qword s.mem (s.reg .rsp))

def Cond.holds : Cond → State → Bool
  | .always, _ => true
  | .le, s => s.flags.zf || s.flags.sf != s.flags.of

/-- `ret` takes the address from the stack. -/
def isa : Isa Op Cond State (BitVec 64) where
  exec := exec
  holds := Cond.holds
  leave s := (qword s.mem (s.reg .rsp),s.set .rsp (s.reg .rsp + 8))

@[simp] theorem isa_exec : isa.exec = exec := rfl

@[simp] theorem isa_holds : isa.holds = Cond.holds := rfl

@[simp] theorem isa_leave (s : State) :
    isa.leave s = (qword s.mem (s.reg .rsp),s.set .rsp (s.reg .rsp + 8)) := rfl

abbrev Code := List (Instr Op Cond)

theorem runs_ops (code : Code) (i : ℕ) (ops : List Op) (s : State)
    (h : ops.map Instr.op <+: code.drop i) :
    isa.Runs code (.inside i s) (.inside (i+ops.length) (isa.execAll ops s)) :=
  Isa.Runs.ops ops h

theorem cmpFlags_zf (a b : BitVec 64) : (cmpFlags a b).zf = decide (a = b) :=
  sub_beq_zero a b

theorem cmpFlags_le (a b : BitVec 64) :
    ((cmpFlags a b).zf || (cmpFlags a b).sf != (cmpFlags a b).of) = decide (a.toInt ≤ b.toInt) := by
  have hzero : (a-b == 0) = decide ((a-b).toNat = 0) := by
    rw [Bool.eq_iff_iff,beq_iff_eq,decide_eq_true_iff,← BitVec.toNat_inj]
    rfl
  have hsub := BitVec.toNat_sub a b
  have hlta := a.isLt
  have hltb := b.isLt
  rw [Bool.eq_iff_iff,decide_eq_true_iff,BitVec.toInt_eq_msb_cond a,BitVec.toInt_eq_msb_cond b]
  simp only [cmpFlags,hzero,BitVec.msb_eq_decide,Nat.reduceSub,decide_eq_true_eq]
  generalize (a-b).toNat = d at *
  -- by the signs of the two values and of their difference
  by_cases hma : 2^63 ≤ a.toNat <;> by_cases hmb : 2^63 ≤ b.toNat <;> by_cases hmd : 2^63 ≤ d <;>
    simp only [hma,hmb,hmd,decide_true,decide_false,if_true,if_false,bne_self_eq_false,
      Bool.or_eq_true,decide_eq_true_eq] <;> simp <;> omega

/-! Quadwords and their halves -/

theorem qword_eq (m : Memory 64) (a : BitVec 64) :
    qword m a = dword m (a+4) ++ dword m a := by
  refine BitVec.eq_of_getLsbD_eq fun i hi => ?_
  rw [BitVec.getLsbD_append]
  by_cases hlow : i < 32
  · rw [if_pos hlow,qword,dword,getLsbD_load (by omega),getLsbD_load (by omega)]
  · have hdiv : a + 4 + BitVec.ofNat 64 ((i-32)/8) = a + BitVec.ofNat 64 (i/8) := by
      have hsum : i/8 = 4 + (i-32)/8 := by omega
      rw [hsum,BitVec.ofNat_add,← BitVec.add_assoc]
      rfl
    have hmod : (i-32)%8 = i%8 := by omega
    rw [if_neg hlow,qword,dword,getLsbD_load (by omega),getLsbD_load (by omega),hdiv,hmod]

theorem setQword_append (m : Memory 64) (a : BitVec 64) (h l : BitVec 32) :
    setQword m a (h ++ l) = setDword (setDword m a l) (a+4) h := by
  funext x
  by_cases hwithin : Within a 8 x
  · obtain ⟨k,hk,rfl⟩ := hwithin.exists_eq
    have hstore : setQword m a (h ++ l) (a + BitVec.ofNat 64 k) =
        BitVec.extractLsb' (8*k) 8 (h ++ l) := store_add (by decide) hk _
    rw [hstore]
    by_cases hlow : k < 4
    · have hfirst : Within a 4 (a + BitVec.ofNat 64 k) := within_add (by decide) hlow
      have hkeep : setDword (setDword m a l) (a+4) h (a + BitVec.ofNat 64 k) =
          setDword m a l (a + BitVec.ofNat 64 k) :=
        store_of_not_within (not_within_add hfirst (by decide))
      rw [hkeep,setDword,store_add (by decide) hlow]
      refine BitVec.eq_of_getLsbD_eq fun i hi => ?_
      rw [BitVec.getLsbD_extractLsb',BitVec.getLsbD_extractLsb',BitVec.getLsbD_append,
        if_pos (by omega)]
    · obtain ⟨j,rfl⟩ := Nat.exists_eq_add_of_le (Nat.le_of_not_lt hlow)
      have hplace : a + BitVec.ofNat 64 (4+j) = a + 4 + BitVec.ofNat 64 j := by
        rw [BitVec.ofNat_add,← BitVec.add_assoc]
        rfl
      rw [hplace,setDword,store_add (by decide) (by omega)]
      refine BitVec.eq_of_getLsbD_eq fun i hi => ?_
      rw [BitVec.getLsbD_extractLsb',BitVec.getLsbD_extractLsb',BitVec.getLsbD_append,
        if_neg (by omega)]
      congr 2
      omega
  · have hfirst : ¬ Within a 4 x := fun hx => hwithin (hx.mono (by decide))
    have hsecond : ¬ Within (a+4) 4 x := fun hx => hwithin (Within.of_add (k := 4) hx (by decide))
    rw [setQword,store_of_not_within hwithin,setDword,store_of_not_within hsecond,setDword,
      store_of_not_within hfirst]

def carry (a b : BitVec 32) : BitVec 32 := if 2^32 ≤ a.toNat + b.toNat then 1 else 0

theorem append_add (h l h' l' : BitVec 32) :
    (h ++ l) + (h' ++ l') = (h + h' + carry l l') ++ (l + l') := by
  have happend : ∀ x y : BitVec 32, (x ++ y).toNat = x.toNat*2^32 + y.toNat := fun x y => by
    rw [BitVec.toNat_append,← Nat.shiftLeft_add_eq_or_of_lt y.isLt,Nat.shiftLeft_eq]
  have hcarry : (carry l l').toNat = if 2^32 ≤ l.toNat + l'.toNat then 1 else 0 := by
    rw [carry]
    split <;> rfl
  apply BitVec.eq_of_toNat_eq
  rw [BitVec.toNat_add,happend,happend,happend,BitVec.toNat_add,BitVec.toNat_add,BitVec.toNat_add,
    hcarry]
  have hl := l.isLt
  have hl' := l'.isLt
  split <;> omega

end X64
end SomeCode
