import SomeCode.ByteMemory
import SomeCode.MachineCode

/-! A part of 32-bit ARM: moves, arithmetic and comparisons, words in memory, pushes and pops. -/
namespace SomeCode
namespace Arm

open ByteMemory MachineCode

inductive Reg
  | r0 | r1 | r2 | r3 | r4 | r5 | r6 | r7 | r8 | r9 | r10 | r11 | r12 | sp | lr
  deriving DecidableEq

abbrev RegFile := Reg → BitVec 32

structure Flags where
  n : Bool
  z : Bool
  c : Bool
  v : Bool

structure State where
  reg : RegFile
  mem : Memory 32
  flags : Flags

/-- A second operand: `#v`, a register, or one shifted with `lsl #k` -/
inductive Operand
  | imm (v : BitVec 32)
  | reg (r : Reg)
  | lsl (r : Reg) (k : ℕ)

/-- `ldrAddress rd a` is `ldr rd, =S` for a symbol at `a`, `ldr rd rn o` is `ldr rd, [rn, o]` and
`str rd rn` is `str rd, [rn]`. -/
inductive Op
  | mov (rd : Reg) (o : Operand)
  | add (rd rn : Reg) (o : Operand)
  | mul (rd rn rm : Reg)
  | mla (rd rn rm ra : Reg)
  | cmp (rn : Reg) (o : Operand)
  | ldrAddress (rd : Reg) (address : BitVec 32)
  | ldr (rd rn : Reg) (o : Operand)
  | str (rd rn : Reg)
  | push (rs : List Reg)
  | pop (rs : List Reg)

inductive Cond
  | al | eq | ne | ge

def word (m : Memory 32) (a : BitVec 32) : BitVec 32 := load m 4 a

def setWord (m : Memory 32) (a v : BitVec 32) : Memory 32 := store m 4 a v

def Operand.value (s : State) : Operand → BitVec 32
  | .imm v => v
  | .reg r => s.reg r
  | .lsl r k => s.reg r <<< k

def cmpFlags (a b : BitVec 32) : Flags where
  n := (a-b).msb
  z := a-b == 0
  c := b.ule a
  v := a.msb != b.msb && (a-b).msb != a.msb

/-- The lowest register of the list goes to the lowest address. -/
def storeAll (reg : RegFile) : List Reg → BitVec 32 → Memory 32 → Memory 32
  | [], _, m => m
  | r :: rs, a, m => storeAll reg rs (a + BitVec.ofNat 32 4) (setWord m a (reg r))

def loadAll (m : Memory 32) : List Reg → BitVec 32 → RegFile → RegFile
  | [], _, reg => reg
  | r :: rs, a, reg => loadAll m rs (a + BitVec.ofNat 32 4) (Function.update reg r (word m a))

def State.set (s : State) (r : Reg) (v : BitVec 32) : State :=
  { s with reg := Function.update s.reg r v }

@[simp] theorem State.set_reg (s : State) (r q : Reg) (v : BitVec 32) :
    (s.set r v).reg q = if q = r then v else s.reg q :=
  Function.update_apply ..

@[simp] theorem State.set_mem (s : State) (r : Reg) (v : BitVec 32) : (s.set r v).mem = s.mem := rfl

@[simp] theorem State.set_flags (s : State) (r : Reg) (v : BitVec 32) :
    (s.set r v).flags = s.flags := rfl

def exec : Op → State → State
  | .mov rd o, s => s.set rd (o.value s)
  | .add rd rn o, s => s.set rd (s.reg rn + o.value s)
  | .mul rd rn rm, s => s.set rd (s.reg rn * s.reg rm)
  | .mla rd rn rm ra, s => s.set rd (s.reg rn * s.reg rm + s.reg ra)
  | .cmp rn o, s => { s with flags := cmpFlags (s.reg rn) (o.value s) }
  | .ldrAddress rd address, s => s.set rd address
  | .ldr rd rn o, s => s.set rd (word s.mem (s.reg rn + o.value s))
  | .str rd rn, s => { s with mem := setWord s.mem (s.reg rn) (s.reg rd) }
  | .push rs, s =>
    let a := s.reg .sp - BitVec.ofNat 32 (4*rs.length)
    { s with reg := Function.update s.reg .sp a, mem := storeAll s.reg rs a s.mem }
  | .pop rs, s =>
    let a := s.reg .sp
    { s with reg := Function.update (loadAll s.mem rs a s.reg) .sp (a + BitVec.ofNat 32 (4*rs.length)) }

def Cond.holds : Cond → State → Bool
  | .al, _ => true
  | .eq, s => s.flags.z
  | .ne, s => !s.flags.z
  | .ge, s => s.flags.n == s.flags.v

theorem Cond.holds_ne (s : State) : Cond.ne.holds s = !Cond.eq.holds s := rfl

/-- `bx lr` is the return. -/
def isa : Isa Op Cond State (BitVec 32) where
  exec := exec
  holds := Cond.holds
  leave s := (s.reg .lr,s)

@[simp] theorem isa_exec : isa.exec = exec := rfl

@[simp] theorem isa_holds : isa.holds = Cond.holds := rfl

@[simp] theorem isa_leave (s : State) : isa.leave s = (s.reg .lr,s) := rfl

abbrev Code := List (Instr Op Cond)

theorem runs_ops (code : Code) (i : ℕ) (ops : List Op) (s : State)
    (h : ops.map Instr.op <+: code.drop i) :
    isa.Runs code (.inside i s) (.inside (i+ops.length) (isa.execAll ops s)) :=
  Isa.Runs.ops ops h

/-! Comparisons -/

theorem cmpFlags_z (a b : BitVec 32) : (cmpFlags a b).z = decide (a = b) :=
  sub_beq_zero a b

theorem cmpFlags_ge (a b : BitVec 32) :
    ((cmpFlags a b).n == (cmpFlags a b).v) = decide (b.toInt ≤ a.toInt) := by
  have hsub := BitVec.toNat_sub a b
  have hlta := a.isLt
  have hltb := b.isLt
  rw [Bool.eq_iff_iff,decide_eq_true_iff,BitVec.toInt_eq_msb_cond a,BitVec.toInt_eq_msb_cond b]
  simp only [cmpFlags,BitVec.msb_eq_decide,Nat.reduceSub,decide_eq_true_eq]
  generalize (a-b).toNat = d at *
  -- by the signs of the two values and of their difference
  by_cases hma : 2^31 ≤ a.toNat <;> by_cases hmb : 2^31 ≤ b.toNat <;> by_cases hmd : 2^31 ≤ d <;>
    simp only [hma,hmb,hmd,decide_true,decide_false,if_true,if_false,bne_self_eq_false] <;>
    simp <;> omega

/-! The stack -/

theorem storeAll_of_not_within {reg : RegFile} {rs : List Reg} {a x : BitVec 32} {m : Memory 32}
    (hlen : 4*rs.length ≤ 2^32) (h : ¬ Within a (4*rs.length) x) : storeAll reg rs a m x = m x := by
  induction rs generalizing a m with
  | nil => rfl
  | cons r rs ih =>
    rw [List.length_cons,Nat.mul_succ] at hlen h
    have hfirst : ¬ Within a 4 x := fun hx => h (hx.mono (by omega))
    have hrest : ¬ Within (a + BitVec.ofNat 32 4) (4*rs.length) x := fun hx =>
      h (Nat.add_comm 4 _ ▸ hx.of_add (by omega))
    rw [storeAll,ih (by omega) hrest,setWord,store_of_not_within hfirst]

theorem loadAll_congr {m m' : Memory 32} {rs : List Reg} {a : BitVec 32}
    (h : ∀ x, Within a (4*rs.length) x → m x = m' x) (hlen : 4*rs.length ≤ 2^32) (reg : RegFile) :
    loadAll m rs a reg = loadAll m' rs a reg := by
  induction rs generalizing a reg with
  | nil => rfl
  | cons r rs ih =>
    rw [List.length_cons,Nat.mul_succ] at hlen h
    have hword : word m a = word m' a :=
      load_congr (fun x hx => h x (hx.mono (by omega))) (by decide)
    rw [loadAll,loadAll,hword]
    exact ih (fun x hx => h x (Nat.add_comm 4 _ ▸ hx.of_add (by omega))) (by omega) _

/-- What is pushed is what is popped. -/
theorem loadAll_storeAll {reg : RegFile} {rs : List Reg} (a : BitVec 32) (m : Memory 32)
    (hlen : 4*rs.length ≤ 2^32) (reg' : RegFile) (r : Reg) :
    loadAll (storeAll reg rs a m) rs a reg' r = if r ∈ rs then reg r else reg' r := by
  induction rs generalizing a m reg' with
  | nil => simp [loadAll]
  | cons q rs ih =>
    rw [List.length_cons,Nat.mul_succ] at hlen
    have hword : word (storeAll reg rs (a + BitVec.ofNat 32 4) (setWord m a (reg q))) a = reg q := by
      have hkeep : load (storeAll reg rs (a + BitVec.ofNat 32 4) (setWord m a (reg q))) 4 a =
          load (setWord m a (reg q)) 4 a :=
        load_congr (fun x hx => storeAll_of_not_within (by omega)
          (not_within_add hx (by omega))) (by decide)
      exact hkeep.trans (load_store_self (by decide) _)
    rw [storeAll,loadAll,ih _ _ (by omega),hword]
    by_cases hq : r = q
    · subst hq
      simp
    · simp [hq]

theorem push_reg (rs : List Reg) (s : State) (r : Reg) : (exec (.push rs) s).reg r =
    if r = .sp then s.reg .sp - BitVec.ofNat 32 (4*rs.length) else s.reg r :=
  Function.update_apply ..

theorem push_mem (rs : List Reg) (hlen : 4*rs.length ≤ 2^32) (s : State) {x : BitVec 32}
    (h : ¬ Within (s.reg .sp - BitVec.ofNat 32 (4*rs.length)) (4*rs.length) x) :
    (exec (.push rs) s).mem x = s.mem x :=
  storeAll_of_not_within hlen h

theorem pop_reg {rs : List Reg} (hlen : 4*rs.length ≤ 2^32) {s t : State}
    (hsp : t.reg .sp = (exec (.push rs) s).reg .sp) (hmem : t.mem = (exec (.push rs) s).mem)
    (r : Reg) : (exec (.pop rs) t).reg r =
      if r = .sp then s.reg .sp else if r ∈ rs then s.reg r else t.reg r := by
  have hpop : (exec (.pop rs) t).reg r =
      if r = .sp then t.reg .sp + BitVec.ofNat 32 (4*rs.length)
      else loadAll t.mem rs (t.reg .sp) t.reg r := Function.update_apply ..
  rw [hpop,hsp,push_reg,if_pos rfl,BitVec.sub_add_cancel]
  refine if_congr Iff.rfl rfl ?_
  rw [hmem]
  exact loadAll_storeAll _ _ hlen _ _

end Arm
end SomeCode
