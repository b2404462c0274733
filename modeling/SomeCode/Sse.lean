import SomeCode.VectorSum

/-! Packed floats over x86-64: four of them are moved and added at once, at addresses that are
multiples of 16. Every store is recorded. -/
namespace SomeCode
namespace Sse

open ByteMemory MachineCode X64

/-- `written` are the places and lengths of the stores so far. A packed access that is not aligned
is a fault, and nothing is done after it. -/
structure State extends X64.State where
  xmm0 : Fin 4 → BitVec 32
  written : List (BitVec 64 × ℕ)
  fault : Bool

/-- `sal rd k` is `sal rd, k`; the packed operations use `XMMWORD PTR [base + index]`. -/
inductive Op
  | base (o : X64.Op)
  | sal (rd : Reg) (k : ℕ)
  | movapsLoad (base index : Reg)
  | addps (base index : Reg)
  | movapsStore (base index : Reg)

inductive Cond
  | ne

def Aligned (a : BitVec 64) : Prop := a.toNat % 16 = 0

instance (a : BitVec 64) : Decidable (Aligned a) := inferInstanceAs (Decidable (_ = _))

/-- The four floats at an address -/
def lanes (m : Memory 64) (a : BitVec 64) : Fin 4 → BitVec 32 := fun l => dword m (elem a l)

def setLanes (m : Memory 64) (a : BitVec 64) (v : Fin 4 → BitVec 32) : Memory 64 :=
  (List.finRange 4).foldl (fun m (l : Fin 4) => setDword m (elem a l) (v l)) m

/-- What an instruction stores, and where -/
def stores : X64.Op → X64.State → List (BitVec 64 × ℕ)
  | .push _, s => [(s.reg .rsp - 8,8)]
  | .movMem p _, s => [(p.address s,8)]
  | _, _ => []

/-- A packed access -/
def State.access (s : State) (base index : Reg) (next : BitVec 64 → State) : State :=
  if Aligned (s.reg base + s.reg index) then next (s.reg base + s.reg index)
  else { s with fault := true }

section Exec

-- the addition of two floats
variable (addFloat : BitVec 32 → BitVec 32 → BitVec 32)

def exec (o : Op) (s : State) : State :=
  if s.fault then s else
  match o with
  | .base o => { s with toState := X64.exec o s.toState, written := s.written ++ stores o s.toState }
  | .sal rd k =>
    let v := s.reg rd <<< k
    { s with toState := { s.toState.set rd v with flags := ⟨v == 0,v.msb,s.flags.of⟩ } }
  | .movapsLoad base index => s.access base index fun a => { s with xmm0 := lanes s.mem a }
  | .addps base index => s.access base index fun a =>
    { s with xmm0 := fun l => addFloat (s.xmm0 l) (lanes s.mem a l) }
  | .movapsStore base index => s.access base index fun a =>
    { s with mem := setLanes s.mem a s.xmm0, written := s.written ++ [(a,16)] }

def Cond.holds : Cond → State → Bool
  | .ne, s => !s.flags.zf

def isa : Isa Op Cond State (BitVec 64) where
  exec := exec addFloat
  holds := Cond.holds
  leave s := ((X64.isa.leave s.toState).1,{ s with toState := (X64.isa.leave s.toState).2 })

abbrev Code := List (Instr Op Cond)

variable {addFloat} {code : Code}

@[simp] theorem isa_exec : (isa addFloat).exec = exec addFloat := rfl

@[simp] theorem isa_holds : (isa addFloat).holds = Cond.holds := rfl

@[simp] theorem isa_leave (s : State) : (isa addFloat).leave s = (qword s.mem (s.reg .rsp),
    { s with toState := s.toState.set .rsp (s.reg .rsp + 8) }) := rfl

theorem runs_ops (i : ℕ) (ops : List Op) (s : State) (h : ops.map Instr.op <+: code.drop i) :
    (isa addFloat).Runs code (.inside i s)
      (.inside (i+ops.length) ((isa addFloat).execAll ops s)) :=
  Isa.Runs.ops ops h

theorem exec_of_fault {s : State} (h : s.fault = true) (o : Op) : exec addFloat o s = s :=
  if_pos h

theorem execAll_of_fault {s : State} (h : s.fault = true) (ops : List Op) :
    (isa addFloat).execAll ops s = s := by
  induction ops with
  | nil => rfl
  | cons o ops ih => rw [Isa.execAll_cons,isa_exec,exec_of_fault h,ih]

theorem exec_base {s : State} (h : s.fault = false) (o : X64.Op) : exec addFloat (.base o) s =
    { s with toState := X64.exec o s.toState, written := s.written ++ stores o s.toState } := by
  rw [exec,h,if_neg Bool.false_ne_true]

end Exec

/-! Four floats in the memory -/

section Lanes

variable {m : Memory 64} {a b x : BitVec 64} {v : Fin 4 → BitVec 32}

theorem elem_elem (a : BitVec 64) (i j : ℕ) : elem (elem a i) j = elem a (i+j) := by
  rw [elem,elem,elem,BitVec.add_assoc,← BitVec.ofNat_add,Nat.mul_add]

theorem setLanes_eq (m : Memory 64) (a : BitVec 64) (v : Fin 4 → BitVec 32) : setLanes m a v =
    setDword (setDword (setDword (setDword m (elem a 0) (v 0)) (elem a 1) (v 1)) (elem a 2) (v 2))
      (elem a 3) (v 3) := rfl

theorem dword_setLanes_apart (h : ∀ l < 4, Apart (elem a l) 4 b 4) :
    dword (setLanes m a v) b = dword m b := by
  rw [setLanes_eq,dword_setDword_apart (h 3 (by decide)),dword_setDword_apart (h 2 (by decide)),
    dword_setDword_apart (h 1 (by decide)),dword_setDword_apart (h 0 (by decide))]

theorem lanes_setLanes (m : Memory 64) (a : BitVec 64) (v : Fin 4 → BitVec 32) :
    lanes (setLanes m a v) a = v := by
  have hapart : ∀ {i j : ℕ}, i ≠ j → i < 4 → j < 4 → Apart (elem a i) 4 (elem a j) 4 :=
    fun hne hi hj => apart_elem_self a hne (by omega) (by omega)
  funext l
  fin_cases l
  · change dword (setLanes m a v) (elem a 0) = v 0
    rw [setLanes_eq,dword_setDword_apart (hapart (by decide) (by decide) (by decide)),
      dword_setDword_apart (hapart (by decide) (by decide) (by decide)),
      dword_setDword_apart (hapart (by decide) (by decide) (by decide)),dword_setDword_self]
  · change dword (setLanes m a v) (elem a 1) = v 1
    rw [setLanes_eq,dword_setDword_apart (hapart (by decide) (by decide) (by decide)),
      dword_setDword_apart (hapart (by decide) (by decide) (by decide)),dword_setDword_self]
  · change dword (setLanes m a v) (elem a 2) = v 2
    rw [setLanes_eq,dword_setDword_apart (hapart (by decide) (by decide) (by decide)),
      dword_setDword_self]
  · change dword (setLanes m a v) (elem a 3) = v 3
    rw [setLanes_eq,dword_setDword_self]

theorem setLanes_of_not_within (h : ¬ Within a 16 x) : setLanes m a v x = m x := by
  have hlane : ∀ l < 4, ¬ Within (elem a l) 4 x := fun l hl hx =>
    h (within_elem (n := 4) hl (by decide) hx)
  rw [setLanes_eq,setDword_of_not_within (hlane 3 (by decide)),
    setDword_of_not_within (hlane 2 (by decide)),setDword_of_not_within (hlane 1 (by decide)),
    setDword_of_not_within (hlane 0 (by decide))]

end Lanes

/-! Where nothing has been stored the memory is as it was. -/

/-- The stores account for all that differs from the memory `m`. -/
def Recorded (m : Memory 64) (s : State) : Prop :=
  ∀ x, (∀ w ∈ s.written, ¬ Within w.1 w.2 x) → s.mem x = m x

variable {addFloat : BitVec 32 → BitVec 32 → BitVec 32} {m : Memory 64}

theorem exec_mem_of_not_within {o : X64.Op} {s : X64.State} {x : BitVec 64}
    (h : ∀ w ∈ stores o s, ¬ Within w.1 w.2 x) : (X64.exec o s).mem x = s.mem x := by
  cases o with
  | push r =>
    have hplace : ¬ Within (s.reg .rsp - 8) 8 x := h (s.reg .rsp - 8,8) List.mem_cons_self
    exact store_of_not_within hplace
  | movMem p r =>
    have hplace : ¬ Within (p.address s) 8 x := h (p.address s,8) List.mem_cons_self
    exact store_of_not_within hplace
  | mov | add | inc | cmp | pop => rfl

theorem Recorded.exec {s : State} (h : Recorded m s) (o : Op) : Recorded m (exec addFloat o s) := by
  by_cases hf : s.fault = true
  · rwa [exec_of_fault hf]
  rw [Bool.not_eq_true] at hf
  have haccess : ∀ {base index : Reg} {next : BitVec 64 → State}, (∀ a, Recorded m (next a)) →
      Recorded m (s.access base index next) := by
    intro base index next hnext
    rw [State.access]
    split
    · exact hnext _
    · exact h
  cases o with
  | base o =>
    rw [exec_base hf]
    intro x hx
    simp only [List.mem_append] at hx
    change (X64.exec o s.toState).mem x = m x
    rw [exec_mem_of_not_within fun w hw => hx w (.inr hw)]
    exact h x fun w hw => hx w (.inl hw)
  | sal rd k =>
    simp only [Sse.exec,hf,Bool.false_eq_true,if_false]
    exact h
  | movapsLoad base index =>
    simp only [Sse.exec,hf,Bool.false_eq_true,if_false]
    exact haccess fun a => h
  | addps base index =>
    simp only [Sse.exec,hf,Bool.false_eq_true,if_false]
    exact haccess fun a => h
  | movapsStore base index =>
    simp only [Sse.exec,hf,Bool.false_eq_true,if_false]
    refine haccess fun a x hx => ?_
    simp only [List.mem_append] at hx
    have hlast : ¬ Within a 16 x := hx (a,16) (.inr List.mem_cons_self)
    change setLanes s.mem a s.xmm0 x = m x
    rw [setLanes_of_not_within hlast]
    exact h x fun w hw => hx w (.inl hw)

theorem recorded_of_returns {code : Code} {s t : State} {a : BitVec 64}
    (h : (isa addFloat).Returns code s a t) : Recorded s.mem t := by
  let D : Config State (BitVec 64) → Prop := fun
    | .inside _ u => Recorded s.mem u
    | .outside _ u => Recorded s.mem u
  have hstart : D (.inside 0 s) := fun x _ => rfl
  refine Isa.Runs.preserves (D := D) ?_ h hstart
  rintro (⟨i,u⟩ | ⟨b,u⟩) d hu hd
  · obtain ⟨instr,-,rfl⟩ := Option.map_eq_some_iff.mp hd
    cases instr with
    | op o => exact Recorded.exec hu o
    | branch c target => exact hu
    | ret => exact hu
  · cases hd

end Sse
end SomeCode
