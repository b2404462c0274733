import SomeCode.X64

/-! The stack of x86-64 as a list of quadwords, the last one that was pushed first. -/
namespace SomeCode
namespace X64

open ByteMemory MachineCode

/-- These quadwords lie from `a` on. -/
def StackedAt (m : Memory 64) : BitVec 64 → List (BitVec 64) → Prop
  | _, [] => True
  | a, w :: ws => qword m a = w ∧ StackedAt m (a+8) ws

inductive Move
  | push (r : Reg) (h : r ≠ .rsp)
  | pop (r : Reg) (h : r ≠ .rsp)

def Move.op : Move → Op
  | .push r _ => .push r
  | .pop r _ => .pop r

/-- The registers and the stack, without addresses -/
structure Shadow where
  reg : Reg → BitVec 64
  stack : List (BitVec 64)

def Move.run : Move → Shadow → Option Shadow
  | .push r _, a => some { a with stack := a.reg r :: a.stack }
  | .pop r _, a =>
    match a.stack with
    | [] => none
    | w :: ws => some ⟨Function.update a.reg r w,ws⟩

def runMoves : List Move → Shadow → Option Shadow
  | [], a => some a
  | move :: moves, a => (move.run a).bind (runMoves moves)

/-- `top` is where the list ends. -/
structure Matches (top : BitVec 64) (s : State) (a : Shadow) : Prop where
  reg : ∀ r, r ≠ .rsp → s.reg r = a.reg r
  rsp : s.reg .rsp + BitVec.ofNat 64 (8*a.stack.length) = top
  stack : StackedAt s.mem (s.reg .rsp) a.stack

variable {m m' : Memory 64} {a top : BitVec 64} {ws : List (BitVec 64)} {s : State} {b c : Shadow}

theorem StackedAt.congr (h : StackedAt m a ws) (hlen : 8*ws.length ≤ 2^64)
    (hm : ∀ x, Within a (8*ws.length) x → m x = m' x) : StackedAt m' a ws := by
  induction ws generalizing a with
  | nil => exact h
  | cons w ws ih =>
    rw [List.length_cons] at hlen hm
    have hfirst : load m 8 a = load m' 8 a :=
      load_congr (fun x hx => hm x (hx.mono (by omega))) (by decide)
    refine ⟨hfirst.symm.trans h.1,ih h.2 (by omega) fun x hx => hm x ?_⟩
    have hx' : Within (a + BitVec.ofNat 64 8) (8*ws.length) x := hx
    exact (hx'.of_add (by omega)).mono (by omega)

theorem Matches.push (h : Matches top s b) (hlen : 8*(b.stack.length+1) ≤ 2^64) {r : Reg}
    (hr : r ≠ .rsp) : Matches top (exec (.push r) s) { b with stack := b.reg r :: b.stack } := by
  have hrsp : (exec (.push r) s).reg .rsp = s.reg .rsp - 8 := Function.update_self Reg.rsp _ s.reg
  have hback : s.reg .rsp - 8 + 8 = s.reg .rsp := BitVec.sub_add_cancel ..
  refine ⟨fun q hq => ?_,?_,?_⟩
  · exact (Function.update_of_ne hq _ s.reg).trans (h.reg q hq)
  · rw [hrsp,← h.rsp,List.length_cons,Nat.mul_succ,Nat.add_comm,BitVec.ofNat_add,← BitVec.add_assoc]
    exact congrArg (· + BitVec.ofNat 64 (8*b.stack.length)) hback
  · rw [hrsp]
    refine ⟨(load_store_self (by decide) _).trans (h.reg r hr),?_⟩
    rw [hback]
    refine h.stack.congr (by omega) fun x hx => (store_of_not_within fun hnew => ?_).symm
    have hx' : Within (s.reg .rsp - 8 + BitVec.ofNat 64 8) (8*b.stack.length) x := by
      change Within (s.reg .rsp - 8 + 8) (8*b.stack.length) x
      rwa [hback]
    exact not_within_add hnew (by omega) hx'

theorem Matches.pop {reg : Reg → BitVec 64} {w : BitVec 64} (h : Matches top s ⟨reg,w :: ws⟩)
    {r : Reg} (hr : r ≠ .rsp) : Matches top (exec (.pop r) s) ⟨Function.update reg r w,ws⟩ := by
  obtain ⟨hw,hws⟩ := h.stack
  have hrsp : (exec (.pop r) s).reg .rsp = s.reg .rsp + 8 := by
    simp [exec,hr.symm]
  refine ⟨fun q hq => ?_,?_,?_⟩
  · by_cases hqr : q = r
    · subst hqr
      simp [exec,hw]
    · simp [exec,hqr,hq,h.reg q hq]
  · rw [hrsp,← h.rsp,List.length_cons,Nat.mul_succ,Nat.add_comm (8*ws.length),BitVec.ofNat_add,
      ← BitVec.add_assoc]
    rfl
  · rw [hrsp]
    exact hws

/-- The list follows the machine through pushes and pops. -/
theorem Matches.moves {moves : List Move} (h : Matches top s b) (hrun : runMoves moves b = some c)
    (hlen : 8*(b.stack.length+moves.length) ≤ 2^64) :
    Matches top (isa.execAll (moves.map Move.op) s) c := by
  induction moves generalizing s b with
  | nil =>
    obtain rfl := Option.some.inj hrun
    exact h
  | cons move moves ih =>
    rw [List.length_cons] at hlen
    obtain ⟨d,hd,hrest⟩ := Option.bind_eq_some_iff.mp hrun
    cases move with
    | push r hr =>
      obtain rfl := Option.some.inj hd
      exact ih (h.push (by omega) hr) hrest (by simp only [List.length_cons]; omega)
    | pop r hr =>
      obtain ⟨reg,stack⟩ := b
      cases stack with
      | nil => cases hd
      | cons w ws =>
        obtain rfl := Option.some.inj hd
        exact ih (h.pop hr) hrest (by simp only [List.length_cons] at hlen; simp only; omega)

end X64
end SomeCode
