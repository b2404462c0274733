import Mathlib.Logic.Relation
import Mathlib.Data.List.Basic

/-! Machine code that is run by a given instruction set. A routine is a list of instructions, its
branches lead to places in the list, and with its return it is left. -/
namespace SomeCode
namespace MachineCode

/-- `exec` is for the instructions that go on with the next one, `holds` for the conditions of the
branches, and `leave` for the return: where it leads to, and the state there. -/
structure Isa (Op Cond S A : Type*) where
  exec : Op → S → S
  holds : Cond → S → Bool
  leave : S → A × S

inductive Instr (Op Cond : Type*)
  | op (o : Op)
  | branch (c : Cond) (target : ℕ)
  | ret

/-- Before an instruction of the routine, or behind its return -/
inductive Config (S A : Type*)
  | inside (i : ℕ) (s : S)
  | outside (a : A) (s : S)

namespace Isa

variable {Op Cond S A : Type*} (M : Isa Op Cond S A) (code : List (Instr Op Cond))

def step : Config S A → Option (Config S A)
  | .outside _ _ => none
  | .inside i s => code[i]?.map fun
    | .op o => .inside (i+1) (M.exec o s)
    | .branch c target => .inside (if M.holds c s then target else i+1) s
    | .ret => .outside (M.leave s).1 (M.leave s).2

/-- Some steps lead from one to the other. -/
def Runs : Config S A → Config S A → Prop := Relation.ReflTransGen fun c d => M.step code c = some d

/-- The routine, begun in `s`, is left to `a` in `t`. -/
def Returns (s : S) (a : A) (t : S) : Prop := M.Runs code (.inside 0 s) (.outside a t)

def execAll : List Op → S → S
  | [], s => s
  | o :: os, s => execAll os (M.exec o s)

@[simp] theorem execAll_nil (s : S) : M.execAll [] s = s := rfl

@[simp] theorem execAll_cons (o : Op) (os : List Op) (s : S) :
    M.execAll (o :: os) s = M.execAll os (M.exec o s) := rfl

theorem execAll_append (os os' : List Op) (s : S) :
    M.execAll (os ++ os') s = M.execAll os' (M.execAll os s) := by
  induction os generalizing s with
  | nil => rfl
  | cons o os ih => exact ih (M.exec o s)

variable {M code} {c d : Config S A} {i : ℕ} {s t : S}

theorem Runs.refl : M.Runs code c c := Relation.ReflTransGen.refl

theorem Runs.trans {e : Config S A} (hcd : M.Runs code c d) (hde : M.Runs code d e) :
    M.Runs code c e :=
  Relation.ReflTransGen.trans hcd hde

theorem Runs.ops (os : List Op) (h : os.map Instr.op <+: code.drop i) :
    M.Runs code (.inside i s) (.inside (i+os.length) (M.execAll os s)) := by
  induction os generalizing i s with
  | nil => exact Runs.refl
  | cons o os ih =>
    obtain ⟨rest,hrest⟩ := h
    have hget : code[i]? = some (.op o) := by
      rw [← Nat.add_zero i,← List.getElem?_drop,← hrest]
      rfl
    have hnext : os.map Instr.op <+: code.drop (i+1) := by
      rw [← List.drop_drop,← hrest]
      exact ⟨rest,rfl⟩
    have hstep : M.step code (.inside i s) = some (.inside (i+1) (M.exec o s)) := by
      simp [step,hget]
    rw [List.length_cons,Nat.add_comm os.length,← Nat.add_assoc]
    exact Relation.ReflTransGen.head hstep (ih hnext)

theorem Runs.branch {cond : Cond} {target : ℕ} (h : code[i]? = some (.branch cond target)) :
    M.Runs code (.inside i s) (.inside (if M.holds cond s then target else i+1) s) :=
  Relation.ReflTransGen.single (by simp [step,h])

theorem Runs.taken {cond : Cond} {target : ℕ} (h : code[i]? = some (.branch cond target))
    (hc : M.holds cond s = true) : M.Runs code (.inside i s) (.inside target s) := by
  have hbranch := Runs.branch (M := M) (s := s) h
  rwa [hc,if_pos rfl] at hbranch

theorem Runs.passed {cond : Cond} {target : ℕ} (h : code[i]? = some (.branch cond target))
    (hc : M.holds cond s = false) : M.Runs code (.inside i s) (.inside (i+1) s) := by
  have hbranch := Runs.branch (M := M) (s := s) h
  rwa [hc,if_neg Bool.false_ne_true] at hbranch

theorem Runs.ret (h : code[i]? = some .ret) :
    M.Runs code (.inside i s) (.outside (M.leave s).1 (M.leave s).2) :=
  Relation.ReflTransGen.single (by simp [step,h])

/-- A loop that comes back to its beginning `n` times -/
theorem Runs.loop {I : ℕ → S → Prop} {n : ℕ}
    (hstep : ∀ k < n, ∀ s, I k s → ∃ t, M.Runs code (.inside i s) (.inside i t) ∧ I (k+1) t)
    (h0 : I 0 s) : ∃ t, M.Runs code (.inside i s) (.inside i t) ∧ I n t := by
  induction n with
  | zero => exact ⟨s,Runs.refl,h0⟩
  | succ n ih =>
    obtain ⟨t,ht,hI⟩ := ih fun k hk => hstep k (Nat.lt_succ_of_lt hk)
    obtain ⟨u,hu,hI'⟩ := hstep n (Nat.lt_succ_self n) t hI
    exact ⟨u,ht.trans hu,hI'⟩

theorem Returns.straight (os : List Op) (s : S) : M.Returns (os.map .op ++ [.ret]) s
    (M.leave (M.execAll os s)).1 (M.leave (M.execAll os s)).2 := by
  have hops : M.Runs (os.map .op ++ [.ret]) (.inside 0 s)
      (.inside (0+os.length) (M.execAll os s)) := Runs.ops os (List.prefix_append _ _)
  refine hops.trans (Runs.ret ?_)
  rw [Nat.zero_add,List.getElem?_append_right (by simp),List.length_map,Nat.sub_self]
  rfl

theorem step_unique : Relator.RightUnique fun c d : Config S A => M.step code c = some d :=
  fun _ _ _ h h' => Option.some.inj (h.symm.trans h')

theorem Runs.of_outside {a : A} (h : M.Runs code (.outside a t) d) : d = .outside a t := by
  obtain heq | ⟨e,he,-⟩ := Relation.ReflTransGen.cases_head h
  · exact heq.symm
  · cases he

/-- There is one way to return at most. -/
theorem Returns.unique {a b : A} (h : M.Returns code s a t) {u : S} (h' : M.Returns code s b u) :
    a = b ∧ t = u := by
  obtain hrun | hrun := Relation.ReflTransGen.total_of_right_unique step_unique h h'
  · cases Runs.of_outside hrun
    exact ⟨rfl,rfl⟩
  · cases Runs.of_outside hrun
    exact ⟨rfl,rfl⟩

theorem Runs.rest {a : A} (h : M.Runs code c (.outside a t)) (hd : M.Runs code c d) :
    M.Runs code d (.outside a t) := by
  obtain hrun | hrun := Relation.ReflTransGen.total_of_right_unique step_unique h hd
  · rw [Runs.of_outside hrun]
    exact Runs.refl
  · exact hrun

theorem Runs.preserves {D : Config S A → Prop}
    (hstep : ∀ c d, D c → M.step code c = some d → D d) (h : M.Runs code c d) (hc : D c) : D d := by
  induction h with
  | refl => exact hc
  | tail _ hde ih => exact hstep _ _ ih hde

/-- A run that returns leaves the loop. Each round leads away from the beginning `i` of the loop and
back to it, or to the exit `j`. -/
theorem Runs.exit_loop {P Q : S → Prop} {j : ℕ} {a : A}
    (hround : ∀ s, P s → ∃ k s', k ≠ i ∧ M.Runs code (.inside i s) (.inside k s') ∧
      ((∃ u, M.Runs code (.inside k s') (.inside i u) ∧ P u) ∨
        ∃ u, M.Runs code (.inside k s') (.inside j u) ∧ Q u))
    (hs : P s) (h : M.Runs code (.inside i s) (.outside a t)) :
    ∃ u, M.Runs code (.inside j u) (.outside a t) ∧ Q u := by
  -- every configuration of the run is on the way to the beginning or the exit, or behind the exit
  let D : Config S A → Prop := fun c => (∃ u, M.Runs code c (.inside i u) ∧ P u) ∨
    (∃ u, M.Runs code c (.inside j u) ∧ Q u) ∨ ∃ u, M.Runs code (.inside j u) c ∧ Q u
  have hstep : ∀ c d, D c → M.step code c = some d → D d := by
    have hnext : ∀ {c d e : Config S A}, M.Runs code c e → c ≠ e → M.step code c = some d →
        M.Runs code d e := by
      intro c d e hce hne hcd
      obtain heq | ⟨f,hf,hfe⟩ := Relation.ReflTransGen.cases_head hce
      · exact absurd heq hne
      · exact step_unique hf hcd ▸ hfe
    rintro c d (⟨u,hcu,hu⟩ | ⟨u,hcu,hu⟩ | ⟨u,huc,hu⟩) hcd
    · by_cases hc : c = .inside i u
      · subst hc
        obtain ⟨k,s',hk,haway,⟨v,hback,hv⟩ | ⟨v,hout,hv⟩⟩ := hround u hu
        · exact .inl ⟨v,(hnext haway (by simp [hk.symm]) hcd).trans hback,hv⟩
        · exact .inr (.inl ⟨v,(hnext haway (by simp [hk.symm]) hcd).trans hout,hv⟩)
      · exact .inl ⟨u,hnext hcu hc hcd,hu⟩
    · by_cases hc : c = .inside j u
      · subst hc
        exact .inr (.inr ⟨u,Relation.ReflTransGen.single hcd,hu⟩)
      · exact .inr (.inl ⟨u,hnext hcu hc hcd,hu⟩)
    · exact .inr (.inr ⟨u,Relation.ReflTransGen.tail huc hcd,hu⟩)
  obtain ⟨u,hu,-⟩ | ⟨u,hu,-⟩ | hend := h.preserves hstep (show D _ from .inl ⟨s,Runs.refl,hs⟩)
  · cases Runs.of_outside hu
  · cases Runs.of_outside hu
  · exact hend

end Isa

theorem sub_beq_zero {w : ℕ} (a b : BitVec w) : (a-b == 0) = decide (a = b) := by
  rw [Bool.eq_iff_iff,beq_iff_eq,decide_eq_true_iff]
  constructor
  · intro h
    rw [← BitVec.sub_add_cancel a b,h,BitVec.ofNat_eq_ofNat,BitVec.zero_add]
  · rintro rfl
    exact BitVec.sub_self a

end MachineCode
end SomeCode
