import Mathlib.Data.List.Basic
import Mathlib.Data.List.Nodup
import Mathlib.Tactic.Common

/-! Chains of nodes linked by a partial successor map, down to a fixed last node.
A chain is determined by its first node, hence never meets the same node twice. -/
namespace SomeCode
namespace LinkedChain

variable {A : Type*}

/-- Following `next` from `a` one meets the nodes of the list and then `last`. -/
def Chain (next : A → Option A) (last : A) : A → List A → Prop
  | a, [] => a = last
  | a, b :: l => a = b ∧ a ≠ last ∧ ∃ c, next a = some c ∧ Chain next last c l

variable {next next' : A → Option A} {last a b c : A} {l l' : List A}

theorem Chain.nil : Chain next last last [] := rfl

theorem Chain.cons (h : Chain next last b l) (hn : next a = some b) (hl : a ≠ last) :
    Chain next last a (a :: l) := ⟨rfl,hl,b,hn,h⟩

theorem Chain.last_notMem (h : Chain next last a l) : last ∉ l := by
  induction l generalizing a with
  | nil => simp
  | cons b l ih =>
    obtain ⟨rfl,hl,c,-,hc⟩ := h
    exact fun hm => (List.mem_cons.mp hm).elim (fun he => hl he.symm) (ih hc)

/-- Only the successors of the nodes on the chain matter. -/
theorem Chain.congr (h : Chain next last a l) (hn : ∀ b ∈ l, next' b = next b) :
    Chain next' last a l := by
  induction l generalizing a with
  | nil => exact h
  | cons b l ih =>
    obtain ⟨rfl,hl,c,hc,hrest⟩ := h
    exact ⟨rfl,hl,c,by rw [hn a (by simp),hc],ih hrest fun d hd => hn d (by simp [hd])⟩

theorem Chain.unique (h : Chain next last a l) (h' : Chain next last a l') : l = l' := by
  induction l generalizing a l' with
  | nil =>
    cases l' with
    | nil => rfl
    | cons b l' => exact absurd h h'.2.1
  | cons b l ih =>
    cases l' with
    | nil => exact absurd h' h.2.1
    | cons b' l' =>
      obtain ⟨rfl,-,c,hc,hrest⟩ := h
      obtain ⟨rfl,-,c',hc',hrest'⟩ := h'
      obtain rfl : c = c' := Option.some.inj (hc.symm.trans hc')
      rw [ih hrest hrest']

theorem Chain.suffix (h : Chain next last a (l ++ b :: l')) : Chain next last b (b :: l') := by
  induction l generalizing a with
  | nil =>
    obtain ⟨rfl,hrest⟩ := h
    exact ⟨rfl,hrest⟩
  | cons d l ih =>
    obtain ⟨-,-,c,-,hrest⟩ := h
    exact ih hrest

theorem Chain.nodup (h : Chain next last a l) : l.Nodup := by
  induction l generalizing a with
  | nil => exact List.nodup_nil
  | cons b l ih =>
    have hb : a = b := h.1
    obtain ⟨-,-,c,-,hrest⟩ := id h
    refine List.nodup_cons.mpr ⟨fun hm => ?_,ih hrest⟩
    obtain ⟨p,q,rfl⟩ := List.append_of_mem hm
    have hq : Chain next last b (b :: q) := Chain.suffix (l := b :: p) h
    have heq := Chain.unique (hb ▸ h) hq
    have hlen := congrArg List.length heq
    simp at hlen
    omega

end LinkedChain
end SomeCode
