import Mathlib.Data.List.Infix
import Mathlib.Tactic.Common

/-! Sequences of words of a prefix code: a text has one way at most to be read as such a
sequence, and of its prefixes that are sequences of words one is the longest. -/
namespace SomeCode
namespace PrefixCode

variable {A : Type*}

/-- No word is empty, and none goes on to be another one. -/
structure IsPrefixCode (Word : List A → Prop) : Prop where
  nonempty : ∀ {w}, Word w → w ≠ []
  free : ∀ {v w}, Word v → Word w → v <+: w → v = w

variable {Word : List A → Prop}

namespace IsPrefixCode

theorem eq_of_prefix (h : IsPrefixCode Word) {v w l : List A} (hv : Word v) (hw : Word w)
    (hvl : v <+: l) (hwl : w <+: l) : v = w := by
  obtain hp | hp := List.prefix_or_prefix_of_prefix hvl hwl
  · exact h.free hv hw hp
  · exact (h.free hw hv hp).symm

/-- A sequence of words that cannot go on within a text contains every other one. -/
theorem prefix_of_stuck (h : IsPrefixCode Word) {vs ws : List (List A)} {rest l : List A}
    (hws : ∀ w ∈ ws, Word w) (hvs : ∀ v ∈ vs, Word v) (hl : ws.flatten ++ rest = l)
    (hstuck : ∀ w, Word w → ¬ w <+: rest) (hp : vs.flatten <+: l) : vs <+: ws := by
  induction vs generalizing ws l with
  | nil => exact List.nil_prefix
  | cons v vs ih =>
    have hv := hvs v List.mem_cons_self
    have hvl : v <+: l := (List.prefix_append v vs.flatten).trans (by simpa using hp)
    cases ws with
    | nil => exact absurd (by simpa [← hl] using hvl) (hstuck v hv)
    | cons w ws =>
      subst hl
      have hw := hws w List.mem_cons_self
      obtain rfl := h.eq_of_prefix hv hw hvl
        ⟨ws.flatten ++ rest,by simp [List.append_assoc]⟩
      have hrest : vs.flatten <+: ws.flatten ++ rest := by
        simpa [List.append_assoc] using hp
      exact (List.cons_prefix_cons.mpr ⟨rfl,ih (fun u hu => hws u (List.mem_cons_of_mem _ hu))
        (fun u hu => hvs u (List.mem_cons_of_mem _ hu)) rfl hrest⟩)

theorem flatten_inj (h : IsPrefixCode Word) {vs ws : List (List A)}
    (hvs : ∀ v ∈ vs, Word v) (hws : ∀ w ∈ ws, Word w) (hl : vs.flatten = ws.flatten) : vs = ws := by
  have hstuck : ∀ w, Word w → ¬ w <+: [] := fun w hw hp => h.nonempty hw (List.prefix_nil.mp hp)
  have hvw := h.prefix_of_stuck hws hvs (List.append_nil _) hstuck (hl ▸ List.prefix_rfl)
  have hwv := h.prefix_of_stuck hvs hws (List.append_nil _) hstuck (hl ▸ List.prefix_rfl)
  exact hvw.eq_of_length_le hwv.length_le

end IsPrefixCode

def IsConcat (Word : List A → Prop) (l : List A) : Prop :=
  ∃ ws : List (List A), (∀ w ∈ ws, Word w) ∧ ws.flatten = l

structure Longest (Word : List A → Prop) (l : List A) (ws : List (List A)) : Prop where
  words : ∀ w ∈ ws, Word w
  isPrefix : ws.flatten <+: l
  longest : ∀ p, p <+: l → IsConcat Word p → p.length ≤ ws.flatten.length

theorem IsPrefixCode.longest_of_stuck (h : IsPrefixCode Word) {ws : List (List A)} {rest : List A}
    (hws : ∀ w ∈ ws, Word w) (hstuck : ∀ w, Word w → ¬ w <+: rest) :
    Longest Word (ws.flatten ++ rest) ws where
  words := hws
  isPrefix := List.prefix_append _ _
  longest := by
    rintro p hp ⟨vs,hvs,rfl⟩
    obtain ⟨us,rfl⟩ := h.prefix_of_stuck hws hvs rfl hstuck hp
    simp

theorem IsPrefixCode.longest_unique (h : IsPrefixCode Word) {ws vs : List (List A)} {rest : List A}
    (hws : ∀ w ∈ ws, Word w) (hstuck : ∀ w, Word w → ¬ w <+: rest)
    (hvs : Longest Word (ws.flatten ++ rest) vs) : vs = ws := by
  obtain ⟨us,rfl⟩ := h.prefix_of_stuck hws hvs.words rfl hstuck hvs.isPrefix
  have hlen := hvs.longest _ (List.prefix_append _ rest) ⟨vs ++ us,hws,rfl⟩
  have hus : us = [] := by
    cases us with
    | nil => rfl
    | cons u us =>
      have hne := List.length_pos_of_ne_nil (h.nonempty (hws u (by simp)))
      simp only [List.flatten_append,List.flatten_cons,List.length_append] at hlen
      omega
  simp [hus]

theorem IsPrefixCode.isConcat_iff (h : IsPrefixCode Word) {ws : List (List A)} {rest : List A}
    (hws : ∀ w ∈ ws, Word w) (hstuck : ∀ w, Word w → ¬ w <+: rest) :
    IsConcat Word (ws.flatten ++ rest) ↔ rest = [] := by
  constructor
  · intro hc
    have hlen := (h.longest_of_stuck hws hstuck).longest _ List.prefix_rfl hc
    rw [List.length_append] at hlen
    exact List.length_eq_zero_iff.mp (by omega)
  · rintro rfl
    exact ⟨ws,hws,by simp⟩

end PrefixCode
end SomeCode
