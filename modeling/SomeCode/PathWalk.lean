import Mathlib.Data.Set.Finite.List
import Mathlib.Data.List.Infix
import Mathlib.Tactic

/-! Walks through a tree of directories, one component of a path after the other. The names, and
what is known of a directory and of a file, are any types. A walk from a directory depends on what
is below that directory alone if each place that it passes is there or was passed on the way. -/
namespace SomeCode
namespace PathWalk

inductive Step (N : Type*)
  | here
  | up
  | into (name : N)
  deriving DecidableEq

variable {N D F : Type*}

/-- Where a step leads to; the directory above the root is the root. -/
def Step.move (place : List N) : Step N → List N
  | here => place
  | up => place.dropLast
  | into name => place ++ [name]

def resolve (place : List N) (steps : List (Step N)) : List N := steps.foldl Step.move place

def visited (place : List N) : List (Step N) → List (List N)
  | [] => [place]
  | s :: steps => place :: visited (s.move place) steps

theorem resolve_mem_visited (place : List N) (steps : List (Step N)) :
    resolve place steps ∈ visited place steps := by
  induction steps generalizing place with
  | nil => exact List.mem_singleton.mpr rfl
  | cons s steps ih => exact List.mem_cons_of_mem _ (ih (s.move place))

theorem resolve_append (place : List N) (way steps : List (Step N)) :
    resolve place (way ++ steps) = resolve (resolve place way) steps := List.foldl_append

inductive Node (D F : Type*)
  | directory (d : D)
  | file (f : F)
  deriving DecidableEq

structure Tree (N D F : Type*) where
  node : List N → Option (Node D F)
  root : ∃ d, node [] = some (.directory d)
  parent : ∀ place name, node (place ++ [name]) ≠ none → ∃ d, node place = some (.directory d)
  finite : {place | node place ≠ none}.Finite

/-- What there is at the end of the steps, each of which is one from a directory -/
def Tree.lookup (t : Tree N D F) (place : List N) : List (Step N) → Option (Node D F)
  | [] => t.node place
  | s :: steps =>
    match t.node place with
    | some (.directory _) => t.lookup (s.move place) steps
    | _ => none

theorem Tree.directory_of_prefix (t : Tree N D F) {place q : List N} {d : D}
    (h : t.node q = some (.directory d)) (hbefore : place <+: q) :
    ∃ d, t.node place = some (.directory d) := by
  obtain ⟨names,rfl⟩ := hbefore
  induction names using List.reverseRecOn generalizing d with
  | nil => exact ⟨d,by simpa using h⟩
  | append_singleton names name ih =>
    rw [← List.append_assoc] at h
    obtain ⟨d',hd'⟩ := t.parent (place ++ names) name (by rw [h]; exact Option.some_ne_none _)
    exact ih hd'

theorem Tree.lookup_cons {t : Tree N D F} {place : List N} {s : Step N} {steps : List (Step N)}
    {node : Node D F} (h : t.lookup place (s :: steps) = some node) :
    (∃ d, t.node place = some (.directory d)) ∧ t.lookup (s.move place) steps = some node := by
  rw [lookup] at h
  split at h
  · exact ⟨⟨_,‹_›⟩,h⟩
  · cases h

theorem Tree.lookup_cons_directory {t : Tree N D F} {place : List N} {d : D}
    (h : t.node place = some (.directory d)) (s : Step N) (steps : List (Step N)) :
    t.lookup place (s :: steps) = t.lookup (s.move place) steps := by
  rw [lookup,h]

theorem Tree.lookup_append {t : Tree N D F} {place : List N} {way : List (Step N)}
    {node : Node D F} (h : t.lookup place way = some node) (steps : List (Step N)) :
    t.lookup place (way ++ steps) = t.lookup (resolve place way) steps := by
  induction way generalizing place with
  | nil => rfl
  | cons s way ih =>
    obtain ⟨⟨d,hd⟩,hrest⟩ := lookup_cons h
    rw [List.cons_append,lookup_cons_directory hd,ih hrest]
    rfl

theorem Tree.node_of_visited {t : Tree N D F} {place : List N} {steps : List (Step N)}
    {node : Node D F} (h : t.lookup place steps = some node) {q : List N}
    (hq : q ∈ visited place steps) : t.node q ≠ none := by
  induction steps generalizing place with
  | nil =>
    obtain rfl := List.mem_singleton.mp hq
    rw [show t.node q = some node from h]
    exact Option.some_ne_none _
  | cons s steps ih =>
    obtain ⟨⟨d,hd⟩,hrest⟩ := lookup_cons h
    obtain rfl | hq := List.mem_cons.mp hq
    · rw [hd]
      exact Option.some_ne_none _
    · exact ih hrest hq

theorem Tree.directory_of_visited {t : Tree N D F} {place : List N} {steps : List (Step N)} {d : D}
    (h : t.lookup place steps = some (.directory d)) {q : List N}
    (hq : q ∈ visited place steps) : ∃ d, t.node q = some (.directory d) := by
  induction steps generalizing place with
  | nil =>
    obtain rfl := List.mem_singleton.mp hq
    exact ⟨d,h⟩
  | cons s steps ih =>
    obtain ⟨hd,hrest⟩ := lookup_cons h
    obtain rfl | hq := List.mem_cons.mp hq
    · exact hd
    · exact ih hrest hq

theorem Tree.lookup_of_directories {t : Tree N D F} {place : List N} {steps : List (Step N)}
    {d : D} (h : ∀ q ∈ visited place steps, t.node q = some (.directory d)) :
    t.lookup place steps = some (.directory d) := by
  induction steps generalizing place with
  | nil => exact h place (List.mem_singleton.mpr rfl)
  | cons s steps ih =>
    rw [lookup_cons_directory (h place List.mem_cons_self)]
    exact ih fun q hq => h q (List.mem_cons_of_mem _ hq)

def Tree.addFile [DecidableEq N] (t : Tree N D F) (place : List N) (name : N) (f : F)
    (hplace : ∃ d, t.node place = some (.directory d)) (hnew : t.node (place ++ [name]) = none) :
    Tree N D F where
  node q := if q = place ++ [name] then some (.file f) else t.node q
  root := by simpa using t.root
  parent q n h := by
    have hold : ∃ d, t.node q = some (.directory d) := by
      by_cases hq : q ++ [n] = place ++ [name]
      · obtain ⟨rfl,-⟩ := List.append_inj' hq rfl
        exact hplace
      · rw [if_neg hq] at h
        exact t.parent q n h
    have hne : q ≠ place ++ [name] := by
      rintro rfl
      simp [hnew] at hold
    rwa [if_neg hne]
  finite := by
    refine (t.finite.insert (place ++ [name])).subset fun q h => ?_
    by_cases hq : q = place ++ [name]
    · exact .inl hq
    · exact .inr (by simpa [hq] using h)

section Confinement

variable {start : List N} {way : List (Step N)}

/-- A directory that is there whenever the way can be gone: it was passed, or is above one that
was. -/
def Known (start : List N) (way : List (Step N)) (place : List N) : Prop :=
  ∃ q ∈ visited start way, place <+: q

/-- The steps from the end of the way pass known directories and places below the end of the way
alone, and they end below it. -/
structure Confined (start : List N) (way steps : List (Step N)) : Prop where
  pass : ∀ q ∈ visited (resolve start way) steps, resolve start way <+: q ∨ Known start way q
  inside : resolve start way <+: resolve (resolve start way) steps

theorem Known.directory {t : Tree N D F} {d : D} {place : List N}
    (h : t.lookup start way = some (.directory d)) (hplace : Known start way place) :
    ∃ d, t.node place = some (.directory d) := by
  obtain ⟨q,hq,hbefore⟩ := hplace
  obtain ⟨d',hd'⟩ := Tree.directory_of_visited h hq
  exact t.directory_of_prefix hd' hbefore

/-- Trees with the same nodes below a directory are the same to a walk that ends there and passes
known directories elsewhere. -/
theorem lookup_congr {t₁ t₂ : Tree N D F} {top : List N}
    (hagree : ∀ q, top <+: q → t₁.node q = t₂.node q) {place : List N} {steps : List (Step N)}
    (hpass : ∀ q ∈ visited place steps, top <+: q ∨
      (∃ d, t₁.node q = some (.directory d)) ∧ ∃ d, t₂.node q = some (.directory d))
    (hinside : top <+: resolve place steps) :
    t₁.lookup place steps = t₂.lookup place steps := by
  induction steps generalizing place with
  | nil => exact hagree place hinside
  | cons s steps ih =>
    have hrest : t₁.lookup (s.move place) steps = t₂.lookup (s.move place) steps :=
      ih (fun q hq => hpass q (List.mem_cons_of_mem _ hq)) hinside
    obtain hbelow | ⟨⟨d₁,h₁⟩,d₂,h₂⟩ := hpass place List.mem_cons_self
    · rw [Tree.lookup,Tree.lookup,hagree place hbelow,hrest]
    · rw [Tree.lookup_cons_directory h₁,Tree.lookup_cons_directory h₂,hrest]

theorem Confined.lookup_eq {steps : List (Step N)} (h : Confined start way steps)
    {t₁ t₂ : Tree N D F} {d₁ d₂ : D} (h₁ : t₁.lookup start way = some (.directory d₁))
    (h₂ : t₂.lookup start way = some (.directory d₂))
    (hagree : ∀ q, resolve start way <+: q → t₁.node q = t₂.node q) :
    t₁.lookup start (way ++ steps) = t₂.lookup start (way ++ steps) := by
  rw [Tree.lookup_append h₁,Tree.lookup_append h₂]
  refine lookup_congr hagree (fun q hq => ?_) h.inside
  exact (h.pass q hq).imp_right fun hknown => ⟨hknown.directory h₁,hknown.directory h₂⟩

theorem prefix_of_visited {place : List N} {steps : List (Step N)} (h : .up ∉ steps) {q : List N}
    (hq : q ∈ visited place steps) : place <+: q := by
  induction steps generalizing place with
  | nil => rw [List.mem_singleton.mp hq]
  | cons s steps ih =>
    obtain rfl | hq := List.mem_cons.mp hq
    · exact List.prefix_refl q
    have hrest := ih (fun hup => h (List.mem_cons_of_mem _ hup)) hq
    cases s with
    | here => exact hrest
    | up => exact absurd List.mem_cons_self h
    | into name => exact (List.prefix_append place [name]).trans hrest

theorem confined_of_no_up {steps : List (Step N)} (h : .up ∉ steps) :
    Confined start way steps where
  pass _ hq := .inl (prefix_of_visited h hq)
  inside := prefix_of_visited h (resolve_mem_visited _ _)

def directories [DecidableEq N] (d : D) (places : List (List N)) : Tree N D F where
  node place := if place = [] ∨ ∃ q ∈ places, place <+: q then some (.directory d) else none
  root := ⟨d,by simp⟩
  parent place name h := by
    refine ⟨d,if_pos ?_⟩
    obtain h0 | ⟨q,hq,hbefore⟩ := by_contra fun hn => h (if_neg hn)
    · simp at h0
    · exact .inr ⟨q,hq,(List.prefix_append _ _).trans hbefore⟩
  finite := by
    refine (List.finite_toSet ([] :: places.flatMap List.inits)).subset fun place h => ?_
    obtain rfl | ⟨q,hq,hbefore⟩ := by_contra fun hn => h (if_neg hn)
    · exact List.mem_cons_self
    · exact List.mem_cons_of_mem _ (List.mem_flatMap.mpr ⟨q,hq,(List.mem_inits _ _).mpr hbefore⟩)

variable [DecidableEq N]

theorem directories_node {d : D} {places : List (List N)} {place q : List N} (hq : q ∈ places)
    (hbefore : place <+: q) :
    (directories d places : Tree N D F).node place = some (.directory d) :=
  if_pos (.inr ⟨q,hq,hbefore⟩)

theorem directories_node_none {d : D} {places : List (List N)} {place : List N} (h0 : place ≠ [])
    (h : ∀ q ∈ places, ¬ place <+: q) : (directories d places : Tree N D F).node place = none :=
  if_neg (by rintro (hroot | ⟨q,hq,hbefore⟩) <;> [exact h0 hroot; exact h q hq hbefore])

/-- Where a walk leaves what is known, there are trees that differ nowhere below the end of the
way, and differ to the walk. -/
theorem exists_apart {steps : List (Step N)} {q : List N}
    (hq : q ∈ visited (resolve start way) steps) (hout : ¬ resolve start way <+: q)
    (hnew : ¬ Known start way q) (d : D) :
    ∃ t₁ t₂ : Tree N D F, t₁.lookup start way = some (.directory d) ∧
      t₂.lookup start way = some (.directory d) ∧
      (∀ p, resolve start way <+: p → t₁.node p = t₂.node p) ∧
      t₁.lookup start (way ++ steps) = some (.directory d) ∧
      t₂.lookup start (way ++ steps) = none := by
  let top := resolve start way
  -- in the second tree the walk's places below `top` alone
  let below := ((visited top steps).flatMap List.inits).filter (top <+: ·)
  let t₁ : Tree N D F := directories d (visited start way ++ visited top steps)
  let t₂ : Tree N D F := directories d (visited start way ++ below)
  have hway₁ : t₁.lookup start way = some (.directory d) := Tree.lookup_of_directories
    fun p hp => directories_node (List.mem_append_left _ hp) (List.prefix_refl p)
  have hway₂ : t₂.lookup start way = some (.directory d) := Tree.lookup_of_directories
    fun p hp => directories_node (List.mem_append_left _ hp) (List.prefix_refl p)
  refine ⟨t₁,t₂,hway₁,hway₂,fun p hp => ?_,?_,?_⟩
  · refine if_congr (or_congr_right ⟨?_,?_⟩) rfl rfl
    · rintro ⟨r,hr,hbefore⟩
      obtain hr | hr := List.mem_append.mp hr
      · exact ⟨r,List.mem_append_left _ hr,hbefore⟩
      · have hmem : p ∈ below := List.mem_filter.mpr
          ⟨List.mem_flatMap.mpr ⟨r,hr,(List.mem_inits _ _).mpr hbefore⟩,by simpa using hp⟩
        exact ⟨p,List.mem_append_right _ hmem,List.prefix_refl p⟩
    · rintro ⟨r,hr,hbefore⟩
      obtain hr | hr := List.mem_append.mp hr
      · exact ⟨r,List.mem_append_left _ hr,hbefore⟩
      · obtain ⟨w,hw,hinits⟩ := List.mem_flatMap.mp (List.mem_filter.mp hr).1
        exact ⟨w,List.mem_append_right _ hw,hbefore.trans ((List.mem_inits _ _).mp hinits)⟩
  · rw [Tree.lookup_append hway₁]
    exact Tree.lookup_of_directories
      fun p hp => directories_node (List.mem_append_right _ hp) (List.prefix_refl p)
  · rw [Tree.lookup_append hway₂]
    by_contra hsome
    obtain ⟨node,hnode⟩ := Option.ne_none_iff_exists'.mp hsome
    refine Tree.node_of_visited hnode hq (directories_node_none ?_ ?_)
    · rintro rfl
      exact hnew ⟨_,resolve_mem_visited start way,List.nil_prefix⟩
    · intro p hp hbefore
      obtain hp | hp := List.mem_append.mp hp
      · exact hnew ⟨p,hp,hbefore⟩
      · have htop : top <+: p := by simpa using (List.mem_filter.mp hp).2
        obtain hq | hq := List.prefix_or_prefix_of_prefix hbefore htop
        · exact hnew ⟨_,resolve_mem_visited start way,hq⟩
        · exact hout hq

end Confinement

end PathWalk
end SomeCode
