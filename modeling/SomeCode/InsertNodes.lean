import SomeCode.Contributors
import SomeCode.LinkedChain
import SomeCode.MachineInt
import SomeCode.Transition
import Mathlib.Data.List.FinRange
import Mathlib.Data.Fintype.BigOperators

/-! The threads of `inf19-2.c` push nodes on one list without a lock: each reads the root,
links its new node to what it read and exchanges the root when it is still the same. -/
namespace SomeCode
namespace InsertNodes

open Contributors LinkedChain MachineInt Transition

abbrev Addr := ℕ

structure Item where
  next : Option Addr
  value : ℤ

inductive Pc
  | loop
  | load
  | link
  | exchange
  | done
  deriving DecidableEq

structure Thread where
  pc : Pc
  i : ℕ
  newItem : Addr
  next : Addr

/-- `succeeded` records the exchanges that took place, the latest one first. -/
structure State (N : ℕ) where
  heap : Addr → Option Item
  root : Addr
  threads : Fin N → Thread
  succeeded : List (Fin N × Addr)

/-- The thread that moves, the block that `malloc` returns if it is called, and whether
the weak exchange fails although it could succeed. -/
structure Action (N : ℕ) where
  thread : Fin N
  fresh : Addr
  weak : Bool

/-- `args->I * args->K + i` in `size_t`, stored in an `int`. -/
def itemValue (K I i : ℕ) : ℤ := wrap 32 (unsigned 64 (I*K+i))

def State.setThread {N : ℕ} (s : State N) (I : Fin N) (t : Thread) : State N :=
  { s with threads := Function.update s.threads I t }

def State.setItem {N : ℕ} (s : State N) (a : Addr) (x : Item) : State N :=
  { s with heap := Function.update s.heap a (some x) }

/-- One step of `insert_nodes`. The weak exchange puts the root it has seen in `next`,
and a failed one goes back to the head of the inner loop. -/
def insertNodes {N : ℕ} (K : ℕ) (a : Action N) (s : State N) : Option (State N) :=
  let t := s.threads a.thread
  match t.pc with
  | .loop =>
    if t.i < K then
      match s.heap a.fresh with
      | some _ => none
      | none => some ((s.setItem a.fresh ⟨none,itemValue K a.thread t.i⟩).setThread a.thread
          { t with pc := .load, newItem := a.fresh })
    else some (s.setThread a.thread { t with pc := .done })
  | .load => some (s.setThread a.thread { t with pc := .link, next := s.root })
  | .link =>
    match s.heap t.newItem with
    | none => none
    | some x => some ((s.setItem t.newItem { x with next := some t.next }).setThread a.thread
        { t with pc := .exchange })
  | .exchange =>
    if s.root = t.next ∧ a.weak = false then
      some { s.setThread a.thread { t with pc := .loop, i := t.i+1 } with
        root := t.newItem, succeeded := (a.thread,t.newItem) :: s.succeeded }
    else some (s.setThread a.thread { t with pc := .load, next := s.root })
  | .done => none

/-- The block of the root that `main` allocates; nothing is stored in it. -/
def initial : Addr := 0

/-- The state in which `main` starts the threads, with whatever the block of the root
happens to hold. -/
def init (N : ℕ) (uninit : Item) : State N :=
  ⟨Function.update (fun _ => none) initial (some uninit),initial,fun _ => ⟨.loop,0,0,0⟩,[]⟩

def system (N K : ℕ) (uninit : Item) : System (State N) (Action N) :=
  ⟨init N uninit,insertNodes K⟩

def Finished {N : ℕ} (s : State N) : Prop := ∀ I, (s.threads I).pc = .done

def nextOf (heap : Addr → Option Item) (a : Addr) : Option Addr := (heap a).bind Item.next

def valueOf (heap : Addr → Option Item) (a : Addr) : Option ℤ := (heap a).map Item.value

/-- The nodes whose exchange has succeeded, the latest one first. -/
def State.nodes {N : ℕ} (s : State N) : List Addr := s.succeeded.map Prod.snd

/-- The nodes that thread `I` has inserted, the latest one first. -/
def State.nodesOf {N : ℕ} (s : State N) (I : Fin N) : List Addr :=
  (s.succeeded.filter fun p => p.1 = I).map Prod.snd

def Pc.private : Pc → Bool
  | .load | .link | .exchange => true
  | _ => false

/-- What a thread knows between its steps. -/
structure ThreadInv {N : ℕ} (K : ℕ) (s : State N) (I : Fin N) (t : Thread) : Prop where
  le : t.i ≤ K
  lt : t.pc.private → t.i < K
  eq : t.pc = .done → t.i = K
  value : t.pc.private → valueOf s.heap t.newItem = some (itemValue K I t.i)
  linked : t.pc = .exchange → nextOf s.heap t.newItem = some t.next
  ne_initial : t.pc.private → t.newItem ≠ initial
  notMem : t.pc.private → t.newItem ∉ s.nodes
  inserted : (s.nodesOf I).map (valueOf s.heap) =
    ((List.range t.i).map fun j => some (itemValue K I j)).reverse

def Distinct {N : ℕ} (threads : Fin N → Thread) : Prop :=
  ∀ I J, I ≠ J → (threads I).pc.private → (threads J).pc.private →
    (threads I).newItem ≠ (threads J).newItem

structure Inv {N : ℕ} (K : ℕ) (s : State N) : Prop where
  chain : Chain (nextOf s.heap) initial s.root s.nodes
  allocated : ∀ a ∈ initial :: s.nodes, s.heap a ≠ none
  supply : ∃ b, ∀ a, b ≤ a → s.heap a = none
  thread : ∀ I, ThreadInv K s I (s.threads I)
  distinct : Distinct s.threads

section Steps

variable {N K : ℕ} {s s' : State N} {I J : Fin N} {t t' : Thread}

theorem nextOf_congr {heap heap' : Addr → Option Item} {a : Addr} (h : heap' a = heap a) :
    nextOf heap' a = nextOf heap a := by rw [nextOf,h,nextOf]

theorem valueOf_congr {heap heap' : Addr → Option Item} {a : Addr} (h : heap' a = heap a) :
    valueOf heap' a = valueOf heap a := by rw [valueOf,h,valueOf]

theorem supply_update {heap : Addr → Option Item} (h : ∃ b, ∀ a, b ≤ a → heap a = none)
    (a : Addr) (x : Item) :
    ∃ b, ∀ c, b ≤ c → Function.update heap a (some x) c = none := by
  obtain ⟨b,hb⟩ := h
  refine ⟨max b (Nat.succ a),fun c hc => ?_⟩
  rw [Function.update_of_ne (Nat.ne_of_gt (Nat.lt_of_succ_le (le_of_max_le_right hc)))]
  exact hb c (le_of_max_le_left hc)

theorem mem_nodes_of_mem_nodesOf {a : Addr} (h : a ∈ s.nodesOf I) : a ∈ s.nodes := by
  simp only [State.nodesOf,State.nodes,List.mem_map,List.mem_filter] at h ⊢
  obtain ⟨p,⟨hp,-⟩,rfl⟩ := h
  exact ⟨p,hp,rfl⟩

theorem ThreadInv.allocated (h : ThreadInv K s I t) (hp : t.pc.private) :
    s.heap t.newItem ≠ none := by
  intro hn
  have hv := h.value hp
  simp [valueOf,hn] at hv

theorem ThreadInv.inserted_congr (h : ThreadInv K s I t) (hs : s'.succeeded = s.succeeded)
    (hn : ∀ a ∈ s.nodes, s'.heap a = s.heap a) : (s'.nodesOf I).map (valueOf s'.heap) =
      ((List.range t.i).map fun j => some (itemValue K I j)).reverse := by
  have heq : s'.nodesOf I = s.nodesOf I := by rw [State.nodesOf,hs,State.nodesOf]
  rw [heq,← h.inserted]
  exact List.map_congr_left fun a ha => valueOf_congr (hn a (mem_nodes_of_mem_nodesOf ha))

theorem ThreadInv.congr (h : ThreadInv K s I t) (hs : s'.succeeded = s.succeeded)
    (hp : t.pc.private → s'.heap t.newItem = s.heap t.newItem)
    (hn : ∀ a ∈ s.nodes, s'.heap a = s.heap a) : ThreadInv K s' I t where
  le := h.le
  lt := h.lt
  eq := h.eq
  value hb := (valueOf_congr (hp hb)).trans (h.value hb)
  linked hb := (nextOf_congr (hp (by simp [hb,Pc.private]))).trans (h.linked hb)
  ne_initial := h.ne_initial
  notMem hb := by rw [State.nodes,hs]; exact h.notMem hb
  inserted := h.inserted_congr hs hn

theorem Distinct.update {threads : Fin N → Thread} (h : Distinct threads)
    (ht : t.pc.private → ∀ J, J ≠ I → (threads J).pc.private → t.newItem ≠ (threads J).newItem) :
    Distinct (Function.update threads I t) := by
  intro J J' hne hJ hJ'
  by_cases h1 : J = I
  · subst h1
    rw [Function.update_self] at hJ ⊢
    rw [Function.update_of_ne hne.symm] at hJ' ⊢
    exact ht hJ J' hne.symm hJ'
  · rw [Function.update_of_ne h1] at hJ ⊢
    by_cases h2 : J' = I
    · subst h2
      rw [Function.update_self] at hJ' ⊢
      exact (ht hJ' J h1 hJ).symm
    · rw [Function.update_of_ne h2] at hJ' ⊢
      exact h J J' hne hJ hJ'

theorem Distinct.update_same {threads : Fin N → Thread} (h : Distinct threads)
    (hp : t.pc.private → (threads I).pc.private ∧ t.newItem = (threads I).newItem) :
    Distinct (Function.update threads I t) :=
  h.update fun ht J hne hJ => by
    rw [(hp ht).2]
    exact h I J hne.symm (hp ht).1 hJ

theorem Inv.setThread (hi : Inv K s) (ht : ThreadInv K s I t)
    (hd : Distinct (Function.update s.threads I t)) : Inv K (s.setThread I t) where
  chain := hi.chain
  allocated := hi.allocated
  supply := hi.supply
  thread := (Function.forall_update_iff s.threads fun J u => ThreadInv K (s.setThread I t) J u).mpr
    ⟨ht.congr rfl (fun _ => rfl) (fun _ _ => rfl),
      fun J _ => (hi.thread J).congr rfl (fun _ => rfl) (fun _ _ => rfl)⟩
  distinct := hd

theorem Inv.alloc (hi : Inv K s) {a : Addr} (ha : s.heap a = none)
    (hlt : (s.threads I).i < K) :
    Inv K ((s.setItem a ⟨none,itemValue K I (s.threads I).i⟩).setThread I
      { s.threads I with pc := .load, newItem := a }) := by
  set x : Item := ⟨none,itemValue K I (s.threads I).i⟩ with hx
  have hnode : ∀ b ∈ initial :: s.nodes, b ≠ a := by
    rintro b hb rfl
    exact hi.allocated b hb ha
  have hheap : ∀ b, b ≠ a → (s.setItem a x).heap b = s.heap b := fun b hb =>
    Function.update_of_ne hb _ _
  have hmem : ∀ b ∈ s.nodes, (s.setItem a x).heap b = s.heap b := fun b hb =>
    hheap b (hnode b (List.mem_cons_of_mem _ hb))
  have hheld : ∀ J, (s.threads J).pc.private → (s.threads J).newItem ≠ a := by
    intro J hJ he
    exact (hi.thread J).allocated hJ (by rw [he,ha])
  have hown : ThreadInv K (s.setItem a x) I { s.threads I with pc := .load, newItem := a } :=
    { le := (hi.thread I).le
      lt := fun _ => hlt
      eq := by simp
      value := fun _ => by simp [valueOf,State.setItem,hx]
      linked := by simp
      ne_initial := fun _ => (hnode initial (by simp)).symm
      notMem := fun _ hm => hnode a (List.mem_cons_of_mem _ hm) rfl
      inserted := (hi.thread I).inserted_congr rfl hmem }
  have hs : Inv K (s.setItem a x) :=
    { chain := hi.chain.congr fun b hb => nextOf_congr (hmem b hb)
      allocated := fun b hb => by
        rw [hheap b (hnode b hb)]
        exact hi.allocated b hb
      supply := supply_update hi.supply a _
      thread := fun J => (hi.thread J).congr rfl (fun hJ => hheap _ (hheld J hJ)) hmem
      distinct := hi.distinct }
  exact hs.setThread hown (hi.distinct.update fun _ J _ hJ => (hheld J hJ).symm)

theorem Inv.link (hi : Inv K s) (hpc : (s.threads I).pc = .link) {x : Item}
    (hx : s.heap (s.threads I).newItem = some x) :
    Inv K ((s.setItem (s.threads I).newItem { x with next := some (s.threads I).next }).setThread I
      { s.threads I with pc := .exchange }) := by
  have ht := hi.thread I
  have hp : (s.threads I).pc.private := by simp [hpc,Pc.private]
  set a := (s.threads I).newItem with ha
  set y : Item := { x with next := some (s.threads I).next } with hy
  have hheap : ∀ b, b ≠ a → (s.setItem a y).heap b = s.heap b := fun b hb =>
    Function.update_of_ne hb _ _
  have hmem : ∀ b ∈ s.nodes, (s.setItem a y).heap b = s.heap b := fun b hb =>
    hheap b (by rintro rfl; exact ht.notMem hp hb)
  have hvalue : valueOf (s.setItem a y).heap a = valueOf s.heap a := by
    simp [valueOf,State.setItem,hy,hx]
  have hown : ∀ pc, pc = .link ∨ pc = .exchange →
      ThreadInv K (s.setItem a y) I { s.threads I with pc := pc } := fun pc hor =>
    { le := ht.le
      lt := fun _ => ht.lt hp
      eq := by rintro rfl; simp at hor
      value := fun _ => hvalue.trans (ht.value hp)
      linked := fun _ => by simp [nextOf,State.setItem,hy,← ha]
      ne_initial := fun _ => ht.ne_initial hp
      notMem := fun _ => ht.notMem hp
      inserted := ht.inserted_congr rfl hmem }
  have hs : Inv K (s.setItem a y) :=
    { chain := hi.chain.congr fun b hb => nextOf_congr (hmem b hb)
      allocated := fun b hb => by
        obtain rfl | hne := eq_or_ne b a
        · simp [State.setItem]
        · rw [hheap b hne]
          exact hi.allocated b hb
      supply := supply_update hi.supply a _
      thread := fun J => by
        obtain rfl | hne := eq_or_ne J I
        · have hlink := hown .link (.inl rfl)
          rwa [← hpc] at hlink
        · exact (hi.thread J).congr rfl (fun hJ => hheap _ (hi.distinct J I hne hJ hp)) hmem
      distinct := hi.distinct }
  exact hs.setThread (hown .exchange (.inr rfl))
    (hi.distinct.update_same fun _ => ⟨hp,rfl⟩)

/-- The exchange publishes the node: its successor is still the root. -/
theorem Inv.exchange (hi : Inv K s) (hpc : (s.threads I).pc = .exchange)
    (hroot : s.root = (s.threads I).next) :
    Inv K { s.setThread I { s.threads I with pc := .loop, i := (s.threads I).i+1 } with
      root := (s.threads I).newItem
      succeeded := (I,(s.threads I).newItem) :: s.succeeded } := by
  have ht := hi.thread I
  have hp : (s.threads I).pc.private := by simp [hpc,Pc.private]
  have hlink := ht.linked hpc
  rw [← hroot] at hlink
  constructor
  · exact Chain.cons hi.chain hlink (ht.ne_initial hp)
  · intro b hb
    simp only [State.nodes,List.map_cons,List.mem_cons] at hb
    obtain rfl | rfl | hb := hb
    · exact hi.allocated _ (by simp)
    · exact ht.allocated hp
    · exact hi.allocated b (List.mem_cons_of_mem _ hb)
  · exact hi.supply
  · refine (Function.forall_update_iff s.threads _).mpr ⟨?_,fun J hne => ?_⟩
    · exact
        { le := ht.lt hp
          lt := by simp [Pc.private]
          eq := by simp
          value := by simp [Pc.private]
          linked := by simp
          ne_initial := by simp [Pc.private]
          notMem := by simp [Pc.private]
          inserted := by
            have hin := ht.inserted
            simp only [State.nodesOf,List.map_map] at hin
            simp [State.nodesOf,State.setThread,List.range_succ,hin,ht.value hp] }
    · have hJ := hi.thread J
      have hnodes : State.nodesOf (N := N) ⟨s.heap,(s.threads I).newItem,
          Function.update s.threads I { s.threads I with pc := .loop, i := (s.threads I).i+1 },
          (I,(s.threads I).newItem) :: s.succeeded⟩ J = s.nodesOf J := by
        simp [State.nodesOf,hne.symm]
      exact
        { le := hJ.le
          lt := hJ.lt
          eq := hJ.eq
          value := hJ.value
          linked := hJ.linked
          ne_initial := hJ.ne_initial
          notMem := fun hb hm => by
            simp only [State.nodes,List.map_cons,List.mem_cons] at hm
            exact hm.elim (hi.distinct J I hne hb hp) (hJ.notMem hb)
          inserted := by
            rw [← hJ.inserted]
            exact congrArg (List.map (valueOf s.heap)) hnodes }
  · exact hi.distinct.update_same (by simp [Pc.private])

theorem Inv.step (hi : Inv K s) {a : Action N} (h : insertNodes K a s = some s') : Inv K s' := by
  have ht := hi.thread a.thread
  have htrivial : ∀ pc, pc = .load ∨ pc = .link → ∀ r, (s.threads a.thread).pc.private →
      ThreadInv K s a.thread { s.threads a.thread with pc := pc, next := r } := fun pc hor r hp =>
    { ht with
      lt := fun _ => ht.lt hp
      eq := by rintro rfl; simp at hor
      value := fun _ => ht.value hp
      linked := by rintro rfl; simp at hor
      ne_initial := fun _ => ht.ne_initial hp
      notMem := fun _ => ht.notMem hp }
  simp only [insertNodes] at h
  cases hpc : (s.threads a.thread).pc <;> simp only [hpc] at h
  case loop =>
    split at h
    · rename_i hlt
      split at h
      · cases h
      · rename_i hfree
        cases h
        exact hi.alloc hfree hlt
    · rename_i hge
      cases h
      refine hi.setThread ?_ (hi.distinct.update_same (by simp [Pc.private]))
      exact { ht with
        lt := by simp [Pc.private]
        eq := fun _ => le_antisymm ht.le (not_lt.mp hge)
        value := by simp [Pc.private]
        linked := by simp
        ne_initial := by simp [Pc.private]
        notMem := by simp [Pc.private] }
  case load =>
    cases h
    have hp : (s.threads a.thread).pc.private := by simp [hpc,Pc.private]
    exact hi.setThread (htrivial _ (.inr rfl) _ hp) (hi.distinct.update_same fun _ => ⟨hp,rfl⟩)
  case link =>
    split at h
    · cases h
    · rename_i x hx
      cases h
      exact hi.link hpc hx
  case exchange =>
    split at h
    · rename_i hroot
      cases h
      exact hi.exchange hpc hroot.1
    · cases h
      have hp : (s.threads a.thread).pc.private := by simp [hpc,Pc.private]
      exact hi.setThread (htrivial _ (.inl rfl) _ hp) (hi.distinct.update_same fun _ => ⟨hp,rfl⟩)
  case done => cases h

theorem inv_invariant (N K : ℕ) (uninit : Item) : (system N K uninit).Invariant (Inv K) where
  step hi h := hi.step h
  start :=
    { chain := Chain.nil
      allocated := by simp [system,init,State.nodes]
      supply := supply_update ⟨0,fun _ _ => rfl⟩ initial uninit
      thread := fun I => by constructor <;> simp [system,init,Pc.private,State.nodesOf]
      distinct := fun I J _ hp => by simp [system,init,Pc.private] at hp }

end Steps

section Finishing

variable {N K : ℕ} {s s' : State N} {I : Fin N}

/-- The steps a thread still needs when it runs alone; a stale root costs one more round
of the inner loop. -/
def Thread.left (K : ℕ) (root : Addr) (t : Thread) : ℕ :=
  6*(K-t.i) + match t.pc with
    | .loop => 6
    | .load => 5
    | .link => if t.next = root then 4 else 7
    | .exchange => if t.next = root then 3 else 6
    | .done => 0

theorem Inv.alone_step (hi : Inv K s) (hd : (s.threads I).pc ≠ .done) :
    ∃ a s', insertNodes K a s = some s' ∧
      (s'.threads I).left K s'.root < (s.threads I).left K s.root ∧
      ∀ J, J ≠ I → s'.threads J = s.threads J := by
  have ht := hi.thread I
  obtain ⟨b,hb⟩ := hi.supply
  have hfresh := hb b le_rfl
  cases hpc : (s.threads I).pc
  case loop =>
    by_cases hlt : (s.threads I).i < K
    · refine ⟨⟨I,b,false⟩,_,by simp only [insertNodes,hpc,hlt,hfresh,if_true]; rfl,?_,?_⟩
      · simp [State.setThread,Thread.left,hpc]
      · exact fun J hJ => Function.update_of_ne hJ _ _
    · refine ⟨⟨I,b,false⟩,_,by simp only [insertNodes,hpc,hlt,if_false]; rfl,?_,?_⟩
      · simp [State.setThread,Thread.left,hpc]
      · exact fun J hJ => Function.update_of_ne hJ _ _
  case load =>
    refine ⟨⟨I,b,false⟩,_,by simp only [insertNodes,hpc]; rfl,?_,?_⟩
    · simp [State.setThread,Thread.left,hpc]
    · exact fun J hJ => Function.update_of_ne hJ _ _
  case link =>
    obtain ⟨x,hx⟩ := Option.ne_none_iff_exists'.mp (ht.allocated (by simp [hpc,Pc.private]))
    refine ⟨⟨I,b,false⟩,_,by simp only [insertNodes,hpc,hx]; rfl,?_,?_⟩
    · simp only [State.setThread,State.setItem,Thread.left,hpc,Function.update_self]
      split_ifs <;> omega
    · exact fun J hJ => Function.update_of_ne hJ _ _
  case exchange =>
    have hlt := ht.lt (by simp [hpc,Pc.private])
    by_cases hroot : s.root = (s.threads I).next
    · refine ⟨⟨I,b,false⟩,_,by simp only [insertNodes,hpc,hroot,and_self,if_true]; rfl,?_,?_⟩
      · simp only [State.setThread,Thread.left,hpc,Function.update_self,← hroot,if_true]
        omega
      · exact fun J hJ => Function.update_of_ne hJ _ _
    · refine ⟨⟨I,b,false⟩,_,by simp only [insertNodes,hpc,hroot,false_and,if_false]; rfl,?_,?_⟩
      · simp [State.setThread,Thread.left,hpc,Ne.symm hroot]
      · exact fun J hJ => Function.update_of_ne hJ _ _
  case done => exact absurd hpc hd

theorem Inv.alone_run (hi : Inv K s) (uninit : Item) (I : Fin N) :
    ∃ as s', (system N K uninit).run as s = some s' ∧ (s'.threads I).pc = .done ∧
      ∀ J, J ≠ I → s'.threads J = s.threads J := by
  induction hn : (s.threads I).left K s.root using Nat.strongRecOn generalizing s with
  | ind n ih =>
    by_cases hd : (s.threads I).pc = .done
    · exact ⟨[],s,rfl,hd,fun _ _ => rfl⟩
    · obtain ⟨a,u,hstep,hlt,hother⟩ := hi.alone_step hd
      obtain ⟨as,v,hrun,hdone,hrest⟩ := ih _ (hn ▸ hlt) (hi.step hstep) rfl
      exact ⟨a :: as,v,System.run_cons_eq_some.mpr ⟨u,hstep,hrun⟩,hdone,
        fun J hJ => (hrest J hJ).trans (hother J hJ)⟩

theorem Inv.finishing_run (hi : Inv K s) (uninit : Item) (l : List (Fin N)) :
    ∃ as s', (system N K uninit).run as s = some s' ∧
      ∀ I, I ∈ l ∨ (s.threads I).pc = .done → (s'.threads I).pc = .done := by
  induction l with
  | nil => exact ⟨[],s,rfl,by simp⟩
  | cons I l ih =>
    obtain ⟨as,u,hu,hdone⟩ := ih
    obtain ⟨bs,v,hv,hI,hrest⟩ :=
      ((inv_invariant N K uninit).run hi hu).alone_run uninit I
    refine ⟨as ++ bs,v,System.run_trans hu hv,fun J hJ => ?_⟩
    by_cases hne : J = I
    · exact hne ▸ hI
    · rw [hrest J hne]
      exact hdone J (hJ.imp_left fun hm => (List.mem_cons.mp hm).resolve_left hne)

theorem Inv.can_finish (hi : Inv K s) (uninit : Item) :
    ∃ as s', (system N K uninit).run as s = some s' ∧ Finished s' := by
  obtain ⟨as,s',hrun,hdone⟩ := hi.finishing_run uninit (List.finRange N)
  exact ⟨as,s',hrun,fun I => hdone I (.inl (List.mem_finRange I))⟩

/-- When all threads are done, each has inserted its values, the last one first. -/
theorem Inv.inserted_of_finished (hi : Inv K s) (hf : Finished s) (I : Fin N) :
    (s.nodesOf I).map (valueOf s.heap) =
      ((List.range K).map fun i => some (wrap 32 ((I*K+i : ℕ) : ℤ))).reverse := by
  have h := (hi.thread I).inserted
  rw [(hi.thread I).eq (hf I)] at h
  simpa [itemValue,wrap_unsigned] using h

theorem Inv.values_of_finished (hi : Inv K s) (hf : Finished s) :
    (s.nodes.map (valueOf s.heap)).Perm
      ((List.range (N*K)).map fun v : ℕ => some (wrap 32 (v : ℤ))) := by
  have hparts := (flatMap_filter_perm Prod.fst s.succeeded).map fun p => valueOf s.heap p.2
  rw [List.map_flatMap] at hparts
  have hblocks := congrArg (List.map fun v : ℕ => some (wrap 32 (v : ℤ))) (flatMap_blocks N K)
  rw [List.map_flatMap] at hblocks
  rw [← hblocks,State.nodes,List.map_map]
  refine hparts.symm.trans (List.Perm.flatMap_left _ fun I _ => ?_)
  have h := hi.inserted_of_finished hf I
  simp only [State.nodesOf,List.map_map,Function.comp_def] at h ⊢
  rw [h]
  exact List.reverse_perm _

end Finishing

/-- The list that `N` threads with `K` nodes each build, over all interleavings. -/
structure BuildsList (N K : ℕ) (uninit : Item) : Prop where
  chain : ∀ s, (system N K uninit).Reachable s →
    Chain (nextOf s.heap) initial s.root s.nodes ∧ s.nodes.Nodup ∧ initial ∉ s.nodes
  length : ∀ s, (system N K uninit).Reachable s → Finished s → s.nodes.length = N*K
  values : ∀ s, (system N K uninit).Reachable s → Finished s →
    (s.nodes.map (valueOf s.heap)).Perm
      ((List.range (N*K)).map fun v : ℕ => some (wrap 32 (v : ℤ)))
  order : ∀ s, (system N K uninit).Reachable s → Finished s → ∀ I,
    (s.nodesOf I).Sublist s.nodes ∧ (s.nodesOf I).map (valueOf s.heap) =
      ((List.range K).map fun i => some (wrap 32 ((I*K+i : ℕ) : ℤ))).reverse
  exact_values : N*K ≤ 2^31 → ∀ s, (system N K uninit).Reachable s → Finished s →
    (s.nodes.map (valueOf s.heap)).Perm ((List.range (N*K)).map fun v : ℕ => some (v : ℤ))
  can_finish : ∀ s, (system N K uninit).Reachable s →
    ∃ as s', (system N K uninit).run as s = some s' ∧ Finished s'

theorem builds_list (N K : ℕ) (uninit : Item) : BuildsList N K uninit := by
  have hinv := inv_invariant N K uninit
  refine ⟨?_,?_,?_,?_,?_,?_⟩
  · intro s hr
    have hchain := (hinv.reachable hr).chain
    exact ⟨hchain,hchain.nodup,hchain.last_notMem⟩
  · intro s hr hf
    simpa using ((hinv.reachable hr).values_of_finished hf).length_eq
  · intro s hr hf
    exact (hinv.reachable hr).values_of_finished hf
  · intro s hr hf I
    exact ⟨List.filter_sublist.map _,(hinv.reachable hr).inserted_of_finished hf I⟩
  · intro hle s hr hf
    have hvalues := (hinv.reachable hr).values_of_finished hf
    have hmap : ((List.range (N*K)).map fun v : ℕ => some (wrap 32 (v : ℤ))) =
        (List.range (N*K)).map fun v : ℕ => some (v : ℤ) := by
      apply List.map_congr_left
      intro v hv
      have hlt := List.mem_range.mp hv
      rw [wrap_eq (by omega) (by push_cast; omega)]
    rwa [hmap] at hvalues
  · intro s hr
    exact (hinv.reachable hr).can_finish uninit

/-- One thread with more nodes than `int` has non-negative values: no node holds the
value that does not fit. -/
theorem value_missing : ¬ ∀ (N K : ℕ) (uninit : Item) (s : State N),
    (system N K uninit).Reachable s → Finished s →
      ∀ v : ℕ, v < N*K → (s.nodes.map (valueOf s.heap)).count (some (v : ℤ)) = 1 := by
  intro h
  have hinv := inv_invariant 1 (2^31+1) ⟨none,0⟩
  obtain ⟨as,s,hrun,hf⟩ := hinv.start.can_finish ⟨none,0⟩
  have hcount := h 1 (2^31+1) ⟨none,0⟩ s ⟨as,hrun⟩ hf (2^31) (by norm_num)
  have hmem := List.count_pos_iff.mp (hcount ▸ Nat.one_pos)
  have hmap := (hinv.run hinv.start hrun).values_of_finished hf |>.mem_iff.mp hmem
  obtain ⟨v,-,hv⟩ := List.mem_map.mp hmap
  have hlt := wrap_lt 31 (v : ℤ)
  have heq := Option.some.inj hv
  norm_num at hlt heq
  omega

end InsertNodes
end SomeCode
