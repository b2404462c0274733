import SomeCode.Sse

/-! `vector_sum` of `inf06-0.s`. The addition of floats is a parameter. -/
namespace SomeCode
namespace Sse

open ByteMemory MachineCode X64 Isa

/-- The places of the labels are noted beside the instructions. -/
def vectorSum : Code := [
  .op (.base (.push .rbx)),
  .op (.base (.mov .rbx (.imm 0))),
  .op (.sal .rdi 2),
  .op (.movapsLoad .rsi .rbx), -- 3 = .loop
  .op (.addps .rdx .rbx),
  .op (.movapsStore .rcx .rbx),
  .op (.base (.add .rbx (.imm 16))),
  .op (.base (.cmp (.reg .rbx) (.reg .rdi))),
  .branch .ne 3,
  .op (.base (.pop .rbx)),
  .ret]

/-- `N` is an `int`; `R` is apart from each of the other arrays, or it is the same array. -/
structure Arrays where
  A : BitVec 64
  B : BitVec 64
  R : BitVec 64
  N : ℕ
  lt : N < 2^31
  aliasing_A : R = A ∨ Apart R (4*N) A (4*N)
  aliasing_B : R = B ∨ Apart R (4*N) B (4*N)

/-- A call of the routine: the caller need not clear the upper half of `rdi`, and the arrays are
apart from the places on the stack that are in use. -/
structure Call (v : Arrays) (s : State) : Prop where
  N : (s.reg .rdi).setWidth 32 = BitVec.ofNat 32 v.N
  A : s.reg .rsi = v.A
  B : s.reg .rdx = v.B
  R : s.reg .rcx = v.R
  stack : ∀ a ∈ [v.A,v.B,v.R], Apart (s.reg .rsp - 8) 16 a (4*v.N)
  unwritten : s.written = []
  sound : s.fault = false

variable (addFloat : BitVec 32 → BitVec 32 → BitVec 32)

/-- The elements of `R` are the sums; nothing is stored besides, but for the register that is saved
on the stack, and so nothing else is changed. -/
structure Arrays.IsSum (v : Arrays) (s t : State) : Prop where
  sound : t.fault = false
  elements : ∀ i < v.N, dword t.mem (elem v.R i) =
    addFloat (dword s.mem (elem v.A i)) (dword s.mem (elem v.B i))
  stored : ∀ w ∈ t.written, ∀ x, Within w.1 w.2 x →
    Within v.R (4*v.N) x ∨ Saved s.toState x
  outside : ∀ x, ¬ Within v.R (4*v.N) x → ¬ Saved s.toState x → t.mem x = s.mem x

/-- All packed accesses are aligned. -/
def Arrays.AllAligned (v : Arrays) : Prop := Aligned v.A ∧ Aligned v.B ∧ Aligned v.R

instance (v : Arrays) : Decidable v.AllAligned := inferInstanceAs (Decidable (_ ∧ _))

namespace Arrays

variable (v : Arrays)

def round (k : ℕ) (m : Memory 64) : Memory 64 :=
  setLanes m (elem v.R (4*k)) fun l =>
    addFloat (lanes m (elem v.A (4*k)) l) (lanes m (elem v.B (4*k)) l)

def rounds (m : Memory 64) : ℕ → Memory 64
  | 0 => m
  | k+1 => v.round addFloat k (rounds m k)

variable {addFloat} {v} {m : Memory 64} {i j k n : ℕ}

theorem fits (hn : n ≤ v.N) : 4*n ≤ 2^64 := by
  have hlt := v.lt
  omega

theorem apart_of_lt {a : BitVec 64} (h : v.R = a ∨ Apart v.R (4*v.N) a (4*v.N)) (hij : i < j)
    (hj : j < v.N) : Apart (elem v.R i) 4 (elem a j) 4 := by
  rcases h with hsame | hapart
  · rw [hsame]
    exact apart_elem_self a hij.ne (v.fits (by omega)) (v.fits (by omega))
  · exact apart_elem hapart (v.fits le_rfl) (by omega) hj

theorem dword_rounds {b : BitVec 64} (h : ∀ j < 4*n, Apart (elem v.R j) 4 b 4) :
    dword (v.rounds addFloat m n) b = dword m b := by
  induction n with
  | zero => rfl
  | succ n ih =>
    have hlanes : ∀ l < 4, Apart (elem (elem v.R (4*n)) l) 4 b 4 := by
      intro l hl
      rw [elem_elem]
      exact h (4*n+l) (by omega)
    rw [rounds,round,dword_setLanes_apart hlanes,ih fun j hj => h j (by omega)]

/-- An element of the other array is still there when its round comes. -/
theorem lanes_rounds {a : BitVec 64} (h : v.R = a ∨ Apart v.R (4*v.N) a (4*v.N))
    (hn : 4*(n+1) ≤ v.N) (l : Fin 4) :
    lanes (v.rounds addFloat m n) (elem a (4*n)) l = dword m (elem a (4*n+l)) := by
  have hl := l.isLt
  rw [lanes,elem_elem]
  exact dword_rounds fun j hj => apart_of_lt h (by omega) (by omega)

theorem rounds_element (hi : i < 4*n) (hn : 4*n ≤ v.N) : dword (v.rounds addFloat m n) (elem v.R i) =
    addFloat (dword m (elem v.A i)) (dword m (elem v.B i)) := by
  induction n with
  | zero => exact absurd hi (Nat.not_lt_zero i)
  | succ n ih =>
    by_cases hlt : i < 4*n
    · have hlanes : ∀ l < 4, Apart (elem (elem v.R (4*n)) l) 4 (elem v.R i) 4 := by
        intro l hl
        rw [elem_elem]
        exact apart_elem_self v.R (by omega) (v.fits (by omega)) (v.fits (by omega))
      rw [rounds,round,dword_setLanes_apart hlanes,ih hlt (by omega)]
    · obtain ⟨l,rfl⟩ := Nat.exists_eq_add_of_le (Nat.le_of_not_lt hlt)
      have hl : l < 4 := by omega
      have hset := congrFun (lanes_setLanes (v.rounds addFloat m n) (elem v.R (4*n)) fun l =>
        addFloat (lanes (v.rounds addFloat m n) (elem v.A (4*n)) l)
          (lanes (v.rounds addFloat m n) (elem v.B (4*n)) l)) ⟨l,hl⟩
      rw [lanes_rounds v.aliasing_A hn,lanes_rounds v.aliasing_B hn,lanes,elem_elem] at hset
      exact hset

theorem rounds_outside {x : BitVec 64} (hn : 4*n ≤ v.N) (hx : ¬ Within v.R (16*n) x) :
    v.rounds addFloat m n x = m x := by
  induction n with
  | zero => rfl
  | succ n ih =>
    have hfits := v.fits hn
    have hlast : ¬ Within (elem v.R (4*n)) 16 x := fun h =>
      hx ((h.of_add (by omega)).mono (by omega))
    rw [rounds,round,setLanes_of_not_within hlast,ih (by omega) fun h => hx (h.mono (by omega))]

end Arrays

/-! The run -/

def pushed (s : State) : Memory 64 := setQword s.mem (s.reg .rsp - 8) (s.reg .rbx)

structure LoopAt (v : Arrays) (s : State) (k : ℕ) (t : State) : Prop where
  sound : t.fault = false
  rbx : t.reg .rbx = BitVec.ofNat 64 (16*k)
  rdi : t.reg .rdi = s.reg .rdi <<< 2
  other : ∀ r, r ≠ .rbx → r ≠ .rdi → r ≠ .rsp → t.reg r = s.reg r
  rsp : t.reg .rsp = s.reg .rsp - 8
  mem : t.mem = v.rounds addFloat (pushed s) k
  written : t.written = (s.reg .rsp - 8,8) :: (List.range k).map fun j => (elem v.R (4*j),16)

variable {addFloat} {v : Arrays} {s t : State} {k : ℕ}

variable (addFloat) in
theorem loop_entered (h : Call v s) : ∃ t,
    (isa addFloat).Runs vectorSum (.inside 0 s) (.inside 3 t) ∧ LoopAt addFloat v s 0 t := by
  refine ⟨_,runs_ops 0 [.base (.push .rbx),.base (.mov .rbx (.imm 0)),.sal .rdi 2] s ⟨_,rfl⟩,?_⟩
  constructor
  · simp [exec,h.sound]
  · simp [exec,h.sound,X64.exec,X64.Operand.value]
  · simp [exec,h.sound,X64.exec]
  · intro r hrbx hrdi hrsp
    simp [exec,h.sound,X64.exec,hrbx,hrdi,hrsp]
  · simp [exec,h.sound,X64.exec]
  · simp [exec,h.sound,X64.exec,pushed,Arrays.rounds]
  · simp [exec,h.sound,X64.exec,stores,h.unwritten]

def body : List Op := [.movapsLoad .rsi .rbx,.addps .rdx .rbx,.movapsStore .rcx .rbx,
  .base (.add .rbx (.imm 16)),.base (.cmp (.reg .rbx) (.reg .rdi))]

theorem elem_rbx (a : BitVec 64) (k : ℕ) : a + BitVec.ofNat 64 (16*k) = elem a (4*k) := by
  rw [elem,← Nat.mul_assoc]

theorem aligned_elem (a : BitVec 64) (k : ℕ) : Aligned (elem a (4*k)) ↔ Aligned a := by
  rw [Aligned,Aligned,elem,BitVec.toNat_add,BitVec.toNat_ofNat]
  omega

theorem LoopAt.places (ht : LoopAt addFloat v s k t) (h : Call v s) :
    t.reg .rsi + t.reg .rbx = elem v.A (4*k) ∧ t.reg .rdx + t.reg .rbx = elem v.B (4*k) ∧
      t.reg .rcx + t.reg .rbx = elem v.R (4*k) := by
  have hA := ht.other .rsi (by decide) (by decide) (by decide)
  have hB := ht.other .rdx (by decide) (by decide) (by decide)
  have hR := ht.other .rcx (by decide) (by decide) (by decide)
  rw [hA,hB,hR,h.A,h.B,h.R,ht.rbx,elem_rbx,elem_rbx,elem_rbx]
  exact ⟨rfl,rfl,rfl⟩

theorem body_at (h : Call v s) (haligned : v.AllAligned) (ht : LoopAt addFloat v s k t) :
    LoopAt addFloat v s (k+1) ((isa addFloat).execAll body t) ∧
    Cond.ne.holds ((isa addFloat).execAll body t) =
      decide (BitVec.ofNat 64 (16*(k+1)) ≠ s.reg .rdi <<< 2) := by
  have hnext : t.reg .rbx + 16#64 = BitVec.ofNat 64 (16*(k+1)) := by
    rw [ht.rbx,Nat.mul_succ,BitVec.ofNat_add]
  have hplace := ht.places h
  have hall := haligned
  rw [Arrays.AllAligned,← aligned_elem v.A k,← aligned_elem v.B k,← aligned_elem v.R k] at hall
  have hbody : (isa addFloat).execAll body t =
      ⟨⟨Function.update t.reg .rbx (BitVec.ofNat 64 (16*(k+1))),v.round addFloat k t.mem,
        cmpFlags (BitVec.ofNat 64 (16*(k+1))) (s.reg .rdi <<< 2)⟩,
        fun l => addFloat (lanes t.mem (elem v.A (4*k)) l) (lanes t.mem (elem v.B (4*k)) l),
        t.written ++ [(elem v.R (4*k),16)],false⟩ := by
    simp [body,exec,State.access,ht.sound,hplace,hall,X64.exec,X64.Operand.value,X64.State.set,
      stores,hnext,ht.rdi,Arrays.round]
  have hkeep : ∀ r, r ≠ Reg.rbx →
      Function.update t.reg .rbx (BitVec.ofNat 64 (16*(k+1))) r = t.reg r :=
    fun r hr => Function.update_of_ne hr _ _
  rw [hbody]
  constructor
  · constructor
    · rfl
    · exact Function.update_self Reg.rbx _ t.reg
    · exact (hkeep .rdi (by decide)).trans ht.rdi
    · intro r hrbx hrdi hrsp
      exact (hkeep r hrbx).trans (ht.other r hrbx hrdi hrsp)
    · exact (hkeep .rsp (by decide)).trans ht.rsp
    · rw [ht.mem]
      rfl
    · rw [ht.written,List.range_succ,List.map_append]
      rfl
  · rw [Cond.holds,cmpFlags_zf,decide_not]

/-- A round with an address that is not aligned ends in a fault. -/
theorem body_fault (h : Call v s) (haligned : ¬ v.AllAligned) (ht : LoopAt addFloat v s k t) :
    ((isa addFloat).execAll body t).fault = true := by
  have hplace := ht.places h
  rw [Arrays.AllAligned,← aligned_elem v.A k,← aligned_elem v.B k,← aligned_elem v.R k] at haligned
  by_cases hA : Aligned (elem v.A (4*k))
  · by_cases hB : Aligned (elem v.B (4*k))
    · have hR : ¬ Aligned (elem v.R (4*k)) := fun hR => haligned ⟨hA,hB,hR⟩
      simp [body,exec,State.access,ht.sound,hplace,hA,hB,hR]
    · simp [body,exec,State.access,ht.sound,hplace,hA,hB]
  · simp [body,exec,State.access,ht.sound,hplace,hA]

theorem body_runs (t : State) : (isa addFloat).Runs vectorSum (.inside 3 t)
    (.inside 8 ((isa addFloat).execAll body t)) :=
  runs_ops 3 body t ⟨_,rfl⟩

variable (addFloat) in
theorem leave_runs (t : State) : ∃ a u, (isa addFloat).Runs vectorSum (.inside 9 t) (.outside a u) ∧
    u.fault = t.fault ∧ u.written = t.written ∧ u.mem = t.mem ∧
    (t.fault = false → a = qword t.mem (t.reg .rsp + 8)) := by
  have hpop : (isa addFloat).Runs vectorSum (.inside 9 t)
      (.inside 10 ((isa addFloat).execAll [.base (.pop .rbx)] t)) :=
    runs_ops 9 [.base (.pop .rbx)] t ⟨_,rfl⟩
  refine ⟨_,_,hpop.trans (Runs.ret rfl),?_⟩
  by_cases hf : t.fault = true
  · simp [exec_of_fault hf,hf]
  · rw [Bool.not_eq_true] at hf
    simp [exec_base hf,hf,X64.exec,stores]

/-! The arrays and the stack -/

section Stack

variable (h : Call v s)
include h

theorem apart_stack {a : BitVec 64} (ha : a ∈ [v.A,v.B,v.R]) :
    Apart (s.reg .rsp - 8) 8 a (4*v.N) ∧ Apart (s.reg .rsp) 8 a (4*v.N) := by
  have hstack := h.stack a ha
  refine ⟨fun x hx => hstack x (hx.mono (by decide)),fun x hx => hstack x ?_⟩
  have hback : s.reg .rsp = s.reg .rsp - 8 + BitVec.ofNat 64 8 := by bv_omega
  rw [hback] at hx
  exact hx.of_add (by decide)

theorem dword_pushed {a : BitVec 64} (ha : a ∈ [v.A,v.B,v.R]) {i : ℕ} (hi : i < v.N) :
    dword (pushed s) (elem a i) = dword s.mem (elem a i) :=
  load_store_apart (fun x hx hx' => (apart_stack h ha).1 x hx (within_elem hi (v.fits le_rfl) hx'))
    (by decide)

theorem qword_rounds {n : ℕ} (hn : 4*n ≤ v.N) (m : Memory 64) :
    qword (v.rounds addFloat m n) (s.reg .rsp) = qword m (s.reg .rsp) := by
  have hapart := (apart_stack h (a := v.R) (by simp)).2
  exact load_congr (fun x hx => Arrays.rounds_outside hn fun hR =>
    hapart x hx (hR.mono (by omega))) (by decide)

theorem isSum_of_rounds {n : ℕ} (hn : v.N = 4*n) {u t : State} {a : BitVec 64}
    (hu : LoopAt addFloat v s n u) (ht : (isa addFloat).Returns vectorSum s a t)
    (hsound : t.fault = u.fault) (hwritten : t.written = u.written) (hmem : t.mem = u.mem) :
    v.IsSum addFloat s t := by
  have hstored : ∀ w ∈ t.written, ∀ x, Within w.1 w.2 x →
      Within v.R (4*v.N) x ∨ Saved s.toState x := by
    intro w hw x hx
    rw [hwritten,hu.written,List.mem_cons,List.mem_map] at hw
    rcases hw with rfl | ⟨j,hj,rfl⟩
    · exact .inr hx
    · rw [List.mem_range] at hj
      have hfits := v.fits le_rfl
      exact .inl ((hx.of_add (by omega)).mono (by omega))
  refine ⟨hsound.trans hu.sound,fun i hi => ?_,hstored,fun x hx hsaved => ?_⟩
  · rw [hmem,hu.mem,Arrays.rounds_element (by omega) hn.ge,dword_pushed h (by simp) hi,
      dword_pushed h (by simp) hi]
  · exact recorded_of_returns ht x fun w hw hwx => (hstored w hw x hwx).elim hx hsaved

end Stack

/-- As many rounds are made as there are blocks of four elements. -/
theorem vectorSum_returns (h : Call v s) (haligned : v.AllAligned) {n : ℕ} (hpos : 0 < n)
    (hn : v.N = 4*n) (hrdi : s.reg .rdi <<< 2 = BitVec.ofNat 64 (4*v.N)) :
    ∃ t, (isa addFloat).Returns vectorSum s (qword s.mem (s.reg .rsp)) t ∧
      v.IsSum addFloat s t := by
  have hlt := v.lt
  have hcond : ∀ k < n, (BitVec.ofNat 64 (16*(k+1)) ≠ s.reg .rdi <<< 2) ↔ k+1 < n := by
    intro k hk
    rw [hrdi,hn,← Nat.mul_assoc,Ne,← BitVec.toNat_inj,BitVec.toNat_ofNat,BitVec.toNat_ofNat,
      Nat.mod_eq_of_lt (by omega),Nat.mod_eq_of_lt (by omega)]
    omega
  obtain ⟨m,rfl⟩ : ∃ m, n = m+1 := ⟨n-1,by omega⟩
  obtain ⟨t₀,hentry,hstart⟩ := loop_entered addFloat h
  have hround : ∀ k < m, ∀ t, LoopAt addFloat v s k t →
      ∃ u, (isa addFloat).Runs vectorSum (.inside 3 t) (.inside 3 u) ∧ LoopAt addFloat v s (k+1) u := by
    intro k hk t ht
    obtain ⟨hnext,hne⟩ := body_at h haligned ht
    rw [decide_eq_true ((hcond k (by omega)).mpr (by omega))] at hne
    exact ⟨_,(body_runs t).trans (Runs.taken rfl hne),hnext⟩
  obtain ⟨t₁,hloop,ht₁⟩ := Runs.loop hround hstart
  obtain ⟨hlast,hne⟩ := body_at h haligned ht₁
  rw [decide_eq_false fun hc => absurd ((hcond m (by omega)).mp hc) (by omega)] at hne
  obtain ⟨a,t,hleave,hsound,hwritten,hmem,ha⟩ :=
    leave_runs addFloat ((isa addFloat).execAll body t₁)
  have hrun := (((hentry.trans hloop).trans (body_runs t₁)).trans (Runs.passed rfl hne)).trans hleave
  have haddress : a = qword s.mem (s.reg .rsp) := by
    have hback : s.reg .rsp - 8 + 8 = s.reg .rsp := BitVec.sub_add_cancel ..
    rw [ha hlast.sound,hlast.rsp,hlast.mem,hback,qword_rounds h hn.ge]
    exact load_store_apart (apart_pushed _) (by decide)
  rw [haddress] at hrun
  exact ⟨t,hrun,isSum_of_rounds h hn hlast hrun hsound hwritten hmem⟩

/-- A return without a fault comes after some rounds, up to the offset in `rdi`. -/
theorem rounds_of_returns (h : Call v s) {a : BitVec 64}
    (ht : (isa addFloat).Returns vectorSum s a t) (hsound : t.fault = false) :
    v.AllAligned ∧ ∃ k, BitVec.ofNat 64 (16*(k+1)) = s.reg .rdi <<< 2 ∧
      ∀ j ≤ k, (elem v.R (4*j),16) ∈ t.written := by
  obtain ⟨t₀,hentry,hstart⟩ := loop_entered addFloat h
  let P : State → Prop := fun u => u.fault = true ∨ ∃ k, LoopAt addFloat v s k u
  let Q : State → Prop := fun u => u.fault = true ∨ v.AllAligned ∧ ∃ k, LoopAt addFloat v s (k+1) u ∧
    BitVec.ofNat 64 (16*(k+1)) = s.reg .rdi <<< 2
  let Goes : State → Prop := fun u =>
    (∃ w, (isa addFloat).Runs vectorSum (.inside 8 u) (.inside 3 w) ∧ P w) ∨
      ∃ w, (isa addFloat).Runs vectorSum (.inside 8 u) (.inside 9 w) ∧ Q w
  -- behind a fault it does not matter where the branch leads to
  have hfault : ∀ u : State, u.fault = true → Goes u := by
    intro u hf
    cases hne : Cond.ne.holds u with
    | true => exact .inl ⟨u,Runs.taken rfl hne,.inl hf⟩
    | false => exact .inr ⟨u,Runs.passed rfl hne,.inl hf⟩
  have hround : ∀ u, P u → Goes ((isa addFloat).execAll body u) := by
    intro u hu
    rcases hu with hf | ⟨k,hk⟩
    · exact hfault _ (by rwa [execAll_of_fault hf])
    by_cases haligned : v.AllAligned
    · obtain ⟨hnext,hne⟩ := body_at h haligned hk
      by_cases hend : BitVec.ofNat 64 (16*(k+1)) = s.reg .rdi <<< 2
      · rw [decide_eq_false (not_not_intro hend)] at hne
        exact .inr ⟨_,Runs.passed rfl hne,.inr ⟨haligned,k,hnext,hend⟩⟩
      · rw [decide_eq_true hend] at hne
        exact .inl ⟨_,Runs.taken rfl hne,.inr ⟨k+1,hnext⟩⟩
    · exact hfault _ (body_fault h haligned hk)
  obtain ⟨u,hexit,hu⟩ := Runs.exit_loop
    (fun u hu => ⟨8,_,by decide,body_runs u,hround u hu⟩) (Or.inr ⟨0,hstart⟩) (Runs.rest ht hentry)
  obtain ⟨b,w,hleave,hfault,hwritten,-,-⟩ := leave_runs addFloat u
  cases Runs.of_outside (Runs.rest hexit hleave)
  rcases hu with hf | ⟨haligned,k,hk,hend⟩
  · rw [hfault,hf] at hsound
    cases hsound
  · refine ⟨haligned,k,hend,fun j hj => ?_⟩
    rw [hwritten,hk.written,List.mem_cons,List.mem_map]
    exact .inr ⟨j,List.mem_range.mpr (by omega),rfl⟩

theorem block_lt {n j : ℕ} (hn : v.N = 4*n)
    (hblock : ∀ x, Within (elem v.R (4*j)) 16 x → Within v.R (4*v.N) x ∨ Saved s.toState x)
    (hj : j ≤ n) : j < n := by
  by_contra hge
  obtain rfl : j = n := by omega
  have hlt := v.lt
  have hbeyond : ∀ i < 16, Saved s.toState (elem v.R (4*j) + BitVec.ofNat 64 i) := by
    intro i hi
    have hin : Within (elem v.R (4*j)) 16 (elem v.R (4*j) + BitVec.ofNat 64 i) :=
      within_add (by decide) hi
    refine (hblock _ hin).resolve_left fun hR => ?_
    rw [hn] at hR
    exact not_within_add hR (by omega) hin
  have hfirst := hbeyond 0 (by decide)
  have hninth := hbeyond 8 (by decide)
  rw [Saved,Within] at hfirst hninth
  bv_omega

/-- The routine does what it should for a positive multiple of four elements at aligned addresses,
where the upper half of `rdi` adds nothing to the offset. -/
theorem vectorSum_isSum_iff (h : Call v s) :
    (∃ t, (isa addFloat).Returns vectorSum s (qword s.mem (s.reg .rsp)) t ∧ v.IsSum addFloat s t) ↔
      0 < v.N ∧ 4 ∣ v.N ∧ v.AllAligned ∧ s.reg .rdi <<< 2 = BitVec.ofNat 64 (4*v.N) := by
  constructor
  · rintro ⟨t,ht,hsum⟩
    obtain ⟨haligned,k,hend,hwritten⟩ := rounds_of_returns h ht hsum.sound
    have hlt := v.lt
    have hN := congrArg BitVec.toNat h.N
    have hoffset := congrArg BitVec.toNat hend
    rw [BitVec.toNat_setWidth,BitVec.toNat_ofNat] at hN
    rw [BitVec.toNat_shiftLeft,BitVec.toNat_ofNat,Nat.shiftLeft_eq] at hoffset
    obtain ⟨n,hn⟩ : 4 ∣ v.N := by omega
    have hk : k < n := by
      by_contra hge
      have hblock := hsum.stored _ (hwritten n (by omega))
      exact absurd (block_lt hn hblock le_rfl) (lt_irrefl n)
    have hall : 16*(k+1) = 4*v.N := by omega
    exact ⟨by omega,⟨n,hn⟩,haligned,by rw [← hend,hall]⟩
  · rintro ⟨hpos,⟨n,hn⟩,haligned,hrdi⟩
    exact vectorSum_returns h haligned (by omega) hn hrdi

/-! Up to four zeros at three places -/

theorem sample_apart {N : ℕ} (hN : N ≤ 4) {a : BitVec 64} (h : 16 ≤ (a-0x3000).toNat)
    (h' : 16 ≤ (0x3000-a).toNat) : Apart 0x3000 (4*N) a (4*N) :=
  apart_of_le (by omega) (by omega)

def sampleArrays (N : ℕ) (hN : N ≤ 4) : Arrays where
  A := 0x1000
  B := 0x2000
  R := 0x3000
  N := N
  lt := by omega
  aliasing_A := .inr (sample_apart hN (by decide) (by decide))
  aliasing_B := .inr (sample_apart hN (by decide) (by decide))

def sampleState (N : ℕ) : State where
  reg r := match r with
    | .rdi => BitVec.ofNat 64 N | .rsi => 0x1000 | .rdx => 0x2000 | .rcx => 0x3000
    | .rsp => 0x8008 | _ => 0
  mem _ := 0
  flags := ⟨false,false,false⟩
  xmm0 _ := 0
  written := []
  fault := false

theorem sampleCall (N : ℕ) (hN : N ≤ 4) : Call (sampleArrays N hN) (sampleState N) where
  N := by
    apply BitVec.eq_of_toNat_eq
    simp [sampleState,sampleArrays]
  A := rfl
  B := rfl
  R := rfl
  stack a ha := by
    have hapart : ∀ a : BitVec 64, 16 ≤ (a-0x8000).toNat → 16 ≤ (0x8000-a).toNat →
        Apart 0x8000 16 a (4*N) := fun a h h' => apart_of_le h (by omega)
    have hrsp : (sampleState N).reg .rsp = 0x8008 := rfl
    have hsaved : (0x8008 : BitVec 64) - 8 = 0x8000 := by decide
    rw [hrsp,hsaved]
    simp only [sampleArrays,List.mem_cons,List.not_mem_nil,or_false] at ha
    rcases ha with rfl | rfl | rfl
    · exact hapart 0x1000 (by decide) (by decide)
    · exact hapart 0x2000 (by decide) (by decide)
    · exact hapart 0x3000 (by decide) (by decide)
  unwritten := rfl
  sound := rfl

theorem vectorSum_isSum_iff_four :
    (∃ t, (isa fun x y => x+y).Returns vectorSum (sampleState 4) 0 t ∧
      (sampleArrays 4 le_rfl).IsSum (fun x y => x+y) (sampleState 4) t) ↔
    0 < 4 ∧ 4 ∣ 4 ∧ (sampleArrays 4 le_rfl).AllAligned ∧ (4 : BitVec 64) <<< 2 = 16 :=
  vectorSum_isSum_iff (sampleCall 4 le_rfl)

/-- The end of three elements is passed over. -/
theorem not_isSum_three :
    ¬ ∃ t, (isa fun x y => x+y).Returns vectorSum (sampleState 3) 0 t ∧
      (sampleArrays 3 (by decide)).IsSum (fun x y => x+y) (sampleState 3) t := by
  rintro ⟨t,ht,hsum⟩
  obtain ⟨-,k,hend,-⟩ := rounds_of_returns (sampleCall 3 (by decide)) ht hsum.sound
  have hoffset := congrArg BitVec.toNat hend
  change 16*(k+1) % 2^64 = 12 at hoffset
  omega

end Sse
end SomeCode
