import SomeCode.X64

/-! The addition of vectors in `inf05-0_t.s` and `inf05-1.s`, and its original in `c_inf05-0.c`.
The assembly moves two elements at a time: each round also writes to the word behind its element. -/
namespace SomeCode
namespace X64

open ByteMemory MachineCode Isa

/-- `R` is apart from the other arrays, or it is the array `A`. -/
structure Vectors where
  A : BitVec 64
  B : BitVec 64
  R : BitVec 64
  N : ℕ
  lt : N < 2^31
  aliasing : Apart R (4*N) A (4*N) ∧ Apart R (4*N) B (4*N) ∨
    R = A ∧ (R = B ∨ Apart R (4*N) B (4*N))

def elem (a : BitVec 64) (i : ℕ) : BitVec 64 := a + BitVec.ofNat 64 (4*i)

namespace Vectors

variable (v : Vectors)

/-- A round of the loop in C -/
def cRound (i : ℕ) (m : Memory 64) : Memory 64 :=
  setDword m (elem v.R i) (dword m (elem v.A i) + dword m (elem v.B i))

/-- The memory when `summ` of `c_inf05-0.c` has made that many rounds -/
def cSumm (m : Memory 64) : ℕ → Memory 64
  | 0 => m
  | i+1 => v.cRound i (cSumm m i)

/-- A round of the loop in assembly -/
def asmRound (i : ℕ) (m : Memory 64) : Memory 64 :=
  setQword m (elem v.R i) (qword m (elem v.A i) + qword m (elem v.B i))

def asmSumm (m : Memory 64) : ℕ → Memory 64
  | 0 => m
  | i+1 => v.asmRound i (asmSumm m i)

/-- The elements of `R` are the sums, and nothing is changed besides, but for exempt bytes. -/
structure IsSum (exempt : BitVec 64 → Prop) (m m' : Memory 64) : Prop where
  elements : ∀ i < v.N, dword m' (elem v.R i) = dword m (elem v.A i) + dword m (elem v.B i)
  outside : ∀ x, ¬ Within v.R (4*v.N) x → ¬ exempt x → m' x = m x

/-- What round `i` writes to the word behind its element -/
def behind (m : Memory 64) (i : ℕ) : BitVec 32 :=
  dword m (elem v.A (i+1)) + dword m (elem v.B (i+1)) +
    carry (dword m (elem v.A i)) (dword m (elem v.B i))

/-- Round `i` leaves the word behind its element as it is. -/
def Spares (m : Memory 64) (i : ℕ) : Prop :=
  v.behind (v.cSumm m i) i = dword (v.cSumm m i) (elem v.R (i+1))

def excess (m : Memory 64) (i : ℕ) : BitVec 32 :=
  dword m (elem v.R (i+1)) + carry (dword m (elem v.R 0)) (dword m (elem v.R 0))

/-- Where all arrays are the same, the other elements undo what the first one carries over. -/
def Absorbs (m : Memory 64) : Prop :=
  ∀ i < v.N, if i+1 < v.N then v.excess m i + v.excess m i = 0 else v.excess m i = 0

instance (m : Memory 64) (i : ℕ) : Decidable (v.Spares m i) :=
  inferInstanceAs (Decidable (_ = _))

instance (m : Memory 64) : Decidable (v.Absorbs m) :=
  inferInstanceAs (Decidable
    (∀ i < v.N, if i+1 < v.N then v.excess m i + v.excess m i = 0 else v.excess m i = 0))

/-- When the words written behind the elements do no harm -/
def Harmless (m : Memory 64) : Prop :=
  if v.R = v.A then if v.R = v.B then v.Absorbs m else ∀ i < v.N, v.Spares m i
  else v.N = 0 ∨ v.Spares m (v.N-1)

instance (m : Memory 64) : Decidable (v.Harmless m) :=
  inferInstanceAs (Decidable (if v.R = v.A then if v.R = v.B then v.Absorbs m else
    ∀ i < v.N, v.Spares m i else v.N = 0 ∨ v.Spares m (v.N-1)))

/-- `R` holds the sums before the call. -/
def Summed (m : Memory 64) : Prop :=
  ∀ i < v.N, dword m (elem v.R i) = dword m (elem v.A i) + dword m (elem v.B i)

instance (m : Memory 64) : Decidable (v.Summed m) :=
  inferInstanceAs (Decidable (∀ i < v.N, _ = _))

/-- When the call does no harm: without a round the sums have to be there already. -/
def Right (count : BitVec 64) (m : Memory 64) : Prop :=
  if count.toInt ≤ 0 then v.Summed m else v.Harmless m

instance (count : BitVec 64) (m : Memory 64) : Decidable (v.Right count m) :=
  inferInstanceAs (Decidable (if count.toInt ≤ 0 then v.Summed m else v.Harmless m))

end Vectors

/-! Places of elements -/

theorem elem_add_four (a : BitVec 64) (i : ℕ) : elem a i + 4 = elem a (i+1) := by
  rw [elem,BitVec.add_assoc,elem,Nat.mul_succ,BitVec.ofNat_add]
  rfl

theorem within_elem {a x : BitVec 64} {i n : ℕ} (hi : i < n) (hn : 4*n ≤ 2^64)
    (h : Within (elem a i) 4 x) : Within a (4*n) x :=
  (h.of_add (by omega)).mono (by omega)

theorem within_succ {a x : BitVec 64} {n : ℕ} (hn : 4*(n+1) ≤ 2^64) (h : Within a (4*(n+1)) x) :
    Within a (4*n) x ∨ Within (elem a n) 4 x := by
  obtain ⟨k,hk,rfl⟩ := h.exists_eq
  by_cases hlow : k < 4*n
  · exact .inl (within_add (by omega) hlow)
  · obtain ⟨j,rfl⟩ := Nat.exists_eq_add_of_le (Nat.le_of_not_lt hlow)
    rw [BitVec.ofNat_add,← BitVec.add_assoc]
    exact .inr (within_add (by decide) (by omega))

theorem apart_elem_self (a : BitVec 64) {i j : ℕ} (hne : i ≠ j) (hi : 4*(i+1) ≤ 2^64)
    (hj : 4*(j+1) ≤ 2^64) : Apart (elem a i) 4 (elem a j) 4 := by
  intro x hx hx'
  obtain ⟨k,hk,rfl⟩ := hx.exists_eq
  obtain ⟨l,hl,heq⟩ := hx'.exists_eq
  rw [elem,elem,BitVec.add_assoc,BitVec.add_assoc,← BitVec.ofNat_add,← BitVec.ofNat_add,
    BitVec.add_right_inj] at heq
  have hnat := congrArg BitVec.toNat heq
  rw [BitVec.toNat_ofNat,BitVec.toNat_ofNat,Nat.mod_eq_of_lt (by omega),
    Nat.mod_eq_of_lt (by omega)] at hnat
  omega

theorem apart_elem {r a : BitVec 64} {n i j : ℕ} (h : Apart r (4*n) a (4*n)) (hn : 4*n ≤ 2^64)
    (hi : i < n) (hj : j < n) : Apart (elem r i) 4 (elem a j) 4 :=
  fun x hx hx' => h x (within_elem hi hn hx) (within_elem hj hn hx')

theorem within_add_four {a x : BitVec 64} {n : ℕ} : Within (a+4) n x ↔ Within a n (x-4) := by
  have hsub : x-(a+4) = x-4-a := by bv_omega
  rw [Within,Within,hsub]

/-- Behind two arrays that are apart, the next element of one of them is apart from the last one
of the other. -/
theorem apart_elem_succ {r a : BitVec 64} {n : ℕ} (h : Apart r (4*(n+2)) a (4*(n+2)))
    (hn : 4*(n+2) ≤ 2^64) : Apart (elem r (n+1)) 4 (elem a (n+2)) 4 := by
  intro x hx hx'
  rw [← elem_add_four,within_add_four] at hx hx'
  exact h (x-4) (within_elem (by omega) hn hx) (within_elem (by omega) hn hx')

theorem dword_setDword_apart {m : Memory 64} {a b : BitVec 64} (h : Apart a 4 b 4)
    (v : BitVec 32) : dword (setDword m a v) b = dword m b :=
  load_store_apart h (by decide)

theorem dword_setDword_self (m : Memory 64) (a : BitVec 64) (v : BitVec 32) :
    dword (setDword m a v) a = v :=
  load_store_self (n := 4) (by decide) v

theorem setDword_of_not_within {m : Memory 64} {a x : BitVec 64} (h : ¬ Within a 4 x)
    (v : BitVec 32) : setDword m a v x = m x :=
  store_of_not_within h

theorem setDword_dword (m : Memory 64) (a : BitVec 64) : setDword m a (dword m a) = m :=
  store_load_self m 4 a (by decide)

theorem setDword_setDword (m : Memory 64) (a : BitVec 64) (v w : BitVec 32) :
    setDword (setDword m a v) a w = setDword m a w := by
  funext x
  rw [setDword,setDword,setDword,store,store,store]
  split <;> rfl

namespace Vectors

variable {v : Vectors} {m : Memory 64} {i j n : ℕ}

theorem asmRound_eq (v : Vectors) (i : ℕ) (m : Memory 64) :
    v.asmRound i m = setDword (v.cRound i m) (elem v.R (i+1)) (v.behind m i) := by
  rw [asmRound,qword_eq,qword_eq,append_add,setQword_append,elem_add_four,elem_add_four,
    elem_add_four]
  rfl

theorem fits (v : Vectors) (hn : n ≤ v.N+1) : 4*n ≤ 2^64 := by
  have hlt := v.lt
  omega

theorem apart_A (hij : i < j) (hj : j < v.N) : Apart (elem v.R i) 4 (elem v.A j) 4 := by
  have hn := v.fits (Nat.le_succ v.N)
  obtain ⟨hA,-⟩ | ⟨hR,-⟩ := v.aliasing
  · exact apart_elem hA hn (hij.trans hj) hj
  · rw [hR]
    exact apart_elem_self _ hij.ne (by omega) (by omega)

theorem apart_B (hij : i < j) (hj : j < v.N) : Apart (elem v.R i) 4 (elem v.B j) 4 := by
  have hn := v.fits (Nat.le_succ v.N)
  obtain ⟨-,hB⟩ | ⟨-,hR | hB⟩ := v.aliasing
  · exact apart_elem hB hn (hij.trans hj) hj
  · rw [hR]
    exact apart_elem_self _ hij.ne (by omega) (by omega)
  · exact apart_elem hB hn (hij.trans hj) hj

theorem apart_R (hne : i ≠ j) (hi : i ≤ v.N) (hj : j ≤ v.N) :
    Apart (elem v.R i) 4 (elem v.R j) 4 :=
  apart_elem_self _ hne (v.fits (by omega)) (v.fits (by omega))

/-! The loop in C -/

theorem dword_cRound {b : BitVec 64} (h : Apart (elem v.R i) 4 b 4) :
    dword (v.cRound i m) b = dword m b :=
  dword_setDword_apart h _

theorem dword_cSumm {b : BitVec 64} (h : ∀ j < n, Apart (elem v.R j) 4 b 4) :
    dword (v.cSumm m n) b = dword m b := by
  induction n with
  | zero => rfl
  | succ n ih =>
    rw [cSumm,dword_cRound (h n (Nat.lt_succ_self n)),ih fun j hj => h j (Nat.lt_succ_of_lt hj)]

theorem cSumm_element (hi : i < n) (hn : n ≤ v.N) :
    dword (v.cSumm m n) (elem v.R i) = dword m (elem v.A i) + dword m (elem v.B i) := by
  induction n with
  | zero => exact absurd hi (Nat.not_lt_zero i)
  | succ n ih =>
    rw [cSumm]
    obtain hlt | rfl := Nat.lt_succ_iff_lt_or_eq.mp hi
    · rw [dword_cRound (apart_R (by omega) (by omega) (by omega)),ih hlt (by omega)]
    · rw [cRound,dword_setDword_self,dword_cSumm fun j hj => apart_A hj (by omega),
        dword_cSumm fun j hj => apart_B hj (by omega)]

theorem cSumm_outside {x : BitVec 64} (hn : n ≤ v.N) (hx : ¬ Within v.R (4*n) x) :
    v.cSumm m n x = m x := by
  induction n with
  | zero => rfl
  | succ n ih =>
    have hlast : ¬ Within (elem v.R n) 4 x := fun h =>
      hx (within_elem (Nat.lt_succ_self n) (v.fits (by omega)) h)
    rw [cSumm,cRound,setDword_of_not_within hlast,ih (by omega) fun h => hx (h.mono (by omega))]

theorem cSumm_isSum (v : Vectors) (m : Memory 64) :
    v.IsSum (fun _ => False) m (v.cSumm m v.N) where
  elements _ hi := cSumm_element hi (Nat.le_refl _)
  outside _ hx _ := cSumm_outside (Nat.le_refl _) hx

/-! The loop in assembly -/

theorem dword_asmRound {b : BitVec 64} (h : Apart (elem v.R i) 4 b 4)
    (h' : Apart (elem v.R (i+1)) 4 b 4) : dword (v.asmRound i m) b = dword m b := by
  rw [asmRound_eq,dword_setDword_apart h',dword_cRound h]

theorem dword_asmSumm {b : BitVec 64} (h : ∀ j ≤ n, Apart (elem v.R j) 4 b 4) :
    dword (v.asmSumm m n) b = dword m b := by
  induction n with
  | zero => rfl
  | succ n ih =>
    rw [asmSumm,dword_asmRound (h n (by omega)) (h (n+1) (by omega)),ih fun j hj => h j (by omega)]

theorem asmSumm_element (hi : i < n) (hn : n ≤ v.N) : dword (v.asmSumm m n) (elem v.R i) =
    dword (v.asmSumm m i) (elem v.A i) + dword (v.asmSumm m i) (elem v.B i) := by
  induction n with
  | zero => exact absurd hi (Nat.not_lt_zero i)
  | succ n ih =>
    rw [asmSumm]
    obtain hlt | rfl := Nat.lt_succ_iff_lt_or_eq.mp hi
    · rw [dword_asmRound (apart_R (by omega) (by omega) (by omega))
        (apart_R (by omega) (by omega) (by omega)),ih hlt (by omega)]
    · rw [asmRound_eq,dword_setDword_apart (apart_R (by omega) (by omega) (by omega)),cRound,
        dword_setDword_self]

theorem asmSumm_behind (v : Vectors) (m : Memory 64) (n : ℕ) :
    dword (v.asmSumm m (n+1)) (elem v.R (n+1)) = v.behind (v.asmSumm m n) n := by
  rw [asmSumm,asmRound_eq,dword_setDword_self]

theorem asmSumm_outside {x : BitVec 64} (hn : n ≤ v.N) (hx : ¬ Within v.R (4*(n+1)) x) :
    v.asmSumm m n x = m x := by
  induction n with
  | zero => rfl
  | succ n ih =>
    have hlast : ¬ Within (elem v.R n) 4 x := fun h =>
      hx (within_elem (by omega) (v.fits (by omega)) h)
    have hbehind : ¬ Within (elem v.R (n+1)) 4 x := fun h =>
      hx (within_elem (by omega) (v.fits (by omega)) h)
    rw [asmSumm,asmRound_eq,setDword_of_not_within hbehind,cRound,setDword_of_not_within hlast,
      ih (by omega) fun h => hx (h.mono (by omega))]

theorem asmSumm_isSum_iff {exempt : BitVec 64 → Prop}
    (hexempt : ∀ x, Within (elem v.R v.N) 4 x → ¬ exempt x) :
    v.IsSum exempt m (v.asmSumm m v.N) ↔
      (∀ i < v.N, dword (v.asmSumm m i) (elem v.A i) + dword (v.asmSumm m i) (elem v.B i) =
        dword m (elem v.A i) + dword m (elem v.B i)) ∧
      ∀ n, v.N = n+1 → v.behind (v.asmSumm m n) n = dword m (elem v.R (n+1)) := by
  have hbeyond : ∀ x, Within (elem v.R v.N) 4 x → ¬ Within v.R (4*v.N) x := fun x hx hin =>
    not_within_add hin (v.fits (Nat.le_refl _)) hx
  constructor
  · intro h
    refine ⟨fun i hi => ?_,fun n hn => ?_⟩
    · rw [← asmSumm_element hi (Nat.le_refl _),h.elements i hi]
    · rw [← asmSumm_behind,← hn]
      exact load_congr (fun x hx => h.outside x (hbeyond x hx) (hexempt x hx)) (by decide)
  · rintro ⟨helements,hbehind⟩
    refine ⟨fun i hi => ?_,fun x hx _ => ?_⟩
    · rw [asmSumm_element hi (Nat.le_refl _),helements i hi]
    · by_cases hlast : Within (elem v.R v.N) 4 x
      · cases hN : v.N with
        | zero => rfl
        | succ n =>
          have heq := hbehind n hN
          rw [← asmSumm_behind] at heq
          rw [hN] at hlast
          obtain ⟨k,hk,rfl⟩ := hlast.exists_eq
          exact load_eq_iff.mp heq k hk
      · refine asmSumm_outside (Nat.le_refl _) fun hin => ?_
        exact (within_succ (v.fits (Nat.le_refl _)) hin).elim hx hlast

theorem dword_cSumm_behind (hn : n < v.N) :
    dword (v.cSumm m n) (elem v.R (n+1)) = dword m (elem v.R (n+1)) :=
  dword_cSumm fun _ hj => apart_R (by omega) (by omega) (by omega)

section Disjoint

variable (hA : Apart v.R (4*v.N) v.A (4*v.N)) (hB : Apart v.R (4*v.N) v.B (4*v.N))
include hA hB

/-- The next round makes up for what was written behind an element. -/
theorem asmSumm_of_disjoint (hn : n < v.N) : v.asmSumm m (n+1) =
    setDword (v.cSumm m (n+1)) (elem v.R (n+1)) (v.behind (v.asmSumm m n) n) := by
  have hfits := v.fits (Nat.le_succ v.N)
  induction n with
  | zero => exact asmRound_eq v 0 m
  | succ n ih =>
    have hround : v.cRound (n+1) (v.asmSumm m (n+1)) = v.cSumm m (n+2) := by
      rw [ih (by omega),cRound,setDword_setDword,
        dword_setDword_apart (apart_elem hA hfits hn hn),
        dword_setDword_apart (apart_elem hB hfits hn hn)]
      rfl
    rw [asmSumm,asmRound_eq,hround]

theorem behind_of_disjoint (hn : v.N = n+1) :
    v.behind (v.asmSumm m n) n = v.behind (v.cSumm m n) n := by
  have hfits := v.fits (Nat.le_succ v.N)
  cases n with
  | zero => rfl
  | succ n =>
    have hlast : n+1 < v.N := by omega
    rw [hn] at hfits
    have hA' := apart_elem_succ (hn ▸ hA) hfits
    have hB' := apart_elem_succ (hn ▸ hB) hfits
    rw [← hn] at hfits
    rw [asmSumm_of_disjoint hA hB (by omega),behind,dword_setDword_apart hA',
      dword_setDword_apart hB',dword_setDword_apart (apart_elem hA hfits hlast hlast),
      dword_setDword_apart (apart_elem hB hfits hlast hlast),behind]

theorem isSum_iff_of_disjoint {exempt : BitVec 64 → Prop}
    (hexempt : ∀ x, Within (elem v.R v.N) 4 x → ¬ exempt x) :
    v.IsSum exempt m (v.asmSumm m v.N) ↔ v.N = 0 ∨ v.Spares m (v.N-1) := by
  have hfits := v.fits (Nat.le_succ v.N)
  have helements : ∀ i < v.N,
      dword (v.asmSumm m i) (elem v.A i) + dword (v.asmSumm m i) (elem v.B i) =
        dword m (elem v.A i) + dword m (elem v.B i) := by
    intro i hi
    rw [dword_asmSumm fun j hj => apart_elem hA hfits (by omega) hi,
      dword_asmSumm fun j hj => apart_elem hB hfits (by omega) hi]
  rw [asmSumm_isSum_iff hexempt,and_iff_right helements]
  cases hN : v.N with
  | zero => simp
  | succ n =>
    have hspares : v.Spares m n ↔ v.behind (v.asmSumm m n) n = dword m (elem v.R (n+1)) := by
      rw [Spares,dword_cSumm_behind (by omega),behind_of_disjoint hA hB hN]
    rw [Nat.add_sub_cancel,hspares]
    simp

end Disjoint

/-- As long as every round spares the next element, the loop does what C does. -/
theorem asmSumm_of_spares (hn : n ≤ v.N) (h : ∀ i < n, v.Spares m i) :
    v.asmSumm m n = v.cSumm m n := by
  induction n with
  | zero => rfl
  | succ n ih =>
    have hkeep : dword (v.cRound n (v.cSumm m n)) (elem v.R (n+1)) =
        dword (v.cSumm m n) (elem v.R (n+1)) :=
      dword_cRound (apart_R (by omega) (by omega) (by omega))
    have hspares := h n (Nat.lt_succ_self n)
    rw [Spares,← hkeep] at hspares
    rw [asmSumm,ih (by omega) fun i hi => h i (by omega),asmRound_eq,hspares,setDword_dword,cSumm]

theorem isSum_iff_of_inPlace (hR : v.R = v.A) (hB : Apart v.R (4*v.N) v.B (4*v.N))
    {exempt : BitVec 64 → Prop} (hexempt : ∀ x, Within (elem v.R v.N) 4 x → ¬ exempt x) :
    v.IsSum exempt m (v.asmSumm m v.N) ↔ ∀ i < v.N, v.Spares m i := by
  have hfits := v.fits (Nat.le_succ v.N)
  rw [asmSumm_isSum_iff hexempt]
  constructor
  · rintro ⟨helements,htail⟩
    have hbehind : ∀ i < v.N, v.behind (v.asmSumm m i) i = dword m (elem v.R (i+1)) := by
      intro i hi
      obtain hlt | hlast : i+1 < v.N ∨ v.N = i+1 := by omega
      · have heq := helements (i+1) hlt
        rw [dword_asmSumm fun j hj => apart_elem hB hfits (by omega) hlt,BitVec.add_left_inj,
          ← hR] at heq
        rw [← asmSumm_behind,heq]
      · exact htail i hlast
    intro i hi
    induction i using Nat.strongRecOn with
    | ind i ih =>
      have hsame := asmSumm_of_spares (Nat.le_of_lt hi) fun j hj => ih j hj (hj.trans hi)
      rw [Spares,← hsame,hbehind i hi,hsame,dword_cSumm_behind hi]
  · intro h
    refine ⟨fun i hi => ?_,fun n hn => ?_⟩
    · rw [asmSumm_of_spares (Nat.le_of_lt hi) fun j hj => h j (hj.trans hi),
        dword_cSumm fun j hj => apart_A hj hi,dword_cSumm fun j hj => apart_B hj hi]
    · have hspares := h n (by omega)
      rw [asmSumm_of_spares (by omega) fun j hj => h j (by omega),hspares,
        dword_cSumm_behind (by omega)]

/-! The sum of an array with itself -/

theorem carry_double {x c : BitVec 32} (hc : c = 0 ∨ c = 1) (h : (x+c) + (x+c) = 0) :
    carry (x+x+c) (x+x+c) = c := by
  have hvalue : x+x+c = -c := by
    have hsum : x+x+c + c = 0 := by rw [← h]; ac_rfl
    rw [← BitVec.add_sub_cancel (x+x+c) c,hsum]
    exact BitVec.zero_sub c
  rw [hvalue]
  obtain rfl | rfl := hc <;> decide

theorem double_eq_iff (w x : BitVec 32) : (w+x) + (w+x) = w+w ↔ x+x = 0 := by
  have hsplit : (w+x) + (w+x) = (w+w) + (x+x) := by ac_rfl
  rw [hsplit]
  exact BitVec.add_right_eq_self

theorem carry_eq (a b : BitVec 32) : carry a b = 0 ∨ carry a b = 1 := by
  rw [carry]
  split
  · exact .inr rfl
  · exact .inl rfl

section Doubling

variable (hA : v.R = v.A) (hB : v.R = v.B)
include hA hB

theorem behind_double (hn : n < v.N) : v.behind (v.asmSumm m n) n =
    dword m (elem v.R (n+1)) + dword m (elem v.R (n+1)) +
      carry (dword (v.asmSumm m n) (elem v.R n)) (dword (v.asmSumm m n) (elem v.R n)) := by
  have hnext : dword (v.asmSumm m n) (elem v.R (n+1)) = dword m (elem v.R (n+1)) :=
    dword_asmSumm fun j hj => apart_R (by omega) (by omega) (by omega)
  rw [behind,← hA,← hB,hnext]

/-- What each round finds in its element carries over the same bit. -/
theorem carry_of_doubled (hn : n < v.N)
    (h : ∀ i < n, v.excess m i + v.excess m i = 0) :
    carry (dword (v.asmSumm m n) (elem v.R n)) (dword (v.asmSumm m n) (elem v.R n)) =
      carry (dword m (elem v.R 0)) (dword m (elem v.R 0)) := by
  induction n with
  | zero => rfl
  | succ n ih =>
    have hprev := ih (by omega) fun i hi => h i (by omega)
    rw [asmSumm_behind,behind_double hA hB (by omega),hprev]
    exact carry_double (carry_eq _ _) (h n (Nat.lt_succ_self n))

theorem isSum_iff_of_same {exempt : BitVec 64 → Prop}
    (hexempt : ∀ x, Within (elem v.R v.N) 4 x → ¬ exempt x) :
    v.IsSum exempt m (v.asmSumm m v.N) ↔ v.Absorbs m := by
  have hbehind : ∀ n < v.N, (∀ i < n, v.excess m i + v.excess m i = 0) →
      v.behind (v.asmSumm m n) n = dword m (elem v.R (n+1)) + v.excess m n := by
    intro n hn hbefore
    rw [behind_double hA hB hn,carry_of_doubled hA hB hn hbefore,BitVec.add_assoc]
    rfl
  rw [asmSumm_isSum_iff hexempt,← hA,← hB]
  constructor
  · rintro ⟨helements,htail⟩ i hi
    induction i using Nat.strongRecOn with
    | ind i ih =>
      have hbefore : ∀ j < i, v.excess m j + v.excess m j = 0 := fun j hj => by
        have hprev := ih j hj (hj.trans hi)
        rwa [if_pos (by omega)] at hprev
      have hi' := hbehind i hi hbefore
      split
      · rename_i hlt
        have heq := helements (i+1) hlt
        rw [asmSumm_behind,hi'] at heq
        exact (double_eq_iff _ _).mp heq
      · have heq := htail i (by omega)
        rw [hi'] at heq
        exact BitVec.add_right_eq_self.mp heq
  · intro h
    have hdoubled : ∀ i, i+1 < v.N → v.excess m i + v.excess m i = 0 := fun i hi => by
      have hat := h i (by omega)
      rwa [if_pos hi] at hat
    refine ⟨fun i hi => ?_,fun n hn => ?_⟩
    · cases i with
      | zero => rfl
      | succ i =>
        rw [asmSumm_behind,hbehind i (by omega) fun j hj => hdoubled j (by omega)]
        exact (double_eq_iff _ _).mpr (hdoubled i hi)
    · have hat := h n (by omega)
      rw [if_neg (by omega)] at hat
      rw [hbehind n (by omega) fun j hj => hdoubled j (by omega),hat]
      exact BitVec.add_zero _

end Doubling

/-- The assembly adds the vectors where what it writes behind the elements does no harm. -/
theorem isSum_iff (v : Vectors) {exempt : BitVec 64 → Prop}
    (hexempt : ∀ x, Within (elem v.R v.N) 4 x → ¬ exempt x) :
    v.IsSum exempt m (v.asmSumm m v.N) ↔ v.Harmless m := by
  rw [Harmless]
  split
  · rename_i hR
    split
    · rename_i hB
      exact isSum_iff_of_same hR hB hexempt
    · rename_i hB
      obtain ⟨-,hapart⟩ | ⟨-,hsame | hapart⟩ := v.aliasing
      · exact isSum_iff_of_inPlace hR hapart hexempt
      · exact absurd hsame hB
      · exact isSum_iff_of_inPlace hR hapart hexempt
  · rename_i hR
    obtain ⟨hA,hB⟩ | ⟨hsame,-⟩ := v.aliasing
    · exact isSum_iff_of_disjoint hA hB hexempt
    · exact absurd hsame hR

end Vectors

/-! The routines; the places of the labels are noted beside the instructions. -/

/-- `inf05-1.s`: the arguments are `N`, `A`, `B` and `R`. -/
def summ : Code := [
  .op (.push .rbx),
  .op (.mov .rax (.imm 0)),
  .op (.cmp (.reg .rdi) (.reg .rax)), -- 2 = .start_loop
  .branch .le 9,
  .op (.mov .rbx (.mem (.scaled .rsi .rax))),
  .op (.add .rbx (.mem (.scaled .rdx .rax))),
  .op (.movMem (.scaled .rcx .rax) .rbx),
  .op (.inc .rax),
  .branch .always 2,
  .op (.pop .rbx), -- 9 = .return_rax
  .ret]

structure Symbols where
  A : BitVec 64
  B : BitVec 64
  R : BitVec 64
  N : BitVec 64

/-- `inf05-0_t.s` -/
def summGlobal (sym : Symbols) : Code := [
  .op (.mov .rcx (.mem (.symbol sym.A))),
  .op (.mov .rsi (.mem (.symbol sym.B))),
  .op (.mov .rdi (.mem (.symbol sym.R))),
  .op (.mov .rax (.imm 0)),
  .op (.cmp (.mem (.symbol sym.N)) (.reg .rax)), -- 4 = .start_loop
  .branch .le 11,
  .op (.mov .rdx (.mem (.scaled .rsi .rax))),
  .op (.add .rdx (.mem (.scaled .rcx .rax))),
  .op (.movMem (.scaled .rdi .rax) .rdx),
  .op (.inc .rax),
  .branch .always 4,
  .ret] -- 11 = .return_rax

/-! The loop that both of them have -/

/-- The body, with the registers for the operands, the result and the sum -/
def addElement (x y r tmp : Reg) : List Op :=
  [.mov tmp (.mem (.scaled x .rax)),.add tmp (.mem (.scaled y .rax)),
    .movMem (.scaled r .rax) tmp,.inc .rax]

def addLoop (start stop : ℕ) (count : Operand) (x y r tmp : Reg) : Code :=
  .op (.cmp count (.reg .rax)) :: .branch .le stop ::
    ((addElement x y r tmp).map .op ++ [.branch .always start])

structure LoopAt (v : Vectors) (tmp : Reg) (p : State) (k : ℕ) (t : State) : Prop where
  rax : t.reg .rax = BitVec.ofNat 64 k
  other : ∀ r, r ≠ .rax → r ≠ tmp → t.reg r = p.reg r
  mem : t.mem = v.asmSumm p.mem k

/-- The registers are used for one purpose each, and the two operands may be exchanged. -/
structure Uses (v : Vectors) (x y r tmp : Reg) (p : State) : Prop where
  operands : p.reg x = v.A ∧ p.reg y = v.B ∨ p.reg x = v.B ∧ p.reg y = v.A
  result : p.reg r = v.R
  x_free : x ≠ .rax ∧ x ≠ tmp
  y_free : y ≠ .rax ∧ y ≠ tmp
  r_free : r ≠ .rax ∧ r ≠ tmp
  tmp_free : tmp ≠ .rax

theorem elem_eq (a : BitVec 64) (k : ℕ) : elem a k = a + BitVec.ofNat 64 k * 4 := by
  rw [elem,Nat.mul_comm,BitVec.ofNat_mul]
  rfl

section Loop

variable {v : Vectors} {x y r tmp : Reg} {p t : State} {k : ℕ}

theorem addElement_at (hu : Uses v x y r tmp p) (h : LoopAt v tmp p k t) :
    LoopAt v tmp p (k+1) (isa.execAll (addElement x y r tmp) t) := by
  have hx := h.other x hu.x_free.1 hu.x_free.2
  have hy := h.other y hu.y_free.1 hu.y_free.2
  have hr := h.other r hu.r_free.1 hu.r_free.2
  refine ⟨?_,fun q h0 htmp => ?_,?_⟩
  · simp [addElement,exec,h.rax,hu.tmp_free.symm,BitVec.ofNat_add]
  · simp [addElement,exec,h0,htmp,h.other q h0 htmp]
  · have hsum : (isa.execAll (addElement x y r tmp) t).mem =
        setQword t.mem (elem v.R k) (qword t.mem (elem (p.reg x) k) + qword t.mem (elem (p.reg y) k)) := by
      simp [addElement,exec,Operand.value,Place.address,h.rax,hx,hy,hr,hu.result,elem_eq,hu.y_free,
        hu.r_free,hu.tmp_free.symm]
    rw [hsum,h.mem,Vectors.asmSumm,Vectors.asmRound]
    obtain ⟨hA,hB⟩ | ⟨hB,hA⟩ := hu.operands
    · rw [hA,hB]
    · rw [hA,hB,BitVec.add_comm]

theorem toInt_ofNat_of_lt (hk : k < 2^31) : (BitVec.ofNat 64 k).toInt = k := by
  have hnat : (BitVec.ofNat 64 k).toNat = k := by
    rw [BitVec.toNat_ofNat,Nat.mod_eq_of_lt (by omega)]
  rw [BitVec.toInt_eq_toNat_cond,hnat,if_pos (by omega)]

theorem le_holds {count : Operand} (h : LoopAt v tmp p k t) (hk : k ≤ v.N) :
    Cond.le.holds (exec (.cmp count (.reg .rax)) t) = decide ((count.value t).toInt ≤ k) := by
  have hlt := v.lt
  change ((cmpFlags (count.value t) (t.reg .rax)).zf ||
    (cmpFlags (count.value t) (t.reg .rax)).sf != (cmpFlags (count.value t) (t.reg .rax)).of) = _
  rw [cmpFlags_le,h.rax,toInt_ofNat_of_lt (Nat.lt_of_le_of_lt hk hlt)]

theorem addLoop_runs (code : Code) (start stop : ℕ) (count : Operand)
    (hcode : addLoop start stop count x y r tmp <+: code.drop start) (hu : Uses v x y r tmp p)
    (hrax : p.reg .rax = 0) {c : BitVec 64} (hle : c.toInt ≤ v.N)
    (hcount : ∀ k t, k ≤ c.toInt.toNat → LoopAt v tmp p k t → count.value t = c) :
    ∃ t, isa.Runs code (.inside start p) (.inside stop t) ∧
      LoopAt v tmp p c.toInt.toNat t := by
  obtain ⟨rest,hrest⟩ := hcode
  have hget : ∀ j, code[start+j]? = (addLoop start stop count x y r tmp ++ rest)[j]? := fun j => by
    rw [hrest,List.getElem?_drop]
  have hbody : (addElement x y r tmp).map Instr.op <+: code.drop (start+2) := by
    rw [← List.drop_drop,← hrest]
    exact ⟨.branch .always start :: rest,rfl⟩
  have hcmp : ∀ t, isa.Runs code (.inside start t)
      (.inside (start+1) (exec (.cmp count (.reg .rax)) t)) := fun t =>
    runs_ops _ _ [.cmp count (.reg .rax)] t (by rw [← hrest]; exact ⟨_,rfl⟩)
  have htest : ∀ k ≤ c.toInt.toNat, ∀ t, LoopAt v tmp p k t →
      Cond.le.holds (exec (.cmp count (.reg .rax)) t) = decide (c.toInt ≤ k) := fun k hk t ht => by
    rw [le_holds ht (by omega),hcount k t hk ht]
  have hround : ∀ k < c.toInt.toNat, ∀ t, LoopAt v tmp p k t →
      ∃ u, isa.Runs code (.inside start t) (.inside start u) ∧ LoopAt v tmp p (k+1) u := by
    intro k hk t ht
    have hgo := htest k (Nat.le_of_lt hk) t ht
    rw [decide_eq_false (by omega)] at hgo
    have hcmpAt : LoopAt v tmp p k (exec (.cmp count (.reg .rax)) t) := ⟨ht.rax,ht.other,ht.mem⟩
    have hrun := (hcmp t).trans ((Runs.passed (hget 1) hgo).trans (runs_ops _ _ _ _ hbody))
    exact ⟨_,hrun.trans (Runs.taken (hget 6) rfl),addElement_at hu hcmpAt⟩
  obtain ⟨t,hrun,ht⟩ := Runs.loop hround ⟨hrax,fun _ _ _ => rfl,rfl⟩
  have hend := htest _ (Nat.le_refl _) t ht
  rw [decide_eq_true (Int.self_le_toNat _)] at hend
  exact ⟨_,hrun.trans ((hcmp t).trans (Runs.taken (hget 1) hend)),⟨ht.rax,ht.other,ht.mem⟩⟩

end Loop

/-! The calls -/

/-- A call of `inf05-1.s` with an `int` in `edi`: the arrays, and the words behind them, are apart
from the places on the stack that are in use. -/
structure Passed (v : Vectors) (s : State) : Prop where
  N : (s.reg .rdi).setWidth 32 = BitVec.ofNat 32 v.N
  A : s.reg .rsi = v.A
  B : s.reg .rdx = v.B
  R : s.reg .rcx = v.R
  stack : ∀ a ∈ [v.A,v.B,v.R], Apart (s.reg .rsp - 8) 16 a (4*(v.N+1))

/-- A call of `inf05-0_t.s`, which reads eight bytes at the `int` in `N`. If there is a round to be
made they are apart from what it writes. -/
structure Loaded (sym : Symbols) (v : Vectors) (s : State) : Prop where
  N : dword s.mem sym.N = BitVec.ofNat 32 v.N
  A : qword s.mem sym.A = v.A
  B : qword s.mem sym.B = v.B
  R : qword s.mem sym.R = v.R
  count : 0 < (qword s.mem sym.N).toInt → Apart sym.N 8 v.R (4*(v.N+1))
  stack : Apart (s.reg .rsp) 8 v.R (4*(v.N+1))

theorem qword_asmSumm {v : Vectors} {a : BitVec 64} (h : Apart a 8 v.R (4*(v.N+1))) {k : ℕ}
    (hk : k ≤ v.N) (m : Memory 64) : qword (v.asmSumm m k) a = qword m a := by
  have hkeep : load (v.asmSumm m k) 8 a = load m 8 a :=
    load_congr (fun x hx => Vectors.asmSumm_outside hk fun hR => h x hx (hR.mono (by omega)))
      (by decide)
  exact hkeep

theorem summGlobal_returns {sym : Symbols} {v : Vectors} {s : State} (h : Loaded sym v s)
    (hle : (qword s.mem sym.N).toInt ≤ v.N) :
    ∃ t, isa.Returns (summGlobal sym) s (qword s.mem (s.reg .rsp)) t ∧
      t.mem = v.asmSumm s.mem (qword s.mem sym.N).toInt.toNat := by
  have hentry := runs_ops (summGlobal sym) 0 [.mov .rcx (.mem (.symbol sym.A)),
    .mov .rsi (.mem (.symbol sym.B)),.mov .rdi (.mem (.symbol sym.R)),.mov .rax (.imm 0)] s ⟨_,rfl⟩
  obtain ⟨p,hp⟩ : ∃ p, p = isa.execAll [.mov .rcx (.mem (.symbol sym.A)),
    .mov .rsi (.mem (.symbol sym.B)),.mov .rdi (.mem (.symbol sym.R)),.mov .rax (.imm 0)] s :=
    ⟨_,rfl⟩
  rw [← hp] at hentry
  have hmem : p.mem = s.mem := by rw [hp]; rfl
  have hrsp : p.reg .rsp = s.reg .rsp := by rw [hp]; simp [exec]
  have hu : Uses v .rsi .rcx .rdi .rdx p := by
    refine ⟨.inr ⟨?_,?_⟩,?_,by decide,by decide,by decide,by decide⟩ <;> rw [hp]
    · simpa [exec,Operand.value,Place.address] using h.B
    · simpa [exec,Operand.value,Place.address] using h.A
    · simpa [exec,Operand.value,Place.address] using h.R
  obtain ⟨t,hloop,ht⟩ := addLoop_runs (summGlobal sym) 4 11 (.mem (.symbol sym.N))
    ⟨_,rfl⟩ hu (by rw [hp]; simp [exec,Operand.value]) hle
    fun k t hk ht => by
      change qword t.mem sym.N = _
      rw [ht.mem,hmem]
      cases k with
      | zero => rfl
      | succ k => exact qword_asmSumm (h.count (by omega)) (by omega) _
  have hrun := (hentry.trans hloop).trans (Runs.ret rfl)
  have haddress : qword t.mem (t.reg .rsp) = qword s.mem (s.reg .rsp) := by
    rw [ht.mem,ht.other .rsp (by decide) (by decide),hrsp,qword_asmSumm h.stack (by omega),hmem]
  rw [isa_leave,haddress] at hrun
  exact ⟨_,hrun,by rw [State.set_mem,ht.mem,hmem]⟩

theorem apart_pushed (a : BitVec 64) : Apart (a-8) 8 a 8 :=
  apart_of_le (by bv_omega) (by bv_omega)

theorem summ_returns {v : Vectors} {s : State} (h : Passed v s) (hle : (s.reg .rdi).toInt ≤ v.N) :
    ∃ t, isa.Returns summ s (qword s.mem (s.reg .rsp)) t ∧
      t.mem = v.asmSumm (setQword s.mem (s.reg .rsp - 8) (s.reg .rbx))
        (s.reg .rdi).toInt.toNat := by
  have hentry := runs_ops summ 0 [.push .rbx,.mov .rax (.imm 0)] s ⟨_,rfl⟩
  obtain ⟨p,hp⟩ : ∃ p, p = isa.execAll [.push .rbx,.mov .rax (.imm 0)] s := ⟨_,rfl⟩
  rw [← hp] at hentry
  have hmem : p.mem = setQword s.mem (s.reg .rsp - 8) (s.reg .rbx) := by rw [hp]; rfl
  have hrsp : p.reg .rsp = s.reg .rsp - 8 := by rw [hp]; simp [exec]
  have hu : Uses v .rsi .rdx .rcx .rbx p := by
    refine ⟨.inl ⟨?_,?_⟩,?_,by decide,by decide,by decide,by decide⟩ <;> rw [hp]
    · simpa [exec] using h.A
    · simpa [exec] using h.B
    · simpa [exec] using h.R
  obtain ⟨t,hloop,ht⟩ := addLoop_runs summ 2 9 (.reg .rdi)
    ⟨_,rfl⟩ hu (by rw [hp]; simp [exec,Operand.value]) hle
    fun k t hk ht => by
      change t.reg .rdi = _
      rw [ht.other .rdi (by decide) (by decide),hp]
      simp [exec]
  have hpop := runs_ops summ 9 [.pop .rbx] t ⟨_,rfl⟩
  have hrun := ((hentry.trans hloop).trans hpop).trans (Runs.ret rfl)
  have hreturn : Apart (s.reg .rsp) 8 v.R (4*(v.N+1)) := by
    intro x hx
    refine h.stack v.R (by simp) x ?_
    have hback : s.reg .rsp = s.reg .rsp - 8 + BitVec.ofNat 64 8 := by bv_omega
    rw [hback] at hx
    exact hx.of_add (by decide)
  have haddress : qword t.mem (s.reg .rsp) = qword s.mem (s.reg .rsp) := by
    rw [ht.mem,qword_asmSumm hreturn (by omega),hmem]
    exact load_store_apart (apart_pushed _) (by decide)
  have hsp : (isa.execAll [.pop .rbx] t).reg .rsp = s.reg .rsp := by
    have hsub := BitVec.sub_add_cancel (s.reg .rsp) 8
    simp [exec,ht.other .rsp (by decide) (by decide),hrsp]
  have hkeep : (isa.execAll [.pop .rbx] t).mem = t.mem := rfl
  rw [isa_leave,hsp,hkeep,haddress] at hrun
  exact ⟨_,hrun,by rw [State.set_mem,hkeep,ht.mem,hmem]⟩

/-! The stack, and the memory of the arrays -/

namespace Vectors

def Touches (v : Vectors) (x : BitVec 64) : Prop :=
  ∃ a ∈ [v.A,v.B,v.R], Within a (4*(v.N+1)) x

variable {v : Vectors} {m m' : Memory 64}

theorem dword_congr (h : ∀ x, v.Touches x → m x = m' x) {a : BitVec 64} (ha : a ∈ [v.A,v.B,v.R])
    {i : ℕ} (hi : i ≤ v.N) : dword m (elem a i) = dword m' (elem a i) := by
  have hload : load m 4 (elem a i) = load m' 4 (elem a i) :=
    load_congr (fun x hx => h x ⟨a,ha,within_elem (by omega) (v.fits (Nat.le_refl _)) hx⟩)
      (by decide)
  exact hload

theorem IsSum.congr {Exempt : BitVec 64 → Prop} {t : Memory 64} (h : v.IsSum Exempt m t)
    (hagree : ∀ x, v.Touches x → m x = m' x) (hkeep : ∀ x, ¬ Exempt x → m x = m' x) :
    v.IsSum Exempt m' t where
  elements i hi := by
    rw [h.elements i hi,dword_congr hagree (by simp) (Nat.le_of_lt hi),
      dword_congr hagree (by simp) (Nat.le_of_lt hi)]
  outside x hx hexempt := by rw [h.outside x hx hexempt,hkeep x hexempt]

theorem cSumm_congr (h : ∀ x, v.Touches x → m x = m' x) {i : ℕ} (hi : i ≤ v.N) :
    ∀ x, v.Touches x → v.cSumm m i x = v.cSumm m' i x := by
  induction i with
  | zero => exact h
  | succ i ih =>
    have hprev := ih (Nat.le_of_succ_le hi)
    intro x hx
    rw [cSumm,cRound,dword_congr hprev (by simp) (by omega),dword_congr hprev (by simp) (by omega),
      cSumm,cRound]
    by_cases hin : Within (elem v.R i) 4 x
    · rw [setDword,store,if_pos hin,setDword,store,if_pos hin]
    · rw [setDword_of_not_within hin,setDword_of_not_within hin,hprev x hx]

theorem spares_congr (h : ∀ x, v.Touches x → m x = m' x) {i : ℕ} (hi : i < v.N) :
    v.Spares m i ↔ v.Spares m' i := by
  have hsumm := cSumm_congr h (Nat.le_of_lt hi)
  rw [Spares,Spares,behind,behind,dword_congr hsumm (by simp) hi,
    dword_congr hsumm (by simp) hi,dword_congr hsumm (by simp) hi,
    dword_congr hsumm (by simp) (Nat.le_of_lt hi),dword_congr hsumm (by simp) (Nat.le_of_lt hi)]

theorem harmless_congr (h : ∀ x, v.Touches x → m x = m' x) : v.Harmless m ↔ v.Harmless m' := by
  have hexcess : ∀ i < v.N, v.excess m i = v.excess m' i := fun i hi => by
    rw [excess,excess,dword_congr h (by simp) hi,dword_congr h (by simp) (Nat.zero_le _)]
  have habsorbs : v.Absorbs m ↔ v.Absorbs m' :=
    forall₂_congr fun i hi => by rw [hexcess i hi]
  have hall : (∀ i < v.N, v.Spares m i) ↔ ∀ i < v.N, v.Spares m' i :=
    forall₂_congr fun i hi => spares_congr h hi
  have hlast : v.N = 0 ∨ v.Spares m (v.N-1) ↔ v.N = 0 ∨ v.Spares m' (v.N-1) := by
    by_cases hN : v.N = 0
    · simp [hN]
    · rw [spares_congr h (by omega)]
  rw [Harmless,Harmless,habsorbs,hall,hlast]

theorem summed_congr (h : ∀ x, v.Touches x → m x = m' x) : v.Summed m ↔ v.Summed m' :=
  forall₂_congr fun i hi => by
    rw [dword_congr h (by simp) (Nat.le_of_lt hi),dword_congr h (by simp) (Nat.le_of_lt hi),
      dword_congr h (by simp) (Nat.le_of_lt hi)]

theorem right_congr (h : ∀ x, v.Touches x → m x = m' x) (count : BitVec 64) :
    v.Right count m ↔ v.Right count m' := by
  rw [Right,Right,summed_congr h,harmless_congr h]

/-- A count whose lower half is the number of elements is that number, unless the upper half takes
it below 0 or beyond the array. -/
theorem toInt_count {count : BitVec 64} (hlow : count.setWidth 32 = BitVec.ofNat 32 v.N)
    (h0 : 0 < count.toInt) (hle : count.toInt ≤ v.N) : count.toInt = v.N := by
  have hlt := v.lt
  have hcond := BitVec.toInt_eq_toNat_cond count
  have hnat := congrArg BitVec.toNat hlow
  rw [BitVec.toNat_setWidth,BitVec.toNat_ofNat,Nat.mod_eq_of_lt (b := 2^32) (by omega)] at hnat
  split at hcond <;> omega

theorem isSum_iff_right {count : BitVec 64} (hlow : count.setWidth 32 = BitVec.ofNat 32 v.N)
    (hle : count.toInt ≤ v.N) {Exempt : BitVec 64 → Prop}
    (hexempt : ∀ x, Within (elem v.R v.N) 4 x → ¬ Exempt x) :
    v.IsSum Exempt m (v.asmSumm m count.toInt.toNat) ↔ v.Right count m := by
  rw [Right]
  split
  · rename_i hneg
    rw [Int.toNat_of_nonpos hneg]
    exact ⟨fun h => h.elements,fun h => ⟨h,fun _ _ _ => rfl⟩⟩
  · rename_i hpos
    rw [toInt_count hlow (not_le.mp hpos) hle,Int.toNat_natCast]
    exact v.isSum_iff hexempt

end Vectors

def Saved (s : State) (x : BitVec 64) : Prop := Within (s.reg .rsp - 8) 8 x

theorem summ_isSum_iff {v : Vectors} {s : State} (h : Passed v s)
    (hle : (s.reg .rdi).toInt ≤ v.N) :
    ∃ t, isa.Returns summ s (qword s.mem (s.reg .rsp)) t ∧
      (v.IsSum (Saved s) s.mem t.mem ↔ v.Right (s.reg .rdi) s.mem) := by
  obtain ⟨t,ht,hmem⟩ := summ_returns h hle
  have hfree : ∀ x, v.Touches x → ¬ Saved s x := by
    rintro x ⟨a,ha,hx⟩ hsaved
    exact h.stack a ha x (hsaved.mono (by decide)) hx
  have hkeep : ∀ x, ¬ Saved s x → s.mem x = setQword s.mem (s.reg .rsp - 8) (s.reg .rbx) x :=
    fun x hx => (store_of_not_within hx).symm
  have hagree := fun x hx => hkeep x (hfree x hx)
  have hexempt : ∀ x, Within (elem v.R v.N) 4 x → ¬ Saved s x := fun x hx =>
    hfree x ⟨v.R,by simp,within_elem (Nat.lt_succ_self _) (v.fits (Nat.le_refl _)) hx⟩
  refine ⟨t,ht,?_⟩
  rw [Vectors.right_congr hagree,← Vectors.isSum_iff_right h.N hle hexempt,hmem]
  -- the elements and the exempt bytes are the same before and after the push
  exact ⟨fun hsum => hsum.congr hagree hkeep,fun hsum =>
    hsum.congr (fun x hx => (hagree x hx).symm) fun x hx => (hkeep x hx).symm⟩

theorem summGlobal_isSum_iff {sym : Symbols} {v : Vectors} {s : State} (h : Loaded sym v s)
    (hle : (qword s.mem sym.N).toInt ≤ v.N) :
    ∃ t, isa.Returns (summGlobal sym) s (qword s.mem (s.reg .rsp)) t ∧
      (v.IsSum (fun _ => False) s.mem t.mem ↔ v.Right (qword s.mem sym.N) s.mem) := by
  obtain ⟨t,ht,hmem⟩ := summGlobal_returns h hle
  have hlow : (qword s.mem sym.N).setWidth 32 = BitVec.ofNat 32 v.N := by
    rw [qword_eq,BitVec.setWidth_append_eq_right,h.N]
  refine ⟨t,ht,?_⟩
  rw [hmem]
  exact Vectors.isSum_iff_right hlow hle fun _ _ hfalse => hfalse

/-- The function in C leaves the sums of the vectors and changes nothing else. With a count that is
not above the number of elements the routines in assembly do so when what they write behind the
elements does no harm, and when they make no round if the sums are there already. -/
theorem vector_sum_iff (v : Vectors) :
    (∀ m, v.IsSum (fun _ => False) m (v.cSumm m v.N)) ∧
    (∀ s, Passed v s → (s.reg .rdi).toInt ≤ v.N →
      ∃ t, isa.Returns summ s (qword s.mem (s.reg .rsp)) t ∧
        (v.IsSum (Saved s) s.mem t.mem ↔ v.Right (s.reg .rdi) s.mem)) ∧
    ∀ sym s, Loaded sym v s → (qword s.mem sym.N).toInt ≤ v.N →
      ∃ t, isa.Returns (summGlobal sym) s (qword s.mem (s.reg .rsp)) t ∧
        (v.IsSum (fun _ => False) s.mem t.mem ↔ v.Right (qword s.mem sym.N) s.mem) :=
  ⟨v.cSumm_isSum,fun _ h hle => summ_isSum_iff h hle,fun _ _ h hle => summGlobal_isSum_iff h hle⟩

/-! Arrays of one element, 1 and 2, with 5 behind the first one or not -/

theorem single_apart : Apart (0x3000 : BitVec 64) 4 0x1000 4 ∧ Apart (0x3000 : BitVec 64) 4 0x2000 4 :=
  ⟨apart_of_le (by decide) (by decide),apart_of_le (by decide) (by decide)⟩

theorem single_lt : 1 < 2^31 := by decide

def single : Vectors := ⟨0x1000,0x2000,0x3000,1,single_lt,.inl single_apart⟩

def singleSymbols : Symbols := ⟨0x4000,0x4008,0x4010,0x4018⟩

def singleMemory (five : Bool) : Memory 64 := fun a =>
  if a = 0x1000 then 1 else if a = 0x1004 then if five then 5 else 0 else if a = 0x2000 then 2
  else if a = 0x4001 then 0x10 else if a = 0x4009 then 0x20 else if a = 0x4011 then 0x30
  else if a = 0x4018 then 1 else 0

def singleState (five : Bool) : State :=
  ⟨fun r => match r with
    | .rdi => 1 | .rsi => 0x1000 | .rdx => 0x2000 | .rcx => 0x3000 | .rsp => 0x8000 | _ => 0,
    singleMemory five,⟨false,false,false⟩⟩

theorem single_passed (five : Bool) : Passed single (singleState five) where
  N := rfl
  A := rfl
  B := rfl
  R := rfl
  stack a ha := by
    change Apart ((0x8000 : BitVec 64) - 8) 16 a 8
    simp only [List.mem_cons,List.not_mem_nil,or_false] at ha
    obtain rfl | rfl | rfl := ha <;> exact apart_of_le (by decide) (by decide)

theorem single_loaded (five : Bool) : Loaded singleSymbols single (singleState five) where
  N := by cases five <;> decide
  A := by cases five <;> decide
  B := by cases five <;> decide
  R := by cases five <;> decide
  count _ := apart_of_le (by decide) (by decide)
  stack := by
    change Apart (0x8000 : BitVec 64) 8 0x3000 8
    exact apart_of_le (by decide) (by decide)

theorem single_count (five : Bool) : qword (singleState five).mem singleSymbols.N = 1 := by
  cases five <;> decide

/-- With zeros behind the arrays -/
theorem vector_sum_iff_single :
    (∃ t, isa.Returns summ (singleState false) 0 t ∧
      (single.IsSum (Saved (singleState false)) (singleState false).mem t.mem ↔
        single.Right 1 (singleState false).mem)) ∧
    ∃ t, isa.Returns (summGlobal singleSymbols) (singleState false) 0 t ∧
      (single.IsSum (fun _ => False) (singleState false).mem t.mem ↔
        single.Right (qword (singleState false).mem singleSymbols.N) (singleState false).mem) :=
  ⟨(vector_sum_iff single).2.1 _ (single_passed false) (by decide),
    (vector_sum_iff single).2.2 _ _ (single_loaded false) (by rw [single_count]; decide)⟩

/-- With 5 behind the first array, 5 is written behind the sum. -/
theorem single_not_sum :
    (∃ t, isa.Returns summ (singleState true) 0 t ∧
      ¬ single.IsSum (Saved (singleState true)) (singleState true).mem t.mem) ∧
    ∃ t, isa.Returns (summGlobal singleSymbols) (singleState true) 0 t ∧
      ¬ single.IsSum (fun _ => False) (singleState true).mem t.mem := by
  have hharm : ¬ single.Right 1 (singleState true).mem := by decide
  obtain ⟨t,ht,hsum⟩ := summ_isSum_iff (single_passed true) (by decide)
  obtain ⟨u,hu,hsumGlobal⟩ := summGlobal_isSum_iff (single_loaded true) (by rw [single_count]; decide)
  rw [single_count] at hsumGlobal
  exact ⟨⟨t,ht,fun h => hharm (hsum.mp h)⟩,u,hu,fun h => hharm (hsumGlobal.mp h)⟩

end X64
end SomeCode
