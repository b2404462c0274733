import Mathlib

/-! A memory of bytes with addresses of `w` bits, and the values of several bytes in it, the lowest
byte first. Addresses go round. -/
namespace SomeCode
namespace ByteMemory

variable {w : ℕ}

abbrev Memory (w : ℕ) := BitVec w → BitVec 8

/-- `x` is one of the `n` bytes from `a` on. -/
def Within (a : BitVec w) (n : ℕ) (x : BitVec w) : Prop := (x-a).toNat < n

instance (a : BitVec w) (n : ℕ) (x : BitVec w) : Decidable (Within a n x) :=
  inferInstanceAs (Decidable (_ < _))

def load (m : Memory w) : (n : ℕ) → BitVec w → BitVec (8*n)
  | 0, _ => 0#0
  | n+1, a => load m n (a+1) ++ m a

def store (m : Memory w) (n : ℕ) (a : BitVec w) (v : BitVec (8*n)) : Memory w :=
  fun x => if Within a n x then v.extractLsb' (8*(x-a).toNat) 8 else m x

variable {m m' : Memory w} {n k : ℕ} {a b x : BitVec w}

theorem add_ofNat_sub (a x : BitVec w) : a + BitVec.ofNat w (x-a).toNat = x := by
  rw [BitVec.ofNat_toNat,BitVec.setWidth_eq,BitVec.add_comm,BitVec.sub_add_cancel]

theorem toNat_add_ofNat_sub (a : BitVec w) (hk : k < 2^w) :
    (a + BitVec.ofNat w k - a).toNat = k := by
  rw [BitVec.add_comm,BitVec.add_sub_cancel,BitVec.toNat_ofNat,Nat.mod_eq_of_lt hk]

theorem within_add (hn : n ≤ 2^w) (hk : k < n) : Within a n (a + BitVec.ofNat w k) := by
  rw [Within,toNat_add_ofNat_sub a (Nat.lt_of_lt_of_le hk hn)]
  exact hk

theorem Within.exists_eq (h : Within a n x) : ∃ k < n, x = a + BitVec.ofNat w k :=
  ⟨(x-a).toNat,h,(add_ofNat_sub a x).symm⟩

theorem add_one_add_ofNat (a : BitVec w) (k : ℕ) :
    a + 1 + BitVec.ofNat w k = a + BitVec.ofNat w (k+1) := by
  rw [BitVec.add_assoc,Nat.add_comm k,BitVec.ofNat_add]
  rfl

theorem Within.of_add (h : Within (a + BitVec.ofNat w k) n x) (hk : k+n ≤ 2^w) :
    Within a (k+n) x := by
  obtain ⟨j,hj,rfl⟩ := h.exists_eq
  rw [BitVec.add_assoc,← BitVec.ofNat_add]
  exact within_add hk (Nat.add_lt_add_left hj k)

theorem Within.mono (h : Within a n x) (hle : n ≤ k) : Within a k x := Nat.lt_of_lt_of_le h hle

theorem not_within_add (h : Within a k x) (hk : k+n ≤ 2^w) :
    ¬ Within (a + BitVec.ofNat w k) n x := by
  intro hx
  obtain ⟨j,hj,rfl⟩ := hx.exists_eq
  rw [BitVec.add_assoc,← BitVec.ofNat_add,Within,toNat_add_ofNat_sub a (by omega)] at h
  omega

theorem getLsbD_load {i : ℕ} (hi : i < 8*n) :
    (load m n a).getLsbD i = (m (a + BitVec.ofNat w (i/8))).getLsbD (i%8) := by
  induction n generalizing a i with
  | zero => omega
  | succ n ih =>
    rw [load,BitVec.getLsbD_append]
    by_cases hlow : i < 8
    · rw [if_pos hlow,Nat.div_eq_of_lt hlow,Nat.mod_eq_of_lt hlow]
      exact congrArg (fun x => (m x).getLsbD i) (BitVec.add_zero a).symm
    · have hdiv : i/8 = (i-8)/8+1 := by omega
      have hmod : i%8 = (i-8)%8 := by omega
      rw [if_neg hlow,ih (by omega),add_one_add_ofNat,hdiv,hmod]

theorem load_eq_iff : load m n a = load m' n b ↔
    ∀ k < n, m (a + BitVec.ofNat w k) = m' (b + BitVec.ofNat w k) := by
  constructor
  · intro h k hk
    refine BitVec.eq_of_getLsbD_eq fun i hi => ?_
    have hbit := congrArg (BitVec.getLsbD · (8*k+i)) h
    have hdiv : (8*k+i)/8 = k := by omega
    have hmod : (8*k+i)%8 = i := by omega
    rwa [getLsbD_load (by omega),getLsbD_load (by omega),hdiv,hmod] at hbit
  · intro h
    refine BitVec.eq_of_getLsbD_eq fun i hi => ?_
    rw [getLsbD_load hi,getLsbD_load hi,h _ (by omega)]

theorem load_congr (h : ∀ x, Within a n x → m x = m' x) (hn : n ≤ 2^w) :
    load m n a = load m' n a :=
  load_eq_iff.mpr fun _ hk => h _ (within_add hn hk)

theorem store_of_not_within {v : BitVec (8*n)} (h : ¬ Within a n x) : store m n a v x = m x :=
  if_neg h

theorem store_add (hn : n ≤ 2^w) (hk : k < n) (v : BitVec (8*n)) :
    store m n a v (a + BitVec.ofNat w k) = v.extractLsb' (8*k) 8 := by
  rw [store,if_pos (within_add hn hk),toNat_add_ofNat_sub a (Nat.lt_of_lt_of_le hk hn)]

theorem load_store_self (hn : n ≤ 2^w) (v : BitVec (8*n)) : load (store m n a v) n a = v := by
  refine BitVec.eq_of_getLsbD_eq fun i hi => ?_
  have hk : i/8 < n := by omega
  have hbit : 8*(i/8) + i%8 = i := by omega
  rw [getLsbD_load hi,store,if_pos (within_add hn hk),
    toNat_add_ofNat_sub a (Nat.lt_of_lt_of_le hk hn),BitVec.getLsbD_extractLsb',hbit,
    decide_eq_true (Nat.mod_lt i (by omega)),Bool.true_and]

/-- No byte is among both. -/
def Apart (a : BitVec w) (n : ℕ) (b : BitVec w) (k : ℕ) : Prop :=
  ∀ x, Within a n x → ¬ Within b k x

theorem apart_of_le (hn : n ≤ (b-a).toNat) (hk : k ≤ (a-b).toNat) : Apart a n b k := by
  intro x hx hx'
  have hsum : x-a = (x-b) + (b-a) := by
    rw [BitVec.sub_eq_iff_eq_add,BitVec.add_assoc,BitVec.sub_add_cancel,BitVec.sub_add_cancel]
  have hneg : a-b = -(b-a) := by rw [BitVec.neg_sub,BitVec.sub_eq_add_neg,BitVec.add_comm]
  have hlt := (b-a).isLt
  have hnat := congrArg BitVec.toNat hsum
  have hle : k ≤ 2^w-(b-a).toNat := by
    rw [hneg,BitVec.toNat_neg] at hk
    exact hk.trans (Nat.mod_le ..)
  rw [Within] at hx hx'
  rw [BitVec.toNat_add,Nat.mod_eq_of_lt (by omega)] at hnat
  omega

theorem Apart.symm (h : Apart a n b k) : Apart b k a n := fun x hb ha => h x ha hb

theorem load_store_apart {v : BitVec (8*n)} (h : Apart a n b k) (hk : k ≤ 2^w) :
    load (store m n a v) k b = load m k b :=
  load_congr (fun x hx => store_of_not_within fun ha => h x ha hx) hk

theorem store_load_self (m : Memory w) (n : ℕ) (a : BitVec w) (hn : n ≤ 2^w) :
    store m n a (load m n a) = m := by
  funext x
  by_cases h : Within a n x
  · have hload := load_store_self (m := m) (a := a) hn (load m n a)
    obtain ⟨k,hk,rfl⟩ := h.exists_eq
    exact load_eq_iff.mp hload k hk
  · exact store_of_not_within h

end ByteMemory
end SomeCode
