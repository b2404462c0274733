import SomeCode.OnesComplement
import Mathlib.Tactic

/-! The checksum of ICMP packets: `ComputeCheckSum` of `inf22-1-1.c`, and `checksum` as
`inf22-1.c` and `inf22-1-ver1.c` have it, on a little-endian machine. -/
namespace SomeCode
namespace Checksum

open OnesComplement

/-- The `unsigned short` at an address, as it is promoted to `unsigned int` -/
def loadShort (mem : List UInt8) (a : ℕ) : Option UInt32 := do
  let lo ← mem[a]?
  let hi ← mem[a+1]?
  some (lo.toUInt32 + 256*hi.toUInt32)

/-- The lines that all versions end in; the assignment to `result` keeps 16 bits. -/
def finish (sum : UInt32) : UInt16 :=
  let sum := (sum >>> 16) + (sum &&& 0xFFFF)
  let sum := sum + (sum >>> 16)
  (~~~ sum).toUInt16

/-- The loop of `ComputeCheckSum` with `n` rounds to go -/
def sumLoop (buffer : List UInt8) : ℕ → ℕ → UInt32 → Option UInt32
  | 0, _, sum => some sum
  | n+1, i, sum => do
    let w ← loadShort buffer (2*i)
    sumLoop buffer n (i+1) (sum+w)

def wordSum (buffer : List UInt8) (size : ℕ) : Option UInt32 := do
  let sum ← sumLoop buffer (size/2) 0 0
  if size%2 = 1 then
    let b ← buffer[size-1]?
    some (sum + b.toUInt32)
  else some sum

def ComputeCheckSum (buffer : List UInt8) (size : ℕ) : Option UInt16 :=
  (wordSum buffer size).map finish

/-- `for (sum = 0; len > 1; len -= 2) sum += *buf++`: what is left of `len`, `buf`, and `sum` -/
def walkLoop (b : List UInt8) : ℕ → ℕ → UInt32 → Option (ℕ × ℕ × UInt32)
  | len+2, buf, sum => do
    let w ← loadShort b buf
    walkLoop b len (buf+2) (sum+w)
  | len, buf, sum => some (len,buf,sum)

/-- `if (len == 1) sum += *(unsigned char *)buf` -/
def lastByte (b : List UInt8) (len buf : ℕ) (sum : UInt32) : Option UInt32 :=
  if len = 1 then do
    let c ← b[buf]?
    some (sum + c.toUInt32)
  else some sum

/-- What `checksum` has in `sum` before the carries are folded -/
def walkSum (b : List UInt8) (len : ℕ) : Option UInt32 := do
  let (len,buf,sum) ← walkLoop b len 0 0
  lastByte b len buf sum

/-- `checksum` of `inf22-1.c` -/
def checksum (b : List UInt8) (len : ℕ) : Option UInt16 := (walkSum b len).map finish

/-- `checksum` of `inf22-1-ver1.c` -/
def Ver1.checksum (b : List UInt8) (size : ℕ) : Option UInt16 := (walkSum b size).map finish

def store (packet : List UInt8) (p : ℕ) (r : UInt16) : List UInt8 :=
  (packet.set p r.toUInt8).set (p+1) (r >>> 8).toUInt8

/-- The 16-bit words of a buffer, the lower byte first; a last odd byte goes with a zero. -/
def words : List UInt8 → List ℕ
  | lo :: hi :: rest => (lo.toNat + 256*hi.toNat) :: words rest
  | [b] => [b.toNat]
  | [] => []

theorem walkLoop_eq (b : List UInt8) {e : ℕ} (he : e < 2) (n i : ℕ) (sum : UInt32) :
    walkLoop b (2*n+e) (2*i) sum = (sumLoop b n i sum).map fun s => (e,2*(i+n),s) := by
  induction n generalizing i sum with
  | zero =>
    match e with
    | 0 => rfl
    | 1 => rfl
  | succ n ih =>
    rw [show 2*(n+1)+e = 2*n+e+2 by omega,walkLoop,sumLoop]
    cases loadShort b (2*i) with
    | none => rfl
    | some w =>
      have hnext := ih (i+1) (sum+w)
      rw [show 2*(i+1) = 2*i+2 by omega] at hnext
      simpa [show i+1+n = i+(n+1) by omega] using hnext

theorem wordSum_eq (b : List UInt8) (len : ℕ) : wordSum b len = walkSum b len := by
  have hdiv := Nat.div_add_mod len 2
  have hloop := walkLoop_eq b (Nat.mod_lt len (by decide)) (len/2) 0 0
  rw [hdiv] at hloop
  unfold wordSum walkSum
  rw [hloop]
  cases sumLoop b (len/2) 0 0 with
  | none => rfl
  | some s =>
    obtain h | h := Nat.mod_two_eq_zero_or_one len
    · simp [h,lastByte]
    · have hlast : 2*(len/2) = len-1 := by omega
      simp [h,hlast,lastByte]

theorem words_lt : ∀ {l : List UInt8}, ∀ x ∈ words l, x < 2^16 := by
  intro l
  fun_induction words l with
  | case1 lo hi rest ih =>
    have hlo := lo.toNat_lt
    have hhi := hi.toNat_lt
    intro x hx
    obtain rfl | hx := List.mem_cons.mp hx
    · omega
    · exact ih x hx
  | case2 b =>
    have hb := b.toNat_lt
    intro x hx
    obtain rfl := List.mem_singleton.mp hx
    omega
  | case3 => simp

theorem words_sum_le (l : List UInt8) : (words l).sum ≤ (2^16-1)*((l.length+1)/2) := by
  fun_induction words l with
  | case1 lo hi rest ih =>
    have hlo := lo.toNat_lt
    have hhi := hi.toNat_lt
    simp only [List.sum_cons,List.length_cons]
    omega
  | case2 b =>
    have hb := b.toNat_lt
    simp only [List.sum_singleton,List.length_singleton]
    omega
  | case3 => simp

theorem toNat_short (lo hi : UInt8) :
    (lo.toUInt32 + 256*hi.toUInt32).toNat = lo.toNat + 256*hi.toNat := by
  have hlo := lo.toNat_lt
  have hhi := hi.toNat_lt
  have hprod : (256*hi.toUInt32).toNat = 256*hi.toNat := by
    rw [UInt32.toNat_mul,UInt8.toNat_toUInt32]
    change 256*hi.toNat%2^32 = 256*hi.toNat
    exact Nat.mod_eq_of_lt (by omega)
  rw [UInt32.toNat_add,UInt8.toNat_toUInt32,hprod]
  exact Nat.mod_eq_of_lt (by omega)

theorem walkLoop_sum {b l rest : List UInt8} {buf : ℕ} {sum : UInt32}
    (hb : b.drop buf = l ++ rest) (hfit : sum.toNat + (words l).sum < 2^32) :
    ∃ s, (walkLoop b l.length buf sum).bind (fun r => lastByte b r.1 r.2.1 r.2.2) = some s ∧
      s.toNat = sum.toNat + (words l).sum := by
  fun_induction words l generalizing buf sum with
  | case1 lo hi l ih =>
    have hlo : b[buf]? = some lo := by
      rw [← List.head?_drop,hb]
      rfl
    have hhi : b[buf+1]? = some hi := by
      rw [← List.getElem?_drop,hb]
      rfl
    have hdrop : b.drop (buf+2) = l ++ rest := by
      rw [← List.drop_drop,hb]
      rfl
    have hload : loadShort b buf = some (lo.toUInt32 + 256*hi.toUInt32) := by
      simp [loadShort,hlo,hhi]
    rw [List.sum_cons] at hfit
    have hadd : (sum + (lo.toUInt32 + 256*hi.toUInt32)).toNat =
        sum.toNat + (lo.toNat + 256*hi.toNat) := by
      rw [UInt32.toNat_add,toNat_short]
      exact Nat.mod_eq_of_lt (by omega)
    have hfit' : (sum + (lo.toUInt32 + 256*hi.toUInt32)).toNat + (words l).sum < 2^32 := by omega
    obtain ⟨s,hs,hval⟩ := ih hdrop hfit'
    refine ⟨s,?_,by rw [hval,hadd,List.sum_cons]; omega⟩
    simpa [walkLoop,hload] using hs
  | case2 c =>
    have hc : b[buf]? = some c := by
      rw [← List.head?_drop,hb]
      rfl
    rw [List.sum_singleton] at hfit ⊢
    refine ⟨sum + c.toUInt32,by simp [walkLoop,lastByte,hc],?_⟩
    rw [UInt32.toNat_add,UInt8.toNat_toUInt32]
    exact Nat.mod_eq_of_lt hfit
  | case3 => exact ⟨sum,by simp [walkLoop,lastByte],by simp⟩

/-- All versions sum the words, and the accumulator does not overflow. -/
theorem walkSum_eq {b : List UInt8} {len : ℕ} (hlen : len ≤ b.length) (hmax : len ≤ 131070) :
    ∃ s, walkSum b len = some s ∧ s.toNat = (words (b.take len)).sum := by
  have hle := words_sum_le (b.take len)
  rw [List.length_take_of_le hlen] at hle
  have hfit : (0 : UInt32).toNat + (words (b.take len)).sum < 2^32 := by
    rw [UInt32.toNat_zero]
    omega
  have hb : b.drop 0 = b.take len ++ b.drop len := by simp
  obtain ⟨s,hs,hval⟩ := walkLoop_sum hb hfit
  rw [List.length_take_of_le hlen] at hs
  exact ⟨s,hs,by simpa using hval⟩

/-- Two carries are brought round, and the 16 bits that are kept are then the whole sum. -/
theorem toNat_finish (s : UInt32) :
    (finish s).toNat + fold (2^16) (fold (2^16) s.toNat) = 2^16-1 := by
  have hs := s.toNat_lt
  have hmask : (s &&& 0xFFFF).toNat = s.toNat%2^16 := by
    rw [UInt32.toNat_and]
    exact Nat.and_two_pow_sub_one_eq_mod s.toNat 16
  have hshift : ∀ t : UInt32, (t >>> 16).toNat = t.toNat/2^16 := by
    intro t
    rw [UInt32.toNat_shiftRight]
    exact Nat.shiftRight_eq_div_pow _ _
  have hfold : ((s >>> 16) + (s &&& 0xFFFF)).toNat = fold (2^16) s.toNat := by
    rw [UInt32.toNat_add,hshift,hmask]
    exact Nat.mod_eq_of_lt (by omega)
  have hlt : fold (2^16) (fold (2^16) s.toNat) < 2^16 := fold_fold_lt (by decide) (by omega)
  generalize hf : (s >>> 16) + (s &&& 0xFFFF) = f at hfold
  have hsum : (f + (f >>> 16)).toNat = f.toNat + f.toNat/2^16 := by
    rw [UInt32.toNat_add,hshift]
    unfold fold at hfold
    exact Nat.mod_eq_of_lt (by omega)
  simp only [finish,hf]
  rw [UInt32.toNat_toUInt16,UInt32.toNat_not,hsum,← hfold]
  rw [← hfold] at hlt
  unfold fold at hlt ⊢
  simp only [UInt32.size]
  omega

theorem walkSum_finish {b : List UInt8} {len : ℕ} (hlen : len ≤ b.length) (hmax : len ≤ 131070) :
    ∃ r, (walkSum b len).map finish = some r ∧
      r.toNat + residue (2^16) (words (b.take len)).sum = 2^16-1 := by
  obtain ⟨s,hs,hval⟩ := walkSum_eq hlen hmax
  have hfin := toNat_finish s
  have hlt := s.toNat_lt
  rw [fold_fold_eq (by decide) (by omega),hval] at hfin
  exact ⟨finish s,by rw [hs]; rfl,hfin⟩

theorem words_store {l : List UInt8} {p : ℕ} (r : UInt16) (hp : p%2 = 0)
    (hlo : l[p]? = some 0) (hhi : l[p+1]? = some 0) :
    (words (store l p r)).sum = (words l).sum + r.toNat := by
  fun_induction words l generalizing p with
  | case1 lo hi rest ih =>
    match p with
    | 0 =>
      obtain rfl : lo = 0 := by simpa using hlo
      obtain rfl : hi = 0 := by simpa using hhi
      have hr := r.toNat_lt
      have hval : r.toUInt8.toNat + 256*(r >>> 8).toUInt8.toNat = r.toNat := by
        simp only [UInt16.toNat_toUInt8,UInt16.toNat_shiftRight,UInt16.toNat_ofNat,
          Nat.shiftRight_eq_div_pow]
        norm_num
        omega
      simp [store,words]
      omega
    | 1 => exact absurd hp (by decide)
    | p+2 =>
      have hrest := ih (p := p) (by omega) (by simpa using hlo) (by simpa using hhi)
      simp only [store,List.set_cons_succ,words,List.sum_cons] at hrest ⊢
      omega
  | case2 b => simp at hhi
  | case3 => simp at hhi

theorem length_store (l : List UInt8) (p : ℕ) (r : UInt16) : (store l p r).length = l.length := by
  simp [store]

theorem take_store {l : List UInt8} {p len : ℕ} (r : UInt16) :
    (store l p r).take len = store (l.take len) p r := by
  simp [store,List.take_set]

/-- The checksum of a packet whose checksum is stored in it is 0. -/
theorem walkSum_store {b : List UInt8} {len p : ℕ} {r : UInt16} (hlen : len ≤ b.length)
    (hmax : len ≤ 131070) (hr : (walkSum b len).map finish = some r) (hp : p%2 = 0)
    (hfield : p+2 ≤ len) (hlo : b[p]? = some 0) (hhi : b[p+1]? = some 0) :
    (walkSum (store b p r) len).map finish = some 0 := by
  obtain ⟨r',hr',hval⟩ := walkSum_finish hlen hmax
  obtain rfl : r' = r := Option.some.inj (hr'.symm.trans hr)
  obtain ⟨z,hz,hzval⟩ := walkSum_finish (b := store b p r') (by rwa [length_store]) hmax
  have hsum : (words ((store b p r').take len)).sum = (words (b.take len)).sum + r'.toNat := by
    rw [take_store]
    refine words_store r' hp ?_ ?_
    · rwa [List.getElem?_take_of_lt (by omega)]
    · rwa [List.getElem?_take_of_lt (by omega)]
  have hall := residue_add_complement (B := 2^16) (by decide) (words (b.take len)).sum
  have hcompl : 2^16-1-residue (2^16) (words (b.take len)).sum = r'.toNat := by omega
  rw [hcompl] at hall
  rw [hsum,hall] at hzval
  have hz0 : z.toNat = 0 := by omega
  rw [hz,UInt16.toNat_inj.mp (hz0.trans UInt16.toNat_zero.symm)]

/-- All versions return the complement of the one's-complement sum of the words: the
accumulator holds the ordinary sum, and after two folds no carry is left. -/
theorem versions_agree {buffer : List UInt8} {len : ℕ} (hlen : len ≤ buffer.length)
    (hmax : len ≤ 131070) :
    ∃ (s : UInt32) (r : UInt16),
      wordSum buffer len = some s ∧ walkSum buffer len = some s ∧
      s.toNat = (words (buffer.take len)).sum ∧
      fold (2^16) (fold (2^16) s.toNat) < 2^16 ∧
      fold (2^16) (fold (2^16) s.toNat) = sum (2^16) (words (buffer.take len)) ∧
      ComputeCheckSum buffer len = some r ∧ checksum buffer len = some r ∧
      Ver1.checksum buffer len = some r ∧
      r.toNat = 2^16-1 - sum (2^16) (words (buffer.take len)) ∧
      ∀ p, len%2 = 0 → p%2 = 0 → p+2 ≤ len → buffer[p]? = some 0 → buffer[p+1]? = some 0 →
        ComputeCheckSum (store buffer p r) len = some 0 ∧
        checksum (store buffer p r) len = some 0 ∧ Ver1.checksum (store buffer p r) len = some 0 := by
  obtain ⟨s,hs,hval⟩ := walkSum_eq hlen hmax
  have hr : (walkSum buffer len).map finish = some (finish s) := by rw [hs]; rfl
  have hlt := s.toNat_lt
  have hsq : s.toNat < 2^16*2^16 := by omega
  have htwo : fold (2^16) (fold (2^16) s.toNat) = sum (2^16) (words (buffer.take len)) := by
    rw [fold_fold_eq (by decide) hsq,sum_eq_residue (by decide) words_lt,hval]
  have hfin := toNat_finish s
  refine ⟨s,finish s,by rw [wordSum_eq,hs],hs,hval,fold_fold_lt (by decide) hsq,htwo,?_,hr,hr,
    by omega,?_⟩
  · rw [ComputeCheckSum,wordSum_eq,hr]
  · intro p _ hp hfield hlo hhi
    have hzero := walkSum_store hlen hmax hr hp hfield hlo hhi
    exact ⟨by rw [ComputeCheckSum,wordSum_eq,hzero],hzero,hzero⟩

/-- An echo request with its identifier, whose checksum field is still zero -/
theorem versions_agree_request : ∃ r : UInt16,
    ComputeCheckSum [8,0,0,0,1,2,3,4] 8 = some r ∧ checksum [8,0,0,0,1,2,3,4] 8 = some r ∧
      checksum (store [8,0,0,0,1,2,3,4] 2 r) 8 = some 0 := by
  obtain ⟨s,r,-,-,-,-,-,hc,hk,-,-,hstore⟩ :=
    @versions_agree [8,0,0,0,1,2,3,4] 8 (by decide) (by decide)
  exact ⟨r,hc,hk,(hstore 2 (by decide) (by decide) (by decide) rfl rfl).2.1⟩

end Checksum
end SomeCode
