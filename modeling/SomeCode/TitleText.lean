import SomeCode.CString
import SomeCode.MachineInt
import SomeCode.Stdio

/-! How `inf23-2.c` and `inf23-2-ver2.c` take the title out of the page that they have loaded.
Arithmetic on the null pointer is undefined. -/
namespace SomeCode
namespace TitleText

open CString MachineInt

def openTag : List UInt8 := [60,116,105,116,108,101,62]

def closeTag : List UInt8 := [60,47,116,105,116,108,101,62]

/-- The string at the start of a block, which has to end in it -/
def string (data : List UInt8) : Option (List UInt8) :=
  if 0 ∈ data then some (data.takeWhile (· ≠ 0)) else none

/-- What `write` is given, if that is inside the block -/
def write (data : List UInt8) (i count : ℕ) : Option (List UInt8) :=
  if i+count ≤ data.length then some ((data.drop i).take count) else none

/-- The end of `main` in `inf23-2.c` -/
def writeTitle (data : List UInt8) : Option (List UInt8) := do
  let s ← string data
  let title ← strstr openTag s
  let title2 ← strstr closeTag s
  let length := wrap 32 ((title2 : ℤ)-title)
  -- the difference is taken in `int`
  if length-7 < -2^31 then none
  else write data (title+7) (unsigned 64 (length-7))

namespace Ver2

/-- The end of `main` in `inf23-2-ver2.c` -/
def writeTitle (data : List UInt8) : Option (List UInt8) := do
  let s ← string data
  let begin_ ← strstr openTag s
  let end_ ← strstr closeTag s
  let begin_ := begin_+openTag.length
  let size := unsigned 64 ((end_ : ℤ)-begin_)
  write data begin_ size

end Ver2

/-- A block with a page in it as a string -/
structure PageBlock where
  page : List UInt8
  rest : List UInt8
  zero_notMem : 0 ∉ page
  length_lt : page.length+(rest.length+1) < 2^63

def PageBlock.data (b : PageBlock) : List UInt8 := b.page ++ 0 :: b.rest

theorem PageBlock.string_eq (b : PageBlock) : string b.data = some b.page := by
  rw [string,if_pos (by simp [data]),data]
  exact congrArg some (Stdio.takeWhile_ne_append b.zero_notMem b.rest)

/-- The first occurrence of `tag` from `k` on -/
def FirstFrom (tag page : List UInt8) (k i : ℕ) : Prop :=
  k ≤ i ∧ tag <+: page.drop i ∧ ∀ j, k ≤ j → j < i → ¬ tag <+: page.drop j

/-- What ought to be written: the text between the first `<title>` and the first `</title>` after
it, and nothing if there is no `</title>` after a `<title>`. -/
def IsTitle (page out : List UInt8) : Prop :=
  (∃ p q, FirstFrom openTag page 0 p ∧ FirstFrom closeTag page (p+1) q ∧
    out = (page.drop (p+7)).take (q-(p+7))) ∨
  ((¬ ∃ i j, i < j ∧ openTag <+: page.drop i ∧ closeTag <+: page.drop j) ∧ out = [])

variable {tag page out : List UInt8} {p q : ℕ}

theorem firstFrom_zero_iff : FirstFrom tag page 0 p ↔ strstr tag page = some p := by
  simp [FirstFrom,strstr_eq_some_iff]

theorem FirstFrom.unique {k i j : ℕ} (hi : FirstFrom tag page k i)
    (hj : FirstFrom tag page k j) : i = j := by
  by_contra hne
  obtain hlt | hlt := Nat.lt_or_gt_of_ne hne
  · exact hj.2.2 i hi.1 hlt hi.2.1
  · exact hi.2.2 j hj.1 hlt hj.2.1

theorem getElem?_of_prefix {k : ℕ} (h : tag <+: page.drop p) (hk : k < tag.length) :
    page[p+k]? = tag[k]? := by
  obtain ⟨l,hl⟩ := h
  rw [← List.getElem?_drop,← hl,List.getElem?_append_left hk]

theorem add_le_of_prefix (h : tag <+: page.drop p) (hne : tag ≠ []) :
    p+tag.length ≤ page.length := by
  have hle := h.length_le
  have hpos := List.length_pos_of_ne_nil hne
  rw [List.length_drop] at hle
  omega

theorem tags_apart (hp : openTag <+: page.drop p) (hq : closeTag <+: page.drop q) (h : p < q) :
    p+7 ≤ q := by
  by_contra hlt
  obtain ⟨k,rfl⟩ := Nat.exists_eq_add_of_lt h
  have hk : k < 6 := by omega
  have hopen := getElem?_of_prefix hp (show k+1 < openTag.length from Nat.succ_lt_succ hk)
  have hclose := getElem?_of_prefix hq (show 0 < closeTag.length by decide)
  rw [Nat.add_zero,Nat.add_assoc,hopen] at hclose
  have hno : ∀ k, k < 6 → openTag[k+1]? ≠ closeTag[0]? := by decide
  exact hno k hk hclose

theorem isTitle_iff_of_firstFrom (hp : FirstFrom openTag page 0 p)
    (hq : FirstFrom closeTag page (p+1) q) :
    IsTitle page out ↔ out = (page.drop (p+7)).take (q-(p+7)) := by
  constructor
  · rintro (⟨p',q',hp',hq',rfl⟩ | ⟨hno,-⟩)
    · obtain rfl := hp.unique hp'
      obtain rfl := hq.unique hq'
      rfl
    · exact absurd ⟨p,q,hq.1,hp.2.1,hq.2.1⟩ hno
  · exact fun h => .inl ⟨p,q,hp,hq,h⟩

theorem isTitle_iff_of_none (hp : FirstFrom openTag page 0 p)
    (hno : ∀ j, p < j → ¬ closeTag <+: page.drop j) : IsTitle page out ↔ out = [] := by
  constructor
  · rintro (⟨p',q',hp',hq',rfl⟩ | ⟨-,h⟩)
    · obtain rfl := hp.unique hp'
      exact absurd hq'.2.1 (hno q' hq'.1)
    · exact h
  · refine fun h => .inr ⟨?_,h⟩
    rintro ⟨i,j,hij,hi,hj⟩
    have hle : p ≤ i := Nat.le_of_not_lt fun hlt => hp.2.2 i (Nat.zero_le i) hlt hi
    exact hno j (by omega) hj

theorem exists_firstFrom {k i : ℕ} (hk : k ≤ i) (h : tag <+: page.drop i) :
    ∃ q, FirstFrom tag page k q := by
  classical
  have hex : ∃ i, k ≤ i ∧ tag <+: page.drop i := ⟨i,hk,h⟩
  refine ⟨Nat.find hex,(Nat.find_spec hex).1,(Nat.find_spec hex).2,fun j hj hlt hat => ?_⟩
  exact Nat.find_min hex hlt ⟨hj,hat⟩

variable {b : PageBlock} {d : ℤ}

/-- `d` leads from the first `<title>` to the end of the title. -/
def Reaches (page : List UInt8) (p : ℕ) (d : ℤ) : Prop :=
  (∃ q, FirstFrom closeTag page (p+1) q ∧ d = q-p) ∨
  ((∀ j, p < j → ¬ closeTag <+: page.drop j) ∧ d = 7)

theorem add_le_of_strstr (h : strstr tag page = some p) (hne : tag ≠ []) :
    p+tag.length ≤ page.length := add_le_of_prefix (strstr_eq_some_iff.mp h).1 hne

/-- A program that writes the `d-7` bytes behind the first `<title>` is right just when `d` is
the distance that it has to be. -/
theorem right_iff_reaches {f : Option (List UInt8)} (hp : strstr openTag b.page = some p)
    (hsome : ∀ out, f = some out → d = out.length+7)
    (hwrite : ∀ n : ℕ, d = n+7 → p+7+n ≤ b.page.length → f = some ((b.page.drop (p+7)).take n)) :
    (∃ out, f = some out ∧ IsTitle b.page out) ↔ Reaches b.page p d := by
  have hfirst := firstFrom_zero_iff.mpr hp
  have hopen : p+7 ≤ b.page.length := add_le_of_strstr hp (by decide)
  by_cases hex : ∃ j, p < j ∧ closeTag <+: b.page.drop j
  · obtain ⟨j,hj,hat⟩ := hex
    obtain ⟨q,hq⟩ := exists_firstFrom hj hat
    have hpq : p+7 ≤ q := tags_apart hfirst.2.1 hq.2.1 hq.1
    have hend : q+8 ≤ b.page.length := add_le_of_prefix hq.2.1 (by decide)
    have hlen : ((b.page.drop (p+7)).take (q-(p+7))).length = q-(p+7) := by
      simp only [List.length_take,List.length_drop]
      omega
    constructor
    · rintro ⟨out,hf,hout⟩
      obtain rfl := (isTitle_iff_of_firstFrom hfirst hq).mp hout
      have hd := hsome _ hf
      rw [hlen] at hd
      exact .inl ⟨q,hq,by omega⟩
    · rintro (⟨q',hq',hd⟩ | ⟨hno,-⟩)
      · obtain rfl := hq.unique hq'
        exact ⟨_,hwrite (q-(p+7)) (by omega) (by omega),
          (isTitle_iff_of_firstFrom hfirst hq).mpr rfl⟩
      · exact absurd hat (hno j hj)
  · have hno : ∀ j, p < j → ¬ closeTag <+: b.page.drop j := fun j hj hat => hex ⟨j,hj,hat⟩
    constructor
    · rintro ⟨out,hf,hout⟩
      obtain rfl := (isTitle_iff_of_none hfirst hno).mp hout
      exact .inr ⟨hno,hsome _ hf⟩
    · rintro (⟨q,hq,-⟩ | ⟨-,hd⟩)
      · exact absurd hq.2.1 (hno q hq.1)
      · exact ⟨_,hwrite 0 hd hopen,(isTitle_iff_of_none hfirst hno).mpr rfl⟩

theorem write_page {i n : ℕ} (h : i+n ≤ b.page.length) :
    write b.data i n = some ((b.page.drop i).take n) := by
  have hlen : i+n ≤ b.data.length := by
    simp only [PageBlock.data,List.length_append]
    omega
  rw [write,if_pos hlen,PageBlock.data,List.drop_append_of_le_length (by omega),
    List.take_append_of_le_length (by rw [List.length_drop]; omega)]

theorem length_of_write {i : ℕ} {x : ℤ} (hl : -2^63 ≤ x) (hu : x < 2^63)
    (h : write b.data i (unsigned 64 x) = some out) : (out.length : ℤ) = x := by
  obtain ⟨hle,hout⟩ := Option.ite_none_right_eq_some.mp h
  obtain rfl := Option.some.inj hout
  have hblock : b.data.length < 2^63 := by
    simpa only [PageBlock.data,List.length_append,List.length_cons] using b.length_lt
  have hcast : (unsigned 64 x : ℤ) = x % 2^64 := Int.toNat_of_nonneg (Int.emod_nonneg x (by norm_num))
  simp only [List.length_take,List.length_drop]
  omega

theorem Ver2.writeTitle_eq (hp : strstr openTag b.page = some p)
    (hq : strstr closeTag b.page = some q) :
    Ver2.writeTitle b.data = write b.data (p+7) (unsigned 64 ((q : ℤ)-p-7)) := by
  have hlen : openTag.length = 7 := rfl
  simp [Ver2.writeTitle,b.string_eq,hp,hq,hlen,Int.sub_sub]

theorem writeTitle_eq (hp : strstr openTag b.page = some p)
    (hq : strstr closeTag b.page = some q) :
    writeTitle b.data = if wrap 32 ((q : ℤ)-p)-7 < -2^31 then none
      else write b.data (p+7) (unsigned 64 (wrap 32 ((q : ℤ)-p)-7)) := by
  simp [writeTitle,b.string_eq,hp,hq]

theorem Ver2.right_iff (hp : strstr openTag b.page = some p)
    (hq : strstr closeTag b.page = some q) :
    (∃ out, Ver2.writeTitle b.data = some out ∧ IsTitle b.page out) ↔
      Reaches b.page p (q-p) := by
  have hopen : p+7 ≤ b.page.length := add_le_of_strstr hp (by decide)
  have hclose : q+8 ≤ b.page.length := add_le_of_strstr hq (by decide)
  have hlt := b.length_lt
  refine right_iff_reaches hp (fun out h => ?_) fun n hd hroom => ?_
  · rw [Ver2.writeTitle_eq hp hq] at h
    have hlen := length_of_write (by omega) (by omega) h
    omega
  · rw [Ver2.writeTitle_eq hp hq,show (q : ℤ)-p-7 = n by omega,
      unsigned_eq (by omega) (by omega),Int.toNat_natCast]
    exact write_page hroom

theorem right_iff (hp : strstr openTag b.page = some p)
    (hq : strstr closeTag b.page = some q) :
    (∃ out, writeTitle b.data = some out ∧ IsTitle b.page out) ↔
      Reaches b.page p (wrap 32 (q-p)) := by
  have hlt : wrap 32 ((q : ℤ)-p) < 2^31 := wrap_lt 31 _
  refine right_iff_reaches hp (fun out h => ?_) fun n hd hroom => ?_
  · rw [writeTitle_eq hp hq] at h
    split_ifs at h with hover
    have hlen := length_of_write (by omega) (by omega) h
    omega
  · rw [writeTitle_eq hp hq,hd,if_neg (by omega),show ((n : ℤ)+7-7) = n by omega,
      unsigned_eq (by omega) (by omega),Int.toNat_natCast]
    exact write_page hroom

/-- The distance of the first tags, cut down to an `int`, is the distance that it has to be. -/
def Wraps (page : List UInt8) (p q : ℕ) : Prop :=
  (∃ q', FirstFrom closeTag page (p+1) q' ∧ q'-p < 2^31 ∧ (2^32 : ℤ) ∣ q-q') ∨
  ((∀ j, p < j → ¬ closeTag <+: page.drop j) ∧ (2^32 : ℤ) ∣ q-(p+7))

theorem reaches_wrap_iff : Reaches page p (wrap 32 (q-p)) ↔ Wraps page p q := by
  have hlt : wrap 32 ((q : ℤ)-p) < 2^31 := wrap_lt 31 _
  have hiff : ∀ x : ℤ, -2^31 ≤ x → x < 2^31 →
      (wrap 32 ((q : ℤ)-p) = x ↔ (2^32 : ℤ) ∣ q-(p+x)) := by
    intro x hl hu
    have h := wrap_add_eq_iff (s := (q : ℤ)-(p+x)) hl hu
    rwa [show (q : ℤ)-(p+x)+x = q-p by omega] at h
  refine or_congr (exists_congr fun q' => and_congr_right fun hq' => ?_)
    (and_congr_right fun _ => hiff 7 (by norm_num) (by norm_num))
  have hle := hq'.1
  constructor
  · intro h
    have hdvd := (hiff (q'-p) (by omega) (by omega)).mp h
    rw [show (p : ℤ)+(q'-p) = q' by omega] at hdvd
    exact ⟨by omega,hdvd⟩
  · rintro ⟨hnear,hdvd⟩
    refine (hiff (q'-p) (by omega) (by omega)).mpr ?_
    rwa [show (p : ℤ)+(q'-p) = q' by omega]

theorem reaches_sub_iff (hq : strstr closeTag page = some q) :
    Reaches page p (q-p) ↔ p < q := by
  obtain ⟨hat,hno⟩ := strstr_eq_some_iff.mp hq
  constructor
  · rintro (⟨q',hq',hd⟩ | ⟨-,hd⟩)
    · have hle := hq'.1
      omega
    · omega
  · exact fun h => .inl ⟨q,⟨h,hat,fun j _ hj => hno j hj⟩,rfl⟩

/-- The program writes the title, and nothing where there is none. -/
def Right (f : List UInt8 → Option (List UInt8)) (b : PageBlock) : Prop :=
  ∃ out, f b.data = some out ∧ IsTitle b.page out

theorem not_right {f : List UInt8 → Option (List UInt8)} (h : f b.data = none) :
    ¬ Right f b := by
  rintro ⟨out,hout,-⟩
  rw [h] at hout
  cases hout

/-- Without one of the tags both programs compute with the null pointer. -/
theorem not_right_of_none (h : strstr openTag b.page = none ∨ strstr closeTag b.page = none) :
    ¬ Right writeTitle b ∧ ¬ Right Ver2.writeTitle b := by
  constructor
  · exact not_right (by obtain h | h := h <;> simp [writeTitle,b.string_eq,h])
  · exact not_right (by obtain h | h := h <;> simp [Ver2.writeTitle,b.string_eq,h])

def closedFirst : PageBlock where
  page := closeTag ++ openTag ++ [65] ++ closeTag
  rest := []
  zero_notMem := by decide
  length_lt := by decide

end TitleText
end SomeCode
