import SomeCode.Loops
import Mathlib.Tactic

/-! The filling loops of `inf10-2.c`: ring by ring, each ring in four loops, and then the
cell that is left in the middle of a square of odd size. -/
namespace SomeCode
namespace Spiral

open Loops

structure State where
  array : ℤ → ℤ → ℤ
  curr : ℤ

def Inside (height width i j : ℤ) : Prop := 0 ≤ i ∧ i < height ∧ 0 ≤ j ∧ j < width

instance (height width i j : ℤ) : Decidable (Inside height width i j) :=
  inferInstanceAs (Decidable (_ ∧ _))

/-- `array[i][j] = curr` -/
def assign (height width i j : ℤ) (s : State) : Option State :=
  if Inside height width i j then
    some { s with array := Function.update s.array i (Function.update (s.array i) j s.curr) }
  else none

/-- `array[i][j] = curr; ++curr` -/
def assignUp (height width i j : ℤ) (s : State) : Option State :=
  (assign height width i j s).map fun s => { s with curr := s.curr+1 }

/-- `array[i][j] = curr; --curr` -/
def assignDown (height width i j : ℤ) (s : State) : Option State :=
  (assign height width i j s).map fun s => { s with curr := s.curr-1 }

/-- The four loops of one round -/
def ring (height width c_h c_w : ℤ) (s : State) : Option State := do
  let s ← forUp (width-c_w) (fun i => assignUp height width c_h i) c_w s
  let s ← forUp (height-2*c_h) (fun i => assignUp height width (c_h+i) (width-c_w-1)) 1 s
  let s ← forDown c_w (fun i => assignUp height width (height-c_h-1) i) (width-2-c_w) s
  forDown (c_h+1) (fun i => assignUp height width i c_w) (height-c_h-2) s

def rings (height width c_h c_w : ℤ) (s : State) : Option State :=
  if c_h < height/2 ∧ c_w < width/2 then
    (ring height width c_h c_w s).bind (rings height width (c_h+1) (c_w+1))
  else some s
termination_by (height/2-c_h).toNat
decreasing_by omega

/-- What is left in the middle -/
def centre (height width : ℤ) (s : State) : Option State :=
  let s := { s with curr := width*height }
  if height%2 = 1 ∨ width%2 = 1 then
    if width < height then
      forDown (width/2) (fun i => assignDown height width i (width/2)) (height-width/2-1) s
    else
      forDown (height/2) (fun i => assignDown height width (height/2) i) (width-height/2-1) s
  else some s

/-- The array when it has been filled; `none` if an access was out of bounds. -/
def fill (height : ℤ) : Option (ℤ → ℤ → ℤ) := do
  let width := height
  let s ← rings height width 0 0 ⟨fun _ _ => 0,1⟩
  let s ← centre height width s
  some s.array

inductive Heading
  | right
  | down
  | left
  | up
  deriving DecidableEq

namespace Heading

def turn : Heading → Heading
  | right => down
  | down => left
  | left => up
  | up => right

def move : Heading → ℤ × ℤ → ℤ × ℤ
  | right, c => (c.1,c.2+1)
  | down, c => (c.1+1,c.2)
  | left, c => (c.1,c.2-1)
  | up, c => (c.1-1,c.2)

end Heading

/-- The next cell is outside, or it holds a smaller number than the cell `c`. -/
def Blocked (n : ℤ) (a : ℤ → ℤ → ℤ) (c ahead : ℤ × ℤ) : Prop :=
  ¬ Inside n n ahead.1 ahead.2 ∨ a ahead.1 ahead.2 < a c.1 c.2

/-- The numbers from 1 on follow a walk, which leaves the cell `c` by `heading c`: first to the
right, and clockwise by a right angle exactly where the next cell is blocked. -/
structure IsSpiral (n : ℤ) (a : ℤ → ℤ → ℤ) (heading : ℤ × ℤ → Heading) : Prop where
  once : ∀ k, 1 ≤ k → k ≤ n*n → ∃! c : ℤ × ℤ, Inside n n c.1 c.2 ∧ a c.1 c.2 = k
  range : ∀ i j, Inside n n i j → 1 ≤ a i j ∧ a i j ≤ n*n
  start : a 0 0 = 1
  first : 1 < n → heading (0,0) = .right
  next : ∀ c, Inside n n c.1 c.2 → a c.1 c.2 < n*n →
    let d := (heading c).move c
    Inside n n d.1 d.2 ∧ a d.1 d.2 = a c.1 c.2 + 1
  turns : ∀ c, Inside n n c.1 c.2 → a c.1 c.2 + 1 < n*n →
    let d := (heading c).move c
    (Blocked n a d ((heading c).move d) → heading d = (heading c).turn) ∧
    (¬ Blocked n a d ((heading c).move d) → heading d = heading c)

def ringOf (n i j : ℤ) : ℤ := min (min i j) (min (n-1-i) (n-1-j))

def before (n r : ℤ) : ℤ := 4*r*(n-r)

def within (n r i j : ℤ) : ℤ :=
  if i = r then j-r+1
  else if j = n-1-r then (n-1-2*r) + (i-r) + 1
  else if i = n-1-r then 2*(n-1-2*r) + (n-1-r-j) + 1
  else 3*(n-1-2*r) + (n-1-r-i) + 1

def number (n i j : ℤ) : ℤ := before n (ringOf n i j) + within n (ringOf n i j) i j

def headingOf (n : ℤ) (c : ℤ × ℤ) : Heading :=
  let r := ringOf n c.1 c.2
  if c.1 = r ∧ c.2 < n-1-r then .right
  else if c.2 = n-1-r ∧ c.1 < n-1-r then .down
  else if c.1 = n-1-r ∧ r < c.2 then .left
  else if r+1 < c.1 then .up
  else .right

variable {n i j r : ℤ}

theorem before_succ (n r : ℤ) : before n (r+1) = before n r + 4*(n-1-2*r) := by
  unfold before
  ring

theorem before_mono {q : ℤ} (h : q ≤ r) (hr : 2*r ≤ n) : before n q ≤ before n r := by
  unfold before
  nlinarith [mul_nonneg (sub_nonneg.mpr h) (show 0 ≤ n-q-r by omega)]

theorem ringOf_bounds (h : Inside n n i j) : 0 ≤ ringOf n i j ∧ 2*ringOf n i j + 1 ≤ n := by
  obtain ⟨hi0,hin,hj0,hjn⟩ := h
  unfold ringOf
  omega

theorem ringOf_eq (hi : r ≤ i ∧ i ≤ n-1-r) (hj : r ≤ j ∧ j ≤ n-1-r)
    (hb : i = r ∨ j = r ∨ i = n-1-r ∨ j = n-1-r) : ringOf n i j = r := by
  obtain ⟨hi1,hi2⟩ := hi
  obtain ⟨hj1,hj2⟩ := hj
  unfold ringOf
  omega

theorem number_bounds (h : Inside n n i j) :
    before n (ringOf n i j) < number n i j ∧
      (2*ringOf n i j + 1 < n → number n i j ≤ before n (ringOf n i j + 1)) := by
  rw [before_succ]
  have hr : ringOf n i j = min (min i j) (min (n-1-i) (n-1-j)) := rfl
  unfold number within
  generalize ringOf n i j = r at hr
  obtain ⟨hi0,hin,hj0,hjn⟩ := h
  split_ifs <;> omega

theorem before_zero (n : ℤ) : before n 0 = 0 := by simp [before]

theorem before_le (n r : ℤ) : before n r ≤ n*n := by
  unfold before
  nlinarith [sq_nonneg (n-2*r)]

theorem before_centre (h : 2*r+1 = n) : before n r + 1 = n*n := by
  subst h
  unfold before
  ring

theorem before_half (h : 2*r = n) : before n r = n*n := by
  subst h
  unfold before
  ring

theorem number_centre (h : Inside n n i j) (hr : 2*ringOf n i j + 1 = n) :
    number n i j = n*n := by
  rw [← before_centre hr]
  have hdef : ringOf n i j = min (min i j) (min (n-1-i) (n-1-j)) := rfl
  unfold number within
  generalize ringOf n i j = r at hr hdef
  obtain ⟨hi0,hin,hj0,hjn⟩ := h
  split_ifs <;> omega

theorem number_range (h : Inside n n i j) : 1 ≤ number n i j ∧ number n i j ≤ n*n := by
  obtain ⟨hr0,hrn⟩ := ringOf_bounds h
  obtain ⟨hlow,hhigh⟩ := number_bounds h
  have hzero := before_mono hr0 (show 2*ringOf n i j ≤ n by omega)
  rw [before_zero] at hzero
  refine ⟨by omega,?_⟩
  obtain hlt | heq := lt_or_eq_of_le hrn
  · exact (hhigh hlt).trans (before_le n _)
  · exact (number_centre h heq).le

theorem number_lt {i' j' : ℤ} (h : Inside n n i j) (h' : Inside n n i' j')
    (hr : ringOf n i j < ringOf n i' j') : number n i j < number n i' j' := by
  have hb := ringOf_bounds h'
  have hle := (number_bounds h).2 (by omega)
  have hmono := before_mono (show ringOf n i j + 1 ≤ ringOf n i' j' by omega)
    (show 2*ringOf n i' j' ≤ n by omega)
  have hlt := (number_bounds h').1
  omega

theorem within_cases (hi : r ≤ i ∧ i ≤ n-1-r) (hj : r ≤ j ∧ j ≤ n-1-r)
    (hb : i = r ∨ j = r ∨ i = n-1-r ∨ j = n-1-r) :
    (i = r ∧ within n r i j = j-r+1) ∨
    (r < i ∧ j = n-1-r ∧ within n r i j = (n-1-2*r) + (i-r) + 1) ∨
    (i = n-1-r ∧ j < n-1-r ∧ within n r i j = 2*(n-1-2*r) + (n-1-r-j) + 1) ∨
    (j = r ∧ i < n-1-r ∧ within n r i j = 3*(n-1-2*r) + (n-1-r-i) + 1) := by
  unfold within
  split_ifs <;> omega

theorem within_injective {i' j' : ℤ} (hi : r ≤ i ∧ i ≤ n-1-r) (hj : r ≤ j ∧ j ≤ n-1-r)
    (hb : i = r ∨ j = r ∨ i = n-1-r ∨ j = n-1-r) (hi' : r ≤ i' ∧ i' ≤ n-1-r)
    (hj' : r ≤ j' ∧ j' ≤ n-1-r) (hb' : i' = r ∨ j' = r ∨ i' = n-1-r ∨ j' = n-1-r)
    (he : within n r i j = within n r i' j') : i = i' ∧ j = j' := by
  obtain h | h | h | h := within_cases hi hj hb <;>
    obtain h' | h' | h' | h' := within_cases hi' hj' hb' <;> omega

theorem ringOf_spec (h : Inside n n i j) :
    (ringOf n i j ≤ i ∧ i ≤ n-1-ringOf n i j) ∧ (ringOf n i j ≤ j ∧ j ≤ n-1-ringOf n i j) ∧
    (i = ringOf n i j ∨ j = ringOf n i j ∨ i = n-1-ringOf n i j ∨ j = n-1-ringOf n i j) := by
  obtain ⟨hi0,hin,hj0,hjn⟩ := h
  unfold ringOf
  omega

theorem number_injective {i' j' : ℤ} (h : Inside n n i j) (h' : Inside n n i' j')
    (he : number n i j = number n i' j') : i = i' ∧ j = j' := by
  have hr : ringOf n i j = ringOf n i' j' := by
    obtain hlt | heq | hgt := lt_trichotomy (ringOf n i j) (ringOf n i' j')
    · exact absurd he (number_lt h h' hlt).ne
    · exact heq
    · exact absurd he (number_lt h' h hgt).ne'
  obtain ⟨hi,hj,hb⟩ := ringOf_spec h
  obtain ⟨hi',hj',hb'⟩ := ringOf_spec h'
  unfold number at he
  rw [← hr] at hi' hj' hb' he
  exact within_injective hi hj hb hi' hj' hb' (add_left_cancel he)

section Sides

theorem number_top (hj : r ≤ j) (hjn : j ≤ n-1-r) : number n r j = before n r + (j-r+1) := by
  rw [number,ringOf_eq ⟨le_rfl,by omega⟩ ⟨hj,hjn⟩ (.inl rfl),within,if_pos rfl]

theorem number_right (hi : r ≤ i) (hin : i ≤ n-1-r) :
    number n i (n-1-r) = before n r + ((n-1-2*r) + (i-r) + 1) := by
  rw [number,ringOf_eq ⟨hi,hin⟩ ⟨by omega,le_rfl⟩ (by simp),within]
  split_ifs <;> omega

theorem number_bottom (hj : r ≤ j) (hjn : j ≤ n-1-r) (hr : 2*r+1 < n) :
    number n (n-1-r) j = before n r + (2*(n-1-2*r) + (n-1-r-j) + 1) := by
  rw [number,ringOf_eq ⟨by omega,le_rfl⟩ ⟨hj,hjn⟩ (by simp),within]
  split_ifs <;> omega

theorem number_left (hi : r < i) (hin : i ≤ n-1-r) :
    number n i r = before n r + (3*(n-1-2*r) + (n-1-r-i) + 1) := by
  rw [number,ringOf_eq ⟨hi.le,hin⟩ ⟨le_rfl,by omega⟩ (by simp),within]
  split_ifs <;> omega

theorem heading_top (hj : r ≤ j) (hjn : j < n-1-r) : headingOf n (r,j) = .right := by
  simp [headingOf,ringOf_eq ⟨le_rfl,by omega⟩ ⟨hj,hjn.le⟩ (.inl rfl),hjn]

theorem heading_right (hi : r ≤ i) (hin : i < n-1-r) : headingOf n (i,n-1-r) = .down := by
  simp [headingOf,ringOf_eq ⟨hi,hin.le⟩ ⟨by omega,le_rfl⟩ (by simp),hin]

theorem heading_bottom (hj : r < j) (hjn : j ≤ n-1-r) : headingOf n (n-1-r,j) = .left := by
  have h1 : ¬ (n-1-r = r ∧ j < n-1-r) := by omega
  simp [headingOf,ringOf_eq ⟨by omega,le_rfl⟩ ⟨hj.le,hjn⟩ (by simp),h1,hj]

theorem heading_left (hi : r+1 < i) (hin : i ≤ n-1-r) : headingOf n (i,r) = .up := by
  have h1 : ¬ (i = r ∧ r < n-1-r) := by omega
  have h2 : ¬ (r = n-1-r ∧ i < n-1-r) := by omega
  simp [headingOf,ringOf_eq ⟨by omega,hin⟩ ⟨le_rfl,by omega⟩ (by simp),h1,h2,hi]

theorem heading_last (hr : 2*r+1 < n) : headingOf n (r+1,r) = .right := by
  have hring : ringOf n (r+1) r = r := ringOf_eq (by omega) (by omega) (by simp)
  have h2 : ¬ (r = n-1-r ∧ r+1 < n-1-r) := by omega
  simp [headingOf,hring,h2]

/-- Where a cell lies: on one of the sides of a ring, up to the corner that the next side
begins with, or it is the last cell of a ring, or a ring by itself. -/
inductive Place (n i j : ℤ) : Prop
  | top (hi : 0 ≤ i) (hij : i ≤ j) (hj : j < n-1-i)
  | right (r : ℤ) (hr : 0 ≤ r) (hj : j = n-1-r) (hi : r ≤ i) (hin : i < n-1-r)
  | bottom (r : ℤ) (hr : 0 ≤ r) (hi : i = n-1-r) (hj : r < j) (hjn : j ≤ n-1-r)
  | left (hj : 0 ≤ j) (hi : j+1 < i) (hin : i ≤ n-1-j)
  | last (hj : 0 ≤ j) (hi : i = j+1) (hjn : 2*j+1 < n)
  | centre (hj : 0 ≤ j) (hi : i = j) (hjn : 2*j+1 = n)

theorem Place.of_inside (h : Inside n n i j) : Place n i j := by
  have hr : ringOf n i j = min (min i j) (min (n-1-i) (n-1-j)) := rfl
  generalize ringOf n i j = r at hr
  obtain ⟨hi0,hin,hj0,hjn⟩ := h
  by_cases htop : i = r ∧ j < n-1-r
  · exact .top hi0 (by omega) (by omega)
  by_cases hright : j = n-1-r ∧ i < n-1-r
  · exact .right r (by omega) hright.1 (by omega) hright.2
  by_cases hbottom : i = n-1-r ∧ r < j
  · exact .bottom r (by omega) hbottom.1 hbottom.2 (by omega)
  obtain rfl : j = r := by omega
  by_cases hleft : j+1 < i
  · exact .left hj0 hleft (by omega)
  obtain hi | hi : i = j+1 ∨ i = j := by omega
  · exact .last hj0 hi (by omega)
  · exact .centre hj0 hi (by omega)

end Sides

theorem number_last (hr : 2*r+1 < n) : number n (r+1) r = before n (r+1) := by
  rw [number_left (by omega) (by omega),before_succ]
  omega

/-- Leaving a cell by its heading one comes to the next number: along the ring, or from its
last cell into the next ring. -/
theorem number_move {c : ℤ × ℤ} (h : Inside n n c.1 c.2) (hlast : number n c.1 c.2 < n*n) :
    Inside n n ((headingOf n c).move c).1 ((headingOf n c).move c).2 ∧
      number n ((headingOf n c).move c).1 ((headingOf n c).move c).2 = number n c.1 c.2 + 1 := by
  obtain ⟨i,j⟩ := c
  dsimp only at hlast
  have hplace : Place n i j := .of_inside h
  cases hplace with
  | top hi hij hj =>
    simp only [heading_top hij hj,Heading.move,number_top hij hj.le]
    rw [number_top (by omega) (by omega)]
    exact ⟨⟨by omega,by omega,by omega,by omega⟩,by omega⟩
  | right r hr hj hi hin =>
    subst hj
    simp only [heading_right hi hin,Heading.move,number_right hi hin.le]
    rw [number_right (by omega) (by omega)]
    exact ⟨⟨by omega,by omega,by omega,by omega⟩,by omega⟩
  | bottom r hr hi hj hjn =>
    subst hi
    simp only [heading_bottom hj hjn,Heading.move,number_bottom hj.le hjn (by omega)]
    rw [number_bottom (by omega) (by omega) (by omega)]
    exact ⟨⟨by omega,by omega,by omega,by omega⟩,by omega⟩
  | left hj hi hin =>
    simp only [heading_left hi hin,Heading.move,number_left (by omega : j < i) hin]
    rw [number_left (by omega) (by omega)]
    exact ⟨⟨by omega,by omega,by omega,by omega⟩,by omega⟩
  | last hj hi hjn =>
    subst hi
    have hnum := number_last hjn
    have hhalf : 2*(j+1) ≠ n := fun he => absurd (hnum.trans (before_half he)) hlast.ne
    simp only [heading_last hjn,Heading.move,hnum]
    rw [number_top le_rfl (by omega)]
    exact ⟨⟨by omega,by omega,by omega,by omega⟩,by omega⟩
  | centre hj hi hjn =>
    subst hi
    have hnum := before_centre hjn
    rw [number_top le_rfl (by omega)] at hlast
    omega

/-- Where a walk has come to `d` from `c` by its heading, it keeps to the rule of the turns. -/
def Turns (n : ℤ) (h : Heading) (d : ℤ × ℤ) : Prop :=
  (Blocked n (number n) d (h.move d) → headingOf n d = h.turn) ∧
    (¬ Blocked n (number n) d (h.move d) → headingOf n d = h)

theorem Turns.straight {h : Heading} {d : ℤ × ℤ} {p q : ℤ} (hm : h.move d = (p,q))
    (hin : Inside n n p q) (hlt : number n d.1 d.2 ≤ number n p q) (he : headingOf n d = h) :
    Turns n h d := by
  refine ⟨?_,fun _ => he⟩
  rw [hm]
  rintro (hout | hsmall)
  · exact absurd hin hout
  · exact absurd hsmall hlt.not_gt

theorem Turns.corner {h : Heading} {d : ℤ × ℤ} {p q : ℤ} (hm : h.move d = (p,q))
    (hd : Inside n n d.1 d.2) (hr : ringOf n p q < ringOf n d.1 d.2)
    (he : headingOf n d = h.turn) : Turns n h d := by
  refine ⟨fun _ => he,fun hfree => absurd ?_ hfree⟩
  rw [hm]
  by_cases hin : Inside n n p q
  · exact .inr (number_lt hin hd hr)
  · exact .inl hin

/-- The turns are at the corners of the rings, and at the last cell of each. -/
theorem turns_move {c : ℤ × ℤ} (h : Inside n n c.1 c.2) (hlast : number n c.1 c.2 + 1 < n*n) :
    Turns n (headingOf n c) ((headingOf n c).move c) := by
  obtain ⟨hin,hnum⟩ := number_move h (by omega)
  obtain ⟨i,j⟩ := c
  dsimp only at hlast hnum
  have hplace : Place n i j := .of_inside h
  cases hplace with
  | top hi hij hj =>
    simp only [heading_top hij hj,Heading.move] at hin ⊢
    by_cases hc : j+1 < n-1-i
    · refine .straight rfl ⟨by omega,by omega,by omega,by omega⟩ ?_ (heading_top (by omega) hc)
      rw [number_top (by omega) (by omega),number_top (by omega) (by omega)]
      omega
    · have hcorner : j+1 = n-1-i := by omega
      refine .corner rfl hin (by unfold ringOf; omega) ?_
      rw [hcorner]
      exact heading_right le_rfl (by omega)
  | right r hr hj hi hin' =>
    subst hj
    simp only [heading_right hi hin',Heading.move] at hin ⊢
    by_cases hc : i+1 < n-1-r
    · refine .straight rfl ⟨by omega,by omega,by omega,by omega⟩ ?_ (heading_right (by omega) hc)
      rw [number_right (by omega) (by omega),number_right (by omega) (by omega)]
      omega
    · have hcorner : i+1 = n-1-r := by omega
      refine .corner rfl hin (by unfold ringOf; omega) ?_
      rw [hcorner]
      exact heading_bottom (by omega) le_rfl
  | bottom r hr hi hj hjn =>
    subst hi
    simp only [heading_bottom hj hjn,Heading.move] at hin hnum ⊢
    by_cases hc : r < j-1
    · refine .straight rfl ⟨by omega,by omega,by omega,by omega⟩ ?_
        (heading_bottom hc (by omega))
      rw [number_bottom (by omega) (by omega) (by omega),
        number_bottom (by omega) (by omega) (by omega)]
      omega
    · have hcorner : j-1 = r := by omega
      rw [hcorner] at hin hnum ⊢
      have hup : r+1 < n-1-r := by
        -- else the ring has four cells, and its last one ends the walk
        by_contra hsmall
        have hlastcell : n-1-r = r+1 := by omega
        rw [hlastcell,number_last (by omega),before_half (by omega)] at hnum
        rw [hlastcell] at hlast
        omega
      exact .corner rfl hin (by unfold ringOf; omega) (heading_left hup le_rfl)
  | left hj hi hin' =>
    simp only [heading_left hi hin',Heading.move] at hin ⊢
    by_cases hc : j+1 < i-1
    · refine .straight rfl ⟨by omega,by omega,by omega,by omega⟩ ?_ (heading_left hc (by omega))
      rw [number_left (by omega) (by omega),number_left (by omega) (by omega)]
      omega
    · have hcorner : i-1 = j+1 := by omega
      rw [hcorner] at hin ⊢
      refine ⟨fun _ => heading_last (by omega),fun hfree => absurd (.inr ?_) hfree⟩
      simp only [Heading.move]
      rw [show j+1-1 = j by omega,number_last (by omega),number_top le_rfl (by omega),before_succ]
      omega
  | last hj hi hjn =>
    subst hi
    simp only [heading_last hjn,Heading.move] at hin hnum ⊢
    have hhalf : 2*(j+1) ≠ n := by
      intro he
      rw [number_last hjn,before_half he] at hlast
      omega
    have hcentre : 2*(j+1)+1 ≠ n := by
      intro he
      rw [number_top le_rfl (by omega)] at hnum
      have := before_centre he
      omega
    refine .straight rfl ⟨by omega,by omega,by omega,by omega⟩ ?_ (heading_top le_rfl (by omega))
    rw [number_top le_rfl (by omega),number_top (by omega) (by omega)]
    omega
  | centre hj hi hjn =>
    subst hi
    have hcentre := before_centre hjn
    rw [number_top le_rfl (by omega)] at hlast
    omega

section Invariant

variable {s : State} {k : ℤ}

/-- The numbers up to `k` are in place, and the next one is to come. -/
structure FilledTo (n k : ℤ) (s : State) : Prop where
  curr : s.curr = k+1
  cells : ∀ i j, Inside n n i j → s.array i j = if number n i j ≤ k then number n i j else 0

theorem FilledTo.assign (h : FilledTo n k s) (hin : Inside n n i j) (hnum : number n i j = k+1) :
    ∃ t, assign n n i j s = some t ∧ t.curr = s.curr ∧ ∀ p q, Inside n n p q →
      t.array p q = if number n p q ≤ k+1 then number n p q else 0 := by
  refine ⟨_,if_pos hin,rfl,fun p q hpq => ?_⟩
  by_cases hcell : p = i ∧ q = j
  · obtain ⟨rfl,rfl⟩ := hcell
    simp [h.curr,hnum]
  · have hne : number n p q ≠ k+1 := by
      intro he
      exact hcell (number_injective hpq hin (he.trans hnum.symm))
    have hsame : Function.update s.array i (Function.update (s.array i) j s.curr) p q =
        s.array p q := by
      by_cases hp : p = i
      · subst hp
        have hq : q ≠ j := fun hq => hcell ⟨rfl,hq⟩
        simp [hq]
      · simp [hp]
    simp only [hsame,h.cells p q hpq]
    split_ifs <;> omega

theorem FilledTo.assignUp (h : FilledTo n k s) (hin : Inside n n i j)
    (hnum : number n i j = k+1) :
    ∃ t, assignUp n n i j s = some t ∧ FilledTo n (k+1) t := by
  obtain ⟨t,ht,hcurr,hcells⟩ := h.assign hin hnum
  exact ⟨{ t with curr := t.curr+1 },by rw [Spiral.assignUp,ht]; rfl,
    by rw [hcurr,h.curr],hcells⟩

theorem FilledTo.cast {m : ℤ} (h : FilledTo n k s) (he : k = m) : FilledTo n m s := he ▸ h

section Round

variable (hr0 : 0 ≤ r) (hr : r < n/2)

include hr0 hr

theorem FilledTo.topLoop (h : FilledTo n (before n r) s) :
    ∃ t, forUp (n-r) (fun i => Spiral.assignUp n n r i) r s = some t ∧
      FilledTo n (before n r + (n-2*r)) t := by
  obtain ⟨t,ht,hf⟩ := forUp_inv (I := fun i t => FilledTo n (before n r + (i-r)) t)
    (show r ≤ n-r by omega) (h.cast (by omega)) fun i t hi hstop hf =>
      have hnum : number n r i = before n r + (i-r) + 1 := by
        rw [number_top hi (by omega)]
        omega
      have ⟨u,hu,hfu⟩ := hf.assignUp ⟨hr0,by omega,by omega,by omega⟩ hnum
      ⟨u,hu,hfu.cast (by omega)⟩
  exact ⟨t,ht,hf.cast (by omega)⟩

theorem FilledTo.rightLoop (h : FilledTo n (before n r + (n-2*r)) s) :
    ∃ t, forUp (n-2*r) (fun i => Spiral.assignUp n n (r+i) (n-r-1)) 1 s = some t ∧
      FilledTo n (before n r + (2*(n-1-2*r) + 1)) t := by
  obtain ⟨t,ht,hf⟩ := forUp_inv (I := fun i t => FilledTo n (before n r + ((n-1-2*r) + i)) t)
    (show 1 ≤ n-2*r by omega) (h.cast (by omega)) fun i t hi hstop hf =>
      have hnum : number n (r+i) (n-r-1) = before n r + ((n-1-2*r) + i) + 1 := by
        rw [show n-r-1 = n-1-r by omega,number_right (by omega) (by omega)]
        omega
      have ⟨u,hu,hfu⟩ := hf.assignUp ⟨by omega,by omega,by omega,by omega⟩ hnum
      ⟨u,hu,hfu.cast (by omega)⟩
  exact ⟨t,ht,hf.cast (by omega)⟩

theorem FilledTo.bottomLoop (h : FilledTo n (before n r + (2*(n-1-2*r) + 1)) s) :
    ∃ t, forDown r (fun i => Spiral.assignUp n n (n-r-1) i) (n-2-r) s = some t ∧
      FilledTo n (before n r + (3*(n-1-2*r) + 1)) t := by
  obtain ⟨t,ht,hf⟩ := forDown_inv
    (I := fun i t => FilledTo n (before n r + (2*(n-1-2*r) + (n-1-r-i))) t)
    (show r ≤ n-2-r+1 by omega) (h.cast (by omega)) fun i t hi hstop hf =>
      have hnum : number n (n-r-1) i = before n r + (2*(n-1-2*r) + (n-1-r-i)) + 1 := by
        rw [show n-r-1 = n-1-r by omega,number_bottom hstop (by omega) (by omega)]
        omega
      have ⟨u,hu,hfu⟩ := hf.assignUp ⟨by omega,by omega,by omega,by omega⟩ hnum
      ⟨u,hu,hfu.cast (by omega)⟩
  exact ⟨t,ht,hf.cast (by omega)⟩

theorem FilledTo.leftLoop (h : FilledTo n (before n r + (3*(n-1-2*r) + 1)) s) :
    ∃ t, forDown (r+1) (fun i => Spiral.assignUp n n i r) (n-r-2) s = some t ∧
      FilledTo n (before n (r+1)) t := by
  obtain ⟨t,ht,hf⟩ := forDown_inv
    (I := fun i t => FilledTo n (before n r + (3*(n-1-2*r) + (n-1-r-i))) t)
    (show r+1 ≤ n-r-2+1 by omega) (h.cast (by omega)) fun i t hi hstop hf =>
      have hnum : number n i r = before n r + (3*(n-1-2*r) + (n-1-r-i)) + 1 := by
        rw [number_left (by omega) (by omega)]
        omega
      have ⟨u,hu,hfu⟩ := hf.assignUp ⟨by omega,by omega,hr0,by omega⟩ hnum
      ⟨u,hu,hfu.cast (by omega)⟩
  exact ⟨t,ht,hf.cast (by rw [before_succ]; omega)⟩

/-- The four loops of a round fill ring `r`. -/
theorem FilledTo.ring (h : FilledTo n (before n r) s) :
    ∃ t, ring n n r r s = some t ∧ FilledTo n (before n (r+1)) t := by
  obtain ⟨s1,hs1,h1⟩ := h.topLoop hr0 hr
  obtain ⟨s2,hs2,h2⟩ := h1.rightLoop hr0 hr
  obtain ⟨s3,hs3,h3⟩ := h2.bottomLoop hr0 hr
  obtain ⟨s4,hs4,h4⟩ := h3.leftLoop hr0 hr
  exact ⟨s4,by simp [Spiral.ring,hs1,hs2,hs3,hs4],h4⟩

end Round

theorem FilledTo.rings {c_h c_w : ℤ} (h : FilledTo n (before n c_h) s) (he : c_w = c_h)
    (h0 : 0 ≤ c_h) (hn : c_h ≤ n/2) :
    ∃ t, Spiral.rings n n c_h c_w s = some t ∧ FilledTo n (before n (n/2)) t := by
  fun_induction Spiral.rings n n c_h c_w s with
  | case1 c_h c_w s hc ih =>
    subst he
    obtain ⟨t,ht,hf⟩ := h.ring h0 hc.1
    rw [ht,Option.bind_some]
    exact ih t hf rfl (by omega) (by omega)
  | case2 c_h c_w s hc =>
    obtain rfl : c_h = n/2 := by omega
    exact ⟨s,rfl,h⟩

theorem FilledTo.centre (h : FilledTo n (before n (n/2)) s) (hn : 1 ≤ n) :
    ∃ t, centre n n s = some t ∧ ∀ i j, Inside n n i j → t.array i j = number n i j := by
  unfold Spiral.centre
  by_cases hodd : n%2 = 1
  · have hmid : n-n/2-1 = n/2 := by omega
    have hnum := before_centre (show 2*(n/2)+1 = n by omega)
    have hcell : number n (n/2) (n/2) = before n (n/2) + 1 := by
      rw [number_top le_rfl (by omega)]
      omega
    have hs : FilledTo n (before n (n/2)) { s with curr := n*n } := ⟨hnum.symm,h.cells⟩
    obtain ⟨t,ht,-,hcells⟩ := hs.assign ⟨by omega,by omega,by omega,by omega⟩ hcell
    refine ⟨{ t with curr := t.curr-1 },?_,fun i j hij => ?_⟩
    · rw [if_pos (.inl hodd),if_neg (lt_irrefl n),hmid,forDown,if_pos le_rfl]
      simp only [assignDown,ht,Option.map_some,Option.bind_some]
      rw [forDown,if_neg (by omega)]
    · rw [hcells i j hij,hnum,if_pos (number_range hij).2]
  · refine ⟨{ s with curr := n*n },if_neg (by omega),fun i j hij => ?_⟩
    have hall := h.cells i j hij
    rwa [before_half (by omega),if_pos (number_range hij).2] at hall

theorem fill_eq (hn : 1 ≤ n) :
    ∃ a, fill n = some a ∧ ∀ i j, Inside n n i j → a i j = number n i j := by
  have hstart : FilledTo n (before n 0) ⟨fun _ _ => 0,1⟩ := by
    refine ⟨by simp [before_zero],fun i j hij => ?_⟩
    rw [before_zero,if_neg (by have := (number_range hij).1; omega)]
  obtain ⟨s,hs,hf⟩ := hstart.rings rfl le_rfl (by omega)
  obtain ⟨t,ht,hcells⟩ := hf.centre hn
  exact ⟨t.array,by simp [fill,hs,ht],hcells⟩

end Invariant

theorem number_start (hn : 1 ≤ n) : number n 0 0 = 1 := by
  rw [number_top le_rfl (by omega),before_zero]
  rfl

/-- Every number has a cell: by induction along the walk. -/
theorem exists_number (hn : 1 ≤ n) (k : ℕ) (hk : (k : ℤ)+1 ≤ n*n) :
    ∃ c : ℤ × ℤ, Inside n n c.1 c.2 ∧ number n c.1 c.2 = k+1 := by
  induction k with
  | zero => exact ⟨(0,0),⟨le_rfl,by omega,le_rfl,by omega⟩,number_start hn⟩
  | succ k ih =>
    push_cast at hk ⊢
    obtain ⟨c,hc,hnum⟩ := ih (by omega)
    obtain ⟨hin,hnext⟩ := number_move hc (by omega)
    exact ⟨_,hin,by omega⟩

theorem blocked_congr {a : ℤ → ℤ → ℤ} (ha : ∀ i j, Inside n n i j → a i j = number n i j)
    {c d : ℤ × ℤ} (hc : Inside n n c.1 c.2) :
    Blocked n a c d ↔ Blocked n (number n) c d := by
  unfold Blocked
  by_cases hd : Inside n n d.1 d.2
  · rw [ha _ _ hc,ha _ _ hd]
  · simp [hd]

theorem isSpiral_of_number {a : ℤ → ℤ → ℤ} (hn : 1 ≤ n)
    (ha : ∀ i j, Inside n n i j → a i j = number n i j) : IsSpiral n a (headingOf n) where
  once k hk hkn := by
    obtain ⟨m,hm⟩ := Int.eq_ofNat_of_zero_le (show 0 ≤ k-1 by omega)
    obtain ⟨c,hc,hnum⟩ := exists_number hn m (by omega)
    refine ⟨c,⟨hc,by rw [ha _ _ hc,hnum,← hm,Int.sub_add_cancel]⟩,?_⟩
    rintro d ⟨hd,hdnum⟩
    rw [ha _ _ hd,show k = number n c.1 c.2 by omega] at hdnum
    exact Prod.ext_iff.mpr (number_injective hd hc hdnum)
  range i j hij := by
    rw [ha i j hij]
    exact number_range hij
  start := by rw [ha 0 0 ⟨le_rfl,by omega,le_rfl,by omega⟩,number_start hn]
  first h := heading_top le_rfl (by omega)
  next c hc hlast := by
    rw [ha _ _ hc] at hlast ⊢
    obtain ⟨hin,hnum⟩ := number_move hc hlast
    exact ⟨hin,by rw [ha _ _ hin,hnum]⟩
  turns c hc hlast := by
    rw [ha _ _ hc] at hlast
    have hin := (number_move hc (by omega)).1
    have hturns := turns_move hc hlast
    unfold Turns at hturns
    simpa only [blocked_congr ha hin] using hturns

/-- For every size the array ends up as the spiral, and no access is out of bounds. -/
theorem fills_spiral (N : ℤ) (hN : 1 ≤ N) :
    ∃ a heading, fill N = some a ∧ IsSpiral N a heading := by
  obtain ⟨a,ha,hnum⟩ := fill_eq hN
  exact ⟨a,headingOf N,ha,isSpiral_of_number hN hnum⟩

theorem fills_spiral_three : ∃ a heading, fill 3 = some a ∧ IsSpiral 3 a heading :=
  fills_spiral 3 (by decide)

end Spiral
end SomeCode
