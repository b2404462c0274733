import SomeCode.Loops
import SomeCode.MachineInt

/-! `matrix_dot` and `matrix_update` of the Python module in `matrix.c`. Of an exception that does
not stop the function it is only known that it is set. -/
namespace SomeCode
namespace MatrixDot

open Loops MachineInt

abbrev Matrix := List (List ℤ)

inductive PyErr
  | typeError (message : String)
  | systemError
  deriving DecidableEq

def InLong (x : ℤ) : Prop := -2^63 ≤ x ∧ x < 2^63

def InInt (x : ℤ) : Prop := -2^31 ≤ x ∧ x < 2^31

instance (x : ℤ) : Decidable (InLong x) := inferInstanceAs (Decidable (_ ∧ _))
instance (x : ℤ) : Decidable (InInt x) := inferInstanceAs (Decidable (_ ∧ _))

/-- The result of an operation on `long`, where it is defined -/
def long (x : ℤ) : Option ℤ := if InLong x then some x else none

/-- The value, and whether an exception is set -/
def pyLongAsLong : Option ℤ → ℤ × Bool
  | some x => if InLong x then (x,false) else (-1,true)
  | none => (-1,true)

section Dot

variable (minSize : ℤ) (listMatrix1 listMatrix2 : Matrix) (firstMatrix : List ℤ)

/-- A round of the loop over `k`, with `tmp` and whether an exception is set -/
def addProduct (j k : ℤ) (s : ℤ × Bool) : Option (ℤ × Bool) := do
  let secondMatrix ← listMatrix2[k.toNat]?
  let x := pyLongAsLong firstMatrix[k.toNat]?
  let y := pyLongAsLong secondMatrix[j.toNat]?
  let product ← long (x.1*y.1)
  let tmp ← long (s.1+product)
  return (wrap 32 tmp,s.2 || x.2 || y.2)

/-- A round of the loop over `j`, with `tmpStr` -/
def appendEntry (j : ℤ) (s : List ℤ × Bool) : Option (List ℤ × Bool) := do
  let tmp ← forUp minSize (addProduct listMatrix2 firstMatrix j) 0 (0,s.2)
  return (s.1 ++ [tmp.1],tmp.2)

/-- A round of the loop over `i`, with `result` -/
def appendRow (i : ℤ) (s : Matrix × Bool) : Option (Matrix × Bool) := do
  let firstMatrix ← listMatrix1[i.toNat]?
  let tmpStr ← forUp minSize (appendEntry minSize listMatrix2 firstMatrix) 0 ([],s.2)
  return (s.1 ++ [tmpStr.1],tmpStr.2)

end Dot

section Update

variable (size : ℤ)

/-- A round of the first loop of `matrix_update` -/
def extend (m1size : ℤ) (rows : Matrix) : Option Matrix :=
  if m1size < size then some (rows ++ [[]]) else none

def pad (curr : List ℤ) : Option (List ℤ) :=
  if curr.length < size then some (curr ++ [0]) else none

def padRow (i : ℤ) (rows : Matrix) : Option Matrix := do
  let curr ← rows[i.toNat]?
  return rows.set i.toNat (forBreak size (fun _ => pad size) 0 curr)

def matrixUpdate (listMatrix1 : Matrix) : Option Matrix :=
  let m1size := wrap 32 listMatrix1.length
  forUp size (padRow size) 0 (forBreak size (fun _ => extend size m1size) 0 listMatrix1)

end Update

def minSize (listMatrix1 listMatrix2 : Matrix) : ℤ :=
  min (wrap 32 listMatrix1.length) (wrap 32 listMatrix2.length)

/-- `args` is what `PyArg_ParseTuple` makes of the arguments; it stores an `int` in the low half of
`size`. A result that is returned with an exception set is an error. -/
def matrixDot (args : Option (ℤ × Matrix × Matrix)) : Option (Except PyErr Matrix) :=
  match args with
  | none => some (.error (.typeError "func_ret_str args error"))
  | some (size,listMatrix1,listMatrix2) => do
    let n := minSize listMatrix1 listMatrix2
    let result ← forUp n (appendRow n listMatrix1 listMatrix2) 0 ([],false)
    let updated ← matrixUpdate (unsigned 32 size) result.1
    return if result.2 then .error .systemError else .ok updated

def entry (A : Matrix) (i j : ℕ) : ℤ := ((A[i]?.getD [])[j]?).getD 0

def partialSum (A B : Matrix) (i j k : ℕ) : ℤ := ∑ l ∈ Finset.range k, entry A i l*entry B l j

def rowCount (A B : Matrix) : ℕ := min A.length B.length

/-- The arguments the product is meant for -/
structure Arguments (size : ℤ) (A B : Matrix) : Prop where
  nonneg : 0 ≤ size
  int : InInt size
  rows : rowCount A B ≤ size
  left : ∀ row ∈ A.take (rowCount A B), rowCount A B ≤ row.length
  right : ∀ row ∈ B.take (rowCount A B), rowCount A B ≤ row.length
  sums : ∀ i < rowCount A B, ∀ j < rowCount A B, ∀ k ≤ rowCount A B, InInt (partialSum A B i j k)

/-- The product, padded to `size` rows and columns -/
structure IsDot (size : ℤ) (A B R : Matrix) : Prop where
  rows : (R.length : ℤ) = size
  columns : ∀ row ∈ R, (row.length : ℤ) = size
  entries : ∀ i j : ℕ, i < size → j < size → entry R i j =
    if i < rowCount A B ∧ j < rowCount A B then partialSum A B i j (rowCount A B) else 0

/-- The factors are values of a `long`. -/
def FitLong (A B : Matrix) : Prop :=
  ∀ i < rowCount A B, ∀ j < rowCount A B, InLong (entry A i j) ∧ InLong (entry B i j)

instance (A B : Matrix) : Decidable (FitLong A B) :=
  inferInstanceAs (Decidable (∀ i < rowCount A B, ∀ j < rowCount A B, _ ∧ _))

variable {A B : Matrix} {size : ℤ}

theorem wrap_natCast_le (n : ℕ) : wrap 32 n ≤ n := by
  simp only [wrap,Int.bmod,Nat.reducePow]
  split <;> omega

theorem minSize_le (A B : Matrix) : minSize A B ≤ rowCount A B := by
  have hA := wrap_natCast_le A.length
  have hB := wrap_natCast_le B.length
  simp only [minSize,rowCount]
  omega

theorem exists_row {i : ℕ} (hi : i < rowCount A B) :
    (∃ row, A[i]? = some row) ∧ ∃ row, B[i]? = some row := by
  simp only [rowCount,Nat.lt_min] at hi
  exact ⟨⟨_,List.getElem?_eq_getElem hi.1⟩,⟨_,List.getElem?_eq_getElem hi.2⟩⟩

theorem mem_take {i m : ℕ} (hi : i < m) {row : List ℤ} (hrow : A[i]? = some row) :
    row ∈ A.take m :=
  List.mem_of_getElem? (by rw [List.getElem?_take_of_lt hi,hrow])

theorem getElem?_eq_entry {i j : ℕ} {row : List ℤ} (hrow : A[i]? = some row)
    (hj : j < row.length) : row[j]? = some (entry A i j) := by
  simp [entry,hrow,List.getElem?_eq_getElem hj]

theorem partialSum_succ (A B : Matrix) (i j k : ℕ) :
    partialSum A B i j (k+1) = partialSum A B i j k + entry A i k*entry B k j :=
  Finset.sum_range_succ _ _

theorem long_eq {x : ℤ} (h : InLong x) : long x = some x := if_pos h

theorem pyLongAsLong_eq {x : ℤ} (h : InLong x) : pyLongAsLong (some x) = (x,false) := if_pos h

theorem inLong_of_pyLongAsLong {x : ℤ} (h : (pyLongAsLong (some x)).2 = false) : InLong x := by
  by_contra hx
  rw [pyLongAsLong,if_neg hx] at h
  cases h

theorem addProduct_entries (h : Arguments size A B) {i j k : ℕ} (hi : i < rowCount A B)
    (hj : j < rowCount A B) (hk : k < rowCount A B) {row : List ℤ} (hrow : A[i]? = some row)
    (s : ℤ × Bool) : addProduct B row j k s =
      let x := pyLongAsLong (some (entry A i k))
      let y := pyLongAsLong (some (entry B k j))
      (long (x.1*y.1)).bind fun product => (long (s.1+product)).map fun tmp =>
        (wrap 32 tmp,s.2 || x.2 || y.2) := by
  obtain ⟨-,brow,hbrow⟩ := exists_row hk
  have hx := getElem?_eq_entry hrow (hk.trans_le (h.left row (mem_take hi hrow)))
  have hy := getElem?_eq_entry hbrow (hj.trans_le (h.right brow (mem_take hk hbrow)))
  simp [addProduct,hbrow,hx,hy,Option.map_eq_bind]

theorem addProduct_eq (h : Arguments size A B) (hfit : FitLong A B) {i j k : ℕ}
    (hi : i < rowCount A B) (hj : j < rowCount A B) (hk : k < rowCount A B) {row : List ℤ}
    (hrow : A[i]? = some row) :
    addProduct B row j k (partialSum A B i j k,false) = some (partialSum A B i j (k+1),false) := by
  have hsum := h.sums i hi j hj k hk.le
  have hsum' := h.sums i hi j hj (k+1) hk
  have hwrap := wrap_eq hsum'.1 hsum'.2
  rw [partialSum_succ] at hsum' hwrap ⊢
  have hprod : InLong (entry A i k*entry B k j) := by simp only [InInt,InLong] at *; omega
  have htmp : InLong (partialSum A B i j k + entry A i k*entry B k j) := by
    simp only [InInt,InLong] at *
    omega
  simp [addProduct_entries h hi hj hk hrow,pyLongAsLong_eq (hfit i hi k hk).1,
    pyLongAsLong_eq (hfit k hk j hj).2,long_eq hprod,long_eq htmp,hwrap]

theorem appendEntry_eq (h : Arguments size A B) (hfit : FitLong A B) {i j : ℕ}
    (hi : i < rowCount A B) (hj : j < rowCount A B) {row : List ℤ} (hrow : A[i]? = some row)
    (tmpStr : List ℤ) : appendEntry (rowCount A B) B row j (tmpStr,false) =
      some (tmpStr ++ [partialSum A B i j (rowCount A B)],false) := by
  have hsum : forUp (rowCount A B) (addProduct B row j) 0 (0,false) =
      some (partialSum A B i j (rowCount A B),false) :=
    forUp_states (σ := fun k => (partialSum A B i j k,false)) fun k hk =>
      addProduct_eq h hfit hi hj hk hrow
  simp [appendEntry,hsum]

def product (A B : Matrix) (m i : ℕ) : Matrix :=
  (List.range i).map fun i => (List.range m).map fun j => partialSum A B i j m

theorem product_succ (A B : Matrix) (m i : ℕ) : product A B m (i+1) =
    product A B m i ++ [(List.range m).map fun j => partialSum A B i j m] := by
  simp [product,List.range_succ]

theorem appendRow_eq (h : Arguments size A B) (hfit : FitLong A B) {i : ℕ}
    (hi : i < rowCount A B) :
    appendRow (rowCount A B) A B i (product A B (rowCount A B) i,false) =
      some (product A B (rowCount A B) (i+1),false) := by
  obtain ⟨⟨row,hrow⟩,-⟩ := exists_row hi
  let entries : ℕ → List ℤ := fun k =>
    (List.range k).map fun j => partialSum A B i j (rowCount A B)
  have hsucc (j : ℕ) : entries (j+1) = entries j ++ [partialSum A B i j (rowCount A B)] := by
    simp [entries,List.range_succ]
  have hrun : forUp (rowCount A B) (appendEntry (rowCount A B) B row) 0 ([],false) =
      some (entries (rowCount A B),false) :=
    forUp_states (σ := fun j => (entries j,false)) fun j hj => by
      rw [hsucc]
      exact appendEntry_eq h hfit hi hj hrow (entries j)
  simp [appendRow,hrow,hrun,product_succ,entries]

/-- Where nothing is in the way, the loops make the product. -/
theorem appendRows_eq (h : Arguments size A B) (hfit : FitLong A B) :
    forUp (rowCount A B) (appendRow (rowCount A B) A B) 0 ([],false) =
      some (product A B (rowCount A B) (rowCount A B),false) :=
  forUp_states (σ := fun i => (product A B (rowCount A B) i,false)) fun _ hi =>
    appendRow_eq h hfit hi

theorem addProduct_all (h : Arguments size A B) {i j k : ℕ} (hi : i < rowCount A B)
    (hj : j < rowCount A B) (hk : k < rowCount A B) {row : List ℤ} (hrow : A[i]? = some row)
    {s t : ℤ × Bool} (hs : addProduct B row j k s = some t) (ht : t.2 = false) :
    s.2 = false ∧ InLong (entry A i k) ∧ InLong (entry B k j) := by
  rw [addProduct_entries h hi hj hk hrow] at hs
  obtain ⟨p,-,hs⟩ := Option.bind_eq_some_iff.mp hs
  obtain ⟨tmp,-,rfl⟩ := Option.map_eq_some_iff.mp hs
  simp only [Bool.or_eq_false_iff] at ht
  exact ⟨ht.1.1,inLong_of_pyLongAsLong ht.1.2,inLong_of_pyLongAsLong ht.2⟩

theorem appendRow_all (h : Arguments size A B) {i : ℕ} (hi : i < rowCount A B)
    {s t : Matrix × Bool} (hs : appendRow (rowCount A B) A B i s = some t) (ht : t.2 = false) :
    s.2 = false ∧ ∀ j < rowCount A B, ∀ k < rowCount A B,
      InLong (entry A i k) ∧ InLong (entry B k j) := by
  obtain ⟨⟨row,hrow⟩,-⟩ := exists_row hi
  simp only [appendRow,Int.toNat_natCast,hrow,Option.bind_eq_bind,Option.bind_some,
    Option.bind_eq_some_iff] at hs
  obtain ⟨u,hu,hst⟩ := hs
  obtain rfl := Option.some.inj hst
  let P : ℤ → Prop := fun j => ∀ k < rowCount A B,
    InLong (entry A i k) ∧ InLong (entry B k j.toNat)
  have hentry : ∀ j s t, 0 ≤ j → j < (rowCount A B : ℤ) →
      appendEntry (rowCount A B) B row j s = some t → t.2 = false → s.2 = false ∧ P j := by
    intro j s t hj hjn hs ht
    obtain ⟨j,rfl⟩ := Int.eq_ofNat_of_zero_le hj
    simp only [appendEntry,Option.bind_eq_bind,Option.bind_eq_some_iff] at hs
    obtain ⟨v,hv,hst⟩ := hs
    obtain rfl := Option.some.inj hst
    have hsum := forUp_all (Q := fun s => s.2 = false)
      (P := fun k => InLong (entry A i k.toNat) ∧ InLong (entry B k.toNat j))
      (fun k s t hk hkn hs ht => by
        obtain ⟨k,rfl⟩ := Int.eq_ofNat_of_zero_le hk
        exact addProduct_all h hi (by omega) (by omega) hrow hs ht) hv ht
    exact ⟨hsum.1,fun k hk => hsum.2 k (by omega) (by omega)⟩
  obtain ⟨hs,hall⟩ := forUp_all hentry hu ht
  exact ⟨hs,fun j hj => hall j (by omega) (by omega)⟩

theorem fitLong_of_rows (h : Arguments size A B) {s : Matrix × Bool}
    (hs : forUp (rowCount A B) (appendRow (rowCount A B) A B) 0 ([],false) = some s)
    (herr : s.2 = false) : FitLong A B := by
  let P : ℤ → Prop := fun i => ∀ j < rowCount A B, ∀ k < rowCount A B,
    InLong (entry A i.toNat k) ∧ InLong (entry B k j)
  have hrow : ∀ i s t, 0 ≤ i → i < (rowCount A B : ℤ) →
      appendRow (rowCount A B) A B i s = some t → t.2 = false → s.2 = false ∧ P i := by
    intro i s t hi hin hs ht
    obtain ⟨i,rfl⟩ := Int.eq_ofNat_of_zero_le hi
    exact appendRow_all h (by omega) hs ht
  obtain ⟨-,hall⟩ := forUp_all hrow hs herr
  exact fun i hi j hj => ⟨(hall i (by omega) (by omega) i hi j hj).1,
    (hall j (by omega) (by omega) j hj i hi).2⟩

theorem length_rows {n : ℤ} (hn : 0 ≤ n) {s : Matrix × Bool}
    (hs : forUp n (appendRow n A B) 0 ([],false) = some s) : (s.1.length : ℤ) = n := by
  let I : ℤ → Matrix × Bool → Prop := fun i s => (s.1.length : ℤ) = i
  have hstep : ∀ i s t, 0 ≤ i → i < n → I i s → appendRow n A B i s = some t → I (i+1) t := by
    intro i s t _ _ hlen ht
    simp only [appendRow,Option.bind_eq_bind,Option.bind_eq_some_iff] at ht
    obtain ⟨row,-,u,-,hst⟩ := ht
    obtain rfl := Option.some.inj hst
    simpa [I] using hlen
  have hstart : I 0 ([],false) := rfl
  exact forUp_of_eq_some (I := I) hn hstart hstep hs

theorem forBreak_extend (m1size : ℤ) (n : ℕ) (rows : Matrix) :
    forBreak (n : ℤ) (fun _ => extend n m1size) 0 rows =
      if m1size < n then rows ++ List.replicate n [] else rows := by
  let I : ℤ → Matrix → Prop := fun k t =>
    t = if m1size < n then rows ++ List.replicate k.toNat [] else rows
  have hstep : ∀ k s t, 0 ≤ k → k < (n : ℤ) → I k s → extend n m1size s = some t →
      I (k+1) t := by
    intro k s t hk _ hs ht
    obtain ⟨hlt,hst⟩ := Option.ite_none_right_eq_some.mp ht
    obtain rfl := Option.some.inj hst
    obtain ⟨k,rfl⟩ := Int.eq_ofNat_of_zero_le hk
    have hsucc : ((k : ℤ)+1).toNat = k+1 := by omega
    simp only [I,if_pos hlt] at hs ⊢
    simp [hs,hsucc,List.replicate_succ']
  have hstart : I 0 rows := by simp [I]
  obtain ⟨k,hk,hkn,hI,hend⟩ := forBreak_inv (Int.natCast_nonneg n) hstart hstep
  by_cases hlt : m1size < n
  · have hkn : k = n := by
      by_contra hne
      simpa [extend,hlt] using hend (by omega)
    simpa [I,hlt,hkn] using hI
  · simpa [I,hlt] using hI

/-- A row with zeros up to `n` entries -/
def padded (n : ℕ) (curr : List ℤ) : List ℤ := curr ++ List.replicate (n-curr.length) 0

theorem forBreak_pad (n : ℕ) (curr : List ℤ) :
    forBreak (n : ℤ) (fun _ => pad n) 0 curr = padded n curr := by
  let I : ℤ → List ℤ → Prop := fun k t =>
    t = curr ++ List.replicate k.toNat 0 ∧ (0 < k → curr.length+k ≤ n)
  have hstep : ∀ k s t, 0 ≤ k → k < (n : ℤ) → I k s → pad n s = some t → I (k+1) t := by
    rintro k _ t hk _ ⟨rfl,-⟩ ht
    obtain ⟨hlt,hst⟩ := Option.ite_none_right_eq_some.mp ht
    obtain rfl := Option.some.inj hst
    obtain ⟨k,rfl⟩ := Int.eq_ofNat_of_zero_le hk
    have hsucc : ((k : ℤ)+1).toNat = k+1 := by omega
    simp only [List.length_append,List.length_replicate,Int.toNat_natCast] at hlt
    exact ⟨by simp [hsucc,List.replicate_succ'],fun _ => by omega⟩
  have hstart : I 0 curr := by simp [I]
  obtain ⟨k,hk,hkn,⟨ht,hle⟩,hend⟩ := forBreak_inv (Int.natCast_nonneg n) hstart hstep
  rw [ht] at hend ⊢
  have hcount : k.toNat = n-curr.length := by
    by_cases hkn' : k < n
    · have hge : ¬ curr.length + k.toNat < n := by
        have hnone := hend hkn'
        simp only [pad,ite_eq_right_iff,reduceCtorEq,imp_false,List.length_append,
          List.length_replicate] at hnone
        omega
      omega
    · omega
  rw [hcount,padded]

theorem padRows_eq {n : ℕ} {rows : Matrix} (h : n ≤ rows.length) :
    forUp (n : ℤ) (padRow n) 0 rows = some ((rows.take n).map (padded n) ++ rows.drop n) := by
  let seam : ℕ → Matrix := fun i => (rows.take i).map (padded n) ++ rows.drop i
  have hstep : ∀ i : ℕ, i < n → padRow n i (seam i) = some (seam (i+1)) := by
    intro i hi
    have hlt : i < rows.length := hi.trans_le h
    have hlen : ((rows.take i).map (padded n)).length = i := by simp [hlt.le]
    simp only [seam]
    rw [padRow,Int.toNat_natCast,List.drop_eq_getElem_cons hlt,
      List.getElem?_append_right hlen.le,hlen,Nat.sub_self,List.getElem?_cons_zero,
      List.take_succ_eq_append_getElem hlt]
    simp only [Option.bind_eq_bind,Option.bind_some,Option.pure_def,forBreak_pad]
    rw [List.set_append_right _ _ hlen.le,hlen,Nat.sub_self,List.set_cons_zero,List.map_append,
      List.map_singleton,List.append_assoc,List.singleton_append]
  exact forUp_states hstep

/-- The list after the first loop of `matrix_update` -/
def extended (n : ℕ) (rows : Matrix) : Matrix :=
  if wrap 32 rows.length < n then rows ++ List.replicate n [] else rows

theorem le_length_extended (n : ℕ) (rows : Matrix) : n ≤ (extended n rows).length := by
  have hle := wrap_natCast_le rows.length
  unfold extended
  split
  · simp
  · omega

/-- What `matrix_update` makes of the rows -/
def updated (n : ℕ) (rows : Matrix) : Matrix :=
  ((extended n rows).take n).map (padded n) ++ (extended n rows).drop n

theorem matrixUpdate_eq (n : ℕ) (rows : Matrix) : matrixUpdate n rows = some (updated n rows) := by
  rw [matrixUpdate,forBreak_extend]
  exact padRows_eq (le_length_extended n rows)

theorem updated_nil (n : ℕ) : updated n [] = List.replicate n (List.replicate n 0) := by
  have hext : extended n [] = List.replicate n [] := by
    obtain rfl | hn := n.eq_zero_or_pos
    · rfl
    · rw [extended,if_pos (by simpa [wrap] using hn),List.nil_append]
  simp [updated,hext,padded]

theorem updated_of_full {n : ℕ} (hn : n < 2^31) {rows : Matrix} (hlen : rows.length = n)
    (hrows : ∀ row ∈ rows, row.length = n) : updated n rows = rows := by
  have hwrap : wrap 32 n = n := wrap_eq (by omega) (by exact_mod_cast hn)
  have hext : extended n rows = rows := if_neg (by rw [hlen,hwrap]; exact lt_irrefl _)
  have hpad : rows.map (padded n) = rows := by
    refine (List.map_congr_left fun row hrow => ?_).trans rows.map_id
    simp [padded,hrows row hrow]
  rw [updated,hext,← hlen,List.take_length,List.drop_length,List.append_nil,hlen,hpad]

/-- Where rows are appended, those of the product are not counted. -/
theorem length_updated {n : ℕ} {rows : Matrix} (hlen : rows.length < n) (hn : n < 2^31) :
    (updated n rows).length = rows.length+n := by
  have hwrap : wrap 32 rows.length = rows.length := wrap_eq (by omega) (by omega)
  have hext : extended n rows = rows ++ List.replicate n [] := if_pos (by omega)
  simp only [updated,hext,List.length_append,List.length_map,List.length_take,List.length_drop,
    List.length_replicate]
  omega

theorem matrixDot_ok_iff (h : Arguments size A B) {R : Matrix} :
    matrixDot (some (size,A,B)) = some (.ok R) ↔ ∃ rows,
      forUp (minSize A B) (appendRow (minSize A B) A B) 0 ([],false) = some (rows,false) ∧
        updated size.toNat rows = R := by
  have hsize : unsigned 32 size = size.toNat := unsigned_eq h.nonneg (h.int.2.trans (by decide))
  simp only [matrixDot,hsize,matrixUpdate_eq,Option.bind_eq_bind,Option.bind_some,Option.pure_def,
    Option.bind_eq_some_iff,Option.some.injEq]
  constructor
  · rintro ⟨⟨rows,err⟩,hrun,hR⟩
    cases err with
    | false => exact ⟨rows,hrun,by simpa using hR⟩
    | true => simp at hR
  · rintro ⟨rows,hrun,hR⟩
    exact ⟨_,hrun,by simp [hR]⟩

theorem isDot_zeros_iff (h : Arguments size A B) :
    IsDot size A B (List.replicate size.toNat (List.replicate size.toNat 0)) ↔
      ∀ i < rowCount A B, ∀ j < rowCount A B, partialSum A B i j (rowCount A B) = 0 := by
  have hrows := h.rows
  have hnonneg := h.nonneg
  have hzero : ∀ i j : ℕ, i < size → j < size →
      entry (List.replicate size.toNat (List.replicate size.toNat 0)) i j = 0 := by
    intro i j hi hj
    have hi' : i < size.toNat := by omega
    have hj' : j < size.toNat := by omega
    simp [entry,hi',hj']
  constructor
  · intro hdot i hi j hj
    have hentry := hdot.entries i j (by omega) (by omega)
    rw [if_pos ⟨hi,hj⟩,hzero i j (by omega) (by omega)] at hentry
    exact hentry.symm
  · intro hsum
    refine ⟨by simp [hnonneg],fun row hrow => ?_,fun i j hi hj => ?_⟩
    · rw [List.eq_of_mem_replicate hrow,List.length_replicate,Int.toNat_of_nonneg hnonneg]
    · rw [hzero i j hi hj]
      split_ifs with hij
      · exact (hsum i hij.1 j hij.2).symm
      · rfl

theorem isDot_product (hn : (rowCount A B : ℤ) = size) :
    IsDot size A B (product A B (rowCount A B) (rowCount A B)) := by
  refine ⟨by simp [product,hn],fun row hrow => ?_,fun i j hi hj => ?_⟩
  · obtain ⟨i,-,rfl⟩ := List.mem_map.mp hrow
    simp [hn]
  · have hi' : i < rowCount A B := by omega
    have hj' : j < rowCount A B := by omega
    simp [entry,product,hi',hj']

/-- Rows for the whole size are appended to those of a smaller product. -/
theorem not_isDot_of_lt (h : Arguments size A B) (hpos : 0 < minSize A B)
    (hlt : minSize A B < size) {R : Matrix} (hrun : matrixDot (some (size,A,B)) = some (.ok R)) :
    ¬ IsDot size A B R := by
  intro hdot
  obtain ⟨rows,hrows,rfl⟩ := (matrixDot_ok_iff h).mp hrun
  have hlen : (rows.length : ℤ) = minSize A B := length_rows hpos.le hrows
  have hint := h.int.2
  have hcount := hdot.rows
  rw [length_updated (by omega) (by omega)] at hcount
  omega

theorem matrixDot_isDot_iff (h : Arguments size A B) :
    (∃ R, matrixDot (some (size,A,B)) = some (.ok R) ∧ IsDot size A B R) ↔
      (minSize A B = size ∧ FitLong A B) ∨ (minSize A B ≤ 0 ∧
        ∀ i < rowCount A B, ∀ j < rowCount A B, partialSum A B i j (rowCount A B) = 0) := by
  have hle := minSize_le A B
  have hrows := h.rows
  obtain hneg | hpos := le_or_gt (minSize A B) 0
  · -- no round is made
    have hrun : forUp (minSize A B) (appendRow (minSize A B) A B) 0 ([],false) =
        some ([],false) := by rw [forUp,if_neg (by omega)]
    simp only [matrixDot_ok_iff h,hrun,Option.some.injEq,Prod.mk.injEq,and_true,exists_eq_left',
      updated_nil,isDot_zeros_iff h,hneg,true_and,iff_or_self]
    rintro ⟨hsize,-⟩ i hi
    omega
  obtain hlt | hge := lt_or_ge (minSize A B) size
  · have hno : ¬ ∃ R, matrixDot (some (size,A,B)) = some (.ok R) ∧ IsDot size A B R :=
      fun ⟨R,hrun,hdot⟩ => not_isDot_of_lt h hpos hlt hrun hdot
    simp only [hno,false_iff,not_or,not_and]
    exact ⟨fun he => absurd he hlt.ne,fun hneg => absurd hneg (not_le.mpr hpos)⟩
  have hmin : minSize A B = rowCount A B := by omega
  have hsize : (rowCount A B : ℤ) = size := by omega
  simp only [matrixDot_ok_iff h,hmin,hsize,true_and]
  constructor
  · rintro ⟨R,⟨rows,hrun,-⟩,-⟩
    rw [← hsize] at hrun
    exact .inl (fitLong_of_rows h hrun rfl)
  · rintro (hfit | ⟨hneg,-⟩)
    · let rows := product A B (rowCount A B) (rowCount A B)
      refine ⟨rows,⟨rows,?_,?_⟩,isDot_product hsize⟩
      · rw [← hsize]
        exact appendRows_eq h hfit
      · have hint := h.int.2
        have hlen : rows.length = size.toNat := by simp [rows,product,← hsize]
        refine updated_of_full (by omega) hlen fun row hrow => ?_
        have hwidth := (isDot_product hsize).columns row hrow
        omega
    · omega

/-- The matrices of `2.py` -/
theorem matrixDot_isDot_iff_example :
    ∃ R, matrixDot (some (2,[[1,2],[3,4],[1,0]],[[1,2],[3,4]])) = some (.ok R) ∧
      IsDot 2 [[1,2],[3,4],[1,0]] [[1,2],[3,4]] R :=
  (matrixDot_isDot_iff ⟨by decide,by decide,by decide,by decide,by decide,by decide⟩).mpr
    (.inl ⟨by decide,by decide⟩)

/-- The product of matrices with one row gets three rows when it is to have two. -/
theorem matrixDot_of_one_row : Arguments 2 [[1]] [[1]] ∧
    ¬ ∃ R, matrixDot (some (2,[[1]],[[1]])) = some (.ok R) ∧ IsDot 2 [[1]] [[1]] R := by
  have h : Arguments 2 [[1]] [[1]] :=
    ⟨by decide,by decide,by decide,by decide,by decide,by decide⟩
  have hmin : minSize [[1]] [[1]] = 1 := by decide
  exact ⟨h,fun ⟨R,hrun,hdot⟩ =>
    not_isDot_of_lt h (by rw [hmin]; decide) (by rw [hmin]; decide) hrun hdot⟩

end MatrixDot
end SomeCode
