import SomeCode.LinkedChain
import Mathlib.Tactic

/-! The readers of a linked list that is stored in a file: `inf08-1.c` reads one record after the
other, `inf10-1.c` maps the file, and the ports to Windows, `inf08-3.c` and `test.c`, read it as
a whole. Their loops differ in where they look for the record that `next_pointer` stands for. -/
namespace SomeCode
namespace ListFile

open LinkedChain

structure Item where
  value : Int32
  nextPointer : UInt32
  deriving DecidableEq

def word (a b c d : UInt8) : UInt32 :=
  UInt32.ofNat (a.toNat + 2^8*b.toNat + 2^16*c.toNat + 2^24*d.toNat)

def wordBytes (w : UInt32) : List UInt8 :=
  [UInt8.ofNat w.toNat,UInt8.ofNat (w.toNat/2^8),UInt8.ofNat (w.toNat/2^16),
    UInt8.ofNat (w.toNat/2^24)]

/-- A record as it is stored, on a little-endian machine -/
def Item.bytes (item : Item) : List UInt8 :=
  wordBytes item.value.toUInt32 ++ wordBytes item.nextPointer

/-- The record that some memory begins with -/
def itemOf : List UInt8 → Option Item
  | a :: b :: c :: d :: e :: f :: g :: h :: _ => some ⟨(word a b c d).toInt32,word e f g h⟩
  | _ => none

theorem word_wordBytes (w : UInt32) : word (UInt8.ofNat w.toNat) (UInt8.ofNat (w.toNat/2^8))
    (UInt8.ofNat (w.toNat/2^16)) (UInt8.ofNat (w.toNat/2^24)) = w := by
  have hw := w.toNat_lt
  apply UInt32.toNat_inj.mp
  unfold word
  simp only [UInt32.toNat_ofNat',UInt8.toNat_ofNat']
  omega

theorem itemOf_bytes (item : Item) (rest : List UInt8) :
    itemOf (item.bytes ++ rest) = some item := by
  obtain ⟨value,next⟩ := item
  simp only [itemOf,Item.bytes,wordBytes,List.cons_append,List.nil_append,word_wordBytes]
  simp

theorem itemOf_of_begins {item : Item} {l : List UInt8} (h : item.bytes <+: l) :
    itemOf l = some item := by
  obtain ⟨rest,rfl⟩ := h
  exact itemOf_bytes item rest

theorem length_of_itemOf {item : Item} {l : List UInt8} (h : itemOf l = some item) :
    8 ≤ l.length := by
  unfold itemOf at h
  split at h
  · simp
  · cases h

@[simp] theorem Item.length_bytes (item : Item) : item.bytes.length = 8 := rfl

/-- What a program looks at for a pointer: the byte offset of the record, and what it then finds
there; `cur` is what it has read before. -/
structure Reader where
  place : ℕ → ℕ
  load : (cur : Item) → (offset : ℕ) → Option Item

structure Visit where
  offset : ℕ
  item : Item
  deriving DecidableEq

inductive Ending
  | finished
  | outOfBounds
  deriving DecidableEq

/-- `do { ...; ptr = current.next_pointer; } while (ptr != 0)`, for so many rounds at most -/
def Reader.loop (r : Reader) : ℕ → Item → ℕ → Option (List Visit × Ending)
  | 0, _, _ => none
  | n+1, cur, ptr =>
    match r.load cur (r.place ptr) with
    | none => some ([],.outOfBounds)
    | some item =>
      if item.nextPointer = 0 then some ([⟨r.place ptr,item⟩],.finished)
      else (r.loop n item item.nextPointer.toNat).map fun (vs,e) => (⟨r.place ptr,item⟩ :: vs,e)

/-- `main` of each program: nothing is read from a file without a whole record. -/
def Reader.main (r : Reader) (file : List UInt8) (n : ℕ) (current : Item) :
    Option (List Visit × Ending) :=
  if file.length/8 = 0 then some ([],.finished) else r.loop n current 0

/-- `inf08-1.c`: `lseek` to the byte offset, and a `read` that leaves the rest of `current` as it
was where the file ends -/
def posixReader (file : List UInt8) : Reader where
  place ptr := ptr
  load cur offset :=
    let got := (file.drop offset).take 8
    itemOf (got ++ cur.bytes.drop got.length)

/-- `inf10-1.c`: the last page of the mapping is filled up with zeros. -/
def mmapReader (file : List UInt8) : Reader where
  place ptr := 8*(ptr/8)
  load _ offset := itemOf ((file ++ List.replicate ((4096-file.length%4096)%4096) 0).drop offset)

/-- `inf08-3.c`: an array of whole records, and `ReadFile` takes the number of bytes in 32 bits -/
def winReader (file : List UInt8) : Reader where
  place ptr := 8*ptr
  load _ offset := itemOf ((file.take (8*(file.length/8)%2^32)).drop offset)

/-- `test.c` -/
def testReader (file : List UInt8) : Reader where
  place ptr := 8*(ptr/8)
  load _ offset := itemOf ((file.take (file.length%2^32)).drop offset)

/-- The records of a list of values that is kept at some offsets -/
def records : List ℕ → List Int32 → List Visit
  | o :: os, v :: vs => ⟨o,⟨v,UInt32.ofNat (os.headD 0)⟩⟩ :: records os vs
  | _, _ => []

/-- The file keeps the values, and whatever else. -/
structure Stored (file : List UInt8) (offsets : List ℕ) (values : List Int32) : Prop where
  length_eq : offsets.length = values.length
  first : offsets.head? = some 0
  distinct : offsets.Nodup
  aligned : ∀ o ∈ offsets, 8 ∣ o
  fits : ∀ o ∈ offsets, o < 2^32
  kept : ∀ r ∈ records offsets values, r.item.bytes <+: file.drop r.offset

theorem values_records {offsets : List ℕ} {values : List Int32}
    (h : offsets.length = values.length) :
    (records offsets values).map (·.item.value) = values := by
  induction offsets generalizing values with
  | nil => simpa [records,eq_comm] using h
  | cons o os ih =>
    obtain _ | ⟨v,vs⟩ := values
    · simp at h
    · simp [records,ih (by simpa using h)]

/-- A reader that finds every record of the list where it looks for it goes along the list. -/
theorem loop_records {r : Reader} {o : ℕ} {os : List ℕ} {v : Int32} {vs : List Int32} {n : ℕ}
    {cur : Item} (hlength : os.length = vs.length) (hpos : 0 ∉ os)
    (hfits : ∀ p ∈ os, p < 2^32) (hplace : ∀ p ∈ o :: os, r.place p = p)
    (hload : ∀ x ∈ records (o :: os) (v :: vs), ∀ cur, r.load cur x.offset = some x.item)
    (hn : os.length < n) :
    r.loop n cur o = some (records (o :: os) (v :: vs),.finished) := by
  induction os generalizing o v vs n cur with
  | nil =>
    obtain ⟨n,rfl⟩ := Nat.exists_eq_add_one_of_ne_zero (Nat.ne_of_gt hn)
    obtain rfl : vs = [] := List.length_eq_zero_iff.mp hlength.symm
    have hfirst := hload ⟨o,⟨v,0⟩⟩ (by simp [records]) cur
    have hat := hplace o (by simp)
    simp only at hfirst
    simp [Reader.loop,records,hat,hfirst]
  | cons p os ih =>
    obtain ⟨n,rfl⟩ := Nat.exists_eq_add_one_of_ne_zero (Nat.ne_zero_of_lt hn)
    obtain _ | ⟨w,ws⟩ := vs
    · simp at hlength
    have hfirst := hload ⟨o,⟨v,UInt32.ofNat p⟩⟩ (by simp [records]) cur
    have hat := hplace o (by simp)
    have hto : (UInt32.ofNat p).toNat = p :=
      UInt32.toNat_ofNat_of_lt' (hfits p List.mem_cons_self)
    have hne : UInt32.ofNat p ≠ 0 := by
      intro h0
      rw [h0] at hto
      exact hpos (by simp [← hto])
    have hrest : r.loop n ⟨v,UInt32.ofNat p⟩ p = some (records (p :: os) (w :: ws),.finished) :=
      ih (by simpa using hlength) (fun h => hpos (List.mem_cons_of_mem _ h))
      (fun q hq => hfits q (List.mem_cons_of_mem _ hq))
      (fun q hq => hplace q (List.mem_cons_of_mem _ hq))
      (fun x hx => hload x (by rw [records]; exact List.mem_cons_of_mem _ hx))
      (by simpa using hn)
    simp only at hfirst
    rw [Reader.loop,hat,hfirst,records]
    simp only [hne,if_false,hto,hrest,List.headD_cons,Option.map_some]

theorem Stored.cons {file : List UInt8} {offsets : List ℕ} {values : List Int32}
    (h : Stored file offsets values) :
    ∃ os v vs, offsets = 0 :: os ∧ values = v :: vs ∧ os.length = vs.length ∧ 0 ∉ os := by
  obtain _ | ⟨o,os⟩ := offsets
  · simpa using h.first
  obtain rfl : o = 0 := by simpa using h.first
  obtain _ | ⟨v,vs⟩ := values
  · simpa using h.length_eq
  exact ⟨os,v,vs,rfl,rfl,by simpa using h.length_eq,(List.nodup_cons.mp h.distinct).1⟩

theorem Stored.whole_record {file : List UInt8} {offsets : List ℕ} {values : List Int32}
    (h : Stored file offsets values) : file.length/8 ≠ 0 := by
  obtain ⟨os,v,vs,rfl,rfl,-,-⟩ := h.cons
  have hfirst := (h.kept _ (by rw [records]; exact List.mem_cons_self)).length_le
  simp only [Item.length_bytes,List.drop_zero] at hfirst
  omega

theorem Stored.main_eq {file : List UInt8} {offsets : List ℕ} {values : List Int32}
    (h : Stored file offsets values) {r : Reader} {n : ℕ} {current : Item}
    (hplace : ∀ p ∈ offsets, r.place p = p)
    (hload : ∀ x ∈ records offsets values, ∀ cur, r.load cur x.offset = some x.item)
    (hn : offsets.length ≤ n) :
    r.main file n current = some (records offsets values,.finished) := by
  have hwhole := h.whole_record
  have hfits := h.fits
  obtain ⟨os,v,vs,rfl,rfl,hlength,hpos⟩ := h.cons
  rw [Reader.main,if_neg hwhole]
  exact loop_records hlength hpos (fun p hp => hfits p (List.mem_cons_of_mem _ hp)) hplace hload hn

theorem Stored.posix_main {file : List UInt8} {offsets : List ℕ} {values : List Int32}
    (h : Stored file offsets values) {n : ℕ} {current : Item} (hn : offsets.length ≤ n) :
    (posixReader file).main file n current = some (records offsets values,.finished) := by
  refine h.main_eq (fun p _ => rfl) (fun x hx cur => ?_) hn
  -- the whole record is read, and nothing stays of the one before
  have hgot : (file.drop x.offset).take 8 = x.item.bytes :=
    (List.prefix_iff_eq_take.mp (h.kept x hx)).symm
  simp only [posixReader,hgot]
  exact itemOf_bytes x.item _

theorem Stored.mmap_main {file : List UInt8} {offsets : List ℕ} {values : List Int32}
    (h : Stored file offsets values) {n : ℕ} {current : Item} (hn : offsets.length ≤ n) :
    (mmapReader file).main file n current = some (records offsets values,.finished) := by
  refine h.main_eq (fun p hp => Nat.mul_div_cancel' (h.aligned p hp)) (fun x hx cur => ?_) hn
  refine itemOf_of_begins ((h.kept x hx).trans ?_)
  rw [List.drop_append]
  exact List.prefix_append _ _

def output (visits : List Visit) : String :=
  String.join (visits.map fun r => toString r.item.value.toInt ++ " ")

/-- The program ends by itself, and this is what it has printed. -/
def Prints (r : Reader) (file : List UInt8) (current : Item) (text : String) : Prop :=
  ∃ n visits, (∀ m, n ≤ m → r.main file m current = some (visits,.finished)) ∧
    output visits = text

/-- Wherever the records are in the file, both readers print the list, whatever the memory of
`current` was before. -/
theorem readers_print_list {file : List UInt8} {offsets : List ℕ} {values : List Int32}
    (h : Stored file offsets values) (current : Item) :
    Prints (posixReader file) file current
      (String.join (values.map fun v => toString v.toInt ++ " ")) ∧
    Prints (mmapReader file) file current
      (String.join (values.map fun v => toString v.toInt ++ " ")) := by
  have htext : output (records offsets values) =
      String.join (values.map fun v => toString v.toInt ++ " ") := by
    have hvalues := values_records h.length_eq
    rw [output,← hvalues,List.map_map,hvalues]
    rfl
  exact ⟨⟨offsets.length,_,fun m hm => h.posix_main hm,htext⟩,
    ⟨offsets.length,_,fun m hm => h.mmap_main hm,htext⟩⟩

def scattered : List UInt8 :=
  (⟨-7,16⟩ : Item).bytes ++ [1,2,3,4,5,6,7,8] ++ (⟨5,0⟩ : Item).bytes ++ [9]

theorem scattered_stored : Stored scattered [0,16] [-7,5] where
  length_eq := rfl
  first := rfl
  distinct := by decide
  aligned := by decide
  fits := by decide
  kept := by decide

theorem readers_print_scattered : Prints (posixReader scattered) scattered ⟨0,0⟩ "-7 5 " ∧
    Prints (mmapReader scattered) scattered ⟨0,0⟩ "-7 5 " :=
  readers_print_list scattered_stored ⟨0,0⟩

/-- The ports read the records in the order in which `inf08-1.c` does, and stay within what they
have read from the file. -/
def Agree (file : List UInt8) (current : Item) : Prop :=
  ∃ n visits, ∀ m, n ≤ m → (posixReader file).main file m current = some (visits,.finished) ∧
    (winReader file).main file m current = some (visits,.finished) ∧
    (testReader file).main file m current = some (visits,.finished)

/-- `inf08-3.c` takes the byte offset of the second record for its index. -/
theorem winReader_apart {file : List UInt8} {n o : ℕ} {cur : Item} {v : Int32} {p : ℕ}
    {os : List ℕ} {vs : List Int32} (hlength : (p :: os).length = vs.length) (hpos : p ≠ 0)
    (hfits : p < 2^32) (e : Ending) :
    (winReader file).loop n cur o ≠ some (records (o :: p :: os) (v :: vs),e) := by
  intro h
  obtain _ | ⟨w,ws⟩ := vs
  · simp at hlength
  obtain _ | n := n
  · simp [Reader.loop] at h
  have hto : (UInt32.ofNat p).toNat = p := UInt32.toNat_ofNat_of_lt' hfits
  rw [Reader.loop] at h
  split at h
  · simp [records] at h
  split at h
  · simp [records] at h
  obtain ⟨⟨rest,e'⟩,hrest,heq⟩ := Option.map_eq_some_iff.mp h
  simp only [records,List.headD_cons,Prod.mk.injEq,List.cons.injEq,Visit.mk.injEq] at heq
  obtain ⟨⟨⟨-,rfl⟩,rfl⟩,rfl⟩ := heq
  -- the next round looks at eight times the offset
  rw [hto] at hrest
  obtain _ | n := n
  · simp [Reader.loop] at hrest
  rw [Reader.loop] at hrest
  have hplace : (winReader file).place p = 8*p := rfl
  split at hrest
  · simp at hrest
  split at hrest
  · simp [hplace] at hrest
    omega
  · simp [hplace] at hrest
    omega

theorem winReader_load_zero (file : List UInt8) {cur item : Item}
    (h : (winReader file).load cur 0 = some item) : 8 ≤ file.length%2^32 := by
  have hlength := length_of_itemOf h
  simp only [List.drop_zero,List.length_take] at hlength
  omega

theorem Agree.single {file : List UInt8} {offsets : List ℕ} {values : List Int32} {current : Item}
    (hagree : Agree file current) (h : Stored file offsets values) :
    offsets.length = 1 ∧ 8 ≤ file.length%2^32 := by
  obtain ⟨n,visits,hruns⟩ := hagree
  obtain ⟨hposix,hwin,-⟩ := hruns (max n offsets.length) (le_max_left _ _)
  rw [h.posix_main (le_max_right _ _)] at hposix
  obtain rfl : records offsets values = visits := by simpa using hposix
  rw [Reader.main,if_neg h.whole_record] at hwin
  have hfits := h.fits
  obtain ⟨os,v,vs,rfl,rfl,hlength,hpos⟩ := h.cons
  obtain _ | ⟨p,os⟩ := os
  · refine ⟨rfl,?_⟩
    generalize max n [0].length = m at hwin
    obtain _ | m := m
    · simp [Reader.loop] at hwin
    rw [Reader.loop] at hwin
    split at hwin
    · simp [records] at hwin
    · rename_i item hload
      exact winReader_load_zero file hload
  · refine absurd hwin (winReader_apart hlength ?_ ?_ _)
    · rintro rfl
      exact hpos List.mem_cons_self
    · exact hfits p (by simp)

theorem Stored.main_of_take {file : List UInt8} {v : Int32} (h : Stored file [0] [v]) {r : Reader}
    {k m : ℕ} {current : Item} (hplace : r.place 0 = 0)
    (hload : ∀ cur, r.load cur 0 = itemOf (file.take k)) (hk : 8 ≤ k) (hm : 1 ≤ m) :
    r.main file m current = some (records [0] [v],.finished) := by
  have hkept : (⟨v,0⟩ : Item).bytes <+: file := h.kept ⟨0,⟨v,0⟩⟩ (by simp [records])
  refine h.main_eq (by simpa using hplace) (fun x hx cur => ?_) hm
  obtain rfl : x = ⟨0,⟨v,0⟩⟩ := by simpa [records] using hx
  exact (hload cur).trans (itemOf_of_begins (List.prefix_take_iff.mpr ⟨hkept,hk⟩))

/-- The ports agree with the POSIX reader on the lists of one record alone. -/
theorem ports_agree_iff {file : List UInt8} {offsets : List ℕ} {values : List Int32}
    (h : Stored file offsets values) (current : Item) :
    Agree file current ↔ offsets.length = 1 ∧ 8 ≤ file.length%2^32 := by
  constructor
  · intro hagree
    exact hagree.single h
  · rintro ⟨hone,hread⟩
    obtain ⟨os,v,vs,rfl,rfl,hlength,-⟩ := h.cons
    obtain rfl : os = [] := List.length_eq_zero_iff.mp (by simpa using hone)
    obtain rfl : vs = [] := List.length_eq_zero_iff.mp hlength.symm
    exact ⟨1,records [0] [v],fun m hm => ⟨h.posix_main hm,
      h.main_of_take rfl (fun _ => rfl) (by omega) hm,h.main_of_take rfl (fun _ => rfl) hread hm⟩⟩

theorem ports_agree_single : Agree (⟨7,0⟩ : Item).bytes ⟨0,0⟩ ↔ [0].length = 1 ∧ 8 ≤ 8%2^32 := by
  have hstored : Stored (⟨7,0⟩ : Item).bytes [0] [7] :=
    ⟨rfl,rfl,by decide,by decide,by decide,by decide⟩
  exact ports_agree_iff hstored ⟨0,0⟩

def twoRecords : List UInt8 := (⟨7,8⟩ : Item).bytes ++ (⟨5,0⟩ : Item).bytes

/-- `inf08-3.c` looks for the second record at byte 64. -/
theorem offset_taken_for_index : Stored twoRecords [0,8] [7,5] ∧
    (∀ n current, (posixReader twoRecords).main twoRecords (n+2) current =
      some ([⟨0,⟨7,8⟩⟩,⟨8,⟨5,0⟩⟩],.finished)) ∧
    (∀ n current, (winReader twoRecords).main twoRecords (n+2) current =
      some ([⟨0,⟨7,8⟩⟩],.outOfBounds)) ∧
    ∀ current, ¬ Agree twoRecords current := by
  have hwin : ∀ n current, (winReader twoRecords).main twoRecords (n+2) current =
      some ([⟨0,⟨7,8⟩⟩],.outOfBounds) := fun _ _ => rfl
  refine ⟨⟨rfl,rfl,by decide,by decide,by decide,by decide⟩,fun _ _ => rfl,hwin,?_⟩
  rintro current ⟨n,visits,hruns⟩
  have hagree := (hruns (n+2) (by omega)).2.1
  rw [hwin] at hagree
  simp at hagree

/-! What becomes of a file that nobody has checked -/

/-- The loop ends by itself, and every record that it has looked at is in the file. -/
def EndsInside (r : Reader) (file : List UInt8) (current : Item) : Prop :=
  ∃ n visits, (∀ m, n ≤ m → r.main file m current = some (visits,.finished)) ∧
    ∀ x ∈ visits, x.offset+8 ≤ file.length

def nextRecord (place : ℕ → ℕ) (file : List UInt8) : Option ℕ → Option (Option ℕ)
  | none => none
  | some offset => (itemOf (file.drop offset)).map fun item =>
    if item.nextPointer = 0 then none else some (place item.nextPointer.toNat)

/-- From the beginning of the file the pointers lead along these records to the end of the list,
and all of them are in the file. -/
def Leads (r : Reader) (file : List UInt8) (offsets : List ℕ) : Prop :=
  Chain (nextRecord r.place file) none (some (r.place 0)) (offsets.map some)

theorem itemOf_append {l : List UInt8} (h : 8 ≤ l.length) (rest : List UInt8) :
    itemOf (l ++ rest) = itemOf l := by
  rcases l with _ | ⟨a,_ | ⟨b,_ | ⟨c,_ | ⟨d,_ | ⟨e,_ | ⟨f,_ | ⟨g,_ | ⟨h,l⟩⟩⟩⟩⟩⟩⟩⟩
  case cons.cons.cons.cons.cons.cons.cons.cons => rfl
  all_goals simp at h

/-- The reader finds what the file has there, as far as the file goes. -/
def Faithful (r : Reader) (file : List UInt8) : Prop :=
  ∀ cur offset, offset+8 ≤ file.length → r.load cur offset = itemOf (file.drop offset)

theorem posix_faithful (file : List UInt8) : Faithful (posixReader file) file := by
  intro cur offset h
  have hlength : ((file.drop offset).take 8).length = 8 := by
    rw [List.length_take,List.length_drop]
    omega
  simp only [posixReader]
  rw [itemOf_append hlength.ge,← itemOf_append hlength.ge ((file.drop offset).drop 8),
    List.take_append_drop]

theorem mmap_faithful (file : List UInt8) : Faithful (mmapReader file) file := by
  intro cur offset h
  simp only [mmapReader]
  rw [List.drop_append_of_le_length (by omega),itemOf_append (by rw [List.length_drop]; omega)]

variable {r : Reader} {file : List UInt8}

theorem inside_of_itemOf {offset : ℕ} {item : Item} (h : itemOf (file.drop offset) = some item) :
    offset+8 ≤ file.length := by
  have hlength := length_of_itemOf h
  rw [List.length_drop] at hlength
  omega

theorem inside_of_chain {a : Option ℕ} {offsets : List ℕ}
    (h : Chain (nextRecord r.place file) none a (offsets.map some)) :
    ∀ o ∈ offsets, o+8 ≤ file.length := by
  induction offsets generalizing a with
  | nil => simp
  | cons o os ih =>
    obtain ⟨rfl,-,c,hc,hrest⟩ := h
    obtain ⟨item,hitem,-⟩ := Option.map_eq_some_iff.mp hc
    exact List.forall_mem_cons.mpr ⟨inside_of_itemOf hitem,ih hrest⟩

theorem chain_none_iff {offsets : List ℕ} :
    Chain (nextRecord r.place file) none none (offsets.map some) ↔ offsets = [] := by
  cases offsets with
  | nil => simp [Chain]
  | cons o os => simp [Chain]

theorem loop_of_chain (hr : Faithful r file) {offsets : List ℕ} {ptr : ℕ} (cur : Item)
    (h : Chain (nextRecord r.place file) none (some (r.place ptr)) (offsets.map some)) :
    ∃ visits, (∀ n, offsets.length ≤ n → r.loop n cur ptr = some (visits,.finished)) ∧
      visits.map (·.offset) = offsets := by
  induction offsets generalizing ptr cur with
  | nil => exact absurd h (by simp [Chain])
  | cons o os ih =>
    obtain ⟨ho,-,c,hc,hrest⟩ := h
    obtain rfl := Option.some.inj ho
    obtain ⟨item,hitem,rfl⟩ := Option.map_eq_some_iff.mp hc
    have hload := (hr cur _ (inside_of_itemOf hitem)).trans hitem
    by_cases hnext : item.nextPointer = 0
    · rw [if_pos hnext] at hrest
      refine ⟨[⟨r.place ptr,item⟩],fun n hn => ?_,by simp [chain_none_iff.mp hrest]⟩
      obtain ⟨n,rfl⟩ := Nat.exists_eq_add_one_of_ne_zero (Nat.ne_zero_of_lt hn)
      simp [Reader.loop,hload,hnext]
    · rw [if_neg hnext] at hrest
      obtain ⟨visits,hloop,hvisits⟩ := ih item hrest
      refine ⟨⟨r.place ptr,item⟩ :: visits,fun n hn => ?_,by simp [hvisits]⟩
      obtain ⟨n,rfl⟩ := Nat.exists_eq_add_one_of_ne_zero (Nat.ne_zero_of_lt hn)
      simp [Reader.loop,hload,hnext,hloop n (Nat.le_of_succ_le_succ hn)]

theorem chain_of_loop (hr : Faithful r file) {ptr n : ℕ} {cur : Item} {visits : List Visit}
    (h : r.loop n cur ptr = some (visits,.finished))
    (hin : ∀ x ∈ visits, x.offset+8 ≤ file.length) :
    Chain (nextRecord r.place file) none (some (r.place ptr))
      ((visits.map (·.offset)).map some) := by
  induction n generalizing ptr cur visits with
  | zero => cases h
  | succ n ih =>
    rw [Reader.loop] at h
    split at h
    · cases h
    rename_i item hload
    split at h
    · rename_i hnext
      cases h
      rw [hr cur _ (hin _ List.mem_cons_self)] at hload
      exact Chain.nil.cons (by simp [nextRecord,hload,hnext]) (by simp)
    · rename_i hnext
      obtain ⟨⟨rest,e⟩,hrest,heq⟩ := Option.map_eq_some_iff.mp h
      cases heq
      rw [List.forall_mem_cons] at hin
      rw [hr cur _ hin.1] at hload
      exact (ih hrest hin.2).cons (by simp [nextRecord,hload,hnext]) (by simp)

theorem Faithful.endsInside_iff (hr : Faithful r file) (hfile : 8 ≤ file.length)
    (current : Item) : EndsInside r file current ↔ ∃ offsets, Leads r file offsets := by
  have hmain : ∀ m, r.main file m current = r.loop m current 0 := fun m => if_neg (by omega)
  constructor
  · rintro ⟨n,visits,hloop,hin⟩
    exact ⟨_,chain_of_loop hr ((hmain n).symm.trans (hloop n le_rfl)) hin⟩
  · rintro ⟨offsets,hchain⟩
    obtain ⟨visits,hloop,hvisits⟩ := loop_of_chain hr current hchain
    refine ⟨offsets.length,visits,fun m hm => (hmain m).trans (hloop m hm),fun x hx => ?_⟩
    exact inside_of_chain hchain _ (hvisits ▸ List.mem_map_of_mem hx)

/-- No record comes twice, so that there are as many rounds at most as there is room for. -/
theorem Leads.length_le {offsets : List ℕ} (h : Leads r file offsets) :
    offsets.Nodup ∧ offsets.length + 7 ≤ file.length := by
  have hnodup : offsets.Nodup := (Chain.nodup h).of_map some
  have hsub : offsets ⊆ List.range (file.length-7) := by
    intro o ho
    have hin := inside_of_chain h o ho
    rw [List.mem_range]
    omega
  have hne : offsets ≠ [] := by
    rintro rfl
    cases h
  have hle := (hnodup.subperm hsub).length_le
  have hpos := List.length_pos_of_ne_nil hne
  rw [List.length_range] at hle
  exact ⟨hnodup,by omega⟩

/-- The first record is in the file, and the loop ends inside it exactly when the pointers lead
from there to the end of the list. -/
theorem readers_end_inside_iff {file : List UInt8} (hfile : 8 ≤ file.length) (current : Item) :
    (EndsInside (posixReader file) file current ↔
      ∃ offsets, Leads (posixReader file) file offsets) ∧
    (EndsInside (mmapReader file) file current ↔
      ∃ offsets, Leads (mmapReader file) file offsets) :=
  ⟨(posix_faithful file).endsInside_iff hfile current,
    (mmap_faithful file).endsInside_iff hfile current⟩

theorem readers_end_inside_scattered :
    (EndsInside (posixReader scattered) scattered ⟨0,0⟩ ↔
      ∃ offsets, Leads (posixReader scattered) scattered offsets) ∧
    (EndsInside (mmapReader scattered) scattered ⟨0,0⟩ ↔
      ∃ offsets, Leads (mmapReader scattered) scattered offsets) :=
  readers_end_inside_iff (by decide) ⟨0,0⟩

theorem loop_self (ptr : ℕ) (item : Item) (hnext : item.nextPointer.toNat = ptr) (hptr : ptr ≠ 0)
    (hload : ∀ cur, r.load cur (r.place ptr) = some item) (n : ℕ) (cur : Item) :
    r.loop n cur ptr = none := by
  have hne : item.nextPointer ≠ 0 := by
    rintro h0
    exact hptr (by simpa [h0] using hnext.symm)
  induction n generalizing cur with
  | zero => rfl
  | succ n ih => simp [Reader.loop,hload,hne,hnext,ih]

def selfPointing : List UInt8 := (⟨7,8⟩ : Item).bytes ++ (⟨5,8⟩ : Item).bytes

theorem Faithful.selfPointing_endless (hr : Faithful r selfPointing) (h0 : r.place 0 = 0)
    (h8 : r.place 8 = 8) (current : Item) : ¬ EndsInside r selfPointing current := by
  rintro ⟨n,visits,hmain,-⟩
  have hload : ∀ cur, r.load cur 0 = some ⟨7,8⟩ := fun cur => hr cur 0 (by decide)
  have hself := loop_self (r := r) 8 ⟨5,8⟩ rfl (by decide)
    (fun cur => by rw [h8]; exact hr cur 8 (by decide))
  have hrun := hmain (n+1) (Nat.le_succ n)
  have hwhole : ¬ selfPointing.length/8 = 0 := by decide
  rw [Reader.main,if_neg hwhole,Reader.loop,h0,hload] at hrun
  have hto : (8 : UInt32).toNat = 8 := rfl
  simp [hto,hself] at hrun

/-- Neither reader comes to an end there, and the second one looks behind the end of a file whose
record points there. -/
theorem unchecked_pointers :
    (∀ current, ¬ EndsInside (posixReader selfPointing) selfPointing current) ∧
    (∀ current, ¬ EndsInside (mmapReader selfPointing) selfPointing current) ∧
    ∀ n current, (mmapReader (⟨7,100⟩ : Item).bytes).main (⟨7,100⟩ : Item).bytes (n+2) current =
      some ([⟨0,⟨7,100⟩⟩,⟨96,⟨0,0⟩⟩],.finished) := by
  refine ⟨fun current => ?_,fun current => ?_,fun n current => ?_⟩
  · exact (posix_faithful _).selfPointing_endless rfl rfl current
  · exact (mmap_faithful _).selfPointing_endless rfl rfl current
  · rfl

end ListFile
end SomeCode
