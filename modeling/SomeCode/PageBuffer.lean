import SomeCode.HeapBlock
import SomeCode.Transition

/-! The buffers that the page loaders `inf23-2-ver2.c` and `inf23-2.c` collect a page in, chunk by
chunk as `libcurl` passes them on. -/
namespace SomeCode
namespace PageBuffer

open HeapBlock Transition

def sizeT (n : ℕ) : ℕ := n % 2^64

theorem sizeT_eq {n : ℕ} (h : n < 2^64) : sizeT n = n := Nat.mod_eq_of_lt h

theorem sizeT_lt (n : ℕ) : sizeT n < 2^64 := Nat.mod_lt n (by norm_num)

/-- What a call of the write function is given: `amount` members of `size` bytes at `ptr`. -/
structure Chunk where
  ptr : List UInt8
  size : ℕ
  amount : ℕ
  length_ptr : ptr.length = size*amount
  length_lt : ptr.length < 2^64

/-- The bytes that a `realloc` in the call adds hold `fill`. -/
structure Call extends Chunk where
  fill : ℕ → UInt8

theorem Chunk.full_size (c : Chunk) : sizeT (c.size*c.amount) = c.ptr.length := by
  rw [← c.length_ptr,sizeT_eq c.length_lt]

def page (cs : List Chunk) : List UInt8 := (cs.map Chunk.ptr).flatten

@[simp] theorem page_nil : page [] = [] := rfl

theorem page_concat (cs : List Chunk) (c : Chunk) : page (cs ++ [c]) = page cs ++ c.ptr := by
  simp [page]

/-- `simple_vector_t` with the block at `data` -/
structure SimpleVector where
  data : List UInt8
  size : ℕ
  capacity : ℕ

def realocateVector (fill : ℕ → UInt8) (v : SimpleVector) (plus_size : ℕ) : SimpleVector :=
  if v.capacity < sizeT (v.size+plus_size) then
    { v with
      data := realloc fill v.data (sizeT (v.size+plus_size))
      capacity := sizeT (v.capacity+plus_size) }
  else v

def getPage (c : Call) (v : SimpleVector) : Option SimpleVector :=
  let full_size := sizeT (c.size*c.amount)
  let v := realocateVector c.fill v (sizeT (v.size+full_size))
  (memcpy v.data v.size c.ptr full_size).map fun data =>
    { v with data := data, size := sizeT (v.size+full_size) }

/-- The vector as `main` sets it up, and the calls of `get_page` -/
def vectorSystem : System SimpleVector Call where
  start := ⟨List.replicate 4096 0,0,4096⟩
  step := getPage

@[simp] theorem vectorSystem_size : vectorSystem.start.size = 0 := rfl

@[simp] theorem vectorSystem_capacity : vectorSystem.start.capacity = 4096 := rfl

@[simp] theorem vectorSystem_data : vectorSystem.start.data.length = 4096 :=
  List.length_replicate

/-- No sum of the call overflows. -/
def Fits (v : SimpleVector) (c : Call) : Prop :=
  v.size+(v.size+c.ptr.length) < 2^64 ∧
    (v.capacity < v.size+(v.size+c.ptr.length) → v.capacity+(v.size+c.ptr.length) < 2^64)

instance (v : SimpleVector) (c : Call) : Decidable (Fits v c) :=
  inferInstanceAs (Decidable (_ ∧ _))

/-- `capacity` can be beyond the block, but not by more than `size`. -/
structure SimpleVector.Sound (v : SimpleVector) (text : List UInt8) : Prop where
  holds : Holds v.data v.size text
  capacity_le : v.capacity ≤ v.data.length+v.size

variable {c : Call} {cs : List Call} {v w : SimpleVector} {text : List UInt8}

theorem SimpleVector.Sound.realocate (h : v.Sound text) (hc : Fits v c) :
    ∃ w, realocateVector c.fill v (sizeT (v.size+c.ptr.length)) = w ∧ w.size = v.size ∧
      Holds w.data v.size text ∧ v.size+c.ptr.length ≤ w.data.length ∧
      w.capacity ≤ w.data.length+(v.size+c.ptr.length) := by
  obtain ⟨hplus,hcap⟩ := hc
  have hle := h.capacity_le
  have hsize := h.holds.1
  rw [realocateVector,sizeT_eq (n := v.size+c.ptr.length) (by omega),sizeT_eq hplus]
  split_ifs with hgrow
  · refine ⟨_,rfl,rfl,h.holds.realloc (by omega),?_,?_⟩
    · rw [length_realloc]
      omega
    · rw [length_realloc,sizeT_eq (hcap hgrow)]
      simp only
      omega
  · exact ⟨v,rfl,rfl,h.holds,by omega,by omega⟩

theorem SimpleVector.Sound.getPage (h : v.Sound text) (hc : Fits v c) :
    ∃ w, getPage c v = some w ∧ w.Sound (text ++ c.ptr) := by
  obtain ⟨w,hw,hsize,hholds,hroom,hcap⟩ := h.realocate hc
  obtain ⟨data,hdata,hnew⟩ := hholds.exists_memcpy hroom le_rfl
  have hlt : v.size+c.ptr.length < 2^64 := by have := hc.1; omega
  rw [List.take_length] at hnew
  refine ⟨⟨data,v.size+c.ptr.length,w.capacity⟩,?_,hnew,?_⟩
  · simp only [PageBuffer.getPage,c.full_size]
    rw [hw,hsize,hdata,Option.map_some,sizeT_eq hlt]
  · simpa only [length_of_memcpy hdata] using hcap

theorem vectorSystem_sound : vectorSystem.start.Sound [] where
  holds := ⟨Nat.zero_le _,rfl⟩
  capacity_le := by simp

/-- Every run without overflow keeps the buffer sound. -/
theorem sound_of_run (h : (vectorSystem.restrict Fits).run cs vectorSystem.start = some v) :
    v.Sound (page (cs.map Call.toChunk)) := by
  refine System.run_history (M := vectorSystem.restrict Fits)
    (I := fun cs v => v.Sound (page (cs.map Call.toChunk))) vectorSystem_sound
    (fun {cs c v w} hv hw => ?_) h
  obtain ⟨hc,hstep⟩ := System.restrict_step_eq_some.mp hw
  obtain ⟨w',hw',hsound⟩ := hv.getPage hc
  obtain rfl : w' = w := Option.some.inj (hw'.symm.trans hstep)
  rwa [List.map_append,List.map_singleton,page_concat]

/-- A first chunk that does not fit brings the capacity out of step with the block. -/
theorem getPage_start (hlong : 4096 < c.ptr.length) (hc : Fits vectorSystem.start c) :
    ∃ w, getPage c vectorSystem.start = some w ∧ w.data.length = c.ptr.length ∧
      w.capacity = 4096+c.ptr.length := by
  obtain ⟨w,hw,hsize,hholds,hroom,-⟩ := vectorSystem_sound.realocate hc
  obtain ⟨data,hdata,-⟩ := hholds.exists_memcpy hroom le_rfl
  have hone : sizeT c.ptr.length = c.ptr.length := sizeT_eq c.length_lt
  have htwo : sizeT (4096+c.ptr.length) = 4096+c.ptr.length :=
    sizeT_eq (by simpa using hc.2 (by simpa using hlong))
  have hwdata : w.data.length = c.ptr.length ∧ w.capacity = 4096+c.ptr.length := by
    rw [← hw,realocateVector]
    simp [hone,htwo,hlong]
  refine ⟨⟨data,sizeT (w.size+c.ptr.length),w.capacity⟩,?_,?_,hwdata.2⟩
  · simp only [getPage,c.full_size]
    rw [hw,hsize,hdata,Option.map_some]
  rw [length_of_memcpy hdata,hwdata.1]

def Chunk.ofLength (n : ℕ) (h : n < 2^64) : Chunk :=
  ⟨List.replicate n 65,1,n,by simp,by simpa using h⟩

@[simp] theorem Chunk.length_ofLength {n : ℕ} {h : n < 2^64} :
    (Chunk.ofLength n h).ptr.length = n := List.length_replicate

theorem ten_lt : 10 < 2^64 := by norm_num

theorem exists_capacity_gt : ∃ cs v,
    (vectorSystem.restrict Fits).run cs vectorSystem.start = some v ∧
      v.data.length < v.capacity := by
  obtain ⟨n,hn⟩ : ∃ n, n = 4097 := ⟨_,rfl⟩
  have hlt : n < 2^64 := by omega
  have hc : Fits vectorSystem.start ⟨.ofLength n hlt,fun _ => 0⟩ := by
    simp only [Fits,vectorSystem_size,vectorSystem_capacity,Chunk.length_ofLength]
    omega
  obtain ⟨w,hw,hlen,hcap⟩ := getPage_start (by simp; omega) hc
  have hstep : vectorSystem.step ⟨.ofLength n hlt,fun _ => 0⟩ vectorSystem.start = some w := hw
  refine ⟨_,w,System.run_single (System.restrict_step_eq_some.mpr ⟨hc,hstep⟩),?_⟩
  rw [hlen,hcap]
  omega

theorem getPage_inBounds :
    (∀ cs v, (vectorSystem.restrict Fits).run cs vectorSystem.start = some v →
      v.data.take v.size = page (cs.map Call.toChunk) ∧ ∀ c, Fits v c →
        let full_size := sizeT (c.size*c.amount)
        let w := realocateVector c.fill v (sizeT (v.size+full_size))
        w.size+full_size ≤ w.data.length ∧ (getPage c v).isSome) ∧
    ∃ cs v, (vectorSystem.restrict Fits).run cs vectorSystem.start = some v ∧
      v.data.length < v.capacity := by
  refine ⟨fun cs v h => ?_,exists_capacity_gt⟩
  have hv := sound_of_run h
  refine ⟨hv.holds.2,fun c hc => ?_⟩
  obtain ⟨w,hw,hsize,-,hroom,-⟩ := hv.realocate hc
  obtain ⟨t,ht,-⟩ := hv.getPage hc
  simp only [c.full_size]
  rw [hw,hsize]
  exact ⟨hroom,ht ▸ rfl⟩

/-- The block grows at the first chunk, and there is room for the next one. -/
theorem getPage_inBounds_grown : ∃ n, ∃ hlt : n < 2^64, ∃ v, n = 5000 ∧
    getPage ⟨.ofLength n hlt,fun _ => 0⟩ vectorSystem.start = some v ∧ v.data.length = n ∧
      v.data.take v.size = List.replicate n 65 ∧
      (getPage ⟨.ofLength 10 ten_lt,fun _ => 0⟩ v).isSome := by
  obtain ⟨n,hn⟩ : ∃ n, n = 5000 := ⟨_,rfl⟩
  have hlt : n < 2^64 := by omega
  have hfirst : Fits vectorSystem.start ⟨.ofLength n hlt,fun _ => 0⟩ := by
    simp only [Fits,vectorSystem_size,vectorSystem_capacity,Chunk.length_ofLength]
    omega
  obtain ⟨v,hv,hlen,hcap⟩ := getPage_start (by simp; omega) hfirst
  have hstep : vectorSystem.step ⟨.ofLength n hlt,fun _ => 0⟩ vectorSystem.start = some v := hv
  have hrun := System.run_single (System.restrict_step_eq_some.mpr ⟨hfirst,hstep⟩)
  rw [Chunk.length_ofLength] at hlen hcap
  have hsize : v.size ≤ v.data.length := (sound_of_run hrun).holds.1
  have hsecond : Fits v ⟨.ofLength 10 ten_lt,fun _ => 0⟩ := by
    simp only [Fits,Chunk.length_ofLength]
    omega
  obtain ⟨htaken,hroom⟩ := getPage_inBounds.1 _ v hrun
  have hpage : ∀ c, page [c] = c.ptr := fun c => List.append_nil c.ptr
  exact ⟨n,hlt,v,hn,hv,hlen,htaken.trans (hpage _),(hroom _ hsecond).2⟩

/-- `buffer_t` with the block at `data` -/
structure Buffer where
  data : List UInt8
  length : ℕ
  capacity : ℕ

/-- The `if` of `callback_function` -/
def Buffer.reserve (fill : ℕ → UInt8) (req_size : ℕ) (b : Buffer) : Buffer :=
  if b.capacity < req_size then
    { b with
      data := realloc fill b.data (sizeT (req_size*2))
      capacity := sizeT (req_size*2) }
  else b

def callbackFunction (c : Call) (b : Buffer) : Option Buffer :=
  let total_size := sizeT (c.size*c.amount)
  let req_size := sizeT (b.length+total_size)
  let b := b.reserve c.fill req_size
  (memcpy b.data b.length c.ptr total_size).map fun data =>
    { b with data := data, length := sizeT (b.length+total_size) }

/-- The buffer as `main` sets it up, and the calls of `callback_function` -/
def bufferSystem : System Buffer Call where
  start := ⟨List.replicate (1024*1024) 0,0,0⟩
  step := callbackFunction

def Buffer.IsString (b : Buffer) (text : List UInt8) : Prop :=
  b.data.take b.length = text ∧ b.data[b.length]? = some 0

def AlwaysString (cs : List Chunk) : Prop :=
  ∀ calls : List Call, calls.map Call.toChunk = cs →
    ∃ b, bufferSystem.run calls bufferSystem.start = some b ∧ b.IsString (page cs)

def firstLength (cs : List Chunk) : ℕ :=
  ((cs.map fun c => c.ptr.length).find? (0 < ·)).getD 0

/-- A zero is left over behind the page. -/
def KeepsZero (cs : List Chunk) : Prop :=
  page cs = [] ∨ ((page cs).length < 2*firstLength cs ∧ (page cs).length < 1024*1024)

theorem firstLength_concat {cs : List Chunk} (h : page cs ≠ []) (c : Chunk) :
    firstLength (cs ++ [c]) = firstLength cs := by
  obtain ⟨d,hd,hne⟩ : ∃ d ∈ cs, d.ptr ≠ [] := by
    by_contra hnone
    refine h (List.flatten_eq_nil_iff.mpr fun l hl => ?_)
    obtain ⟨d,hd,rfl⟩ := List.mem_map.mp hl
    exact not_not.mp fun hne => hnone ⟨d,hd,hne⟩
  have hsome : ((cs.map fun c => c.ptr.length).find? (0 < ·)).isSome := by
    rw [List.find?_isSome]
    exact ⟨_,List.mem_map_of_mem hd,decide_eq_true (List.length_pos_of_ne_nil hne)⟩
  obtain ⟨l,hl⟩ := Option.isSome_iff_exists.mp hsome
  rw [firstLength,firstLength,List.map_append,List.find?_append,hl]
  rfl

theorem firstLength_first {cs : List Chunk} (h : page cs = []) (c : Chunk) :
    firstLength (cs ++ [c]) = c.ptr.length := by
  have hnone : (cs.map fun c => c.ptr.length).find? (0 < ·) = none := by
    refine List.find?_eq_none.mpr fun l hl => ?_
    obtain ⟨d,hd,rfl⟩ := List.mem_map.mp hl
    simp [List.flatten_eq_nil_iff.mp h d.ptr (List.mem_map_of_mem hd)]
  rw [firstLength,List.map_append,List.find?_append,hnone]
  by_cases hc : c.ptr.length = 0
  · simp [hc]
  · simp [Nat.pos_of_ne_zero hc]

theorem KeepsZero.of_concat {cs : List Chunk} {c : Chunk} (h : KeepsZero (cs ++ [c])) :
    KeepsZero cs := by
  by_cases hp : page cs = []
  · exact .inl hp
  · rw [KeepsZero,firstLength_concat hp,page_concat,List.length_append] at h
    obtain hnil | ⟨hfirst,hmax⟩ := h
    · exact absurd (List.append_eq_nil_iff.mp hnil).1 hp
    · exact .inr ⟨by omega,by omega⟩

theorem KeepsZero.take {cs : List Chunk} (h : KeepsZero cs) (n : ℕ) : KeepsZero (cs.take n) := by
  induction cs using List.reverseRecOn with
  | nil => simpa using h
  | append_singleton cs c ih =>
    by_cases hn : n ≤ cs.length
    · rw [List.take_append_of_le_length hn]
      exact ih h.of_concat
    · rwa [List.take_of_length_le (by simp; omega)]

theorem callbackFunction_eq (c : Call) (b : Buffer) :
    callbackFunction c b =
      (memcpy (b.reserve c.fill (sizeT (b.length+c.ptr.length))).data b.length c.ptr
        c.ptr.length).map fun data =>
          ⟨data,sizeT (b.length+c.ptr.length),
            (b.reserve c.fill (sizeT (b.length+c.ptr.length))).capacity⟩ := by
  have hlen : ∀ req, (b.reserve c.fill req).length = b.length := fun req => by
    rw [Buffer.reserve]
    split_ifs <;> rfl
  simp only [callbackFunction,c.full_size,hlen]

/-- What the buffer is like as long as a zero is left over -/
structure Buffer.Kept (b : Buffer) (cs : List Chunk) : Prop where
  holds : Holds b.data b.length (page cs)
  untouched : page cs = [] → b = bufferSystem.start
  capacity : page cs ≠ [] → b.capacity = 2*firstLength cs ∧ b.data.length = 2*firstLength cs
  zero : page cs ≠ [] → ∀ i, (page cs).length ≤ i → i < 2*firstLength cs → i < 1024*1024 →
    b.data[i]? = some 0

theorem bufferSystem_zero {i : ℕ} (h : i < 1024*1024) :
    bufferSystem.start.data[i]? = some 0 := List.getElem?_replicate_of_lt h

@[simp] theorem bufferSystem_length : bufferSystem.start.length = 0 := rfl

@[simp] theorem bufferSystem_capacity : bufferSystem.start.capacity = 0 := rfl

@[simp] theorem bufferSystem_data : bufferSystem.start.data.length = 1024*1024 :=
  List.length_replicate

theorem bufferSystem_kept : bufferSystem.start.Kept [] where
  holds := ⟨Nat.zero_le _,rfl⟩
  untouched _ := rfl
  capacity h := absurd rfl h
  zero h := absurd rfl h

theorem callbackFunction_empty {c : Call} (h : c.ptr = []) :
    callbackFunction c bufferSystem.start = some bufferSystem.start := by
  have hreq : sizeT (bufferSystem.start.length+c.ptr.length) = 0 := by rw [h]; rfl
  have hkeep : bufferSystem.start.reserve c.fill 0 = bufferSystem.start :=
    if_neg (Nat.not_lt_zero _)
  have hcopy : memcpy bufferSystem.start.data bufferSystem.start.length [] 0 =
      some bufferSystem.start.data := memcpy_zero (bufferSystem_length.trans_le (Nat.zero_le _))
  rw [callbackFunction_eq,hreq,hkeep,h,List.length_nil,hcopy,Option.map_some]
  rfl

theorem callbackFunction_first {c : Call} (h : c.ptr ≠ []) (hmax : c.ptr.length < 1024*1024) :
    ∃ b, callbackFunction c bufferSystem.start = some b ∧ Holds b.data b.length c.ptr ∧
      b.capacity = 2*c.ptr.length ∧ b.data.length = 2*c.ptr.length ∧
      ∀ i, c.ptr.length ≤ i → i < 2*c.ptr.length → i < 1024*1024 → b.data[i]? = some 0 := by
  have hpos := List.length_pos_of_ne_nil h
  have hreq : sizeT (bufferSystem.start.length+c.ptr.length) = c.ptr.length := by
    rw [bufferSystem_length,Nat.zero_add,sizeT_eq (by omega)]
  have hgrow : bufferSystem.start.reserve c.fill c.ptr.length =
      ⟨realloc c.fill bufferSystem.start.data (2*c.ptr.length),0,2*c.ptr.length⟩ := by
    rw [Buffer.reserve,if_pos (by simpa using hpos),Nat.mul_comm,sizeT_eq (by omega)]
    rfl
  have hholds : Holds (realloc c.fill bufferSystem.start.data (2*c.ptr.length)) 0 [] :=
    ⟨Nat.zero_le _,rfl⟩
  obtain ⟨data,hdata,hnew⟩ := hholds.exists_memcpy (by rw [length_realloc]; omega)
    (le_refl c.ptr.length)
  rw [List.take_length,Nat.zero_add,List.nil_append] at hnew
  have hlen := length_of_memcpy hdata
  rw [length_realloc] at hlen
  refine ⟨⟨data,c.ptr.length,2*c.ptr.length⟩,?_,hnew,rfl,hlen,fun i hi hlt hzero => ?_⟩
  · rw [callbackFunction_eq,hreq,hgrow,bufferSystem_length,hdata,Option.map_some]
  · rw [getElem?_of_memcpy hdata (by omega),getElem?_realloc_of_lt (by simpa using hzero) hlt,
      bufferSystem_zero hzero]

theorem Buffer.Kept.first {cs : List Chunk} {c : Call} (hb : bufferSystem.start.Kept cs)
    (hp : page cs = []) (h : KeepsZero (cs ++ [c.toChunk])) :
    ∃ b, callbackFunction c bufferSystem.start = some b ∧ b.Kept (cs ++ [c.toChunk]) := by
  have hpage : page (cs ++ [c.toChunk]) = c.ptr := by rw [page_concat,hp,List.nil_append]
  have hfirst := firstLength_first hp c.toChunk
  by_cases hc : c.ptr = []
  · refine ⟨_,callbackFunction_empty hc,?_,fun _ => rfl,?_,?_⟩
    · rw [hpage,hc,← hp]
      exact hb.holds
    · exact fun hne => absurd (hpage.trans hc) hne
    · exact fun hne => absurd (hpage.trans hc) hne
  · have hmax : c.ptr.length < 1024*1024 := by
      obtain hnil | hmax := h
      · exact absurd (hpage.symm.trans hnil) hc
      · exact hpage ▸ hmax.2
    obtain ⟨b,hstep,hholds,hcap,hlen,hzero⟩ := callbackFunction_first hc hmax
    refine ⟨b,hstep,hpage ▸ hholds,fun hnil => absurd (hpage.symm.trans hnil) hc,?_,?_⟩
    · exact fun _ => hfirst ▸ ⟨hcap,hlen⟩
    · rw [hpage,hfirst]
      exact fun _ => hzero

theorem Buffer.Kept.append {b : Buffer} {cs : List Chunk} {c : Call} (hb : b.Kept cs)
    (hp : page cs ≠ []) (h : KeepsZero (cs ++ [c.toChunk])) :
    ∃ b', callbackFunction c b = some b' ∧ b'.Kept (cs ++ [c.toChunk]) := by
  have hfirst := firstLength_concat hp c.toChunk
  have hne : page (cs ++ [c.toChunk]) ≠ [] := by simp [page_concat,hp]
  have hlength : (page (cs ++ [c.toChunk])).length = b.length+c.ptr.length := by
    rw [page_concat,List.length_append,hb.holds.length]
  obtain ⟨hroom,hmax⟩ := h.resolve_left hne
  obtain ⟨hcap,hlen⟩ := hb.capacity hp
  rw [hfirst,hlength] at hroom
  rw [hlength] at hmax
  have hreq : sizeT (b.length+c.ptr.length) = b.length+c.ptr.length := sizeT_eq (by omega)
  have hkeep : b.reserve c.fill (b.length+c.ptr.length) = b := if_neg (by omega)
  obtain ⟨data,hdata,hnew⟩ := hb.holds.exists_memcpy (by omega) (le_refl c.ptr.length)
  rw [List.take_length,← page_concat] at hnew
  refine ⟨⟨data,b.length+c.ptr.length,b.capacity⟩,?_,hnew,fun hnil => absurd hnil hne,?_,?_⟩
  · rw [callbackFunction_eq,hreq,hkeep,hdata,Option.map_some]
  · exact fun _ => hfirst ▸ ⟨hcap,(length_of_memcpy hdata).trans hlen⟩
  · intro _ i hi hlt hzero
    rw [hlength] at hi
    rw [hfirst] at hlt
    rw [getElem?_of_memcpy hdata hi]
    exact hb.zero hp i (by rw [hb.holds.length]; omega) hlt hzero

theorem Buffer.Kept.step {b : Buffer} {cs : List Chunk} {c : Call} (hb : b.Kept cs)
    (h : KeepsZero (cs ++ [c.toChunk])) :
    ∃ b', callbackFunction c b = some b' ∧ b'.Kept (cs ++ [c.toChunk]) := by
  by_cases hp : page cs = []
  · obtain rfl := hb.untouched hp
    exact hb.first hp h
  · exact hb.append hp h

theorem kept_of_keepsZero {calls : List Call} (h : KeepsZero (calls.map Call.toChunk)) :
    ∃ b, bufferSystem.run calls bufferSystem.start = some b ∧
      b.Kept (calls.map Call.toChunk) := by
  induction calls using List.reverseRecOn with
  | nil => exact ⟨_,rfl,bufferSystem_kept⟩
  | append_singleton calls c ih =>
    rw [List.map_append,List.map_singleton] at h ⊢
    obtain ⟨b,hrun,hb⟩ := ih h.of_concat
    obtain ⟨b',hstep,hb'⟩ := hb.step h
    exact ⟨b',System.run_concat_eq_some.mpr ⟨b,hrun,hstep⟩,hb'⟩

theorem Buffer.Kept.isString {b : Buffer} {cs : List Chunk} (hb : b.Kept cs)
    (h : KeepsZero cs) : b.IsString (page cs) := by
  refine ⟨hb.holds.2,?_⟩
  by_cases hp : page cs = []
  · obtain rfl := hb.untouched hp
    exact bufferSystem_zero (by norm_num)
  · obtain ⟨hroom,hmax⟩ := h.resolve_left hp
    rw [← hb.holds.length]
    exact hb.zero hp _ le_rfl hroom hmax

theorem alwaysString_of_keepsZero {cs : List Chunk} (h : KeepsZero cs) : AlwaysString cs := by
  rintro calls rfl
  obtain ⟨b,hrun,hb⟩ := kept_of_keepsZero h
  exact ⟨b,hrun,hb.isString h⟩

/-- What can be said of the buffer when no added byte is zero -/
structure Buffer.Unkept (b : Buffer) (cs : List Chunk) : Prop where
  holds : Holds b.data b.length (page cs)
  length_lt : b.data.length < 2^64
  untouched : page cs = [] → b = bufferSystem.start
  nonzero : page cs ≠ [] → ∀ i, b.length ≤ i → 2*firstLength cs ≤ i ∨ 1024*1024 ≤ i →
    b.data[i]? ≠ some 0

theorem bufferSystem_unkept : bufferSystem.start.Unkept [] where
  holds := ⟨Nat.zero_le _,rfl⟩
  length_lt := by rw [bufferSystem_data]; norm_num
  untouched _ := rfl
  nonzero h := absurd rfl h

theorem callbackFunction_of_eq_some {c : Call} {b b' : Buffer}
    (h : callbackFunction c b = some b') (hlt : b.data.length < 2^64) :
    let w := b.reserve c.fill (sizeT (b.length+c.ptr.length))
    b.length+c.ptr.length ≤ w.data.length ∧ w.data.length < 2^64 ∧
      b'.length = b.length+c.ptr.length ∧
      memcpy w.data b.length c.ptr c.ptr.length = some b'.data := by
  intro w
  rw [callbackFunction_eq] at h
  obtain ⟨data,hdata,rfl⟩ := Option.map_eq_some_iff.mp h
  have hroom := (memcpy_eq_some_iff.mp hdata).1.1
  have hw : w.data.length < 2^64 := by
    simp only [w,Buffer.reserve]
    split_ifs
    · rw [length_realloc]
      exact sizeT_lt _
    · exact hlt
  exact ⟨hroom,hw,sizeT_eq (hroom.trans_lt hw),hdata⟩

theorem holds_reserve {b : Buffer} {k req : ℕ} {fill : ℕ → UInt8} (h : Holds b.data k text)
    (hk : k ≤ (b.reserve fill req).data.length) : Holds (b.reserve fill req).data k text := by
  rw [Buffer.reserve] at hk ⊢
  split_ifs with hgrow
  · rw [if_pos hgrow,length_realloc] at hk
    exact h.realloc hk
  · exact h

theorem zero_of_reserve {b : Buffer} {i req : ℕ} {fill : ℕ → UInt8} (hfill : ∀ i, fill i ≠ 0)
    (h : (b.reserve fill req).data[i]? = some 0) :
    b.data[i]? = some 0 ∧ (b.capacity < req → i < sizeT (req*2)) := by
  rw [Buffer.reserve] at h
  split_ifs at h with hgrow
  · obtain ⟨hi,hz⟩ := getElem?_realloc_eq_some_iff.mp h
    exact ⟨hz.resolve_right fun hnew => hfill i hnew.2,fun _ => hi⟩
  · exact ⟨h,fun hlt => absurd hlt hgrow⟩

theorem Buffer.Unkept.step {b b' : Buffer} {cs : List Chunk} {c : Call} (hb : b.Unkept cs)
    (hfill : ∀ i, c.fill i ≠ 0) (h : callbackFunction c b = some b') :
    b'.Unkept (cs ++ [c.toChunk]) := by
  obtain ⟨hroom,hlt,hlen,hdata⟩ := callbackFunction_of_eq_some h hb.length_lt
  have hholds := (holds_reserve hb.holds (Nat.le_of_add_right_le hroom)).memcpy hdata
  rw [List.take_length,← page_concat,← hlen] at hholds
  refine ⟨hholds,(length_of_memcpy hdata).trans_lt hlt,fun hnil => ?_,fun hne i hi hbeyond hz => ?_⟩
  · rw [page_concat,List.append_eq_nil_iff] at hnil
    obtain rfl := hb.untouched hnil.1
    exact Option.some.inj (h.symm.trans (callbackFunction_empty hnil.2))
  · rw [getElem?_of_memcpy hdata (hlen ▸ hi)] at hz
    obtain ⟨hzero,hgrown⟩ := zero_of_reserve hfill hz
    by_cases hp : page cs = []
    · obtain rfl := hb.untouched hp
      have hc : c.ptr ≠ [] := fun hc => hne (by rw [page_concat,hp,hc,List.nil_append])
      have hpos := List.length_pos_of_ne_nil hc
      have hinside := (List.getElem?_eq_some_iff.mp hzero).1
      rw [bufferSystem_data] at hinside
      rw [bufferSystem_length,Nat.zero_add,sizeT_eq c.length_lt] at hgrown
      have hle : sizeT (c.ptr.length*2) ≤ c.ptr.length*2 := Nat.mod_le _ _
      have hi' := hgrown hpos
      rw [firstLength_first hp] at hbeyond
      omega
    · rw [firstLength_concat hp] at hbeyond
      exact hb.nonzero hp i (by omega) hbeyond hzero

theorem unkept_of_run {calls : List Call} {b : Buffer} (hfill : ∀ c ∈ calls, ∀ i, c.fill i ≠ 0)
    (h : bufferSystem.run calls bufferSystem.start = some b) :
    b.Unkept (calls.map Call.toChunk) := by
  refine System.run_history (I := fun calls b => (∀ c ∈ calls, ∀ i, c.fill i ≠ 0) →
    b.Unkept (calls.map Call.toChunk)) (fun _ => bufferSystem_unkept) ?_ h hfill
  intro calls c b b' hb hstep hfill
  rw [List.map_append,List.map_singleton]
  exact (hb fun d hd => hfill d (by simp [hd])).step (hfill c (by simp)) hstep

/-- Where the condition fails, the byte behind the page can be anything, or is outside. -/
theorem keepsZero_of_alwaysString {cs : List Chunk} (h : AlwaysString cs) : KeepsZero cs := by
  have hcs : (cs.map fun c => (⟨c,fun _ => 1⟩ : Call)).map Call.toChunk = cs := by
    rw [List.map_map]
    exact List.map_id cs
  obtain ⟨b,hrun,htext,hzero⟩ := h _ hcs
  have hb := unkept_of_run (by simp) hrun
  rw [hcs] at hb
  by_contra hnot
  obtain ⟨hp,hroom⟩ := not_or.mp hnot
  rw [hb.holds.length] at hroom
  exact hb.nonzero hp b.length le_rfl (by omega) hzero

theorem callbackFunction_string_iff (cs : List Chunk) :
    (∀ n, AlwaysString (cs.take n)) ↔ KeepsZero cs := by
  constructor
  · intro h
    have hall := h cs.length
    rw [List.take_length] at hall
    exact keepsZero_of_alwaysString hall
  · exact fun h n => alwaysString_of_keepsZero (h.take n)

/-- Ten bytes, and ten more, fill the block. -/
theorem tenBytes_not_string : ¬ AlwaysString [.ofLength 10 ten_lt,.ofLength 10 ten_lt] := by
  intro h
  obtain hnil | ⟨hroom,-⟩ := keepsZero_of_alwaysString h
  · simp [page,Chunk.ofLength] at hnil
  · simp [page,Chunk.ofLength,firstLength] at hroom

end PageBuffer
end SomeCode
