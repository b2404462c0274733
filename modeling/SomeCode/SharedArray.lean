import SomeCode.Transition
import SomeCode.Pages
import SomeCode.MachineInt

/-! `inf20-0.c` prints the numbers in a shared memory object that another process has filled, here
`inf20-0-test.c`, which posts the semaphore when it is done. Each of the two sets the length of the
object, to a number of elements of its own. -/
namespace SomeCode
namespace SharedArray

open Transition Pages MachineInt

/-- `inf20-0-test.c`, before `ftruncate`, in its two loops, before `sem_post`, at its end, where it
has been killed by a signal, and where it has left its mapping -/
inductive Writer
  | truncating
  | storing (i : ℕ)
  | printing (i : ℕ)
  | posting
  | ended
  | killed
  | astray

/-- `inf20-0.c`, before `ftruncate`, in `sem_wait` and in its loop -/
inductive Reader
  | truncating
  | waiting
  | printing (i : ℕ)
  | ended
  | killed
  | astray

structure Object where
  bytes : ℕ
  word : ℕ → ℤ

/-- Behind the semaphore, what the two have printed -/
structure State where
  writer : Writer
  reader : Reader
  object : Object
  sem : ℕ
  written : List ℤ
  printed : List ℤ

inductive Action
  | writer
  | reader

/-- The product with `sizeof (int)` is an int again. -/
def buf_size (n : ℕ) : ℤ := wrap 32 (4*n)

/-- What is cut off is gone, and what is added is zero; a negative length is refused. -/
def ftruncate (length : ℤ) (o : Object) : Object :=
  if length < 0 then o
  else ⟨length.toNat,fun i => if 4*i < min o.bytes length.toNat then o.word i else 0⟩

/-- The element is on a page of the object. -/
def State.mapped (s : State) (i : ℕ) : Bool := 4*i < pageUp s.object.bytes

inductive Access
  | allowed
  | killed
  | outside

/-- An access to an element of a mapping of `length` bytes. Where `mmap` has failed, its result is
no address; a page of the mapping that is not one of the object is a `SIGBUS`. -/
def State.access (s : State) (length : ℤ) (i : ℕ) : Access :=
  if length ≤ 0 then .killed
  else if pageUp length.toNat ≤ 4*i then .outside
  else if s.mapped i then .allowed
  else .killed

/-- A step of `main` of `inf20-0-test.c`, which has made the semaphore and the object -/
def writer (size : ℕ) (s : State) : Option State :=
  match s.writer with
  | .truncating =>
    some { s with object := ftruncate (buf_size size) s.object, writer := .storing 0 }
  | .storing i =>
    if i < size then
      match s.access (buf_size size) i with
      | .allowed =>
        some { s with object.word := Function.update s.object.word i i, writer := .storing (i+1) }
      | .killed => some { s with writer := .killed }
      | .outside => some { s with writer := .astray }
    else some { s with writer := .printing 0 }
  | .printing i =>
    if i < size then
      match s.access (buf_size size) i with
      | .allowed =>
        some { s with written := s.written ++ [s.object.word i], writer := .printing (i+1) }
      | .killed => some { s with writer := .killed }
      | .outside => some { s with writer := .astray }
    else some { s with writer := .posting }
  | .posting => some { s with sem := s.sem + 1, writer := .ended }
  | .ended | .killed | .astray => none

/-- A step of `main` of `inf20-0.c`, which has opened both -/
def reader (num_cnt : ℕ) (s : State) : Option State :=
  match s.reader with
  | .truncating =>
    some { s with object := ftruncate (buf_size num_cnt) s.object, reader := .waiting }
  | .waiting => if 0 < s.sem then some { s with sem := s.sem - 1, reader := .printing 0 } else none
  | .printing i =>
    if i < num_cnt then
      match s.access (buf_size num_cnt) i with
      | .allowed =>
        some { s with printed := s.printed ++ [s.object.word i], reader := .printing (i+1) }
      | .killed => some { s with reader := .killed }
      | .outside => some { s with reader := .astray }
    else some { s with reader := .ended }
  | .ended | .killed | .astray => none

def system (size num_cnt : ℕ) : System State Action where
  start := ⟨.truncating,.truncating,⟨0,fun _ => 0⟩,0,[],[]⟩
  step
    | .writer => writer size
    | .reader => reader num_cnt

def expected (size i : ℕ) : ℤ := if i < size then i else 0

def Writer.stored (size : ℕ) : Writer → ℕ
  | .storing i => i
  | .printing _ | .posting | .ended => size
  | _ => 0

def Reader.Waits (r : Reader) : Prop := r = .truncating ∨ r = .waiting

/-- The reader has printed what it expects, as far as it has come. -/
def Reader.Printed (size num_cnt : ℕ) (printed : List ℤ) : Reader → Prop
  | .printing i => i ≤ num_cnt ∧ printed = (List.range i).map (expected size)
  | .ended => printed = (List.range num_cnt).map (expected size)
  | .killed => ∃ i ≤ num_cnt, printed = (List.range i).map (expected size)
  | _ => printed = []

/-- The lengths in bytes are ints. -/
structure Short (size num_cnt : ℕ) : Prop where
  size : size < 2^29
  num_cnt : num_cnt < 2^29

/-- How far the two have come; the last one to set the length has set it to its own. -/
structure Inv (size num_cnt : ℕ) (s : State) : Prop where
  short : Short size num_cnt
  stored : s.writer.stored size ≤ size
  words : ∀ i, i < s.writer.stored size → i < num_cnt ∨ s.reader = .truncating → s.object.word i = i
  beyond : ∀ i, size ≤ i → s.object.word i = 0
  first : s.writer ≠ .truncating → s.reader = .truncating → s.object.bytes = 4*size
  bytes : s.reader ≠ .truncating →
    s.object.bytes = 4*num_cnt ∨ s.writer ≠ .truncating ∧ s.object.bytes = 4*size
  posted : ¬s.reader.Waits → s.writer = .ended ∧ s.sem = 0
  sem : s.sem = 0 ∨ s.writer = .ended ∧ s.sem = 1
  prints : s.reader.Printed size num_cnt s.printed
  pending : s.writer = .ended → s.reader.Waits → s.sem = 1

variable {size num_cnt i : ℕ} {s t : State} {a : Action}

theorem buf_size_eq {n : ℕ} (h : n < 2^29) : buf_size n = 4*n :=
  wrap_eq (w := 31) (by omega) (by omega)

theorem ftruncate_eq {n : ℕ} (h : n < 2^29) (o : Object) : ftruncate (buf_size n) o =
    ⟨4*n,fun i => if 4*i < min o.bytes (4*n) then o.word i else 0⟩ := by
  have hn : (4*n : ℤ).toNat = 4*n := by omega
  rw [buf_size_eq h,ftruncate,if_neg (by omega),hn]

theorem access_eq {n : ℕ} (h : n < 2^29) (hi : i < n) (s : State) :
    s.access (buf_size n) i = if s.mapped i then .allowed else .killed := by
  have hn : (4*n : ℤ).toNat = 4*n := by omega
  have hpage : ¬pageUp (4*n) ≤ 4*i := by
    unfold pageUp pages
    omega
  rw [buf_size_eq h,State.access,if_neg (by omega),hn,if_neg hpage]

theorem access_cases {n : ℕ} (h : n < 2^29) (hi : i < n) (s : State) :
    s.mapped i = true ∧ s.access (buf_size n) i = .allowed ∨
    s.mapped i = false ∧ s.access (buf_size n) i = .killed := by
  rw [access_eq h hi]
  cases s.mapped i <;> simp

theorem inv_start (h : Short size num_cnt) : Inv size num_cnt (system size num_cnt).start := by
  constructor <;> simp [system,Writer.stored,Reader.Waits,Reader.Printed,h]

theorem Inv.waits (hi : Inv size num_cnt s) (h : s.writer ≠ .ended) :
    s.reader.Waits ∧ s.sem = 0 := by
  constructor
  · by_contra hw
    exact h (hi.posted hw).1
  · exact hi.sem.resolve_right fun hs => h hs.1

theorem Inv.writer_goes (hi : Inv size num_cnt s) {w : Writer} {written : List ℤ}
    (hstart : s.writer ≠ .truncating) (hended : s.writer ≠ .ended)
    (hw : w ≠ .truncating ∧ w ≠ .ended) (hstored : w.stored size ≤ s.writer.stored size) :
    Inv size num_cnt { s with writer := w, written := written } where
  short := hi.short
  stored := hstored.trans hi.stored
  words i hlt := hi.words i (hlt.trans_le hstored)
  beyond := hi.beyond
  first _ := hi.first hstart
  bytes hr := (hi.bytes hr).imp_right fun h => ⟨hw.1,h.2⟩
  posted hr := absurd (hi.posted hr).1 hended
  sem := .inl (hi.waits hended).2
  prints := hi.prints
  pending h := absurd h hw.2

theorem Inv.writer (hi : Inv size num_cnt s) (h : writer size s = some t) : Inv size num_cnt t := by
  unfold SharedArray.writer at h
  split at h
  · rename_i hs
    cases h
    have hwaits := hi.waits (by simp [hs])
    rw [ftruncate_eq hi.short.size]
    refine ⟨hi.short,Nat.zero_le _,?_,?_,fun _ _ => rfl,fun _ => .inr ⟨nofun,rfl⟩,fun hr => ?_,
      .inl hwaits.2,hi.prints,nofun⟩
    · intro i hi'
      cases hi'
    · intro i hle
      simp [hi.beyond i hle]
    · exact absurd hwaits.1 hr
  · rename_i i hs
    have hwaits := hi.waits (by simp [hs])
    have hstored : s.writer.stored size = i := by rw [hs]; rfl
    split at h
    · rename_i hlt
      rcases access_cases hi.short.size hlt s with ⟨-,ha⟩ | ⟨-,ha⟩
      · rw [ha] at h
        cases h
        refine ⟨hi.short,hlt,?_,?_,fun _ => hi.first (by simp [hs]),?_,
          fun hr => absurd hwaits.1 hr,.inl hwaits.2,hi.prints,nofun⟩
        · intro j hj hr
          by_cases hij : j = i
          · subst hij
            simp
          · have hlt : j < i := lt_of_le_of_ne (Nat.le_of_lt_succ hj) hij
            simpa [hij] using hi.words j (hstored ▸ hlt) hr
        · intro j hj
          have hij : j ≠ i := by omega
          simpa [hij] using hi.beyond j hj
        · exact fun hr => (hi.bytes hr).imp_right fun h => ⟨nofun,h.2⟩
      · rw [ha] at h
        cases h
        exact hi.writer_goes (by simp [hs]) (by simp [hs]) ⟨nofun,nofun⟩ (Nat.zero_le _)
    · rename_i hge
      cases h
      have hall : size ≤ s.writer.stored size := by omega
      exact hi.writer_goes (by simp [hs]) (by simp [hs]) ⟨nofun,nofun⟩ hall
  · rename_i i hs
    have hall : s.writer.stored size = size := by rw [hs]; rfl
    split at h
    · rename_i hlt
      rcases access_cases hi.short.size hlt s with ⟨-,ha⟩ | ⟨-,ha⟩
      · rw [ha] at h
        cases h
        exact hi.writer_goes (by simp [hs]) (by simp [hs]) ⟨nofun,nofun⟩ hall.ge
      · rw [ha] at h
        cases h
        exact hi.writer_goes (by simp [hs]) (by simp [hs]) ⟨nofun,nofun⟩ (Nat.zero_le _)
    · cases h
      exact hi.writer_goes (by simp [hs]) (by simp [hs]) ⟨nofun,nofun⟩ hall.ge
  · rename_i hs
    cases h
    have hwaits := hi.waits (by simp [hs])
    have hall : s.writer.stored size = size := by rw [hs]; rfl
    refine ⟨hi.short,le_rfl,?_,hi.beyond,fun _ => hi.first (by simp [hs]),?_,
      fun hr => absurd hwaits.1 hr,.inr ⟨rfl,by simp [hwaits.2]⟩,hi.prints,
      fun _ _ => by simp [hwaits.2]⟩
    · exact fun j hj => hi.words j (by rw [hall]; exact hj)
    · exact fun hr => (hi.bytes hr).imp_right fun h => ⟨nofun,h.2⟩
  · cases h
  · cases h
  · cases h

theorem Inv.word_eq (hi : Inv size num_cnt s) (hs : s.writer = .ended) (h : i < num_cnt) :
    s.object.word i = expected size i := by
  unfold expected
  split
  · exact hi.words i (by simpa [hs,Writer.stored]) (.inl h)
  · exact hi.beyond i (not_lt.1 ‹_›)

theorem Inv.reader_goes (hi : Inv size num_cnt s) {r : Reader} {printed : List ℤ}
    (hstart : s.reader ≠ .truncating) (hposted : s.writer = .ended ∧ s.sem = 0)
    (hr : ¬r.Waits) (hprinted : r.Printed size num_cnt printed) :
    Inv size num_cnt { s with reader := r, printed := printed } where
  short := hi.short
  stored := hi.stored
  words j hj h := hi.words j hj (.inl (h.resolve_right fun h => hr (.inl h)))
  beyond := hi.beyond
  first _ h := absurd (.inl h) hr
  bytes _ := hi.bytes hstart
  posted _ := hposted
  sem := hi.sem
  prints := hprinted
  pending _ h := absurd h hr

theorem Inv.reader (hi : Inv size num_cnt s) (h : reader num_cnt s = some t) :
    Inv size num_cnt t := by
  unfold SharedArray.reader at h
  split at h
  · rename_i hs
    cases h
    rw [ftruncate_eq hi.short.num_cnt]
    refine ⟨hi.short,hi.stored,?_,?_,fun _ => nofun,fun _ => .inl rfl,fun hr => ?_,hi.sem,?_,
      fun hw _ => hi.pending hw (.inl hs)⟩
    · intro j hj hr
      have hn : j < num_cnt := hr.resolve_right nofun
      have hbytes : s.object.bytes = 4*size := by
        refine hi.first ?_ hs
        intro hw
        simp [hw,Writer.stored] at hj
      have hsize : j < size := hj.trans_le hi.stored
      have hmin : 4*j < min s.object.bytes (4*num_cnt) := by omega
      exact (if_pos hmin).trans (hi.words j hj (.inr hs))
    · intro j hj
      simp [hi.beyond j hj]
    · exact absurd (.inr rfl) hr
    · have hprints := hi.prints
      rw [hs] at hprints
      exact hprints
  · rename_i hs
    split at h
    · rename_i hsem
      cases h
      have hposted : s.writer = .ended ∧ s.sem = 1 := hi.sem.resolve_left (by omega)
      have hprints := hi.prints
      rw [hs] at hprints
      exact ⟨hi.short,hi.stored,fun j hj hr => hi.words j hj (.inl (hr.resolve_right nofun)),
        hi.beyond,fun _ => nofun,fun _ => hi.bytes (by simp [hs]),
        fun _ => ⟨hposted.1,by simp [hposted.2]⟩,.inl (by simp [hposted.2]),
        ⟨Nat.zero_le _,hprints⟩,fun _ h => h.elim nofun nofun⟩
    · cases h
  · rename_i i hs
    have hposted := hi.posted (by simp [hs,Reader.Waits])
    have hprints := hi.prints
    rw [hs] at hprints
    split at h
    · rename_i hlt
      rcases access_cases hi.short.num_cnt hlt s with ⟨-,ha⟩ | ⟨-,ha⟩
      · rw [ha] at h
        cases h
        refine hi.reader_goes (by simp [hs]) hposted (by simp [Reader.Waits]) ⟨hlt,?_⟩
        rw [hprints.2,hi.word_eq hposted.1 hlt,List.range_succ,List.map_append]
        rfl
      · rw [ha] at h
        cases h
        exact hi.reader_goes (by simp [hs]) hposted (by simp [Reader.Waits]) ⟨i,hprints⟩
    · rename_i hge
      cases h
      have hi' : i = num_cnt := le_antisymm hprints.1 (not_lt.1 hge)
      exact hi.reader_goes (by simp [hs]) hposted (by simp [Reader.Waits]) (hi' ▸ hprints.2)
  · cases h
  · cases h
  · cases h

theorem invariant (h : Short size num_cnt) :
    (system size num_cnt).Invariant (Inv size num_cnt) where
  start := inv_start h
  step {a _ _} hi h := match a with
    | .writer => hi.writer h
    | .reader => hi.reader h

/-- In every order of the steps, the reader prints the elements that the writer has stored, and
zeros behind them. -/
theorem prints (h : Short size num_cnt) (hr : (system size num_cnt).Reachable s) :
    s.printed <+: (List.range num_cnt).map (expected size) ∧
    (s.reader = .ended → s.printed = (List.range num_cnt).map (expected size)) := by
  have hp := ((invariant h).reachable hr).prints
  have hpart : ∀ i ≤ num_cnt, (List.range i).map (expected size) <+:
      (List.range num_cnt).map (expected size) := by
    intro i hi
    apply List.IsPrefix.map
    rw [← Nat.min_eq_left hi,← List.take_range]
    exact List.take_prefix _ _
  cases hs : s.reader with
  | truncating | waiting | astray =>
    rw [hs] at hp
    have hp : s.printed = [] := hp
    exact ⟨hp ▸ List.nil_prefix,nofun⟩
  | printing i =>
    rw [hs] at hp
    exact ⟨hp.2 ▸ hpart i hp.1,nofun⟩
  | ended =>
    rw [hs] at hp
    have hp : s.printed = _ := hp
    exact ⟨hp ▸ List.prefix_rfl,fun _ => hp⟩
  | killed =>
    rw [hs] at hp
    rcases hp with ⟨i,hi,hp⟩
    exact ⟨hp ▸ hpart i hi,nofun⟩

theorem prints_three : ∃ s, (system 2 3).Reachable s ∧ s.reader = .ended ∧ s.printed = [0,1,0] := by
  have hex : ∃ s, (system 2 3).Reachable s ∧ s.reader = .ended :=
    ⟨_,⟨[.writer,.reader] ++ List.replicate 7 .writer ++ List.replicate 5 .reader,rfl⟩,rfl⟩
  rcases hex with ⟨s,hr,hs⟩
  exact ⟨s,hr,hs,(prints ⟨by decide,by decide⟩ hr).2 hs⟩

/-! The end of the two processes -/

def Writer.work (size : ℕ) : Writer → ℕ
  | .truncating => 2*size+5
  | .storing i => (size-i)+size+4
  | .printing i => (size-i)+3
  | .posting => 1
  | .ended | .killed | .astray => 0

def Reader.work (num_cnt : ℕ) : Reader → ℕ
  | .truncating => num_cnt+3
  | .waiting => num_cnt+2
  | .printing i => (num_cnt-i)+1
  | .ended | .killed | .astray => 0

def State.work (size num_cnt : ℕ) (s : State) : ℕ := s.writer.work size + s.reader.work num_cnt

theorem work_lt (h : (system size num_cnt).step a s = some t) :
    t.work size num_cnt < s.work size num_cnt := by
  cases a with
  | writer =>
    change writer size s = some t at h
    unfold writer at h
    repeat' split at h
    all_goals cases h
    all_goals simp_all only [State.work,Writer.work]
    all_goals omega
  | reader =>
    change reader num_cnt s = some t at h
    unfold reader at h
    repeat' split at h
    all_goals cases h
    all_goals simp_all only [State.work,Reader.work]
    all_goals omega

def State.Alive (s : State) : Prop :=
  (s.writer ≠ .killed ∧ s.writer ≠ .astray) ∧ s.reader ≠ .killed ∧ s.reader ≠ .astray

theorem mapped_of_lt (hpages : pages (4*size) = pages (4*num_cnt))
    (hb : s.object.bytes = 4*size ∨ s.object.bytes = 4*num_cnt) (h : i < size ∨ i < num_cnt) :
    s.mapped i = true := by
  rw [State.mapped,decide_eq_true_eq,pageUp,pages]
  unfold pages at hpages
  omega

theorem Inv.bytes_of_writer (hi : Inv size num_cnt s) (h : s.writer ≠ .truncating) :
    s.object.bytes = 4*size ∨ s.object.bytes = 4*num_cnt := by
  by_cases hr : s.reader = .truncating
  · exact .inl (hi.first h hr)
  · exact (hi.bytes hr).symm.imp_left And.right

/-- On equal pages no access fails. -/
theorem Inv.alive (hi : Inv size num_cnt s) (hpages : pages (4*size) = pages (4*num_cnt))
    (hs : s.Alive) (h : (system size num_cnt).step a s = some t) : t.Alive := by
  rcases hs with ⟨hw,hr⟩
  cases a with
  | writer =>
    change SharedArray.writer size s = some t at h
    have hallowed : ∀ i < size, s.writer ≠ .truncating →
        s.access (buf_size size) i = .allowed := by
      intro i hlt hs
      rw [access_eq hi.short.size hlt,
        if_pos (mapped_of_lt hpages (hi.bytes_of_writer hs) (.inl hlt))]
    unfold SharedArray.writer at h
    repeat' split at h
    all_goals cases h
    all_goals simp_all [State.Alive]
  | reader =>
    change SharedArray.reader num_cnt s = some t at h
    have hallowed : ∀ i < num_cnt, s.reader ≠ .truncating →
        s.access (buf_size num_cnt) i = .allowed := by
      intro i hlt hs
      rw [access_eq hi.short.num_cnt hlt,
        if_pos (mapped_of_lt hpages ((hi.bytes hs).symm.imp_left And.right) (.inr hlt))]
    unfold SharedArray.reader at h
    repeat' split at h
    all_goals cases h
    all_goals simp_all [State.Alive]

theorem alive_invariant (h : Short size num_cnt) (hpages : pages (4*size) = pages (4*num_cnt)) :
    (system size num_cnt).Invariant fun s => Inv size num_cnt s ∧ s.Alive where
  start := ⟨inv_start h,⟨nofun,nofun⟩,nofun,nofun⟩
  step hi hs := ⟨(invariant h).step hi.1 hs,hi.1.alive hpages hi.2 hs⟩

theorem Inv.stuck (hi : Inv size num_cnt s) (hs : (system size num_cnt).Stuck s) (ha : s.Alive) :
    s.writer = .ended ∧ s.reader = .ended := by
  have hw : SharedArray.writer size s = none := hs .writer
  have hr : SharedArray.reader num_cnt s = none := hs .reader
  have hended : s.writer = .ended := by
    unfold SharedArray.writer at hw
    split at hw
    · cases hw
    · repeat' split at hw
      all_goals cases hw
    · repeat' split at hw
      all_goals cases hw
    · cases hw
    · assumption
    · exact absurd ‹_› ha.1.1
    · exact absurd ‹_› ha.1.2
  refine ⟨hended,?_⟩
  unfold SharedArray.reader at hr
  split at hr
  · cases hr
  · rename_i hwait
    rw [hi.pending hended (.inr hwait)] at hr
    cases hr
  · repeat' split at hr
    all_goals cases hr
  · assumption
  · exact absurd ‹_› ha.2.1
  · exact absurd ‹_› ha.2.2

/-- Every run is bounded, and if the two lengths take as many pages, it comes to rest only when both
have ended. -/
theorem both_finish (hshort : Short size num_cnt) (hpages : pages (4*size) = pages (4*num_cnt)) :
    (∀ as s, (system size num_cnt).run as (system size num_cnt).start = some s →
      as.length ≤ 2*size+num_cnt+8) ∧
    ∀ s, (system size num_cnt).Reachable s → (system size num_cnt).Stuck s →
      s.writer = .ended ∧ s.reader = .ended := by
  constructor
  · intro as s h
    rcases System.run_length_le_of_rank ((invariant hshort).rank_step
      (State.work size num_cnt) fun _ h => work_lt h) ⟨inv_start hshort,rfl⟩ h with ⟨n,-,hle⟩
    refine (Nat.le_of_add_right_le hle).trans ?_
    simp only [State.work,system,Writer.work,Reader.work]
    omega
  · intro s hr hs
    have hi := (alive_invariant hshort hpages).reachable hr
    exact hi.1.stuck hs hi.2

theorem both_finish_three :
    (∀ as s, (system 3 5).run as (system 3 5).start = some s → as.length ≤ 19) ∧
    ∀ s, (system 3 5).Reachable s → (system 3 5).Stuck s → s.writer = .ended ∧ s.reader = .ended :=
  both_finish ⟨by decide,by decide⟩ (by decide)

/-! Runs in which one of the two is killed -/

theorem reachable_loop (P : ℕ → State → Prop) (n : ℕ)
    (hround : ∀ i < n, ∀ s, P i s → ∃ t, (system size num_cnt).step a s = some t ∧ P (i+1) t)
    (hs : ∃ s, (system size num_cnt).Reachable s ∧ P 0 s) :
    ∃ s, (system size num_cnt).Reachable s ∧ P n s := by
  induction n with
  | zero => exact hs
  | succ n ih =>
    rcases ih fun i hi => hround i (Nat.lt_succ_of_lt hi) with ⟨s,hr,hp⟩
    rcases hround n (Nat.lt_succ_self n) s hp with ⟨t,ht,hp⟩
    exact ⟨t,hr.step ht,hp⟩

theorem mapped_iff : s.mapped i = true ↔ i < 1024 * pages s.object.bytes := by
  rw [State.mapped,decide_eq_true_eq,pageUp]
  omega

theorem exists_writer_killed (hshort : Short size num_cnt)
    (h : pages (4*num_cnt) < pages (4*size)) :
    ∃ s, (system size num_cnt).Reachable s ∧ s.writer = .killed := by
  have hlt : 1024 * pages (4*num_cnt) < size := by
    unfold pages at h ⊢
    omega
  have hstart : ∃ s, (system size num_cnt).Reachable s ∧ s.writer = .storing 0 ∧
      s.object.bytes = 4*num_cnt := by
    refine ⟨_,⟨[.writer,.reader],rfl⟩,?_,?_⟩
    · simp
    · rw [ftruncate_eq hshort.num_cnt]
  have hstore : ∀ i < 1024 * pages (4*num_cnt), ∀ s,
      s.writer = .storing i ∧ s.object.bytes = 4*num_cnt →
      ∃ t, (system size num_cnt).step .writer s = some t ∧
        t.writer = .storing (i+1) ∧ t.object.bytes = 4*num_cnt := by
    rintro i hi s ⟨hw,hb⟩
    have hmapped : s.mapped i = true := mapped_iff.2 (by rw [hb]; exact hi)
    refine ⟨{ s with object.word := Function.update s.object.word i i, writer := .storing (i+1) },
      ?_,rfl,hb⟩
    change writer size s = _
    simp [writer,hw,hi.trans hlt,access_eq hshort.size (hi.trans hlt),hmapped]
  rcases reachable_loop (fun i s => s.writer = .storing i ∧ _) _ hstore hstart with ⟨s,hr,hw,hb⟩
  have hmapped : s.mapped (1024 * pages (4*num_cnt)) = false := by
    rw [← Bool.not_eq_true,mapped_iff,hb]
    omega
  have hstep : (system size num_cnt).step .writer s = some { s with writer := .killed } := by
    change writer size s = _
    simp [writer,hw,hlt,access_eq hshort.size hlt,hmapped]
  exact ⟨_,hr.step hstep,rfl⟩

/-- The reader comes first, and the writer to its end in an object of its own length. -/
theorem reachable_posted (hshort : Short size num_cnt) :
    ∃ s, (system size num_cnt).Reachable s ∧ s.reader = .printing 0 ∧ s.object.bytes = 4*size := by
  have hallowed : ∀ i < size, ∀ s : State, s.object.bytes = 4*size →
      s.access (buf_size size) i = .allowed := by
    intro i hi s hb
    have hmapped : s.mapped i = true := by
      rw [mapped_iff,hb,pages]
      omega
    rw [access_eq hshort.size hi,if_pos hmapped]
  have hstore : ∀ i < size, ∀ s, s.writer = .storing i ∧ s.object.bytes = 4*size ∧
      s.reader = .waiting → ∃ t, (system size num_cnt).step .writer s = some t ∧
      t.writer = .storing (i+1) ∧ t.object.bytes = 4*size ∧ t.reader = .waiting := by
    rintro i hi s ⟨hw,hrest⟩
    refine ⟨{ s with object.word := Function.update s.object.word i i, writer := .storing (i+1) },
      ?_,rfl,hrest⟩
    change writer size s = _
    simp [writer,hw,hi,hallowed i hi s hrest.1]
  have hprint : ∀ i < size, ∀ s, s.writer = .printing i ∧ s.object.bytes = 4*size ∧
      s.reader = .waiting → ∃ t, (system size num_cnt).step .writer s = some t ∧
      t.writer = .printing (i+1) ∧ t.object.bytes = 4*size ∧ t.reader = .waiting := by
    rintro i hi s ⟨hw,hrest⟩
    refine ⟨{ s with written := s.written ++ [s.object.word i], writer := .printing (i+1) },?_,
      rfl,hrest⟩
    change writer size s = _
    simp [writer,hw,hi,hallowed i hi s hrest.1]
  have hstart : ∃ s, (system size num_cnt).Reachable s ∧ s.writer = .storing 0 ∧
      s.object.bytes = 4*size ∧ s.reader = .waiting := by
    refine ⟨_,⟨[.reader,.writer],rfl⟩,?_,?_,?_⟩
    · rfl
    · rw [ftruncate_eq hshort.size]
    · rfl
  rcases reachable_loop (fun i s => s.writer = .storing i ∧ _) size hstore hstart with
    ⟨s,hr,hw,hrest⟩
  have hgoes : (system size num_cnt).step .writer s = some { s with writer := .printing 0 } := by
    change writer size s = _
    simp [writer,hw]
  rcases reachable_loop (fun i s => s.writer = .printing i ∧ _) size hprint
    ⟨_,hr.step hgoes,rfl,hrest⟩ with ⟨s,hr,hw,hb,hwait⟩
  have hposts : (system size num_cnt).step .writer s = some { s with writer := .posting } := by
    change writer size s = _
    simp [writer,hw]
  have hends : (system size num_cnt).step .writer { s with writer := .posting } =
      some { s with writer := .ended, sem := s.sem + 1 } := rfl
  have hgets : (system size num_cnt).step .reader { s with writer := .ended, sem := s.sem + 1 } =
      some { s with writer := .ended, reader := .printing 0 } := by
    change reader num_cnt _ = _
    simp [reader,hwait]
  exact ⟨_,((hr.step hposts).step hends).step hgets,rfl,hb⟩

theorem exists_reader_killed (hshort : Short size num_cnt)
    (h : pages (4*size) < pages (4*num_cnt)) :
    ∃ s, (system size num_cnt).Reachable s ∧ s.reader = .killed := by
  have hlt : 1024 * pages (4*size) < num_cnt := by
    unfold pages at h ⊢
    omega
  have hread : ∀ i < 1024 * pages (4*size), ∀ s, s.reader = .printing i ∧ s.object.bytes = 4*size →
      ∃ t, (system size num_cnt).step .reader s = some t ∧ t.reader = .printing (i+1) ∧
        t.object.bytes = 4*size := by
    rintro i hi s ⟨hread,hb⟩
    have hmapped : s.mapped i = true := mapped_iff.2 (by rw [hb]; exact hi)
    refine ⟨{ s with printed := s.printed ++ [s.object.word i], reader := .printing (i+1) },?_,
      rfl,hb⟩
    change reader num_cnt s = _
    simp [reader,hread,hi.trans hlt,access_eq hshort.num_cnt (hi.trans hlt),hmapped]
  rcases reachable_loop (fun i s => s.reader = .printing i ∧ _) _ hread (reachable_posted hshort)
    with ⟨s,hr,hread,hb⟩
  have hmapped : s.mapped (1024 * pages (4*size)) = false := by
    rw [← Bool.not_eq_true,mapped_iff,hb]
    omega
  have hstep : (system size num_cnt).step .reader s = some { s with reader := .killed } := by
    change reader num_cnt s = _
    simp [reader,hread,hlt,access_eq hshort.num_cnt hlt,hmapped]
  exact ⟨_,hr.step hstep,rfl⟩

/-- An access of one of the two may fail exactly if their lengths do not take as many pages. -/
theorem killed_iff (hshort : Short size num_cnt) :
    (∃ s, (system size num_cnt).Reachable s ∧ ¬s.Alive) ↔ pages (4*size) ≠ pages (4*num_cnt) := by
  constructor
  · rintro ⟨s,hr,hs⟩ hpages
    exact hs ((alive_invariant hshort hpages).reachable hr).2
  · intro hne
    rcases lt_or_gt_of_ne hne with h | h
    · rcases exists_reader_killed hshort h with ⟨s,hr,hs⟩
      exact ⟨s,hr,fun ha => ha.2.1 hs⟩
    · rcases exists_writer_killed hshort h with ⟨s,hr,hs⟩
      exact ⟨s,hr,fun ha => ha.1.1 hs⟩

theorem killed_iff_pages : (∃ s, (system 1025 1024).Reachable s ∧ ¬s.Alive) ∧
    ¬∃ s, (system 1024 1000).Reachable s ∧ ¬s.Alive :=
  ⟨(killed_iff ⟨by decide,by decide⟩).2 (by decide),
    fun h => (killed_iff ⟨by decide,by decide⟩).1 h (by decide)⟩

end SharedArray
end SomeCode
