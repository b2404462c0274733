import SomeCode.Primality
import SomeCode.Transition
import Mathlib.Data.List.GetD

/-! The prime finder of `inf19-1.c`: a thread fills a buffer under a mutex and signals
a condition variable, `main` waits for each cell and prints it. The end marker is
stored without the mutex, and a waiter may wake up without a signal. -/
namespace SomeCode
namespace PrimeBuffer

open MachineInt Primality Transition

/-- The numbers of the command line; `size` is an `int32_t`. -/
structure ThreadTaskArgs where
  low : ℤ
  high : ℤ
  size : ℕ
  size_lt : size < 2^31

inductive Party
  | finder
  | printer
  deriving DecidableEq

inductive FinderPc
  | loop
  | lock
  | store
  | increment
  | unlock
  | signal
  | storeEnd
  | lockEnd
  | unlockEnd
  | signalEnd
  | done
  deriving DecidableEq

/-- What the loop of `main` does next; between `wait` and `relock` it is inside
`pthread_cond_wait`. -/
inductive PrinterPc
  | loop
  | lock
  | test
  | wait
  | waiting
  | relock
  | check
  | increment
  | unlock
  | print
  | breakUnlock
  | join
  | done
  deriving DecidableEq

/-- `found` is the counter of `find_primes` and `counter` that of `main`. -/
structure State where
  finder : FinderPc
  i : ℤ
  found : ℕ
  printer : PrinterPc
  counter : ℕ
  mutex : Option Party
  buffer : ℕ → ℤ
  printed : List ℤ

/-- `pthread_cond_signal`: it has an effect only while somebody waits. -/
def State.signal (s : State) : State :=
  { s with printer := if s.printer = .waiting then .relock else s.printer }

/-- One step of `find_primes`; a round that finds no prime is one step. -/
def findPrimes (args : ThreadTaskArgs) (s : State) : Option State :=
  match s.finder with
  | .loop =>
    if s.i ≤ args.high then
      if isPrime s.i = 1 then
        if args.size ≤ s.found then some { s with finder := .storeEnd }
        else some { s with finder := .lock }
      else some { s with i := wrap 64 (s.i+1) }
    else some { s with finder := .storeEnd }
  | .lock =>
    if s.mutex = none then some { s with finder := .store, mutex := some .finder } else none
  | .store =>
    some { s with finder := .increment, buffer := Function.update s.buffer s.found s.i }
  | .increment => some { s with finder := .unlock, found := s.found+1 }
  | .unlock => some { s with finder := .signal, mutex := none }
  | .signal => some { s.signal with finder := .loop, i := wrap 64 (s.i+1) }
  | .storeEnd =>
    some { s with finder := .lockEnd, buffer := Function.update s.buffer s.found (-1) }
  | .lockEnd =>
    if s.mutex = none then some { s with finder := .unlockEnd, mutex := some .finder } else none
  | .unlockEnd => some { s with finder := .signalEnd, mutex := none }
  | .signalEnd => some { s.signal with finder := .done }
  | .done => none

/-- One step of the loop in `main` and of the join after it. -/
def mainLoop (args : ThreadTaskArgs) (s : State) : Option State :=
  match s.printer with
  | .loop =>
    if s.counter < args.size then some { s with printer := .lock }
    else some { s with printer := .join }
  | .lock =>
    if s.mutex = none then some { s with printer := .test, mutex := some .printer } else none
  | .test =>
    if s.buffer s.counter = 0 then some { s with printer := .wait }
    else some { s with printer := .check }
  | .wait => some { s with printer := .waiting, mutex := none }
  | .waiting => none
  | .relock =>
    if s.mutex = none then some { s with printer := .test, mutex := some .printer } else none
  | .check =>
    if s.buffer s.counter = -1 then some { s with printer := .breakUnlock }
    else some { s with printer := .increment }
  | .increment => some { s with printer := .unlock, counter := s.counter+1 }
  | .unlock => some { s with printer := .print, mutex := none }
  | .print => some { s with printer := .loop, printed := s.printed ++ [s.buffer (s.counter-1)] }
  | .breakUnlock => some { s with printer := .join, mutex := none }
  | .join => if s.finder = .done then some { s with printer := .done } else none
  | .done => none

inductive Action
  | finder
  | printer
  | spurious
  deriving DecidableEq

def step (args : ThreadTaskArgs) (a : Action) (s : State) : Option State :=
  match a with
  | .finder => findPrimes args s
  | .printer => mainLoop args s
  | .spurious => if s.printer = .waiting then some { s with printer := .relock } else none

def init (args : ThreadTaskArgs) (buffer : ℕ → ℤ) : State :=
  ⟨.loop,args.low,0,.loop,0,none,buffer,[]⟩

def system (args : ThreadTaskArgs) (buffer : ℕ → ℤ) : System State Action :=
  ⟨init args buffer,step args⟩

/-- `block` is what the memory held before. No object is larger than `PTRDIFF_MAX`. -/
def malloc (n : ℕ) (block : ℕ → ℤ) : Option (ℕ → ℤ) := if n < 2^63 then some block else none

/-- The loop of `main` that clears the buffer. -/
def clear (buffer : ℕ → ℤ) : ℕ → ℕ → ℤ
  | 0 => buffer
  | i+1 => Function.update (clear buffer i) i 0

theorem clear_of_lt (buffer : ℕ → ℤ) {n j : ℕ} (h : j < n) : clear buffer n j = 0 := by
  induction n with
  | zero => omega
  | succ n ih =>
    rw [clear]
    obtain rfl | hne := eq_or_ne j n
    · exact Function.update_self _ _ _
    · rw [Function.update_of_ne hne]
      exact ih (by omega)

/-- `N + 1` in `int32_t`, as the unsigned number of cells to be allocated and cleared. -/
def cells (args : ThreadTaskArgs) : ℕ := unsigned 64 (wrap 32 (args.size+1))

/-- `main` until the thread runs; without a block the first store into the buffer ends it. -/
def main (args : ThreadTaskArgs) (block : ℕ → ℤ) : Option (System State Action) :=
  (malloc (unsigned 64 (cells args*8)) block).map fun buffer =>
    system args (clear buffer (cells args))

theorem main_of_lt {args : ThreadTaskArgs} (h : args.size < 2^31-1) (block : ℕ → ℤ) :
    main args block = some (system args (clear block (args.size+1))) := by
  have hcells : cells args = args.size+1 := by
    rw [cells,wrap_eq (w := 31) (by omega) (by omega),unsigned_eq (by omega) (by omega)]
    omega
  have hbytes : unsigned 64 (((args.size+1 : ℕ) : ℤ)*8) = (args.size+1)*8 := by
    rw [unsigned_eq (by omega) (by omega)]
    omega
  rw [main,hcells,hbytes,malloc,if_pos (by omega),Option.map_some]

/-- The sum overflows, and the bytes of so many cells are more than any block has. -/
theorem main_eq_none {args : ThreadTaskArgs} (h : args.size = 2^31-1) (block : ℕ → ℤ) :
    main args block = none := by
  have hrefused : ¬ unsigned 64 (cells args*8) < 2^63 := by
    rw [cells,h]
    decide
  rw [main,malloc,if_neg hrefused,Option.map_none]

/-- From 0 on, the first number that is tested is stored as a prime, and its cell is as empty as
before. -/
theorem zero_passed : ∃ s, (system ⟨0,10,2,by decide⟩ fun _ => 0).Reachable s ∧ s.finder = .increment ∧
    s.i = 0 ∧ s.buffer s.found = 0 ∧ ¬ (isPrime s.i = 1 ↔ s.i.toNat.Prime) :=
  ⟨_,⟨[.finder,.finder,.finder],rfl⟩,rfl,rfl,rfl,by decide⟩

def writes (s : State) : Action → Option ℕ
  | .finder => if s.finder = .store ∨ s.finder = .storeEnd then some s.found else none
  | _ => none

def reads (s : State) : Action → Option ℕ
  | .printer =>
    if s.printer = .test ∨ s.printer = .check then some s.counter
    else if s.printer = .print then some (s.counter-1) else none
  | _ => none

/-- The primes from `a` to `b` in increasing order. -/
def primesIn (a b : ℤ) : List ℤ :=
  ((List.range (b+1-a).toNat).map fun k : ℕ => a + (k : ℤ)).filter fun x => x.toNat.Prime

theorem primesIn_of_lt {a b : ℤ} (h : b < a) : primesIn a b = [] := by
  simp [primesIn,Int.toNat_of_nonpos (show b+1-a ≤ 0 by omega)]

theorem primesIn_succ {a b : ℤ} (h : a ≤ b) :
    primesIn a b = primesIn a (b-1) ++ if b.toNat.Prime then [b] else [] := by
  have hn : (b+1-a).toNat = (b-1+1-a).toNat + 1 := by omega
  have hb : a + ((b-1+1-a).toNat : ℤ) = b := by omega
  simp only [primesIn,hn,List.range_succ,List.map_append,List.map_cons,List.map_nil,
    List.filter_append,hb]
  congr 1
  by_cases hp : b.toNat.Prime <;> simp [hp]

theorem primesIn_isPrefix {a b c : ℤ} (h : b ≤ c) : primesIn a b <+: primesIn a c := by
  obtain ⟨k,hk⟩ : ∃ k, (c+1-a).toNat = (b+1-a).toNat + k := ⟨_,(Nat.add_sub_cancel' (by omega)).symm⟩
  simp only [primesIn,hk,List.range_add,List.map_append,List.filter_append]
  exact List.prefix_append _ _

theorem two_le_of_mem {a b x : ℤ} (h : x ∈ primesIn a b) : 2 ≤ x := by
  have hp : x.toNat.Prime := by simpa using (List.mem_filter.mp h).2
  have h2 := hp.two_le
  omega

def target (args : ThreadTaskArgs) : List ℤ := (primesIn args.low args.high).take args.size

def FinderPc.holds : FinderPc → Bool
  | .store | .increment | .unlock | .unlockEnd => true
  | _ => false

def PrinterPc.holds : PrinterPc → Bool
  | .test | .wait | .check | .increment | .unlock | .breakUnlock => true
  | _ => false

/-- The finder has stored something since its last signal. -/
def FinderPc.signals : FinderPc → Bool
  | .increment | .unlock | .signal | .lockEnd | .unlockEnd | .signalEnd => true
  | _ => false

/-- What the finder knows at each point: `xs` are the primes counted so far, and `x`
is the content of the cell after them. -/
def FinderAt (args : ThreadTaskArgs) (i : ℤ) (xs : List ℤ) (x : ℤ) : FinderPc → Prop
  | .loop => xs = primesIn args.low (i-1) ∧ x = 0
  | .lock | .store =>
    xs = primesIn args.low (i-1) ∧ x = 0 ∧ i ≤ args.high ∧ i.toNat.Prime ∧ xs.length < args.size
  | .increment =>
    xs = primesIn args.low (i-1) ∧ x = i ∧ i ≤ args.high ∧ i.toNat.Prime ∧ xs.length < args.size
  | .unlock | .signal => xs = primesIn args.low i ∧ x = 0 ∧ i ≤ args.high
  | .storeEnd => xs = target args ∧ x = 0
  | .lockEnd | .unlockEnd | .signalEnd | .done => xs = target args ∧ x = -1

/-- What the printer knows at each point. While it waits on an empty cell the finder
has either stored nothing there or is still to signal. -/
def PrinterAt (args : ThreadTaskArgs) (finder : FinderPc) (xs : List ℤ) (x : ℤ) (counter : ℕ)
    (printed : List ℤ) : PrinterPc → Prop
  | .loop => printed = xs.take counter
  | .lock | .test | .relock => printed = xs.take counter ∧ counter < args.size
  | .wait => printed = xs.take counter ∧ counter < args.size ∧ counter = xs.length ∧
      (x = 0 ∨ finder = .lockEnd)
  | .waiting => printed = xs.take counter ∧ counter < args.size ∧
      (counter = xs.length ∧ x = 0 ∨ finder.signals)
  | .check => printed = xs.take counter ∧ counter < args.size ∧ (counter < xs.length ∨ x = -1)
  | .increment => printed = xs.take counter ∧ counter < args.size ∧ counter < xs.length
  | .unlock | .print => 0 < counter ∧ printed = xs.take (counter-1)
  | .breakUnlock => printed = xs.take counter ∧ counter = xs.length ∧ x = -1
  | .join => printed = target args
  | .done => printed = target args ∧ finder = .done

structure Inv (args : ThreadTaskArgs) (s : State) (xs : List ℤ) (x : ℤ) : Prop where
  low : args.low ≤ s.i
  found : s.found = xs.length
  size : xs.length ≤ args.size
  sub : xs <+: primesIn args.low args.high
  buffer : ∀ j ≤ args.size, s.buffer j = (xs ++ [x]).getD j 0
  finder : FinderAt args s.i xs x s.finder
  counter : s.counter ≤ xs.length
  printer : PrinterAt args s.finder xs x s.counter s.printed s.printer
  finder_mutex : s.mutex = some .finder ↔ s.finder.holds
  printer_mutex : s.mutex = some .printer ↔ s.printer.holds

section Cells

variable {args : ThreadTaskArgs} {s : State} {xs : List ℤ} {x : ℤ}

theorem Inv.cell_lt (hi : Inv args s xs x) {j : ℕ} (hj : j < xs.length) :
    s.buffer j = xs[j] := by
  rw [hi.buffer j (hj.le.trans hi.size),List.getD_append _ _ _ _ hj,List.getD_eq_getElem _ _ hj]

theorem Inv.cell_eq (hi : Inv args s xs x) : s.buffer xs.length = x := by
  rw [hi.buffer _ hi.size,List.getD_append_right _ _ _ _ le_rfl]
  simp

theorem Inv.two_le_cell (hi : Inv args s xs x) {j : ℕ} (hj : j < xs.length) :
    2 ≤ s.buffer j := by
  rw [hi.cell_lt hj]
  exact two_le_of_mem (hi.sub.subset (List.getElem_mem hj))

theorem Inv.update_buffer (hi : Inv args s xs x) (y : ℤ) (j : ℕ) (hle : j ≤ args.size) :
    Function.update s.buffer s.found y j = (xs ++ [y]).getD j 0 := by
  rw [hi.found]
  obtain hj | rfl | hj := lt_trichotomy j xs.length
  · rw [Function.update_of_ne hj.ne,hi.buffer j hle,List.getD_append _ _ _ _ hj,List.getD_append _ _ _ _ hj]
  · rw [Function.update_self,List.getD_append_right _ _ _ _ le_rfl]
    simp
  · rw [Function.update_of_ne hj.ne',hi.buffer j hle,List.getD_append_right _ _ _ _ hj.le,
      List.getD_append_right _ _ _ _ hj.le]
    obtain ⟨k,hk⟩ : ∃ k, j - xs.length = k+1 := ⟨_,(Nat.succ_pred (by omega)).symm⟩
    simp [hk]

/-- The end marker appears only once all primes to be printed are stored. -/
theorem FinderAt.target_of_end {i : ℤ} {f : FinderPc} (h : FinderAt args i xs x f)
    (hlow : 0 ≤ i) (hx : x = -1) : xs = target args := by
  cases f <;> simp only [FinderAt] at h
  case lockEnd | unlockEnd | signalEnd | done => exact h.1
  all_goals omega

theorem Inv.target_of_size (hi : Inv args s xs x) (h : xs.length = args.size) :
    xs = target args := by
  rw [target,← h]
  exact (List.prefix_iff_eq_take.mp hi.sub)

end Cells

section PrinterFrame

variable {args : ThreadTaskArgs} {f g : FinderPc} {xs : List ℤ} {x : ℤ} {counter : ℕ}
  {printed : List ℤ} {p : PrinterPc}

theorem PrinterAt.quiet (h : PrinterAt args f xs x counter printed p)
    (hlate : f = .lockEnd → p ≠ .wait) (hsig : f.signals → g.signals) (hdone : f ≠ .done) :
    PrinterAt args g xs x counter printed p := by
  cases p <;> simp only [PrinterAt] at h ⊢
  case wait => exact ⟨h.1,h.2.1,h.2.2.1,h.2.2.2.imp_right fun hf => absurd rfl (hlate hf)⟩
  case waiting => exact ⟨h.1,h.2.1,h.2.2.imp_right hsig⟩
  case done => exact absurd h.2 hdone
  all_goals exact h

theorem PrinterAt.signal (h : PrinterAt args f xs x counter printed p)
    (hlate : f ≠ .lockEnd) (hdone : f ≠ .done) :
    PrinterAt args g xs x counter printed (if p = .waiting then .relock else p) := by
  by_cases hp : p = .waiting
  · subst hp
    exact ⟨h.1,h.2.1⟩
  · rw [if_neg hp]
    cases p <;> simp only [PrinterAt] at h ⊢
    case wait => exact ⟨h.1,h.2.1,h.2.2.1,.inl (h.2.2.2.resolve_right hlate)⟩
    case waiting => exact absurd rfl hp
    case done => exact absurd h.2 hdone
    all_goals exact h

theorem PrinterAt.store {y : ℤ} (h : PrinterAt args f xs x counter printed p)
    (hp : p.holds = false) (hsig : g.signals) (hdone : f ≠ .done) :
    PrinterAt args g xs y counter printed p := by
  cases p <;> simp only [PrinterAt] at h ⊢ <;> simp only [PrinterPc.holds] at hp
  case waiting => exact ⟨h.1,h.2.1,.inr hsig⟩
  case done => exact absurd h.2 hdone
  all_goals first | exact h | cases hp

theorem PrinterAt.storeEnd (h : PrinterAt args f xs 0 counter printed p) (hdone : f ≠ .done) :
    PrinterAt args .lockEnd xs (-1) counter printed p := by
  cases p <;> simp only [PrinterAt] at h ⊢
  case wait => exact ⟨h.1,h.2.1,h.2.2.1,.inr trivial⟩
  case waiting => exact ⟨h.1,h.2.1,.inr rfl⟩
  case check => exact ⟨h.1,h.2.1,.inr trivial⟩
  case breakUnlock => exact ⟨h.1,h.2.1,trivial⟩
  case done => exact absurd h.2 hdone
  all_goals exact h

theorem PrinterAt.append {y z : ℤ} (h : PrinterAt args f xs x counter printed p)
    (hp : p.holds = false) (hc : counter ≤ xs.length) (hsig : g.signals) (hdone : f ≠ .done) :
    PrinterAt args g (xs ++ [y]) z counter printed p := by
  have htake : ∀ k ≤ counter, (xs ++ [y]).take k = xs.take k := fun k hk =>
    List.take_append_of_le_length (hk.trans hc)
  cases p <;> simp only [PrinterAt,htake _ le_rfl,htake _ (Nat.sub_le _ _)] at h ⊢ <;>
    simp only [PrinterPc.holds] at hp
  case waiting => exact ⟨h.1,h.2.1,.inr hsig⟩
  case done => exact absurd h.2 hdone
  all_goals first | exact h | cases hp

end PrinterFrame

section Steps

variable {args : ThreadTaskArgs} {s s' : State} {xs : List ℤ} {x : ℤ}

theorem Inv.printer_free (hi : Inv args s xs x) (h : s.mutex ≠ some .printer) :
    s.printer.holds = false := by
  simpa using mt hi.printer_mutex.mpr h

theorem Inv.finder_free (hi : Inv args s xs x) (h : s.mutex ≠ some .finder) :
    s.finder.holds = false := by
  simpa using mt hi.finder_mutex.mpr h

theorem holds_signal (p : PrinterPc) :
    (if p = .waiting then PrinterPc.relock else p).holds = p.holds := by
  by_cases hw : p = .waiting <;> simp [hw,PrinterPc.holds]

theorem wait_holds {p : PrinterPc} (h : p.holds = false) : p ≠ .wait := by
  rintro rfl
  cases h

theorem Inv.printer_goto (hi : Inv args s xs x) {pc : PrinterPc} {counter : ℕ} {printed : List ℤ}
    (hc : counter ≤ xs.length) (hp : PrinterAt args s.finder xs x counter printed pc)
    (hh : pc.holds = s.printer.holds) :
    Inv args { s with printer := pc, counter := counter, printed := printed } xs x :=
  { hi with
    counter := hc
    printer := hp
    printer_mutex := by simpa only [hh] using hi.printer_mutex }

theorem Inv.printer_lock (hi : Inv args s xs x) {pc : PrinterPc} (hfree : s.mutex = none)
    (hp : PrinterAt args s.finder xs x s.counter s.printed pc) (hh : pc.holds = true) :
    Inv args { s with printer := pc, mutex := some .printer } xs x := by
  have hfree' := hi.finder_free (by simp [hfree])
  exact { hi with
    printer := hp
    finder_mutex := by simp [hfree']
    printer_mutex := by simp [hh] }

theorem Inv.printer_unlock (hi : Inv args s xs x) {pc : PrinterPc} (hheld : s.printer.holds = true)
    (hp : PrinterAt args s.finder xs x s.counter s.printed pc) (hh : pc.holds = false) :
    Inv args { s with printer := pc, mutex := none } xs x := by
  have hmutex := hi.printer_mutex.mpr hheld
  have hfree := hi.finder_free (by simp [hmutex])
  exact { hi with
    printer := hp
    finder_mutex := by simp [hfree]
    printer_mutex := by simp [hh] }

theorem Inv.finder_lock (hi : Inv args s xs x) {pc : FinderPc} (hfree : s.mutex = none)
    (hf : FinderAt args s.i xs x pc)
    (hp : PrinterAt args pc xs x s.counter s.printed s.printer) (hh : pc.holds = true) :
    Inv args { s with finder := pc, mutex := some .finder } xs x := by
  have hfree' := hi.printer_free (by simp [hfree])
  exact { hi with
    finder := hf
    printer := hp
    finder_mutex := by simp [hh]
    printer_mutex := by simp [hfree'] }

theorem Inv.finder_unlock (hi : Inv args s xs x) {pc : FinderPc} (hheld : s.finder.holds = true)
    (hf : FinderAt args s.i xs x pc)
    (hp : PrinterAt args pc xs x s.counter s.printed s.printer) (hh : pc.holds = false) :
    Inv args { s with finder := pc, mutex := none } xs x := by
  have hmutex := hi.finder_mutex.mpr hheld
  have hfree := hi.printer_free (by simp [hmutex])
  exact { hi with
    finder := hf
    printer := hp
    finder_mutex := by simp [hh]
    printer_mutex := by simp [hfree] }

theorem Inv.advance (hi : Inv args s xs x) (h1 : 1 ≤ args.low) (hB : args.high < 2^63-1)
    (hle : s.i ≤ args.high) : wrap 64 (s.i+1) = s.i+1 ∧ args.low ≤ s.i+1 := by
  have hlow := hi.low
  exact ⟨wrap_eq (w := 63) (by omega) (by omega),by omega⟩

theorem Inv.loop_step (hi : Inv args s xs x) (h1 : 1 ≤ args.low) (hB : args.high < 2^63-1)
    (hpc : s.finder = .loop) (h : findPrimes args s = some s') : Inv args s' xs x := by
  have hf := hi.finder
  have hlow := hi.low
  have hmutex := hi.finder_mutex
  simp only [hpc,FinderAt,FinderPc.holds] at hf hmutex
  obtain ⟨hxs,hx⟩ := hf
  have hquiet : ∀ g, PrinterAt args g xs x s.counter s.printed s.printer := fun g =>
    hi.printer.quiet (by simp [hpc]) (by simp [hpc,FinderPc.signals]) (by simp [hpc])
  -- the search ends with the whole range searched, or with the buffer full
  have hend : xs = target args →
      Inv args { s with finder := .storeEnd } xs x := fun ht =>
    { hi with finder := ⟨ht,hx⟩, printer := hquiet _, finder_mutex := hmutex }
  simp only [findPrimes,hpc] at h
  split at h
  · rename_i hle
    split at h
    · rename_i hprime
      have hp := (isPrime_eq_one_iff (by omega) (by omega)).mp hprime
      split at h
      · rename_i hfull
        cases h
        exact hend (hi.target_of_size (by have := hi.size; have := hi.found; omega))
      · rename_i hfull
        cases h
        exact { hi with
          finder := ⟨hxs,hx,hle,hp,by have := hi.found; omega⟩, printer := hquiet _
          finder_mutex := hmutex }
    · rename_i hprime
      cases h
      obtain ⟨hwrap,hlow'⟩ := hi.advance h1 hB hle
      have hp : ¬ s.i.toNat.Prime := fun hp =>
        hprime ((isPrime_eq_one_iff (by omega) (by omega)).mpr hp)
      have hxs' : xs = primesIn args.low (s.i+1-1) := by
        rw [add_sub_cancel_right,primesIn_succ hi.low,if_neg hp,List.append_nil]
        exact hxs
      exact { hi with
        low := by simpa only [hwrap] using hlow'
        finder := by simpa only [hwrap] using ⟨hxs',hx⟩
        printer := hquiet _
        finder_mutex := hmutex }
  · rename_i hle
    cases h
    refine hend ?_
    have hsub : xs = primesIn args.low args.high := by
      refine hi.sub.eq_of_length_le ?_
      rw [hxs]
      exact (primesIn_isPrefix (by omega)).length_le
    rw [target,← hsub,List.take_of_length_le hi.size]

theorem Inv.lock_step (hi : Inv args s xs x) (hpc : s.finder = .lock)
    (h : findPrimes args s = some s') : Inv args s' xs x := by
  have hf := hi.finder
  simp only [hpc,FinderAt] at hf
  simp only [findPrimes,hpc] at h
  split at h
  · rename_i hfree
    cases h
    have hquiet := hi.printer.quiet (g := .store) (by simp [hpc]) (by simp [hpc,FinderPc.signals])
      (by simp [hpc])
    exact hi.finder_lock hfree hf hquiet rfl
  · cases h

theorem Inv.store_step (hi : Inv args s xs x) (hpc : s.finder = .store)
    (h : findPrimes args s = some s') : Inv args s' xs s.i := by
  have hf := hi.finder
  have hfm := hi.finder_mutex
  simp only [hpc,FinderAt,FinderPc.holds] at hf hfm
  simp only [findPrimes,hpc] at h
  cases h
  have hfree := hi.printer_free (by simp [hfm.mpr trivial])
  exact { hi with
    buffer := hi.update_buffer s.i
    finder := ⟨hf.1,rfl,hf.2.2⟩
    printer := hi.printer.store hfree rfl (by simp [hpc])
    finder_mutex := by simpa [FinderPc.holds] using hfm }

theorem Inv.increment_step (hi : Inv args s xs x) (hpc : s.finder = .increment)
    (h : findPrimes args s = some s') : Inv args s' (xs ++ [s.i]) 0 := by
  have hf := hi.finder
  have hfm := hi.finder_mutex
  simp only [hpc,FinderAt,FinderPc.holds] at hf hfm
  simp only [findPrimes,hpc] at h
  cases h
  obtain ⟨hxs,hx,hle,hp,hlen⟩ := hf
  have hfree := hi.printer_free (by simp [hfm.mpr trivial])
  have happ : xs ++ [s.i] = primesIn args.low s.i := by
    rw [primesIn_succ hi.low,if_pos hp,← hxs]
  exact { hi with
    found := by simp [hi.found]
    size := by simpa using hlen
    sub := happ ▸ primesIn_isPrefix hle
    buffer := fun j hjs => by
      rw [hi.buffer j hjs,hx]
      obtain hj | hj := lt_or_ge j (xs ++ [s.i]).length
      · rw [List.getD_append _ _ _ _ hj]
      · rw [List.getD_append_right _ _ _ _ hj,List.getD_eq_default _ _ hj]
        generalize j - (xs ++ [s.i]).length = k
        cases k <;> simp
    finder := ⟨happ,rfl,hle⟩
    counter := by have := hi.counter; simp; omega
    printer := hi.printer.append hfree hi.counter rfl (by simp [hpc])
    finder_mutex := by simpa [FinderPc.holds] using hfm }

theorem Inv.unlock_step (hi : Inv args s xs x) (hpc : s.finder = .unlock)
    (h : findPrimes args s = some s') : Inv args s' xs x := by
  have hf := hi.finder
  simp only [hpc,FinderAt] at hf
  simp only [findPrimes,hpc] at h
  cases h
  have hquiet := hi.printer.quiet (g := .signal) (by simp [hpc]) (by simp [FinderPc.signals])
    (by simp [hpc])
  exact hi.finder_unlock (by simp [hpc,FinderPc.holds]) hf hquiet rfl

theorem Inv.signal_step (hi : Inv args s xs x) (h1 : 1 ≤ args.low) (hB : args.high < 2^63-1)
    (hpc : s.finder = .signal) (h : findPrimes args s = some s') : Inv args s' xs x := by
  have hf := hi.finder
  have hfm := hi.finder_mutex
  simp only [hpc,FinderAt,FinderPc.holds] at hf hfm
  simp only [findPrimes,hpc,State.signal] at h
  cases h
  obtain ⟨hwrap,hlow'⟩ := hi.advance h1 hB hf.2.2
  exact { hi with
    low := by simpa only [hwrap] using hlow'
    finder := by simpa [FinderAt,hwrap] using ⟨hf.1,hf.2.1⟩
    printer := hi.printer.signal (by simp [hpc]) (by simp [hpc])
    finder_mutex := by simpa [FinderPc.holds] using hfm
    printer_mutex := by rw [hi.printer_mutex,holds_signal] }

theorem Inv.storeEnd_step (hi : Inv args s xs x) (hpc : s.finder = .storeEnd)
    (h : findPrimes args s = some s') : Inv args s' xs (-1) := by
  have hf := hi.finder
  have hfm := hi.finder_mutex
  simp only [hpc,FinderAt,FinderPc.holds] at hf hfm
  simp only [findPrimes,hpc] at h
  cases h
  obtain ⟨hxs,rfl⟩ := hf
  exact { hi with
    buffer := hi.update_buffer (-1)
    finder := ⟨hxs,rfl⟩
    printer := hi.printer.storeEnd (by simp [hpc])
    finder_mutex := by simpa [FinderPc.holds] using hfm }

theorem Inv.lockEnd_step (hi : Inv args s xs x) (hpc : s.finder = .lockEnd)
    (h : findPrimes args s = some s') : Inv args s' xs x := by
  have hf := hi.finder
  simp only [hpc,FinderAt] at hf
  simp only [findPrimes,hpc] at h
  split at h
  · rename_i hfree
    cases h
    have hfree' := hi.printer_free (by simp [hfree])
    have hquiet := hi.printer.quiet (g := .unlockEnd) (fun _ => wait_holds hfree') (fun _ => rfl)
      (by simp [hpc])
    exact hi.finder_lock hfree hf hquiet rfl
  · cases h

theorem Inv.unlockEnd_step (hi : Inv args s xs x) (hpc : s.finder = .unlockEnd)
    (h : findPrimes args s = some s') : Inv args s' xs x := by
  have hf := hi.finder
  simp only [hpc,FinderAt] at hf
  simp only [findPrimes,hpc] at h
  cases h
  have hquiet := hi.printer.quiet (g := .signalEnd) (by simp [hpc]) (fun _ => rfl) (by simp [hpc])
  exact hi.finder_unlock (by simp [hpc,FinderPc.holds]) hf hquiet rfl

theorem Inv.signalEnd_step (hi : Inv args s xs x) (hpc : s.finder = .signalEnd)
    (h : findPrimes args s = some s') : Inv args s' xs x := by
  have hf := hi.finder
  have hfm := hi.finder_mutex
  simp only [hpc,FinderAt,FinderPc.holds] at hf hfm
  simp only [findPrimes,hpc,State.signal] at h
  cases h
  exact { hi with
    finder := hf
    printer := hi.printer.signal (by simp [hpc]) (by simp [hpc])
    finder_mutex := by simpa [FinderPc.holds] using hfm
    printer_mutex := by rw [hi.printer_mutex,holds_signal] }

theorem Inv.finder_step (hi : Inv args s xs x) (h1 : 1 ≤ args.low) (hB : args.high < 2^63-1)
    (h : findPrimes args s = some s') : ∃ xs x, Inv args s' xs x := by
  cases hpc : s.finder with
  | loop => exact ⟨xs,x,hi.loop_step h1 hB hpc h⟩
  | lock => exact ⟨xs,x,hi.lock_step hpc h⟩
  | store => exact ⟨xs,s.i,hi.store_step hpc h⟩
  | increment => exact ⟨xs ++ [s.i],0,hi.increment_step hpc h⟩
  | unlock => exact ⟨xs,x,hi.unlock_step hpc h⟩
  | signal => exact ⟨xs,x,hi.signal_step h1 hB hpc h⟩
  | storeEnd => exact ⟨xs,-1,hi.storeEnd_step hpc h⟩
  | lockEnd => exact ⟨xs,x,hi.lockEnd_step hpc h⟩
  | unlockEnd => exact ⟨xs,x,hi.unlockEnd_step hpc h⟩
  | signalEnd => exact ⟨xs,x,hi.signalEnd_step hpc h⟩
  | done => simp [findPrimes,hpc] at h

/-- A cell the printer may look at is empty only if nothing is stored in it yet. -/
theorem Inv.empty_cell (hi : Inv args s xs x) (h : s.buffer s.counter = 0) :
    s.counter = xs.length ∧ x = 0 := by
  obtain hlt | heq := hi.counter.lt_or_eq
  · have h2 := hi.two_le_cell hlt
    omega
  · exact ⟨heq,by rw [← h,heq,hi.cell_eq]⟩

/-- With the mutex in the printer's hand the cell after the primes holds 0 or the end marker. -/
theorem Inv.last_cell (hi : Inv args s xs x) (hp : s.printer.holds) : x = 0 ∨ x = -1 := by
  have hm := hi.printer_mutex.mpr hp
  have hfree := hi.finder_free (by simp [hm])
  have hf := hi.finder
  cases hpc : s.finder <;> simp only [hpc,FinderAt,FinderPc.holds] at hf hfree
  case loop | storeEnd => exact .inl hf.2
  case lock => exact .inl hf.2.1
  case signal => exact .inl hf.2.1
  case lockEnd | signalEnd | done => exact .inr hf.2
  all_goals cases hfree

theorem Inv.printer_loop_step (hi : Inv args s xs x) (hpc : s.printer = .loop)
    (h : mainLoop args s = some s') : Inv args s' xs x := by
  have hp := hi.printer
  simp only [hpc,PrinterAt] at hp
  simp only [mainLoop,hpc] at h
  split at h
  · rename_i hlt
    cases h
    exact hi.printer_goto hi.counter ⟨hp,hlt⟩ (by simp [hpc,PrinterPc.holds])
  · rename_i hge
    cases h
    have hlen : xs.length = args.size := by have := hi.size; have := hi.counter; omega
    have hall : s.printed = xs := by rw [hp,List.take_of_length_le (by omega)]
    exact hi.printer_goto hi.counter (hall.trans (hi.target_of_size hlen))
      (by simp [hpc,PrinterPc.holds])

theorem Inv.printer_lock_step (hi : Inv args s xs x) (hpc : s.printer = .lock ∨ s.printer = .relock)
    (h : mainLoop args s = some s') : Inv args s' xs x := by
  have hp : PrinterAt args s.finder xs x s.counter s.printed .test := by
    have hp := hi.printer
    obtain hpc | hpc := hpc <;> simpa only [hpc,PrinterAt] using hp
  obtain hpc | hpc := hpc
  all_goals
    simp only [mainLoop,hpc] at h
    split at h
    · rename_i hfree
      cases h
      exact hi.printer_lock hfree hp rfl
    · cases h

theorem Inv.test_step (hi : Inv args s xs x) (hpc : s.printer = .test)
    (h : mainLoop args s = some s') : Inv args s' xs x := by
  have hp := hi.printer
  simp only [hpc,PrinterAt] at hp
  simp only [mainLoop,hpc] at h
  split at h
  · rename_i hzero
    cases h
    obtain ⟨hc,hx⟩ := hi.empty_cell hzero
    exact hi.printer_goto hi.counter ⟨hp.1,hp.2,hc,.inl hx⟩ (by simp [hpc,PrinterPc.holds])
  · rename_i hne
    cases h
    have hcell : s.counter < xs.length ∨ x = -1 := by
      obtain hlt | heq := hi.counter.lt_or_eq
      · exact .inl hlt
      · rw [heq,hi.cell_eq] at hne
        exact .inr ((hi.last_cell (by simp [hpc,PrinterPc.holds])).resolve_left hne)
    exact hi.printer_goto hi.counter ⟨hp.1,hp.2,hcell⟩ (by simp [hpc,PrinterPc.holds])

/-- The marker may have been stored since the test, but its signal is still to come. -/
theorem Inv.wait_step (hi : Inv args s xs x) (hpc : s.printer = .wait)
    (h : mainLoop args s = some s') : Inv args s' xs x := by
  have hp := hi.printer
  simp only [hpc,PrinterAt] at hp
  simp only [mainLoop,hpc] at h
  cases h
  refine hi.printer_unlock (by simp [hpc,PrinterPc.holds]) ⟨hp.1,hp.2.1,?_⟩ rfl
  exact hp.2.2.2.imp (fun hx => ⟨hp.2.2.1,hx⟩) (fun hl => by simp [hl,FinderPc.signals])

theorem Inv.check_step (hi : Inv args s xs x) (hpc : s.printer = .check)
    (h : mainLoop args s = some s') : Inv args s' xs x := by
  have hp := hi.printer
  simp only [hpc,PrinterAt] at hp
  simp only [mainLoop,hpc] at h
  split at h
  · rename_i hend
    cases h
    have hc : s.counter = xs.length := by
      by_contra hne
      have h2 := hi.two_le_cell (lt_of_le_of_ne hi.counter hne)
      omega
    have hx : x = -1 := by rw [← hend,hc,hi.cell_eq]
    exact hi.printer_goto hi.counter ⟨hp.1,hc,hx⟩ (by simp [hpc,PrinterPc.holds])
  · rename_i hne
    cases h
    have hlt : s.counter < xs.length := by
      by_contra hge
      have hc : s.counter = xs.length := le_antisymm hi.counter (not_lt.mp hge)
      exact hne (by rw [hc,hi.cell_eq,hp.2.2.resolve_left hge])
    exact hi.printer_goto hi.counter ⟨hp.1,hp.2.1,hlt⟩ (by simp [hpc,PrinterPc.holds])

theorem Inv.print_step (hi : Inv args s xs x) (hpc : s.printer = .print)
    (h : mainLoop args s = some s') : Inv args s' xs x := by
  have hp := hi.printer
  simp only [hpc,PrinterAt] at hp
  simp only [mainLoop,hpc] at h
  cases h
  have hlt : s.counter-1 < xs.length := by have := hi.counter; omega
  have htake : s.printed ++ [s.buffer (s.counter-1)] = xs.take s.counter := by
    rw [hp.2,hi.cell_lt hlt,List.take_append_getElem,Nat.sub_add_cancel hp.1]
  exact hi.printer_goto hi.counter htake (by simp [hpc,PrinterPc.holds])

theorem Inv.breakUnlock_step (hi : Inv args s xs x) (h1 : 1 ≤ args.low)
    (hpc : s.printer = .breakUnlock) (h : mainLoop args s = some s') : Inv args s' xs x := by
  have hp := hi.printer
  have hlow := hi.low
  simp only [hpc,PrinterAt] at hp
  simp only [mainLoop,hpc] at h
  cases h
  have hall : s.printed = xs := by rw [hp.1,List.take_of_length_le hp.2.1.ge]
  exact hi.printer_unlock (by simp [hpc,PrinterPc.holds])
    (hall.trans (hi.finder.target_of_end (by omega) hp.2.2)) rfl

theorem Inv.printer_step (hi : Inv args s xs x) (h1 : 1 ≤ args.low)
    (h : mainLoop args s = some s') : Inv args s' xs x := by
  have hp := hi.printer
  cases hpc : s.printer with
  | loop => exact hi.printer_loop_step hpc h
  | lock => exact hi.printer_lock_step (.inl hpc) h
  | relock => exact hi.printer_lock_step (.inr hpc) h
  | test => exact hi.test_step hpc h
  | wait => exact hi.wait_step hpc h
  | waiting => simp [mainLoop,hpc] at h
  | check => exact hi.check_step hpc h
  | increment =>
    simp only [hpc,PrinterAt] at hp
    simp only [mainLoop,hpc] at h
    cases h
    exact hi.printer_goto hp.2.2 ⟨Nat.succ_pos _,hp.1⟩ (by simp [hpc,PrinterPc.holds])
  | unlock =>
    simp only [hpc,PrinterAt] at hp
    simp only [mainLoop,hpc] at h
    cases h
    exact hi.printer_unlock (by simp [hpc,PrinterPc.holds]) hp rfl
  | print => exact hi.print_step hpc h
  | breakUnlock => exact hi.breakUnlock_step h1 hpc h
  | join =>
    simp only [hpc,PrinterAt] at hp
    obtain ⟨hdone,rfl⟩ : s.finder = .done ∧ { s with printer := .done } = s' := by
      simpa [mainLoop,hpc] using h
    exact hi.printer_goto hi.counter ⟨hp,hdone⟩ (by simp [hpc,PrinterPc.holds])
  | done => simp [mainLoop,hpc] at h

theorem Inv.spurious_step (hi : Inv args s xs x) (h : step args .spurious s = some s') :
    Inv args s' xs x := by
  simp only [step] at h
  split at h
  · rename_i hw
    have hp := hi.printer
    simp only [hw,PrinterAt] at hp
    cases h
    exact hi.printer_goto hi.counter ⟨hp.1,hp.2.1⟩ (by simp [hw,PrinterPc.holds])
  · cases h

theorem inv_invariant (h1 : 1 ≤ args.low) (hB : args.high < 2^63-1) {buffer : ℕ → ℤ}
    (hclear : ∀ j ≤ args.size, buffer j = 0) :
    (system args buffer).Invariant fun s => ∃ xs x, Inv args s xs x where
  step {a s s'} hs h := by
    obtain ⟨xs,x,hi⟩ := hs
    cases a with
    | finder => exact hi.finder_step h1 hB h
    | printer => exact ⟨xs,x,hi.printer_step h1 h⟩
    | spurious => exact ⟨xs,x,hi.spurious_step h⟩
  start := by
    refine ⟨[],0,⟨le_rfl,rfl,Nat.zero_le _,List.nil_prefix,fun j hj => ?_,⟨?_,rfl⟩,le_rfl,rfl,?_,?_⟩⟩
    · cases j <;> simp [system,init,hclear _ hj]
    · exact (primesIn_of_lt (by simp [system,init])).symm
    · simp [system,init,FinderPc.holds]
    · simp [system,init,PrinterPc.holds]

end Steps

section Consequences

variable {args : ThreadTaskArgs} {s s' : State} {xs : List ℤ} {x : ℤ} {a : Action}

theorem step_buffer (h : step args a s = some s') {j : ℕ} (hj : writes s a ≠ some j) :
    s'.buffer j = s.buffer j := by
  cases a with
  | finder =>
    simp only [step,findPrimes] at h
    cases hpc : s.finder <;> simp only [hpc] at h
    case store | storeEnd =>
      simp only [writes,hpc] at hj
      cases h
      exact Function.update_of_ne (by rintro rfl; simp at hj) _ _
    all_goals
      try split at h
      try split at h
      try split at h
      all_goals cases h
      all_goals rfl
  | printer =>
    simp only [step,mainLoop] at h
    cases hpc : s.printer <;> simp only [hpc] at h
    all_goals
      try split at h
      all_goals cases h
      all_goals rfl
  | spurious =>
    simp only [step] at h
    split at h <;> cases h
    rfl

theorem Inv.write_eq (hi : Inv args s xs x) {j : ℕ} (h : writes s a = some j) : j = xs.length := by
  cases a <;> simp [writes] at h
  rw [← h.2,hi.found]

theorem Inv.access_le (hi : Inv args s xs x) {j : ℕ} (h : writes s a = some j ∨ reads s a = some j) :
    j ≤ args.size := by
  have hsize := hi.size
  have hcounter := hi.counter
  obtain h | h := h
  · rw [hi.write_eq h]
    exact hsize
  · cases a <;> simp only [reads] at h <;> try cases h
    split at h
    · cases h
      omega
    · split at h <;> cases h
      omega

theorem Inv.printed_isPrefix (hi : Inv args s xs x) : s.printed <+: target args := by
  have hxs : xs <+: target args := by
    rw [target,List.prefix_take_iff]
    exact ⟨hi.sub,hi.size⟩
  have hp := hi.printer
  cases hpc : s.printer <;> simp only [hpc,PrinterAt] at hp
  case loop => exact hp ▸ (List.take_prefix _ _).trans hxs
  case unlock | print => exact hp.2 ▸ (List.take_prefix _ _).trans hxs
  case join => exact hp ▸ List.prefix_rfl
  case done => exact hp.1 ▸ List.prefix_rfl
  all_goals exact hp.1 ▸ (List.take_prefix _ _).trans hxs

/-- A waiting printer has a signal to come as long as the finder has not returned. -/
theorem Inv.not_waiting (hi : Inv args s xs x) (hd : s.finder = .done) : s.printer ≠ .waiting := by
  intro hw
  have hp := hi.printer
  have hf := hi.finder
  simp only [hw,hd,PrinterAt,FinderAt,FinderPc.signals] at hp hf
  have h0 := hp.2.2.resolve_right (by simp)
  omega

theorem Inv.finder_enabled (hi : Inv args s xs x) (hd : s.finder ≠ .done)
    (hm : s.mutex ≠ some .printer) : step args .finder s ≠ none := by
  have hfree : s.finder.holds = false → s.mutex = none := by
    intro hh
    cases hmx : s.mutex with
    | none => rfl
    | some q =>
      cases q with
      | finder => simp [hi.finder_mutex.mp hmx] at hh
      | printer => exact absurd hmx hm
  cases hpc : s.finder <;> simp only [hpc,FinderPc.holds] at hfree
  case loop =>
    simp only [step,findPrimes,hpc]
    split_ifs <;> simp
  case lock | lockEnd => simp [step,findPrimes,hpc,hfree trivial]
  case done => exact absurd hpc hd
  all_goals simp [step,findPrimes,hpc]

theorem Inv.progress (hi : Inv args s xs x) :
    (s.finder = .done ∧ s.printer = .done) ∨ ∃ a, a ≠ .spurious ∧ step args a s ≠ none := by
  have hfinder : s.printer.holds = false → s.finder ≠ .done →
      ∃ a, a ≠ .spurious ∧ step args a s ≠ none := fun hh hd =>
    ⟨.finder,by simp,hi.finder_enabled hd fun hm => by simp [hi.printer_mutex.mp hm] at hh⟩
  cases hpc : s.printer <;> simp only [hpc,PrinterPc.holds] at hfinder
  case lock | relock =>
    right
    by_cases hm : s.mutex = none
    · exact ⟨.printer,by simp,by simp [step,mainLoop,hpc,hm]⟩
    · refine hfinder trivial fun hd => ?_
      have hfm := hi.finder_mutex
      have hpm := hi.printer_mutex
      simp only [hd,hpc,FinderPc.holds,PrinterPc.holds,Bool.false_eq_true,iff_false] at hfm hpm
      cases hmx : s.mutex with
      | none => exact hm hmx
      | some q => cases q <;> contradiction
  case waiting => exact .inr (hfinder trivial fun hd => hi.not_waiting hd hpc)
  case join =>
    right
    by_cases hd : s.finder = .done
    · exact ⟨.printer,by simp,by simp [step,mainLoop,hpc,hd]⟩
    · exact hfinder trivial hd
  case done =>
    have hp := hi.printer
    simp only [hpc,PrinterAt] at hp
    exact .inl ⟨hp.2,rfl⟩
  all_goals
    refine .inr ⟨.printer,by simp,?_⟩
    simp only [step,mainLoop,hpc]
    try split_ifs
    all_goals simp

/-- Steps the finder can still take in the current round, with an allowance for the
printer that its signal wakes. -/
def FinderPc.weight : FinderPc → ℕ
  | .loop => 13
  | .lock => 12
  | .store => 11
  | .increment => 10
  | .unlock => 9
  | .signal => 8
  | .storeEnd => 7
  | .lockEnd => 6
  | .unlockEnd => 5
  | .signalEnd => 4
  | .done => 0

def PrinterPc.weight : PrinterPc → ℕ
  | .unlock => 9
  | .print => 8
  | .loop => 7
  | .lock => 6
  | .relock => 6
  | .test => 5
  | .wait => 4
  | .check => 4
  | .waiting => 3
  | .increment => 3
  | .breakUnlock => 2
  | .join => 1
  | .done => 0

def measure (args : ThreadTaskArgs) (s : State) : ℕ :=
  9*(args.high+1-s.i).toNat + s.finder.weight + (7*(args.size-s.counter) + s.printer.weight)

def allowance : Action → ℕ
  | .spurious => 4
  | _ => 0

theorem signal_weight (s : State) : s.signal.printer.weight ≤ s.printer.weight + 3 := by
  simp only [State.signal]
  split_ifs with hw
  · simp [hw,PrinterPc.weight]
  · omega

/-- A step of the finder lowers its own part; a signal is paid for by what it leaves behind. -/
theorem Inv.measure_findPrimes (hi : Inv args s xs x) (h1 : 1 ≤ args.low) (hB : args.high < 2^63-1)
    (h : findPrimes args s = some s') : measure args s' + 1 ≤ measure args s := by
  have hf := hi.finder
  have hw := signal_weight s
  rw [findPrimes] at h
  cases hpc : s.finder with
  | loop =>
    simp only [hpc] at h
    split_ifs at h with hle hprime hfull <;> cases h
    · simp [measure,hpc,FinderPc.weight]
    · simp [measure,hpc,FinderPc.weight]
    · simp only [measure,hpc,(hi.advance h1 hB hle).1]
      omega
    · simp [measure,hpc,FinderPc.weight]
  | signal =>
    simp only [hpc,FinderAt] at h hf
    cases h
    simp only [measure,hpc,FinderPc.weight,(hi.advance h1 hB hf.2.2).1]
    simp only [State.signal] at hw ⊢
    omega
  | signalEnd =>
    simp only [hpc] at h
    cases h
    simp only [measure,hpc,FinderPc.weight]
    simp only [State.signal] at hw ⊢
    omega
  | lock =>
    simp only [hpc] at h
    split_ifs at h
    cases h
    simp [measure,hpc,FinderPc.weight]
  | lockEnd =>
    simp only [hpc] at h
    split_ifs at h
    cases h
    simp [measure,hpc,FinderPc.weight]
  | done =>
    simp only [hpc] at h
    cases h
  | _ =>
    simp only [hpc] at h
    cases h
    simp [measure,hpc,FinderPc.weight]

theorem Inv.measure_mainLoop (hi : Inv args s xs x) (h : mainLoop args s = some s') :
    measure args s' + 1 ≤ measure args s := by
  have hp := hi.printer
  rw [mainLoop] at h
  cases hpc : s.printer <;> simp only [hpc,PrinterAt] at h hp
  all_goals
    try split at h
    all_goals cases h
    all_goals simp [measure,hpc,PrinterPc.weight]
    all_goals omega

theorem Inv.measure_step (hi : Inv args s xs x) (h1 : 1 ≤ args.low) (hB : args.high < 2^63-1)
    (h : step args a s = some s') : measure args s' + 1 ≤ measure args s + allowance a := by
  cases a with
  | finder => exact hi.measure_findPrimes h1 hB h
  | printer => exact hi.measure_mainLoop h
  | spurious =>
    obtain ⟨hw,hs⟩ := Option.ite_none_right_eq_some.mp h
    obtain rfl := Option.some.inj hs
    simp only [measure,allowance,hw,PrinterPc.weight]
    omega

theorem sum_allowance (as : List Action) : (as.map allowance).sum = 4 * as.count .spurious := by
  induction as with
  | nil => rfl
  | cons a as ih =>
    cases a <;> simp [allowance,ih]
    ring

end Consequences

/-- The two threads started on the given arguments, over all interleavings: what is printed, which
cells are touched, and that they come to their end unless spurious wake-ups never stop. -/
structure PrintsPrimes (args : ThreadTaskArgs) (P : System State Action) : Prop where
  printed : ∀ s, P.Reachable s → s.printer = .join ∨ s.printer = .done → s.printed = target args
  printing : ∀ s, P.Reachable s → s.printed <+: target args
  in_bounds : ∀ s, P.Reachable s → ∀ a j, writes s a = some j ∨ reads s a = some j → j ≤ args.size
  frame : ∀ a s s', P.step a s = some s' → ∀ j, writes s a ≠ some j → s'.buffer j = s.buffer j
  not_rewritten : ∀ s, P.Reachable s → ∀ a j, writes s a = some j → s.counter ≤ j
  not_waiting : ∀ s, P.Reachable s → s.finder = .done → s.printer ≠ .waiting
  progress : ∀ s, P.Reachable s → (s.finder = .done ∧ s.printer = .done) ∨
    ∃ a, a ≠ .spurious ∧ P.step a s ≠ none
  bounded : ∃ bound, ∀ as s, P.run as P.start = some s →
    as.length ≤ bound + 4 * as.count .spurious

theorem prints_primes {args : ThreadTaskArgs} (h1 : 1 ≤ args.low) (hB : args.high < 2^63-1)
    {buffer : ℕ → ℤ} (hclear : ∀ j ≤ args.size, buffer j = 0) :
    PrintsPrimes args (system args buffer) := by
  have hinv := inv_invariant h1 hB hclear
  refine ⟨?_,?_,?_,fun a s s' h j hj => step_buffer h hj,?_,?_,?_,measure args (init args buffer),?_⟩
  · intro s hr hpc
    obtain ⟨xs,x,hi⟩ := hinv.reachable hr
    have hp := hi.printer
    obtain hpc | hpc := hpc
    · simpa only [hpc,PrinterAt] using hp
    · simp only [hpc,PrinterAt] at hp
      exact hp.1
  · intro s hr
    obtain ⟨xs,x,hi⟩ := hinv.reachable hr
    exact hi.printed_isPrefix
  · intro s hr a j hj
    obtain ⟨xs,x,hi⟩ := hinv.reachable hr
    exact hi.access_le hj
  · intro s hr a j hj
    obtain ⟨xs,x,hi⟩ := hinv.reachable hr
    exact hi.counter.trans (hi.write_eq hj).ge
  · intro s hr hd
    obtain ⟨xs,x,hi⟩ := hinv.reachable hr
    exact hi.not_waiting hd
  · intro s hr
    obtain ⟨xs,x,hi⟩ := hinv.reachable hr
    exact hi.progress
  · intro as s hrun
    have hle := hinv.run_length_le (measure args) allowance
      (fun hs h => by
        obtain ⟨xs,x,hi⟩ := hs
        exact hi.measure_step h1 hB h) hinv.start hrun
    rw [sum_allowance] at hle
    exact (Nat.le_add_right _ _).trans hle

/-- The program does its work exactly when one more than `size` is still an `int32_t`. -/
theorem main_printsPrimes_iff (args : ThreadTaskArgs) (block : ℕ → ℤ) (h1 : 1 ≤ args.low)
    (hB : args.high < 2^63-1) :
    (∃ P, main args block = some P ∧ PrintsPrimes args P) ↔ args.size < 2^31-1 := by
  constructor
  · rintro ⟨P,hP,-⟩
    by_contra hge
    have hlt := args.size_lt
    rw [main_eq_none (by omega)] at hP
    cases hP
  · intro h
    exact ⟨_,main_of_lt h block,prints_primes h1 hB fun j hj => clear_of_lt block (by omega)⟩

/-- With 1, 10 and 3, in a block that held sevens. -/
theorem main_printsPrimes_iff_ten :
    ∃ P, main ⟨1,10,3,by decide⟩ (fun _ => 7) = some P ∧ PrintsPrimes ⟨1,10,3,by decide⟩ P :=
  (main_printsPrimes_iff ⟨1,10,3,by decide⟩ (fun _ => 7) (by decide) (by decide)).mpr (by decide)

/-- With the largest `size` no block is allocated, and no thread is started. -/
theorem main_not_printsPrimes :
    ¬ ∃ P, main ⟨1,10,2^31-1,by decide⟩ (fun _ => 0) = some P ∧
      PrintsPrimes ⟨1,10,2^31-1,by decide⟩ P := by
  rintro ⟨P,hP,-⟩
  rw [main_eq_none rfl] at hP
  cases hP

end PrimeBuffer
end SomeCode
