import SomeCode.Contributors
import SomeCode.ScanInt
import SomeCode.ThreadedSum
import SomeCode.Transition

/-! The loop of `partional_sum` in `inf18-1.c` and the recursion of `read_and_write` in
`inf18-0.c`, over the bytes of their standard input. Both end only when `scanf` returns `EOF`. -/
namespace SomeCode
namespace ScanLoops

open Contributors MachineInt ScanInt Transition
open ThreadedSum (Pc)

/-- The runs come to an end, and no state of theirs is a stale one. -/
structure Sound {State Action : Type} (M : System State Action) (Stale : State → Prop) : Prop where
  bounded : ∃ bound, ∀ as s, M.run as M.start = some s → as.length ≤ bound
  fresh : ∀ s, M.Reachable s → ¬ Stale s

/-! The threads of `inf18-1.c` -/

/-- The variables of `partional_sum`. It is noted whether the last call of `scanf` has stored a
value, if there has been one. -/
structure Thread where
  pc : Pc
  current : ℤ
  sum : ℤ
  inptChk : ℤ
  c : ℤ
  stored : Bool

/-- A step of `partional_sum`, and the input behind it -/
def partionalSum (rest : List UInt8) (th : Thread) : Option (Thread × List UInt8) :=
  match th.pc with
  | .unborn | .done => none
  | .add => some ({ th with pc := .scan, sum := wrap 32 (th.sum+th.current) },rest)
  | .scan => some ({ th with
      pc := .test
      current := (scanInt rest).assign th.current
      inptChk := (scanInt rest).ret
      stored := (scanInt rest).ret = 1 },(scanInt rest).rest)
  | .test => some ({ th with pc := if th.inptChk ≠ EOF then .add else .store },rest)
  | .store => some ({ th with pc := .done, c := th.sum },rest)

/-- The threads that `main` has created, and what they have left of the input -/
structure Threads (n : ℕ) where
  threads : Fin n → Thread
  rest : List UInt8

variable {n : ℕ}

def Threads.set (s : Threads n) (t : Fin n) (th : Thread) (rest : List UInt8) : Threads n :=
  ⟨Function.update s.threads t th,rest⟩

@[simp] theorem Threads.set_self (s : Threads n) (t : Fin n) (th : Thread) (rest : List UInt8) :
    (s.set t th rest).threads t = th := by
  simp [set]

@[simp] theorem Threads.set_of_ne (s : Threads n) {t u : Fin n} (h : u ≠ t) (th : Thread)
    (rest : List UInt8) : (s.set t th rest).threads u = s.threads u := by
  simp [set,h]

@[simp] theorem Threads.set_rest (s : Threads n) (t : Fin n) (th : Thread) (rest : List UInt8) :
    (s.set t th rest).rest = rest := rfl

def step (t : Fin n) (s : Threads n) : Option (Threads n) :=
  (partionalSum s.rest (s.threads t)).map fun r => s.set t r.1 r.2

def begin : Thread := ⟨.add,0,0,0,0,true⟩

def summer (n : ℕ) (input : List UInt8) : System (Threads n) (Fin n) :=
  ⟨⟨fun _ => begin,input⟩,step⟩

/-- `current` is to be used, and the call before has stored nothing in it. -/
def Thread.Stale (th : Thread) : Prop := th.pc = .add ∧ th.stored = false

def Threads.Stale (s : Threads n) : Prop := ∃ t, (s.threads t).Stale

/-- What holds of a thread as long as no number is missing -/
def Thread.Fresh (th : Thread) : Prop :=
  match th.pc with
  | .add => th.stored = true
  | .test => th.inptChk = EOF ∨ th.stored = true
  | _ => True

def Thread.rank (th : Thread) : ℕ :=
  match th.pc with
  | .unborn | .done => 0
  | .add => 4
  | .scan => 3
  | .test => if th.inptChk = EOF then 2 else 5
  | .store => 1

section Thread

variable {rest rest' : List UInt8} {th th' : Thread}

theorem Thread.Fresh.not_stale (h : th.Fresh) : ¬ th.Stale := by
  rintro ⟨hpc,hstored⟩
  simp [Thread.Fresh,hpc,hstored] at h

theorem partionalSum_cases (h : partionalSum rest th = some (th',rest')) :
    (th.pc = .add ∧ rest' = rest ∧
      th' = { th with pc := .scan, sum := wrap 32 (th.sum+th.current) }) ∨
    (th.pc = .scan ∧ rest' = (scanInt rest).rest ∧ th' = { th with
      pc := .test
      current := (scanInt rest).assign th.current
      inptChk := (scanInt rest).ret
      stored := (scanInt rest).ret = 1 }) ∨
    (th.pc = .test ∧ th.inptChk ≠ EOF ∧ rest' = rest ∧ th' = { th with pc := .add }) ∨
    (th.pc = .test ∧ th.inptChk = EOF ∧ rest' = rest ∧ th' = { th with pc := .store }) ∨
    (th.pc = .store ∧ rest' = rest ∧ th' = { th with pc := .done, c := th.sum }) := by
  unfold partionalSum at h
  split at h
  · cases h
  · cases h
  · rename_i hpc
    cases h
    exact .inl ⟨hpc,rfl,rfl⟩
  · rename_i hpc
    cases h
    exact .inr (.inl ⟨hpc,rfl,rfl⟩)
  · rename_i hpc
    cases h
    by_cases hend : th.inptChk = EOF
    · exact .inr (.inr (.inr (.inl ⟨hpc,hend,rfl,by simp [hend]⟩)))
    · exact .inr (.inr (.inl ⟨hpc,hend,rfl,by simp [hend]⟩))
  · rename_i hpc
    cases h
    exact .inr (.inr (.inr (.inr ⟨hpc,rfl,rfl⟩)))

theorem Thread.Fresh.step (h : th.Fresh) (hnum : numeric rest = true)
    (hs : partionalSum rest th = some (th',rest')) : numeric rest' = true ∧ th'.Fresh ∧
      th'.rank+3*rest'.length < th.rank+3*rest.length := by
  rcases partionalSum_cases hs with ⟨hpc,rfl,rfl⟩ | ⟨hpc,rfl,rfl⟩ | ⟨hpc,hmore,rfl,rfl⟩ |
    ⟨hpc,hend,rfl,rfl⟩ | ⟨hpc,rfl,rfl⟩
  · exact ⟨hnum,trivial,by simp [rank,hpc]⟩
  · have hscan := scanInt_scanned rest
    generalize scanInt rest = r at hscan ⊢
    cases hscan with
    | value hlt hrest =>
      refine ⟨hrest.trans hnum,.inr rfl,?_⟩
      simp only [rank,hpc,Result.ret,Result.rest,EOF,reduceCtorEq,if_false]
      omega
    | mismatch hnot =>
      rw [hnum] at hnot
      cases hnot
    | eof =>
      refine ⟨rfl,.inl rfl,?_⟩
      simp only [rank,hpc,Result.ret,Result.rest,if_true,List.length_nil]
      omega
  · rw [Fresh,hpc] at h
    exact ⟨hnum,h.resolve_left hmore,by simp [rank,hpc,hmore]⟩
  · exact ⟨hnum,trivial,by simp [rank,hpc,hend]⟩
  · exact ⟨hnum,trivial,by simp [rank,hpc]⟩

end Thread

section Threads

variable {s s' : Threads n} {t : Fin n}

structure Threads.Fresh (s : Threads n) : Prop where
  rest : numeric s.rest = true
  thread : ∀ t, (s.threads t).Fresh

def Threads.rank (s : Threads n) : ℕ := 3*s.rest.length + ∑ t, (s.threads t).rank

theorem Threads.Fresh.step (h : s.Fresh) (hs : step t s = some s') :
    s'.Fresh ∧ s'.rank < s.rank := by
  rcases Option.map_eq_some_iff.mp hs with ⟨r,hr,rfl⟩
  rcases (h.thread t).step h.rest hr with ⟨hnum,hfresh,hlt⟩
  refine ⟨⟨hnum,fun u => ?_⟩,?_⟩
  · by_cases hu : u = t
    · subst hu
      rwa [set_self]
    · rw [set_of_ne _ hu]
      exact h.thread u
  · have hsum := sum_update Thread.rank s.threads t r.1
    simp only [rank,set]
    omega

theorem fresh_invariant {input : List UInt8} (hnum : numeric input = true) :
    (summer n input).Invariant Threads.Fresh where
  start := ⟨hnum,fun _ => rfl⟩
  step h hs := (h.step hs).1

theorem summer_sound {input : List UInt8} (hnum : numeric input = true) :
    Sound (summer n input) Threads.Stale where
  bounded := (fresh_invariant hnum).bounded Threads.rank fun h hs => (h.step hs).2
  fresh s hs := by
    rintro ⟨t,ht⟩
    exact (((fresh_invariant hnum).reachable hs).thread t).not_stale ht

theorem run_scan (input : List UInt8) (hpc : (s.threads t).pc = .scan)
    (hmore : (scanInt s.rest).ret ≠ EOF) :
    ∃ s', (summer n input).run [t,t] s = some s' ∧ s'.rest = (scanInt s.rest).rest ∧
      (s'.threads t).pc = .add ∧ (s'.threads t).stored = decide ((scanInt s.rest).ret = 1) := by
  simp [System.run_cons,summer,ScanLoops.step,partionalSum,hpc,hmore]

theorem run_add (input : List UInt8) (hpc : (s.threads t).pc = .add) :
    ∃ s', (summer n input).run [t] s = some s' ∧ s'.rest = s.rest ∧ (s'.threads t).pc = .scan := by
  simp [System.run_cons,summer,ScanLoops.step,partionalSum,hpc]

/-- A thread that is alone with its input gets to what is no number, and goes on as if it were
one. -/
theorem exists_stale (input : List UInt8) (hpc : (s.threads t).pc = .scan)
    (hnum : numeric s.rest = false) :
    ∃ as s', (summer n input).run as s = some s' ∧ s'.Stale := by
  induction hlen : s.rest.length using Nat.strongRecOn generalizing s with
  | ind len ih =>
    have hscan := scanInt_scanned s.rest
    have hrun := run_scan input hpc
    generalize scanInt s.rest = r at hscan hrun
    cases hscan with
    | value hlt hrest =>
      rcases hrun (by simp) with ⟨u,hu,hurest,hadd,-⟩
      rcases run_add input hadd with ⟨v,hv,hvrest,hscan⟩
      rw [hurest,Result.rest] at hvrest
      rcases ih v.rest.length (by rw [hvrest,← hlen]; exact hlt) hscan
        (by rw [hvrest,hrest,hnum]) rfl with ⟨as,w,hw,hstale⟩
      exact ⟨_,w,System.run_trans (System.run_trans hu hv) hw,hstale⟩
    | mismatch hnot =>
      rcases hrun (by simp) with ⟨u,hu,-,hadd,hstored⟩
      exact ⟨_,u,hu,t,hadd,hstored⟩
    | eof hend =>
      rw [hnum] at hend
      cases hend

theorem numeric_of_summer (hn : 0 < n) {input : List UInt8}
    (h : Sound (summer n input) Threads.Stale) : numeric input = true := by
  by_contra hnum
  rw [Bool.not_eq_true] at hnum
  rcases run_add (s := (summer n input).start) (t := ⟨0,hn⟩) input rfl with ⟨s,hs,hrest,hpc⟩
  rcases exists_stale input hpc (by rw [hrest]; exact hnum) with ⟨as,u,hu,hstale⟩
  exact h.fresh u ⟨_,System.run_trans hs hu⟩ hstale

end Threads

/-! In numeric input the threads are those that take their values from a stream of numbers. -/

/-- The variables of a thread are those of a thread that takes values. -/
structure Thread.Same (th : Thread) (vt : ThreadedSum.Thread) : Prop where
  pc : vt.pc = th.pc
  current : vt.current = th.current
  sum : vt.sum = th.sum
  inptChk : vt.inptChk = th.inptChk
  c : vt.c = th.c

section Stream

variable {input : List UInt8} {numbers : List ℤ} {next : ℕ}

theorem getElem?_of_drop_cons {v : ℤ} {l : List ℤ} (h : v :: l = numbers.drop next) :
    numbers[next]? = some v ∧ l = numbers.drop (next+1) := by
  constructor
  · rw [← Nat.add_zero next,← List.getElem?_drop,← h]
    rfl
  · rw [← List.drop_drop,← h]
    rfl

theorem Thread.Same.step {th th' : Thread} {rest rest' : List UInt8} {vt : ThreadedSum.Thread}
    (h : th.Same vt) (hnum : numeric rest = true) (hvalues : values rest = numbers.drop next)
    (hs : partionalSum rest th = some (th',rest')) :
    ∃ vt' next', ThreadedSum.partionalSum numbers next vt = some (vt',next') ∧ th'.Same vt' ∧
      values rest' = numbers.drop next' := by
  rcases h with ⟨hpc',hcurrent,hsum,hchk,hc⟩
  rcases partionalSum_cases hs with ⟨hpc,rfl,rfl⟩ | ⟨hpc,rfl,rfl⟩ | ⟨hpc,hmore,rfl,rfl⟩ |
    ⟨hpc,hend,rfl,rfl⟩ | ⟨hpc,rfl,rfl⟩ <;>
    rw [hpc] at hpc' <;> simp only [ThreadedSum.partionalSum,hpc']
  · exact ⟨_,_,rfl,⟨rfl,hcurrent,by rw [hsum,hcurrent],hchk,hc⟩,hvalues⟩
  · have hscan := scanInt_scanned rest
    cases hresult : scanInt rest with
    | value v rest' =>
      rw [values_of_value hresult] at hvalues
      rcases getElem?_of_drop_cons hvalues with ⟨hv,hrest⟩
      rw [hv]
      exact ⟨_,_,rfl,⟨rfl,rfl,hsum,rfl,hc⟩,hrest⟩
    | mismatch rest' =>
      rw [hresult] at hscan
      cases hscan with
      | mismatch hnot =>
        rw [hnum] at hnot
        cases hnot
    | eof =>
      rw [values_of_eof hresult] at hvalues
      have hlen : numbers.length ≤ next := List.drop_eq_nil_iff.mp hvalues.symm
      rw [List.getElem?_eq_none hlen]
      exact ⟨_,_,rfl,⟨rfl,hcurrent,hsum,rfl,hc⟩,(values_of_eof rfl).trans hvalues⟩
  · exact ⟨_,_,rfl,⟨by simp [hchk,show th.inptChk ≠ -1 from hmore],hcurrent,hsum,hchk,hc⟩,hvalues⟩
  · exact ⟨_,_,rfl,⟨by simp [hchk,show th.inptChk = -1 from hend],hcurrent,hsum,hchk,hc⟩,hvalues⟩
  · exact ⟨_,_,rfl,⟨rfl,hcurrent,hsum,hchk,hsum⟩,hvalues⟩

structure Threads.Same (numbers : List ℤ) (s : Threads n) (u : ThreadedSum.State n) : Prop where
  thread : ∀ t, (s.threads t).Same (u.threads t)
  rest : values s.rest = numbers.drop u.next

theorem Threads.Same.step {s s' : Threads n} {u : ThreadedSum.State n} {t : Fin n}
    (h : s.Same numbers u) (hnum : numeric s.rest = true) (hs : step t s = some s') :
    ∃ u', ThreadedSum.step numbers (.thread t) u = some u' ∧ s'.Same numbers u' := by
  rcases Option.map_eq_some_iff.mp hs with ⟨r,hr,rfl⟩
  rcases (h.thread t).step hnum h.rest hr with ⟨vt,next,hv,hsame,hrest⟩
  refine ⟨{ u.setThread t vt with next := next },by rw [ThreadedSum.step,hv]; rfl,fun v => ?_,hrest⟩
  by_cases hvt : v = t
  · subst hvt
    simpa [ThreadedSum.State.setThread] using hsame
  · simpa [ThreadedSum.State.setThread,hvt] using h.thread v

theorem run_create (n : ℕ) (numbers : List ℤ) {i : ℕ} (hi : i ≤ n) :
    ∃ u, (ThreadedSum.summer n numbers).run (List.replicate i .main) (ThreadedSum.init n) =
      some u ∧ u.main = .create i ∧ u.next = 0 ∧
      ∀ t : Fin n, u.threads t = ⟨if t < i then .add else .unborn,0,0,0,0,none,[]⟩ := by
  induction i with
  | zero => exact ⟨_,rfl,rfl,rfl,fun t => by simp [ThreadedSum.init]⟩
  | succ i ih =>
    rcases ih (by omega) with ⟨u,hu,hmain,hnext,hthreads⟩
    refine ⟨{ u.setThread ⟨i,hi⟩ (u.threads ⟨i,hi⟩).begin with main := .create (i+1) },?_,rfl,
      hnext,fun t => ?_⟩
    · rw [List.replicate_succ']
      refine System.run_concat_eq_some.mpr ⟨u,hu,?_⟩
      simp [ThreadedSum.summer,ThreadedSum.step,ThreadedSum.mainStep,hmain,show i < n from hi]
    · by_cases ht : t = ⟨i,hi⟩
      · subst ht
        simp [ThreadedSum.State.setThread,ThreadedSum.Thread.begin,hthreads]
      · have hne : (t : ℕ) ≠ i := fun heq => ht (Fin.ext heq)
        have hlt : (t : ℕ) < i+1 ↔ (t : ℕ) < i := by omega
        simp [ThreadedSum.State.setThread,ht,hthreads,hlt]

theorem run_refines {as : List (Fin n)} {s s' : Threads n} {u : ThreadedSum.State n}
    (hfresh : s.Fresh) (hsame : s.Same numbers u) (hr : (summer n input).run as s = some s') :
    ∃ v, (ThreadedSum.summer n numbers).run (as.map .thread) u = some v ∧ s'.Same numbers v := by
  induction as generalizing s u with
  | nil =>
    cases hr
    exact ⟨u,rfl,hsame⟩
  | cons t as ih =>
    rcases System.run_cons_eq_some.mp hr with ⟨s₁,hs,hrest⟩
    rcases hsame.step hfresh.rest hs with ⟨u₁,hu,hsame₁⟩
    rcases ih (hfresh.step hs).1 hsame₁ hrest with ⟨v,hv,hlast⟩
    exact ⟨v,System.run_cons_eq_some.mpr ⟨u₁,hu,hv⟩,hlast⟩

/-- Every run over numeric input is, after the threads have been created, one over its numbers. -/
theorem summer_refines (hnum : numeric input = true) {as : List (Fin n)} {s : Threads n}
    (hr : (summer n input).run as (summer n input).start = some s) :
    ∃ u, (ThreadedSum.summer n (values input)).run
        (List.replicate n .main ++ as.map .thread) (ThreadedSum.init n) = some u ∧
      s.Same (values input) u := by
  rcases run_create n (values input) (Nat.le_refl n) with ⟨u,hu,-,hnext,hthreads⟩
  have hstart : (summer n input).start.Same (values input) u := by
    refine ⟨fun t => ?_,by rw [hnext]; rfl⟩
    rw [hthreads,if_pos t.isLt]
    exact ⟨rfl,rfl,rfl,rfl,rfl⟩
  rcases run_refines (fresh_invariant hnum).start hstart hr with ⟨v,hv,hsame⟩
  exact ⟨v,System.run_trans hu hv,hsame⟩

end Stream

/-! The calls of `inf18-0.c`. Each thread waits for the one that it has created, so that they are
the calls of a recursion. -/

/-- The variable of a call, and whether `scanf` has stored a value in it -/
structure Frame where
  current : ℤ
  stored : Bool

/-- What is left of the input, the calls that wait for their thread, the newest first, whether the
thread of that one has ended, and what has been printed -/
structure Calls where
  rest : List UInt8
  frames : List Frame
  returning : Bool
  output : List ℤ

/-- Up to the next call of `scanf` or of `printf`, with what a new variable is -/
def readAndWrite (junk : ℕ → ℤ) (s : Calls) : Option Calls :=
  if s.returning then
    match s.frames with
    | [] => none
    | f :: frames => some { s with frames := frames, output := s.output ++ [f.current] }
  else
    let result := scanInt s.rest
    if result.ret ≠ EOF then
      let frame := ⟨result.assign (junk s.frames.length),result.ret = 1⟩
      some { s with rest := result.rest, frames := frame :: s.frames }
    else some { s with rest := result.rest, returning := true }

def reverser (junk : ℕ → ℤ) (input : List UInt8) : System Calls Unit :=
  ⟨⟨input,[],false,[]⟩,fun _ => readAndWrite junk⟩

/-- `current` is to be printed, and `scanf` has stored nothing in it. -/
def Calls.Stale (s : Calls) : Prop :=
  s.returning = true ∧ ∃ f ∈ s.frames.head?, f.stored = false

section Calls

variable {junk : ℕ → ℤ} {input : List UInt8} {s s' : Calls}

theorem readAndWrite_cases (h : readAndWrite junk s = some s') :
    (s.returning = true ∧ ∃ f frames, s.frames = f :: frames ∧
      s' = { s with frames := frames, output := s.output ++ [f.current] }) ∨
    (s.returning = false ∧ ∃ v rest, scanInt s.rest = .value v rest ∧
      s' = { s with rest := rest, frames := ⟨v,true⟩ :: s.frames }) ∨
    (s.returning = false ∧ ∃ rest, scanInt s.rest = .mismatch rest ∧
      s' = { s with rest := rest, frames := ⟨junk s.frames.length,false⟩ :: s.frames }) ∨
    (s.returning = false ∧ scanInt s.rest = .eof ∧
      s' = { s with rest := [], returning := true }) := by
  unfold readAndWrite at h
  cases hreturning : s.returning with
  | true =>
    rw [if_pos hreturning] at h
    split at h
    · cases h
    · rename_i f frames hframes
      cases h
      exact .inl ⟨rfl,f,frames,hframes,by rw [hreturning]⟩
  | false =>
    rw [if_neg (by simp [hreturning])] at h
    cases hscan : scanInt s.rest with
    | value v rest =>
      simp only [hscan,Result.ret_eq_EOF,ne_eq,reduceCtorEq,not_false_eq_true,if_true] at h
      cases h
      exact .inr (.inl ⟨rfl,v,rest,rfl,by rw [hreturning]; rfl⟩)
    | mismatch rest =>
      simp only [hscan,Result.ret_eq_EOF,ne_eq,reduceCtorEq,not_false_eq_true,if_true] at h
      cases h
      exact .inr (.inr (.inl ⟨rfl,rest,rfl,by rw [hreturning]; rfl⟩))
    | eof =>
      simp only [hscan,Result.ret_eq_EOF,ne_eq,not_true_eq_false,if_false] at h
      cases h
      exact .inr (.inr (.inr ⟨rfl,rfl,rfl⟩))

/-- The values that have been read are in the frames, or printed, and the rest of them is still in
the input. -/
structure Calls.Fresh (input : List UInt8) (s : Calls) : Prop where
  rest : numeric s.rest = true
  stored : ∀ f ∈ s.frames, f.stored = true
  values : if s.returning then
      s.output ++ s.frames.map Frame.current = (values input).reverse
    else s.output = [] ∧ (s.frames.map Frame.current).reverse ++ values s.rest = values input

def Calls.rank (s : Calls) : ℕ :=
  s.frames.length + if s.returning then 0 else 2*s.rest.length+1

theorem Calls.Fresh.step (h : s.Fresh input) (hs : readAndWrite junk s = some s') :
    s'.Fresh input ∧ s'.rank < s.rank := by
  have hvalues := h.values
  have hscanned := scanInt_scanned s.rest
  rcases readAndWrite_cases hs with ⟨hreturning,f,frames,hframes,rfl⟩ |
    ⟨hreturning,v,rest,hscan,rfl⟩ | ⟨hreturning,rest,hscan,rfl⟩ | ⟨hreturning,hscan,rfl⟩
  · rw [if_pos hreturning,hframes] at hvalues
    refine ⟨⟨h.rest,fun g hg => h.stored g (by rw [hframes]; exact .tail f hg),?_⟩,?_⟩
    · simpa [hreturning] using hvalues
    · simp [rank,hframes,hreturning]
  · rw [hscan] at hscanned
    simp only [hreturning,Bool.false_eq_true,if_false] at hvalues
    cases hscanned with
    | value hlt hrest =>
      refine ⟨⟨hrest.trans h.rest,?_,?_⟩,?_⟩
      · simpa using h.stored
      · simpa [hreturning,values_of_value hscan] using hvalues
      · simp only [rank,hreturning,Bool.false_eq_true,if_false,List.length_cons]
        omega
  · rw [hscan] at hscanned
    cases hscanned with
    | mismatch hnot =>
      rw [h.rest] at hnot
      cases hnot
  · simp only [hreturning,Bool.false_eq_true,if_false,values_of_eof hscan,List.append_nil]
      at hvalues
    refine ⟨⟨rfl,h.stored,?_⟩,?_⟩
    · rw [if_pos rfl,hvalues.1,← hvalues.2,List.reverse_reverse,List.nil_append]
    · simp [rank,hreturning]

theorem calls_invariant (junk : ℕ → ℤ) (hnum : numeric input = true) :
    (reverser junk input).Invariant (Calls.Fresh input) where
  start := ⟨hnum,by simp [reverser],by simp [reverser]⟩
  step h hs := (h.step hs).1

theorem reverser_sound (junk : ℕ → ℤ) (hnum : numeric input = true) :
    Sound (reverser junk input) Calls.Stale where
  bounded := (calls_invariant junk hnum).bounded Calls.rank fun h hs => (h.step hs).2
  fresh s hs := by
    rintro ⟨-,f,hf,hstored⟩
    have htrue := ((calls_invariant junk hnum).reachable hs).stored f (List.mem_of_mem_head? hf)
    rw [hstored] at htrue
    cases htrue

/-- Some call does not find a number, and still waits. -/
def Calls.Unread (s : Calls) : Prop := ∃ f ∈ s.frames, f.stored = false

theorem readAndWrite_scan (junk : ℕ → ℤ) (hreturning : s.returning = false)
    (hmore : scanInt s.rest ≠ .eof) : readAndWrite junk s = some { s with
      rest := (scanInt s.rest).rest
      frames := ⟨(scanInt s.rest).assign (junk s.frames.length),(scanInt s.rest).ret = 1⟩ ::
        s.frames } := by
  simp [readAndWrite,hreturning,hmore]

theorem exists_unread (junk : ℕ → ℤ) (input : List UInt8) (hreturning : s.returning = false)
    (hnum : numeric s.rest = false) :
    ∃ as s', (reverser junk input).run as s = some s' ∧ s'.Unread := by
  induction hlen : s.rest.length using Nat.strongRecOn generalizing s with
  | ind len ih =>
    have hscan := scanInt_scanned s.rest
    have hstep := readAndWrite_scan junk hreturning
    generalize scanInt s.rest = r at hscan hstep
    cases hscan with
    | @value v rest hlt hrest =>
      rw [hlen] at hlt
      rcases ih _ hlt (s := ⟨rest,⟨v,true⟩ :: s.frames,s.returning,s.output⟩) hreturning
        (hrest.trans hnum) rfl with ⟨as,u,hu,hunread⟩
      exact ⟨() :: as,u,System.run_cons_eq_some.mpr ⟨_,hstep (by simp),hu⟩,hunread⟩
    | mismatch hnot => exact ⟨[()],_,System.run_single (hstep (by simp)),_,.head _,rfl⟩
    | eof hend =>
      rw [hnum] at hend
      cases hend

theorem unread_closed (hfresh : ∀ s, (reverser junk input).Reachable s → ¬ s.Stale) :
    (reverser junk input).Closed fun s => (reverser junk input).Reachable s ∧ s.Unread where
  step := by
    intro a s s' h hs
    rcases h with ⟨hr,f,hf,hstored⟩
    refine ⟨hr.step hs,f,?_,hstored⟩
    rcases readAndWrite_cases hs with ⟨hreturning,g,frames,hframes,rfl⟩ | ⟨-,-,-,-,rfl⟩ |
      ⟨-,-,-,rfl⟩ | ⟨-,-,rfl⟩
    · rw [hframes] at hf
      cases hf with
      | head => exact absurd ⟨hreturning,f,by simp [hframes],hstored⟩ (hfresh s hr)
      | tail _ hf => exact hf
    · exact .tail _ hf
    · exact .tail _ hf
    · exact hf

theorem frames_of_stuck (h : (reverser junk input).Stuck s) :
    s.returning = true ∧ s.frames = [] := by
  have hnone : readAndWrite junk s = none := h ()
  unfold readAndWrite at hnone
  cases hreturning : s.returning with
  | true =>
    rw [if_pos hreturning] at hnone
    split at hnone
    · rename_i hframes
      exact ⟨rfl,hframes⟩
    · cases hnone
  | false =>
    rw [if_neg (by simp [hreturning])] at hnone
    dsimp only at hnone
    split at hnone <;> cases hnone

theorem numeric_of_reverser (h : Sound (reverser junk input) Calls.Stale) :
    numeric input = true := by
  by_contra hnum
  rw [Bool.not_eq_true] at hnum
  rcases exists_unread junk input (s := (reverser junk input).start) rfl hnum with ⟨as,s,hs,hunread⟩
  rcases h.bounded with ⟨bound,hbound⟩
  rcases System.exists_stuck_of_bounded hbound ⟨as,hs⟩ with ⟨bs,t,ht,hstuck⟩
  rcases ((unread_closed h.fresh).run ⟨⟨as,hs⟩,hunread⟩ ht).2 with ⟨f,hf,-⟩
  rw [(frames_of_stuck hstuck).2] at hf
  cases hf

theorem printed_backwards (junk : ℕ → ℤ) (hnum : numeric input = true)
    (hr : (reverser junk input).Reachable s) (hstuck : (reverser junk input).Stuck s) :
    s.output = (values input).reverse := by
  have hvalues := ((calls_invariant junk hnum).reachable hr).values
  rcases frames_of_stuck hstuck with ⟨hreturning,hframes⟩
  simpa [hreturning,hframes] using hvalues

end Calls

/-- Both programs read to the end of their input and use nothing but numbers from it, exactly if
there is nothing else in it. -/
theorem scan_loops_sound_iff (hn : 0 < n) (junk : ℕ → ℤ) (input : List UInt8) :
    (Sound (summer n input) Threads.Stale ↔ numeric input) ∧
    (Sound (reverser junk input) Calls.Stale ↔ numeric input) :=
  ⟨⟨numeric_of_summer hn,summer_sound⟩,⟨numeric_of_reverser,reverser_sound junk⟩⟩

/-- Two threads, and `12 -3` -/
theorem scan_loops_sound_two :
    (Sound (summer 2 [49,50,32,45,51]) Threads.Stale ↔ numeric [49,50,32,45,51]) ∧
    (Sound (reverser (fun _ => 0) [49,50,32,45,51]) Calls.Stale ↔ numeric [49,50,32,45,51]) :=
  scan_loops_sound_iff (by decide) (fun _ => 0) [49,50,32,45,51]

/-- A letter is never taken from the input, so that it is read again and again. -/
theorem run_letter (m : ℕ) : ∃ frames,
    (reverser (fun _ => 0) [97]).run (List.replicate m ()) ⟨[97],[],false,[]⟩ =
      some ⟨[97],frames,false,[]⟩ := by
  induction m with
  | zero => exact ⟨[],rfl⟩
  | succ m ih =>
    rcases ih with ⟨frames,hrun⟩
    rw [List.replicate_succ']
    exact ⟨_,System.run_concat_eq_some.mpr ⟨_,hrun,rfl⟩⟩

theorem letter_read_again : ¬ Sound (summer 1 [97]) Threads.Stale ∧
    ¬ Sound (reverser (fun _ => 0) [97]) Calls.Stale := by
  constructor
  · intro h
    exact h.fresh _ ⟨[0,0,0],rfl⟩ ⟨0,rfl,rfl⟩
  · intro h
    rcases h.bounded with ⟨bound,hbound⟩
    rcases run_letter (bound+1) with ⟨frames,hrun⟩
    have hle := hbound _ _ hrun
    rw [List.length_replicate] at hle
    omega

end ScanLoops
end SomeCode
