import SomeCode.Transition

/-! Processes that share pipes: descriptor tables, `fork`, `execlp`, `waitpid` and blocking reads
and writes. A program is the tree of its next system calls, so that a child of `fork` goes on
with the code that follows the call; nothing here depends on a particular program. -/
namespace SomeCode
namespace Processes

open Transition

/-- What a descriptor refers to; `other` is a file that is not one of the pipes made in the run. -/
inductive File
  | other (n : ℕ)
  | readEnd (pipe : ℕ)
  | writeEnd (pipe : ℕ)
  deriving DecidableEq

structure Entry where
  file : File
  cloexec : Bool
  deriving DecidableEq

/-- The slots of a descriptor table, by number -/
structure FdTable where
  slots : List (Option Entry)
  deriving DecidableEq

namespace FdTable

def get (t : FdTable) : ℤ → Option Entry
  | .ofNat n => t.slots.getD n none
  | .negSucc _ => none

def lowest (t : FdTable) : ℕ := t.slots.findIdx Option.isNone

def put (t : FdTable) (n : ℕ) (e : Option Entry) : FdTable :=
  ⟨(t.slots ++ List.replicate (n+1 - t.slots.length) none).set n e⟩

/-- A number that is not open is an error without effect. -/
def close (t : FdTable) : ℤ → FdTable
  | .ofNat n => t.put n none
  | .negSucc _ => t

def dup2 (t : FdTable) (old : ℤ) (new : ℕ) : FdTable :=
  match t.get old with
  | none => t
  | some e => if old = new then t else t.put new (some ⟨e.file,false⟩)

/-- `pipe2`: the table, and the numbers of the read end and of the write end -/
def pipe (t : FdTable) (cloexec : Bool) (x : ℕ) : FdTable × ℕ × ℕ :=
  let r := t.lowest
  let t := t.put r (some ⟨.readEnd x,cloexec⟩)
  let w := t.lowest
  (t.put w (some ⟨.writeEnd x,cloexec⟩),r,w)

/-- What is left open by `exec` -/
def exec (t : FdTable) : FdTable := ⟨t.slots.map fun e => e.filter fun e => !e.cloexec⟩

def holds (t : FdTable) (f : File) : Bool := t.slots.any fun e => e.any fun e => e.file = f

def file (t : FdTable) (fd : ℤ) : Option File := (t.get fd).map Entry.file

@[simp] theorem get_nil (fd : ℤ) : (⟨[]⟩ : FdTable).get fd = none := by
  cases fd <;> simp [get]

@[simp] theorem get_negSucc (t : FdTable) (n : ℕ) : t.get (.negSucc n) = none := rfl

theorem get_natCast (t : FdTable) (n : ℕ) : t.get n = t.slots.getD n none := rfl

theorem getD_append_replicate (l : List (Option Entry)) (k m : ℕ) :
    (l ++ List.replicate k none).getD m none = l.getD m none := by
  simp only [List.getD_eq_getElem?_getD,List.getElem?_append,List.getElem?_replicate]
  split
  · rfl
  · rw [List.getElem?_eq_none (by omega)]
    split <;> rfl

@[simp] theorem get_put (t : FdTable) (n : ℕ) (e : Option Entry) :
    (t.put n e).get = Function.update t.get n e := by
  funext fd
  cases fd with
  | negSucc m => rw [Function.update_of_ne (by omega)]; rfl
  | ofNat m =>
    by_cases h : m = n
    · subst h
      have hlt : m < (t.slots ++ List.replicate (m+1 - t.slots.length) none).length := by
        simp only [List.length_append,List.length_replicate]
        omega
      simp [get,put,List.getD_eq_getElem?_getD,List.getElem?_set_self hlt]
    · have hne : Int.ofNat m ≠ (n : ℤ) := fun he => h (Int.ofNat.inj he)
      rw [Function.update_of_ne hne]
      simp only [get,put,List.getD_eq_getElem?_getD,List.getElem?_set_ne (Ne.symm h)]
      rw [← List.getD_eq_getElem?_getD,getD_append_replicate,List.getD_eq_getElem?_getD]

@[simp] theorem get_close (t : FdTable) (fd : ℤ) :
    (t.close fd).get = Function.update t.get fd none := by
  cases fd with
  | ofNat n => exact get_put t n none
  | negSucc n =>
    symm
    exact Function.update_eq_self_iff.mpr rfl

theorem get_dup2 {t : FdTable} {old : ℤ} {n : ℕ} {e : Entry} (h : t.get old = some e)
    (hne : old ≠ n) : (t.dup2 old n).get = Function.update t.get n (some ⟨e.file,false⟩) := by
  simp [dup2,h,hne]

@[simp] theorem get_exec (t : FdTable) (fd : ℤ) :
    t.exec.get fd = (t.get fd).filter fun e => !e.cloexec := by
  cases fd with
  | negSucc n => rfl
  | ofNat n =>
    simp only [get,exec,List.getD_eq_getElem?_getD,List.getElem?_map]
    cases t.slots[n]? <;> rfl

theorem get_lowest (t : FdTable) : t.get t.lowest = none := by
  rw [get_natCast,List.getD_eq_getElem?_getD]
  by_cases h : t.lowest < t.slots.length
  · have hh : (t.slots[t.lowest]).isNone = true := List.findIdx_getElem
    rw [List.getElem?_eq_getElem h]
    simpa using hh
  · rw [List.getElem?_eq_none (by omega)]
    rfl

theorem holds_iff {t : FdTable} {f : File} :
    t.holds f = true ↔ ∃ fd e, t.get fd = some e ∧ e.file = f := by
  simp only [holds,List.any_eq_true,Option.any_eq_true,decide_eq_true_eq]
  constructor
  · rintro ⟨e,hm,e',rfl,hf⟩
    obtain ⟨n,hn⟩ := List.mem_iff_getElem?.mp hm
    exact ⟨(n : ℕ),e',by rw [get_natCast,List.getD_eq_getElem?_getD,hn]; rfl,hf⟩
  · rintro ⟨fd,e,he,hf⟩
    cases fd with
    | negSucc n => cases he
    | ofNat n =>
      refine ⟨some e,?_,e,rfl,hf⟩
      rw [List.mem_iff_getElem?]
      refine ⟨n,?_⟩
      simp only [get,List.getD_eq_getElem?_getD] at he
      cases hn : t.slots[n]? <;> simp_all

theorem get_pipe (t : FdTable) (c : Bool) (x : ℕ) : t.get (t.pipe c x).2.1 = none ∧
    t.get (t.pipe c x).2.2 = none ∧ (t.pipe c x).2.1 ≠ (t.pipe c x).2.2 ∧
    (t.pipe c x).1.get = Function.update (Function.update t.get (t.pipe c x).2.1
      (some ⟨.readEnd x,c⟩)) (t.pipe c x).2.2 (some ⟨.writeEnd x,c⟩) := by
  simp only [pipe]
  have hw := get_lowest (t.put t.lowest (some ⟨.readEnd x,c⟩))
  have hne : t.lowest ≠ (t.put t.lowest (some ⟨.readEnd x,c⟩)).lowest := by
    intro he
    rw [get_put,← he,Function.update_self] at hw
    cases hw
  rw [get_put,Function.update_of_ne (by exact_mod_cast hne.symm)] at hw
  exact ⟨get_lowest t,hw,hne,by simp⟩

theorem get_pipe_read (t : FdTable) (c : Bool) (x : ℕ) :
    (t.pipe c x).1.get (t.pipe c x).2.1 = some ⟨.readEnd x,c⟩ := by
  obtain ⟨-,-,hne,hget⟩ := get_pipe t c x
  rw [hget,Function.update_of_ne (by exact_mod_cast hne),Function.update_self]

theorem get_pipe_write (t : FdTable) (c : Bool) (x : ℕ) :
    (t.pipe c x).1.get (t.pipe c x).2.2 = some ⟨.writeEnd x,c⟩ := by
  obtain ⟨-,-,-,hget⟩ := get_pipe t c x
  rw [hget,Function.update_self]

theorem get_pipe_old {t : FdTable} {c : Bool} {x : ℕ} {fd : ℤ} {e : Entry} (h : t.get fd = some e) :
    (t.pipe c x).1.get fd = some e := by
  obtain ⟨hr,hw,-,hget⟩ := get_pipe t c x
  rw [hget,Function.update_of_ne,Function.update_of_ne,h]
  · rintro rfl
    simp [hr] at h
  · rintro rfl
    simp [hw] at h

theorem ne_of_get {t : FdTable} {f g : ℤ} {e e' : Entry} (hf : t.get f = some e)
    (hg : t.get g = some e') (hne : e ≠ e') : f ≠ g := by
  rintro rfl
  rw [hf] at hg
  exact hne (Option.some.inj hg)

end FdTable

inductive Op
  | read
  | write (n : ℕ)
  deriving DecidableEq

/-- The system calls of a program; `fork` goes on with 0 in the child, and `execlp` goes on only
where it fails. Programs to execute are known by their index. -/
inductive Prog
  | pipe (cloexec : Bool) (next : ℤ → ℤ → Prog)
  | dup2 (old : ℤ) (new : ℕ) (next : Prog)
  | close (fd : ℤ) (next : Prog)
  | fork (next : ℕ → Prog)
  | execlp (i : ℕ) (next : Prog)
  | waitpid (pid : ℕ) (next : Prog)
  | exit

/-- `n` rounds of a `for` loop whose counter starts at `i` -/
def Prog.loop {α : Type} (body : ℕ → α → (α → Prog) → Prog) : ℕ → ℕ → α → (α → Prog) → Prog
  | 0, _, x, next => next x
  | n+1, i, x, next => body i x fun y => loop body n (i+1) y next

inductive Code
  | main (p : Prog)
  | image (i : ℕ) (ops : List Op)
  | exited

structure Proc where
  parent : ℕ
  code : Code
  fds : FdTable
  reaped : Bool

/-- A program that was executed, with its standard input and output at that moment -/
structure Image where
  pid : ℕ
  prog : ℕ
  stdin : Option File
  stdout : Option File
  deriving DecidableEq

/-- `held` are the bytes in a pipe; `images` and `forks` record the programs executed and the
processes that called `fork`. -/
structure State where
  proc : ℕ → Option Proc
  nextPid : ℕ
  held : ℕ → ℕ
  nextPipe : ℕ
  images : List Image
  forks : List ℕ

structure Config where
  capacity : ℕ
  execs : ℕ → Bool
  script : ℕ → List Op

def State.setProc (s : State) (p : ℕ) (q : Proc) : State :=
  { s with proc := Function.update s.proc p (some q) }

def State.isOpen (s : State) (f : File) : Bool :=
  (List.range s.nextPid).any fun p => (s.proc p).any fun q => q.fds.holds f

def State.isChild (s : State) (p c : ℕ) : Bool :=
  (s.proc c).any fun q => q.parent = p ∧ q.reaped = false

def Proc.goto (q : Proc) (p : Prog) : Proc := { q with code := .main p }

def Proc.exit (q : Proc) : Proc := { q with code := .exited, fds := ⟨[]⟩ }

/-- Collect the child `c` of `p` if it has ended. -/
def reap (p c : ℕ) (q : Proc) (next : Prog) (s : State) : Option State :=
  match s.proc c with
  | some ⟨parent,.exited,fds,_⟩ =>
    some ((s.setProc c ⟨parent,.exited,fds,true⟩).setProc p (q.goto next))
  | _ => none

/-- A system call of process `p`; `choice` is the child that `waitpid` of 0 collects. -/
def syscall (cfg : Config) (p choice : ℕ) (q : Proc) (s : State) : Prog → Option State
  | .pipe cloexec next =>
    let (fds,r,w) := q.fds.pipe cloexec s.nextPipe
    some { s.setProc p { q with fds := fds, code := .main (next r w) } with
      nextPipe := s.nextPipe+1 }
  | .dup2 old new next => some (s.setProc p { q with fds := q.fds.dup2 old new, code := .main next })
  | .close fd next => some (s.setProc p { q with fds := q.fds.close fd, code := .main next })
  | .fork next =>
    some { (s.setProc p (q.goto (next s.nextPid))).setProc s.nextPid ⟨p,.main (next 0),q.fds,false⟩ with
      nextPid := s.nextPid+1, forks := p :: s.forks }
  | .execlp i next =>
    if cfg.execs i then
      let fds := q.fds.exec
      some { s.setProc p { q with fds := fds, code := .image i (cfg.script i) } with
        images := ⟨p,i,fds.file 0,fds.file 1⟩ :: s.images }
    else some (s.setProc p (q.goto next))
  | .waitpid pid next =>
    if pid ≠ 0 then
      if s.isChild p pid then reap p pid q next s else some (s.setProc p (q.goto next))
    else if (List.range s.nextPid).any (s.isChild p) then
      if s.isChild p choice then reap p choice q next s else none
    else some (s.setProc p (q.goto next))
  | .exit => some (s.setProc p q.exit)

/-- The next operation of an executed program. `choice` bytes are read or written, which blocks
while there are none, or no room; a read is at its end where the pipe has no writer left, and a
write to a pipe without a reader ends the process. -/
def operate (cfg : Config) (p choice : ℕ) (q : Proc) (i : ℕ) (s : State) : List Op → Option State
  | [] => some (s.setProc p q.exit)
  | .read :: ops =>
    let q' := { q with code := .image i ops }
    match q.fds.file 0 with
    | some (.readEnd x) =>
      if 0 < s.held x then
        if 1 ≤ choice ∧ choice ≤ s.held x then
          some { s.setProc p q' with held := Function.update s.held x (s.held x - choice) }
        else none
      else if s.isOpen (.writeEnd x) then none
      else some (s.setProc p q')
    | _ => some (s.setProc p q')
  | .write n :: ops =>
    match q.fds.file 1 with
    | some (.writeEnd x) =>
      if n = 0 then some (s.setProc p { q with code := .image i ops })
      else if s.isOpen (.readEnd x) then
        if 1 ≤ choice ∧ choice ≤ n ∧ s.held x + choice ≤ cfg.capacity then
          some { s.setProc p { q with code := .image i (.write (n-choice) :: ops) } with
            held := Function.update s.held x (s.held x + choice) }
        else none
      else some (s.setProc p q.exit)
    | _ => some (s.setProc p { q with code := .image i ops })

/-- Process `a.1` takes its next step, and `a.2` is what the kernel chooses in it. -/
def step (cfg : Config) (a : ℕ × ℕ) (s : State) : Option State :=
  match s.proc a.1 with
  | none => none
  | some q =>
    match q.code with
    | .main p => syscall cfg a.1 a.2 q s p
    | .image i ops => operate cfg a.1 a.2 q i s ops
    | .exited => none

/-- The first process has the number 1. -/
def init (fds : FdTable) (p : Prog) : State where
  proc := Function.update (fun _ => none) 1 (some ⟨0,.main p,fds,false⟩)
  nextPid := 2
  held _ := 0
  nextPipe := 0
  images := []
  forks := []

def system (cfg : Config) (fds : FdTable) (p : Prog) : System State (ℕ × ℕ) :=
  ⟨init fds p,step cfg⟩

def State.code (s : State) (p : ℕ) : Option Code := (s.proc p).map Proc.code

section Step

variable {cfg : Config} {p choice : ℕ} {q : Proc} {s t : State}

@[simp] theorem setProc_proc (s : State) (p : ℕ) (q : Proc) :
    (s.setProc p q).proc = Function.update s.proc p (some q) := rfl

theorem code_eq_some (h : s.proc p = some q) : s.code p = some q.code := by
  simp [State.code,h]

theorem code_of_proc {v : State} (h : v.proc = Function.update s.proc p (some q)) :
    v.code = Function.update s.code p (some q.code) := by
  funext c
  by_cases hc : c = p
  · subst hc
    simp [State.code,h]
  · simp [State.code,h,hc]

theorem code_self {v : State} (h : v.proc = Function.update s.proc p (some q)) :
    v.code p = some q.code := by
  rw [code_of_proc h,Function.update_self]

theorem code_setProc (s : State) (p : ℕ) (q : Proc) :
    (s.setProc p q).code = Function.update s.code p (some q.code) :=
  code_of_proc rfl

theorem reap_cases {c : ℕ} {next : Prog} (hp : s.proc p = some q) (hq : q.code ≠ .exited)
    (h : reap p c q next s = some t) : ∃ child, c ≠ p ∧ s.proc c = some child ∧
      child.code = .exited ∧ t = (s.setProc c { child with reaped := true }).setProc p (q.goto next) := by
  unfold reap at h
  split at h
  · rename_i parent fds reaped hc
    cases h
    refine ⟨_,?_,hc,rfl,rfl⟩
    rintro rfl
    rw [hp] at hc
    cases hc
    exact hq rfl
  · cases h

theorem code_reap {c : ℕ} {child : Proc} {next : Prog} (hne : c ≠ p) (hc : s.proc c = some child) :
    ((s.setProc c { child with reaped := true }).setProc p (q.goto next)).code =
      Function.update s.code p (some (.main next)) := by
  funext d
  by_cases hd : d = p
  · subst hd
    simp [State.code,Proc.goto]
  · by_cases hdc : d = c
    · subst hdc
      simp [State.code,hd,hc]
    · simp [State.code,hd,hdc]

/-- What an operation does: every step of an executed program is one of these. -/
inductive Operated (cfg : Config) (p choice : ℕ) (q : Proc) (i : ℕ) (s : State) :
    List Op → State → Prop
  | done : Operated cfg p choice q i s [] (s.setProc p q.exit)
  /-- From a plain file, or at the end of the pipe -/
  | read {ops : List Op} :
      Operated cfg p choice q i s (.read :: ops) (s.setProc p { q with code := .image i ops })
  | take {ops : List Op} {x : ℕ} (hin : q.fds.file 0 = some (.readEnd x)) (hpos : 1 ≤ choice)
      (hle : choice ≤ s.held x) : Operated cfg p choice q i s (.read :: ops)
        { s.setProc p { q with code := .image i ops } with
          held := Function.update s.held x (s.held x - choice) }
  /-- To a plain file, or no bytes -/
  | write {ops : List Op} {n : ℕ} (h : n = 0 ∨ ∀ x, q.fds.file 1 ≠ some (.writeEnd x)) :
      Operated cfg p choice q i s (.write n :: ops) (s.setProc p { q with code := .image i ops })
  | put {ops : List Op} {n x : ℕ} (hout : q.fds.file 1 = some (.writeEnd x)) (hpos : 1 ≤ choice)
      (hle : choice ≤ n) (hroom : s.held x + choice ≤ cfg.capacity) :
      Operated cfg p choice q i s (.write n :: ops)
        { s.setProc p { q with code := .image i (.write (n-choice) :: ops) } with
          held := Function.update s.held x (s.held x + choice) }
  | sigpipe {ops : List Op} {n x : ℕ} (hout : q.fds.file 1 = some (.writeEnd x))
      (hclosed : s.isOpen (.readEnd x) = false) :
      Operated cfg p choice q i s (.write n :: ops) (s.setProc p q.exit)

theorem operated_of_some {i : ℕ} {ops : List Op} (h : operate cfg p choice q i s ops = some t) :
    Operated cfg p choice q i s ops t := by
  unfold operate at h
  split at h
  · cases h
    exact .done
  · simp only at h
    split at h
    · split at h
      · split at h
        · rename_i hin _ hc
          cases h
          exact .take hin hc.1 hc.2
        · cases h
      · split at h
        · cases h
        · cases h
          exact .read
    · cases h
      exact .read
  · split at h
    · split at h
      · cases h
        exact .write (.inl ‹_›)
      · split at h
        · split at h
          · rename_i hout _ _ hc
            cases h
            exact .put hout hc.1 hc.2.1 hc.2.2
          · cases h
        · rename_i hout _ hopen
          cases h
          exact .sigpipe hout (by simpa using hopen)
    · rename_i hout
      cases h
      exact .write (.inr hout)

/-- An executed program goes on with its operations or ends, and calls nothing else. -/
theorem operate_cases {i : ℕ} {ops : List Op} (h : operate cfg p choice q i s ops = some t) :
    ∃ q', t.proc = Function.update s.proc p (some q') ∧ q'.parent = q.parent ∧
      q'.reaped = q.reaped ∧ (q'.code = .exited ∧ q'.fds = ⟨[]⟩ ∨
        (∃ ops', q'.code = .image i ops') ∧ q'.fds = q.fds) ∧
      t.nextPid = s.nextPid ∧ t.nextPipe = s.nextPipe ∧ t.images = s.images ∧ t.forks = s.forks := by
  cases operated_of_some h with
  | done | sigpipe => exact ⟨q.exit,rfl,rfl,rfl,.inl ⟨rfl,rfl⟩,rfl,rfl,rfl,rfl⟩
  | read | take | write | put => exact ⟨_,rfl,rfl,rfl,.inr ⟨⟨_,rfl⟩,rfl⟩,rfl,rfl,rfl,rfl⟩

/-- A program that waits for bytes, or for room -/
def Blocked (cfg : Config) (q : Proc) (s : State) : List Op → Prop
  | [] => False
  | .read :: _ => ∃ x, q.fds.file 0 = some (.readEnd x) ∧ s.held x = 0 ∧
    s.isOpen (.writeEnd x) = true
  | .write n :: _ => ∃ x, q.fds.file 1 = some (.writeEnd x) ∧ n ≠ 0 ∧
    s.isOpen (.readEnd x) = true ∧ cfg.capacity ≤ s.held x

theorem blocked_of_none {i : ℕ} {ops : List Op}
    (h : ∀ choice, operate cfg p choice q i s ops = none) : Blocked cfg q s ops := by
  have h1 := h 1
  match ops with
  | [] => simp [operate] at h1
  | .read :: ops =>
    cases hin : q.fds.file 0 with
    | none => simp [operate,hin] at h1
    | some f =>
      cases f with
      | other n | writeEnd x => simp [operate,hin] at h1
      | readEnd x =>
        simp only [operate,hin] at h1
        split at h1
        · rw [if_pos ⟨Nat.le_refl 1,‹_›⟩] at h1
          cases h1
        · split at h1
          · exact ⟨x,hin,by omega,‹_›⟩
          · cases h1
  | .write n :: ops =>
    cases hout : q.fds.file 1 with
    | none => simp [operate,hout] at h1
    | some f =>
      cases f with
      | other n | readEnd x => simp [operate,hout] at h1
      | writeEnd x =>
        simp only [operate,hout] at h1
        split at h1
        · cases h1
        · split at h1
          · split at h1
            · cases h1
            · exact ⟨x,hout,‹_›,‹_›,by omega⟩
          · cases h1

theorem waitpid_cases {pid : ℕ} {next : Prog} (hp : s.proc p = some q)
    (hq : q.code ≠ .exited) (h : syscall cfg p choice q s (.waitpid pid next) = some t) :
    t.code = Function.update s.code p (some (.main next)) ∧ t.held = s.held ∧
      t.nextPid = s.nextPid ∧ t.images = s.images ∧ t.forks = s.forks := by
  have hgo : (s.setProc p (q.goto next)).code = Function.update s.code p (some (.main next)) :=
    code_of_proc (q := q.goto next) rfl
  have hreap : ∀ c u, reap p c q next s = some u →
      u.code = Function.update s.code p (some (.main next)) ∧ u.held = s.held ∧
        u.nextPid = s.nextPid ∧ u.images = s.images ∧ u.forks = s.forks := by
    intro c u hu
    obtain ⟨child,hne,hc,-,rfl⟩ := reap_cases hp hq hu
    exact ⟨code_reap hne hc,rfl,rfl,rfl,rfl⟩
  simp only [syscall] at h
  repeat' split at h
  · exact hreap _ _ h
  · cases h
    exact ⟨hgo,rfl,rfl,rfl,rfl⟩
  · exact hreap _ _ h
  · cases h
  · cases h
    exact ⟨hgo,rfl,rfl,rfl,rfl⟩

/-- A system call of a process leaves the pipes as full as they are and the code of the others
alone; the child of a `fork` starts with code of the caller. -/
theorem syscall_frame {prog : Prog} (hp : s.proc p = some q) (hq : q.code ≠ .exited)
    (h : syscall cfg p choice q s prog = some t) : t.held = s.held ∧
      (∀ c ≠ p, c ≠ s.nextPid → t.code c = s.code c) ∧
      (t.nextPid = s.nextPid ∨ ∃ next, t.code s.nextPid = some (.main next)) := by
  have hset : ∀ {q' : Proc} {v : State}, v.proc = Function.update s.proc p (some q') →
      ∀ c ≠ p, c ≠ s.nextPid → v.code c = s.code c := by
    intro q' v hv c hc _
    rw [code_of_proc hv,Function.update_of_ne hc]
  cases prog with
  | pipe | dup2 | close | exit =>
    cases h
    exact ⟨rfl,hset rfl,.inl rfl⟩
  | fork next =>
    cases h
    refine ⟨rfl,fun c hc hcn => ?_,.inr ⟨next 0,by simp [State.code]⟩⟩
    simp [State.code,hc,hcn]
  | execlp i next =>
    simp only [syscall] at h
    split at h
    all_goals
      cases h
      exact ⟨rfl,hset rfl,.inl rfl⟩
  | waitpid pid next =>
    obtain ⟨hcode,hheld,hpid,-⟩ := waitpid_cases hp hq h
    refine ⟨hheld,fun c hc _ => ?_,.inl hpid⟩
    rw [hcode,Function.update_of_ne hc]

theorem exists_proc_of_step (h : step cfg (p,choice) s = some t) : ∃ q, s.proc p = some q := by
  cases hp : s.proc p with
  | none => simp [step,hp] at h
  | some q => exact ⟨q,rfl⟩

theorem isOpen_iff {f : File} : s.isOpen f = true ↔
    ∃ p < s.nextPid, ∃ q, s.proc p = some q ∧ q.fds.holds f = true := by
  simp [State.isOpen,Option.any_eq_true]

theorem isOpen_eq_false {f : File} : s.isOpen f = false ↔
    ∀ p < s.nextPid, ∀ q, s.proc p = some q → q.fds.holds f = false := by
  simp [State.isOpen,Option.any_eq_false]

theorem step_read_eof {p choice a x : ℕ} {q : Proc} {ops : List Op} (hq : s.proc p = some q)
    (hcode : q.code = .image a (.read :: ops)) (hin : q.fds.get 0 = some ⟨.readEnd x,false⟩)
    (hheld : s.held x = 0) (hopen : s.isOpen (.writeEnd x) = false) :
    step cfg (p,choice) s = some (s.setProc p { q with code := .image a ops }) := by
  simp [step,hq,hcode,operate,FdTable.file,hin,hheld,hopen]

end Step

end Processes
end SomeCode
