import SomeCode.X64

/-! `_start` of `inf07-2.s` copies the standard input to the standard output byte by byte, and the
loop of `inf07-1.c` and `inf09-0.c` does the same in C. Only a `read` that returns 0 ends them. -/
namespace SomeCode
namespace ByteCopier

open ByteMemory MachineCode

/-- What a `read` of one byte may come to -/
inductive Answer
  | byte (b : BitVec 8)
  | eof
  | error (e : Fin 4095)

def Answer.ret : Answer → BitVec 64
  | byte _ => 1
  | eof => 0
  | error e => -BitVec.ofNat 64 (e+1)

/-- The byte of the buffer behind the call, when `old` has been in it -/
def Answer.store (old : BitVec 8) : Answer → BitVec 8
  | byte b => b
  | _ => old

theorem Answer.ret_eq_zero_iff {a : Answer} : a.ret = 0 ↔ a = .eof := by
  cases a with
  | byte b => simp [ret]
  | eof => simp [ret]
  | error e =>
    have hlt := e.isLt
    have hne : BitVec.ofNat 64 (e+1) ≠ 0 := by
      intro h
      have hnat := congrArg BitVec.toNat h
      rw [BitVec.toNat_ofNat,Nat.mod_eq_of_lt (by omega)] at hnat
      exact absurd hnat (Nat.succ_ne_zero _)
    simpa [ret] using hne

/-! The loop in C -/

/-- `read` is called for the `k`-th time; the result is what has been written at the end. -/
def copyLoop (answers : ℕ → Answer) : ℕ → ℕ → BitVec 8 → List (BitVec 8) → Option (List (BitVec 8))
  | 0, _, _, _ => none
  | fuel+1, k, buffer, out =>
    if (answers k).ret ≠ 0 then
      let read := (answers k).store buffer
      copyLoop answers fuel (k+1) read (out ++ [read])
    else some out

/-- The loop ends, and has written these bytes. -/
def Copies (answers : ℕ → Answer) (buffer : BitVec 8) (out : List (BitVec 8)) : Prop :=
  ∃ fuel, copyLoop answers fuel 0 buffer [] = some out

def last (answers : ℕ → Answer) (buffer : BitVec 8) : ℕ → BitVec 8
  | 0 => buffer
  | n+1 => (answers n).store (last answers buffer n)

def written (answers : ℕ → Answer) (buffer : BitVec 8) (n : ℕ) : List (BitVec 8) :=
  (List.range n).map fun i => last answers buffer (i+1)

/-- The bytes that have come with the first `n` calls -/
def received (answers : ℕ → Answer) (n : ℕ) : List (BitVec 8) :=
  (List.range n).filterMap fun i =>
    match answers i with
    | .byte b => some b
    | _ => none

/-- The input ends with call `n`, and not before. -/
def EndsAt (answers : ℕ → Answer) (n : ℕ) : Prop :=
  answers n = .eof ∧ ∀ i < n, answers i ≠ .eof

variable {answers : ℕ → Answer} {buffer : BitVec 8} {n : ℕ}

theorem written_succ : written answers buffer (n+1) =
    written answers buffer n ++ [(answers n).store (last answers buffer n)] := by
  rw [written,List.range_succ,List.map_append]
  rfl

theorem EndsAt.unique {m : ℕ} (h : EndsAt answers m) (h' : EndsAt answers n) : m = n := by
  rcases lt_trichotomy m n with hlt | heq | hgt
  · exact absurd h.1 (h'.2 m hlt)
  · exact heq
  · exact absurd h'.1 (h.2 n hgt)

theorem copyLoop_eq {k : ℕ} (hk : ∀ i < k, answers i ≠ .eof) {fuel : ℕ} {out : List (BitVec 8)} :
    copyLoop answers fuel k (last answers buffer k) (written answers buffer k) = some out ↔
      ∃ n, k ≤ n ∧ n < k+fuel ∧ EndsAt answers n ∧ out = written answers buffer n := by
  induction fuel generalizing k with
  | zero => simp [copyLoop]; omega
  | succ fuel ih =>
    by_cases heof : answers k = .eof
    · have hends : EndsAt answers k := ⟨heof,hk⟩
      rw [copyLoop,if_neg (not_not.2 (Answer.ret_eq_zero_iff.2 heof)),Option.some_inj]
      constructor
      · rintro rfl
        exact ⟨k,le_rfl,by omega,hends,rfl⟩
      · rintro ⟨n,-,-,hn,rfl⟩
        rw [hends.unique hn]
    · have hk' : ∀ i < k+1, answers i ≠ .eof := by
        intro i hi
        rcases Nat.lt_succ_iff_lt_or_eq.1 hi with hlt | rfl
        · exact hk i hlt
        · exact heof
      rw [copyLoop,if_pos (mt Answer.ret_eq_zero_iff.1 heof)]
      dsimp only
      rw [← written_succ]
      apply (ih hk').trans
      constructor
      · rintro ⟨n,hkn,hn,hends,hout⟩
        exact ⟨n,by omega,by omega,hends,hout⟩
      · rintro ⟨n,hkn,hn,hends,hout⟩
        have hne : n ≠ k := by
          rintro rfl
          exact heof hends.1
        exact ⟨n,by omega,by omega,hends,hout⟩

/-- The loop ends exactly where the input does. -/
theorem copies_iff {out : List (BitVec 8)} :
    Copies answers buffer out ↔ ∃ n, EndsAt answers n ∧ out = written answers buffer n := by
  have hloop := fun fuel => @copyLoop_eq answers buffer 0
    (fun i hi => absurd hi (Nat.not_lt_zero i)) fuel out
  constructor
  · rintro ⟨fuel,h⟩
    rcases (hloop fuel).1 h with ⟨n,-,-,hends,hout⟩
    exact ⟨n,hends,hout⟩
  · rintro ⟨n,hends,hout⟩
    exact ⟨n+1,(hloop (n+1)).2 ⟨n,Nat.zero_le n,by omega,hends,hout⟩⟩

/-- Three bytes, or two with a failing `read` between them, and the end of the input -/
def sample (fails : Bool) : ℕ → Answer
  | 0 => .byte 97
  | 1 => if fails then .error ⟨3,by decide⟩ else .byte 98
  | 2 => .byte 99
  | _ => .eof

theorem sample_endsAt (fails : Bool) : EndsAt (sample fails) 3 := by
  refine ⟨rfl,fun i hi => ?_⟩
  interval_cases i <;> cases fails <;> simp [sample]

/-- What the kernel does with the system calls: it answers the reads of a byte from the standard
input, and returns something from the writes and from the other calls. -/
structure Kernel where
  answers : ℕ → Answer
  writes : ℕ → BitVec 64
  others : X64.State → BitVec 64
  rcx : X64.State → BitVec 64
  r11 : X64.State → BitVec 64

structure State extends X64.State where
  reads : ℕ
  out : List (BitVec 8)

def SYS_read : BitVec 64 := 0
def SYS_write : BitVec 64 := 1
def SYS_exit : BitVec 64 := 60

/-- `syscall` returns a value in `rax`, and leaves something in `rcx` and `r11`. -/
def Kernel.result (K : Kernel) (s : X64.State) (v : BitVec 64) : X64.State :=
  ((s.set .rcx (K.rcx s)).set .r11 (K.r11 s)).set .rax v

def Kernel.syscall (K : Kernel) (s : State) : State :=
  let number := s.reg .rax
  let fd := s.reg .rdi
  let buf := s.reg .rsi
  if number = SYS_read ∧ fd = 0 ∧ s.reg .rdx = 1 then
    let answer := K.answers s.reads
    let s' := K.result s.toState answer.ret
    { toState := { s' with mem := Function.update s'.mem buf (answer.store (s'.mem buf)) }
      reads := s.reads+1
      out := s.out }
  else if number = SYS_write ∧ fd = 1 ∧ s.reg .rdx = 1 then
    { toState := K.result s.toState (K.writes s.out.length)
      reads := s.reads
      out := s.out ++ [s.mem buf] }
  else { s with toState := K.result s.toState (K.others s.toState) }

inductive Op
  | base (o : X64.Op)
  | syscall

/-- `zero` is the condition of `jz`. -/
inductive Cond
  | always | zero

def exec (K : Kernel) : Op → State → State
  | .base o, s => { s with toState := X64.exec o s.toState }
  | .syscall, s => K.syscall s

def Cond.holds : Cond → State → Bool
  | .always, _ => true
  | .zero, s => s.flags.zf

/-- The program is left with the last `syscall`, and the status is in `rdi`. -/
def isa (K : Kernel) : Isa Op Cond State (BitVec 64) where
  exec := exec K
  holds := Cond.holds
  leave s := (s.reg .rdi,s)

/-- `_start` of `inf07-2.s`. What stands behind the last `syscall` is never reached. -/
def start (char : BitVec 64) : List (Instr Op Cond) :=
  [.op (.base (.push .rax)),
   .op (.base (.push .rdx)),
   .op (.base (.push .rdi)),
   .op (.base (.mov .rsi (.imm char))),
   .op (.base (.mov .rdx (.imm 1))),
   -- .cycle
   .op (.base (.mov .rax (.imm SYS_read))),
   .op (.base (.mov .rdi (.imm 0))),
   .op .syscall,
   .op (.base (.cmp (.reg .rax) (.imm 0))),
   .branch .zero 14,
   .op (.base (.mov .rax (.imm SYS_write))),
   .op (.base (.mov .rdi (.imm 1))),
   .op .syscall,
   .branch .always 5,
   -- .end_of_cycle
   .op (.base (.mov .rax (.imm SYS_exit))),
   .ret]

/-- At `.cycle`, when `k` rounds are done -/
structure AtCycle (K : Kernel) (char : BitVec 64) (buffer : BitVec 8) (k : ℕ) (s : State) :
    Prop where
  rsi : s.reg .rsi = char
  rdx : s.reg .rdx = 1
  mem : s.mem char = last K.answers buffer k
  reads : s.reads = k
  out : s.out = written K.answers buffer k
  open_ : ∀ i < k, K.answers i ≠ .eof

structure AtEnd (K : Kernel) (buffer : BitVec 8) (n : ℕ) (s : State) : Prop where
  rdi : s.reg .rdi = 0
  out : s.out = written K.answers buffer n
  ends : EndsAt K.answers n

section Asm

variable {K : Kernel} {char : BitVec 64} {s : State}

theorem runs_ops (K : Kernel) (char : BitVec 64) (i : ℕ) (ops : List Op) (s : State)
    (h : ops.map Instr.op <+: (start char).drop i) : (isa K).Runs (start char) (.inside i s)
      (.inside (i+ops.length) ((isa K).execAll ops s)) :=
  Isa.Runs.ops ops h

def readOps : List Op :=
  [.base (.mov .rax (.imm SYS_read)),.base (.mov .rdi (.imm 0)),.syscall,
   .base (.cmp (.reg .rax) (.imm 0))]

def writeOps : List Op :=
  [.base (.mov .rax (.imm SYS_write)),.base (.mov .rdi (.imm 1)),.syscall]

theorem read_ops {k : ℕ} (h : AtCycle K char buffer k s) :
    let t := (isa K).execAll readOps s
    t.flags.zf = decide ((K.answers k).ret = 0) ∧ t.reg .rdi = 0 ∧ t.reg .rsi = char ∧
      t.reg .rdx = 1 ∧ t.mem char = last K.answers buffer (k+1) ∧ t.reads = k+1 ∧
      t.out = written K.answers buffer k := by
  simp [readOps,Isa.execAll,isa,exec,X64.exec,Kernel.syscall,Kernel.result,X64.Operand.value,
    SYS_read,X64.cmpFlags_zf,h.rsi,h.rdx,h.mem,h.reads,h.out,last]

theorem write_ops (hrsi : s.reg .rsi = char) (hrdx : s.reg .rdx = 1) :
    let t := (isa K).execAll writeOps s
    t.reg .rsi = char ∧ t.reg .rdx = 1 ∧ t.mem = s.mem ∧ t.reads = s.reads ∧
      t.out = s.out ++ [s.mem char] := by
  simp [writeOps,Isa.execAll,isa,exec,X64.exec,Kernel.syscall,Kernel.result,X64.Operand.value,
    SYS_read,SYS_write,hrsi,hrdx]

/-- A round reads, and then it ends the loop or writes and comes back. -/
theorem round {k : ℕ} (h : AtCycle K char buffer k s) : ∃ t,
    (isa K).Runs (start char) (.inside 5 s) (.inside 9 t) ∧
      ((∃ u, (isa K).Runs (start char) (.inside 9 t) (.inside 5 u) ∧
          AtCycle K char buffer (k+1) u ∧ K.answers k ≠ .eof) ∨
        ∃ u, (isa K).Runs (start char) (.inside 9 t) (.inside 14 u) ∧ AtEnd K buffer k u) := by
  rcases read_ops h with ⟨hzf,hrdi,hrsi,hrdx,hmem,hreads,hout⟩
  have hread := runs_ops K char 5 readOps s ⟨_,rfl⟩
  generalize (isa K).execAll readOps s = t at *
  have hat : (start char)[9]? = some (.branch .zero 14) := rfl
  apply Exists.intro t
  constructor
  · exact hread
  · by_cases heof : K.answers k = .eof
    · have hzero : (isa K).holds .zero t = true :=
        hzf.trans (decide_eq_true (Answer.ret_eq_zero_iff.2 heof))
      exact .inr ⟨t,Isa.Runs.taken hat hzero,hrdi,hout,heof,h.open_⟩
    · have hzero : (isa K).holds .zero t = false :=
        hzf.trans (decide_eq_false (mt Answer.ret_eq_zero_iff.1 heof))
      have hwrite := runs_ops K char 10 writeOps t ⟨_,rfl⟩
      have hback : ∀ u, (isa K).Runs (start char) (.inside 13 u) (.inside 5 u) :=
        fun u => Isa.Runs.taken rfl rfl
      rcases write_ops (K := K) hrsi hrdx with ⟨hrsi',hrdx',hmem',hreads',hout'⟩
      refine .inl ⟨_,(Isa.Runs.passed hat hzero).trans (hwrite.trans (hback _)),⟨hrsi',hrdx',?_,?_,
        ?_,?_⟩,heof⟩
      · rw [hmem',hmem]
      · rw [hreads',hreads]
      · rw [hout',hout,hmem,written_succ]
        rfl
      · intro i hi
        rcases Nat.lt_succ_iff_lt_or_eq.1 hi with hlt | rfl
        · exact h.open_ i hlt
        · exact heof

theorem enter (hreads : s.reads = 0) (hout : s.out = [])
    (hchar : ¬ Within (s.reg .rsp - 24) 24 char) :
    ∃ t, (isa K).Runs (start char) (.inside 0 s) (.inside 5 t) ∧
      AtCycle K char (s.mem char) 0 t := by
  have hops := runs_ops K char 0 [.base (.push .rax),.base (.push .rdx),.base (.push .rdi),
    .base (.mov .rsi (.imm char)),.base (.mov .rdx (.imm 1))] s ⟨_,rfl⟩
  have hmem : ∀ k : ℕ, k ≤ 16 → ¬ Within (s.reg .rsp - 24 + BitVec.ofNat 64 k) 8 char :=
    fun k hk h => hchar ((h.of_add (by omega)).mono (by omega))
  have h8 : s.reg .rsp - 8 = s.reg .rsp - 24 + BitVec.ofNat 64 16 := by bv_omega
  have h16 : s.reg .rsp - 8 - 8 = s.reg .rsp - 24 + BitVec.ofNat 64 8 := by bv_omega
  have h24 : s.reg .rsp - 8 - 8 - 8 = s.reg .rsp - 24 + BitVec.ofNat 64 0 := by bv_omega
  refine ⟨_,hops,⟨rfl,rfl,?_,hreads,hout,fun i hi => absurd hi (Nat.not_lt_zero i)⟩⟩
  change X64.setQword (X64.setQword (X64.setQword s.mem (s.reg .rsp - 8) _)
    (s.reg .rsp - 8 - 8) _) (s.reg .rsp - 8 - 8 - 8) _ char = s.mem char
  rw [h24,h16,h8]
  rw [X64.setQword,store_of_not_within (hmem 0 (by decide)),X64.setQword,
    store_of_not_within (hmem 8 (by decide)),X64.setQword,store_of_not_within (hmem 16 le_rfl)]

theorem leave (char : BitVec 64) (h : AtEnd K buffer n s) : ∃ t, (isa K).Runs (start char)
    (.inside 14 s) (.outside 0 t) ∧ t.reg .rax = SYS_exit ∧ t.out = written K.answers buffer n := by
  have hops := runs_ops K char 14 [.base (.mov .rax (.imm SYS_exit))] s ⟨_,rfl⟩
  have hret : (isa K).Runs (start char)
      (.inside 15 ((isa K).execAll [.base (.mov .rax (.imm SYS_exit))] s))
      (.outside 0 ((isa K).execAll [.base (.mov .rax (.imm SYS_exit))] s)) := by
    rw [← h.rdi]
    exact Isa.Runs.ret rfl
  exact ⟨_,hops.trans hret,rfl,h.out⟩

/-- The assembly ends where the loop in C does, has written the same, and exits with 0. -/
theorem start_returns_iff (hreads : s.reads = 0) (hout : s.out = [])
    (hchar : ¬ Within (s.reg .rsp - 24) 24 char) {status : BitVec 64} {out : List (BitVec 8)} :
    (∃ t, (isa K).Returns (start char) s status t ∧ t.reg .rax = SYS_exit ∧ t.out = out) ↔
      status = 0 ∧ Copies K.answers (s.mem char) out := by
  rcases enter (K := K) hreads hout hchar with ⟨t,henter,hI⟩
  constructor
  · rintro ⟨u,hu,-,rfl⟩
    have hrest := Isa.Runs.rest hu henter
    have hround : ∀ v, (∃ k, AtCycle K char (s.mem char) k v) → ∃ k w, k ≠ 5 ∧
        (isa K).Runs (start char) (.inside 5 v) (.inside k w) ∧
        ((∃ x, (isa K).Runs (start char) (.inside k w) (.inside 5 x) ∧
            ∃ k, AtCycle K char (s.mem char) k x) ∨
          ∃ x, (isa K).Runs (start char) (.inside k w) (.inside 14 x) ∧
            ∃ n, AtEnd K (s.mem char) n x) := by
      rintro v ⟨k,hv⟩
      rcases round hv with ⟨w,hw,⟨x,hx,hcycle,-⟩ | ⟨x,hx,hend⟩⟩
      · exact ⟨9,w,by decide,hw,.inl ⟨x,hx,k+1,hcycle⟩⟩
      · exact ⟨9,w,by decide,hw,.inr ⟨x,hx,k,hend⟩⟩
    rcases hrest.exit_loop hround ⟨0,hI⟩ with ⟨x,hx,n,hend⟩
    rcases leave char hend with ⟨y,hy,-,hwritten⟩
    rcases Relation.ReflTransGen.total_of_right_unique Isa.step_unique hx hy with hrun | hrun
    all_goals
      cases Isa.Runs.of_outside hrun
      exact ⟨rfl,copies_iff.2 ⟨n,hend.ends,hwritten⟩⟩
  · rintro ⟨rfl,hcopies⟩
    rcases copies_iff.1 hcopies with ⟨n,hends,rfl⟩
    have hstep : ∀ k < n, ∀ v, AtCycle K char (s.mem char) k v →
        ∃ w, (isa K).Runs (start char) (.inside 5 v) (.inside 5 w) ∧
          AtCycle K char (s.mem char) (k+1) w := by
      intro k hk v hv
      rcases round hv with ⟨w,hw,⟨x,hx,hcycle,-⟩ | ⟨x,hx,hend⟩⟩
      · exact ⟨x,hw.trans hx,hcycle⟩
      · exact absurd hend.ends.1 (hends.2 k hk)
    rcases Isa.Runs.loop hstep hI with ⟨v,hv,hcycle⟩
    rcases round hcycle with ⟨w,hw,⟨x,hx,-,hne⟩ | ⟨x,hx,hend⟩⟩
    · exact absurd hends.1 hne
    · rcases leave char hend with ⟨y,hy,hrax,hwritten⟩
      exact ⟨y,henter.trans (hv.trans (hw.trans (hx.trans hy))),hrax,hwritten⟩

/-- The byte before the failing `read` is written twice. -/
theorem start_returns_iff_sample :
    ∃ t, (isa ⟨sample true,fun _ => 1,fun _ => 0,fun _ => 0,fun _ => 0⟩).Returns (start 0)
      ⟨⟨fun _ => 4096,fun _ => 0,⟨false,false,false⟩⟩,0,[]⟩ 0 t ∧
        t.reg .rax = SYS_exit ∧ t.out = [97,97,99] := by
  have hcopies : Copies (sample true) 0 [97,97,99] := ⟨4,rfl⟩
  exact (start_returns_iff rfl rfl (by decide)).2 ⟨rfl,hcopies⟩

end Asm

end ByteCopier
end SomeCode
