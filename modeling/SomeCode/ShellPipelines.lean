import SomeCode.Processes

/-! The three programs that run `argv[1] | argv[2] | ... | argv[argc-1]`: `inf15-3.c` makes all
pipes first, `inf15-4.c` moves one pipe along, and `main.c` has two that change places. Where the
source indexes `argv` the index itself stands here. -/
namespace SomeCode
namespace ShellPipelines

open Processes

def standardFds : FdTable :=
  ⟨[some ⟨.other 0,false⟩,some ⟨.other 1,false⟩,some ⟨.other 2,false⟩]⟩

/-- The branch of both `inf15` programs for a single program -/
def runOne : Prog :=
  .fork fun pid =>
    let rest := .waitpid pid .exit
    if pid = 0 then .execlp 1 rest else rest

namespace Inf15_3

/-- `pipe2 (fd + 2 * i, O_CLOEXEC)` -/
def makePipe (i : ℕ) (fd : ℕ → ℤ) (next : (ℕ → ℤ) → Prog) : Prog :=
  .pipe true fun r w => next (Function.update (Function.update fd (2*i) r) (2*i+1) w)

/-- A program that is neither the first nor the last -/
def start (fd : ℕ → ℤ) (i : ℕ) (pids : ℕ → ℕ) (next : (ℕ → ℕ) → Prog) : Prog :=
  .fork fun pid =>
    let rest := next (Function.update pids i pid)
    if pid = 0 then .dup2 (fd (2*i+1)) 1 (.dup2 (fd (2*(i-1))) 0 (.execlp i rest)) else rest

def closeOne (fd : ℕ → ℤ) (i : ℕ) (_ : Unit) (next : Unit → Prog) : Prog := .close (fd i) (next ())

def waitOne (pids : ℕ → ℕ) (i : ℕ) (_ : Unit) (next : Unit → Prog) : Prog :=
  .waitpid (pids i) (next ())

/-- What the parent does last: it closes one number more than it has opened. -/
def finish (argc : ℕ) (fd : ℕ → ℤ) (pids : ℕ → ℕ) : Prog :=
  .loop (closeOne fd) (2*argc+1) 0 () fun _ =>
    .loop (waitOne pids) (argc-1) 1 () fun _ => .exit

/-- The parent, and each child whose `execlp` fails, behind the loop -/
def startLast (argc : ℕ) (fd : ℕ → ℤ) (pids : ℕ → ℕ) : Prog :=
  .fork fun pid =>
    if pid = 0 then .dup2 (fd (2*argc-4)) 0 (.execlp (argc-1) .exit)
    else finish argc fd (Function.update pids (argc-1) pid)

def startFirst (argc : ℕ) (fd : ℕ → ℤ) : Prog :=
  .fork fun pid =>
    if pid = 0 then .dup2 (fd 3) 1 (.execlp 1 .exit)
    else .loop (start fd) (argc-3) 2 (Function.update (fun _ => 0) 1 pid) (startLast argc fd)

/-- `junk` is what `malloc` returned. -/
def main (junk : ℕ → ℤ) (argc : ℕ) : Prog :=
  if argc = 1 then .exit
  else if argc = 2 then runOne
  else .loop makePipe argc 0 junk (startFirst argc)

end Inf15_3

namespace Inf15_4

/-- Program `i` reads from `input`, which is `fd[0][0]`. -/
def start (i : ℕ) (input : ℤ) (next : ℤ → Prog) : Prog :=
  .pipe false fun r w =>
    .fork fun pid =>
      let rest := .waitpid pid (.close input (.close w (next r)))
      if pid = 0 then .dup2 input 0 (.dup2 w 1 (.close w (.execlp i rest))) else rest

def startLast (argc : ℕ) (input : ℤ) : Prog :=
  .fork fun pid =>
    let rest := .waitpid pid (.close input .exit)
    if pid = 0 then .dup2 input 0 (.close input (.execlp (argc-1) rest)) else rest

def startFirst (argc : ℕ) : Prog :=
  .pipe false fun r w =>
    .fork fun pid =>
      let rest := .waitpid pid (.close w (.loop start (argc-3) 2 r (startLast argc)))
      if pid = 0 then .dup2 w 1 (.close r (.execlp 1 rest)) else rest

def main (argc : ℕ) : Prog :=
  if argc = 1 then .exit
  else if argc = 2 then runOne
  else startFirst argc

end Inf15_4

namespace MainC

/-- The variables of `main`: `pipes_` by its two indices, `in`, `out` and `exec_error`, which a
child sets in its own copy only, just before `_exit` -/
structure Vars where
  pipes : ℕ → ℕ → ℤ
  input : ℕ
  output : ℕ
  execError : ℤ

def Vars.setPipe (v : Vars) (x : ℕ) (r w : ℤ) : Vars :=
  { v with pipes := Function.update v.pipes x (Function.update (Function.update (v.pipes x) 0 r) 1 w) }

/-- Close both pipes and leave by `_exit`. -/
def closeBoth (v : Vars) : Prog :=
  .close (v.pipes v.input 1) (.close (v.pipes v.input 0)
    (.close (v.pipes v.output 0) (.close (v.pipes v.output 1) .exit)))

def startFirst (v : Vars) (next : Vars → Prog) : Prog :=
  let v := { v with output := 0, input := 1 }
  .fork fun pid =>
    if pid = 0 then .dup2 (v.pipes v.output 1) 1 (.close (v.pipes v.output 0) (.execlp 1 .exit))
    else .waitpid pid (next { v with
      pipes := Function.update v.pipes 1 (Function.update (v.pipes 1) 0 (-1)) })

def startNext (i : ℕ) (v : Vars) (next : Vars → Prog) : Prog :=
  let v := if (i-1) % 2 = 0 then { v with input := 1, output := 0 }
    else { v with input := 0, output := 1 }
  .close (v.pipes v.input 1) (.close (v.pipes v.output 0) (.pipe false fun r w =>
    let v := v.setPipe v.output r w
    .fork fun pid =>
      if pid = 0 then
        .dup2 (v.pipes v.output 1) 1 (.close (v.pipes v.output 0)
          (.dup2 (v.pipes v.input 0) 0 (.execlp i (closeBoth v))))
      else .waitpid pid (next v)))

/-- The body of the loop -/
def start (i : ℕ) (v : Vars) (next : Vars → Prog) : Prog :=
  if v.execError = 1 then closeBoth v
  else if i = 1 then startFirst v next
  else startNext i v next

def startLast (argc : ℕ) (v : Vars) : Prog :=
  if v.execError = 1 then closeBoth v
  else .close (v.pipes v.input 0) (.close (v.pipes v.output 1)
    (let v := { v with input := v.output }
    .fork fun pid =>
      if pid = 0 then
        .dup2 (v.pipes v.input 0) 0 (.execlp (argc-1) (.close (v.pipes v.input 1) .exit))
      else if v.execError = 1 then .close (v.pipes v.input 1) (.close (v.pipes v.output 0) .exit)
      else .close (v.pipes v.input 0) (.waitpid pid .exit)))

/-- `junk` is what `pipes_` holds at first. -/
def main (junk : ℕ → ℕ → ℤ) (argc : ℕ) : Prog :=
  if argc = 2 then .execlp 1 .exit
  else if argc = 1 then .exit
  else .pipe false fun r w =>
    .loop start (argc-2) 1 ((⟨junk,0,0,0⟩ : Vars).setPipe 0 r w) (startLast argc)

end MainC

end ShellPipelines
end SomeCode
