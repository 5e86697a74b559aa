import Dwhbll.Lib.Pipes
import Dwhbll.Lib.Transition

/-!
# `process::communicate` of `subprocess/process.cpp`

The calls on the three pipes do not block: what the kernel answers is given, and between any two of them the child
may write to its outputs, close them and read its input.
-/

namespace Dwhbll.Subprocess

open Pipes

/-- The exit code, or the signal that ended the child. -/
inductive Returncode where
  | expected (code : UInt8)
  | unexpected (signal : UInt8)
  deriving DecidableEq, Repr

/-- The descriptors of the ends that are held of the pipes of a child. -/
structure Process where
  stdin : Option Int
  stdout : Option Int
  stderr : Option Int
  exitCode : Returncode := .expected 0
  deriving DecidableEq, Repr

/-- What is thrown, with its text. `debug::panic` is an error, too. -/
inductive Exn where
  | sysError (what : String)
  | timeoutException (what : String)
  | badOptionalAccess
  | panic (msg : String)
  deriving DecidableEq, Repr

/-! ## `pipe_wrapper` -/

/-- By what the kernel's `read` answers. `unexpected(true)` is the end of the pipe. -/
def llRead : Answer (List UInt8) → Except Exn (Except Bool (List UInt8))
  | .again => .ok (.ok [])
  | .ok buffer => .ok (if buffer = [] then .error true else .ok buffer)
  | .failed what => .error (.sysError what)

/-- By what the kernel's `write` answers. -/
def llWrite : Answer Nat → Except Exn Nat
  | .again => .ok 0
  | .ok result => .ok result
  | .failed what => .error (.sysError what)

/-! ## `communicate` -/

/-- What the child writes to. -/
inductive Stream where
  | stdout
  | stderr
  deriving DecidableEq, Repr

/-- A pipe that the child writes to, and the variables of `communicate` for it. -/
structure Output where
  pipe : Pipe UInt8 := {}
  wrapper : Option Int := none
  done : Bool := false
  output : List UInt8 := []
  deriving DecidableEq, Repr

namespace Output

/-- Before the loop. -/
def start (fd : Option Int) (x : Output) : Output := { x with wrapper := fd, done := fd.isNone, output := [] }

/-- What the kernel has read is gone from the pipe. -/
def fetch (a : Answer (List UInt8)) (x : Output) : Output :=
  match a with
  | .ok bytes => { x with pipe := x.pipe.advance bytes }
  | _ => x

/-- Behind the `ll_read`. -/
def insert (value : Except Bool (List UInt8)) (x : Output) : Output :=
  match value with
  | .error _ => { x with done := true }
  | .ok result => { x with output := x.output ++ result }

end Output

/-- Where `communicate` is. -/
inductive Pc where
  | start
  /-- At the condition of the loop. -/
  | loop
  | writing
  | reading (s : Stream)
  /-- At the `waitpid` behind the loop. -/
  | waiting
  | returned (result : List UInt8 × List UInt8)
  | thrown (e : Exn)
  deriving DecidableEq, Repr

/-- The process with its pipes, what the child has read and which descriptors have been closed, and the arguments and
variables of `communicate`. -/
structure Communicate where
  process : Process
  input : Option (List UInt8)
  timeout : Option Int
  pc : Pc := .start
  stdin : Pipe UInt8 := {}
  received : List UInt8 := []
  closed : List Int := []
  wrapper : Option Int := none
  stdinBuffer : List UInt8 := []
  stdinHead : Nat := 0
  stdinRemaining : Nat := 0
  stdinDone : Bool := false
  out : Output := {}
  err : Output := {}
  deriving DecidableEq, Repr

namespace Communicate

def output (s : Stream) (c : Communicate) : Output :=
  match s with
  | .stdout => c.out
  | .stderr => c.err

def setOutput (s : Stream) (x : Output) (c : Communicate) : Communicate :=
  match s with
  | .stdout => { c with out := x }
  | .stderr => { c with err := x }

/-- `close(stdin_.value())` and `stdin_ = std::nullopt`. -/
def closeStdin (fd : Int) (c : Communicate) : Communicate :=
  { c with closed := c.closed ++ [fd], stdin := c.stdin.close, process := { c.process with stdin := none } }

/-- Up to the loop. -/
def start (c : Communicate) : Communicate :=
  if c.input.isSome && c.process.stdin.isNone then
    { c with pc := .thrown (.panic "process::communicate given input but this process has no stdin!") }
  else
    let c' := { c with
      pc := .loop
      stdinBuffer := c.input.getD []
      stdinHead := 0
      stdinRemaining := (c.input.getD []).length
      wrapper := c.process.stdin
      stdinDone := c.process.stdin.isNone || c.input.isNone
      out := c.out.start c.process.stdout
      err := c.err.start c.process.stderr }
    match c.process.stdin, c.input with
    | some fd, none => c'.closeStdin fd
    | _, _ => c'

/-! ### The loop -/

/-- On to the read of `stderr_`. -/
def toStderr (c : Communicate) : Communicate := { c with pc := if !c.err.done then .reading .stderr else .loop }

/-- On to the read of `stdout_`. -/
def toStdout (c : Communicate) : Communicate :=
  if !c.out.done then { c with pc := .reading .stdout } else c.toStderr

/-- The condition of the loop. -/
def turn (c : Communicate) : Communicate :=
  if !c.stdinDone || !c.out.done || !c.err.done then
    if c.input.isSome && !c.stdinDone then { c with pc := .writing } else c.toStdout
  else { c with pc := .waiting }

/-- Behind the `ll_write`. -/
def wrote (value : Except Exn Nat) (c : Communicate) : Communicate :=
  match value with
  | .error e => { c with pc := .thrown e }
  | .ok writeSize =>
      let c := { c with stdinHead := c.stdinHead + writeSize, stdinRemaining := c.stdinRemaining - writeSize }
      if c.stdinRemaining > 0 then { c with stdinBuffer := c.stdinBuffer.drop writeSize }.toStdout
      else
        match c.process.stdin with
        | none => { c with stdinDone := true, pc := .thrown .badOptionalAccess }
        | some fd => ({ c with stdinDone := true }.closeStdin fd).toStdout

/-- Behind the block of one of the outputs. -/
def next (s : Stream) (c : Communicate) : Communicate :=
  match s with
  | .stdout => c.toStderr
  | .stderr => { c with pc := .loop }

/-- Behind the `ll_read` of one of the outputs. -/
def read (s : Stream) (value : Except Exn (Except Bool (List UInt8))) (c : Communicate) : Communicate :=
  match value with
  | .error e => { c with pc := .thrown e }
  | .ok value => (c.setOutput s ((c.output s).insert value)).next s

/-! ### Behind the loop -/

/-- The status `waitpid` gives, or that the child is running. -/
inductive Status where
  | running
  | exited (code : UInt8)
  | signaled (signal : UInt8)
  | stopped
  deriving DecidableEq, Repr

/-- The nanoseconds since the start are given. -/
def waited (status : Status) (elapsed : Int) (c : Communicate) : Communicate :=
  match status with
  | .running =>
      if c.timeout.isSome && elapsed > c.timeout.getD 0 * 1000000000 then
        { c with pc := .thrown (.timeoutException "timed out waiting for child process to exit.") }
      else c
  | .exited code =>
      { c with
        process := { c.process with exitCode := .expected code }
        pc := .returned (c.out.output, c.err.output) }
  | .signaled signal =>
      { c with
        process := { c.process with exitCode := .unexpected signal }
        pc := .returned (c.out.output, c.err.output) }
  | .stopped => { c with pc := .returned (c.out.output, c.err.output) }

/-! ### Runs -/

inductive Event where
  | call
  | turn
  /-- The kernel answers a `write`. -/
  | wrote (a : Answer Nat)
  /-- The kernel answers a `read`. -/
  | read (a : Answer (List UInt8))
  | waited (status : Status) (elapsed : Int)
  | childWrites (s : Stream) (bytes : List UInt8)
  | childCloses (s : Stream)
  | childReads (bytes : List UInt8)
  deriving DecidableEq, Repr

/-- A call on a descriptor that has been closed fails. -/
def MayAnswer {α : Type} (fd : Int) (c : Communicate) (may : Answer α → Prop) (a : Answer α) : Prop :=
  if fd ∈ c.closed then a = .failed "Bad file descriptor" else may a

instance {α : Type} [DecidableEq α] (fd : Int) (c : Communicate) (may : Answer α → Prop) [DecidablePred may]
    (a : Answer α) : Decidable (MayAnswer fd c may a) :=
  inferInstanceAs (Decidable (if fd ∈ c.closed then a = .failed "Bad file descriptor" else may a))

/-- What the kernel has accepted goes into the pipe. -/
def accept (a : Answer Nat) (c : Communicate) : Communicate :=
  match a with
  | .ok count => { c with stdin := c.stdin.write (c.stdinBuffer.take count) }
  | _ => c

def step (c : Communicate) : Event → Option Communicate
  | .call => if c.pc = .start then some c.start else none
  | .turn => if c.pc = .loop then some c.turn else none
  | .wrote a =>
      if c.pc = .writing then
        match c.wrapper with
        | none => some { c with pc := .thrown .badOptionalAccess }
        | some fd =>
            if c.MayAnswer fd (MayAccept c.stdinBuffer.length) a then some ((c.accept a).wrote (llWrite a)) else none
      else none
  | .read a =>
      match c.pc with
      | .reading s =>
          match (c.output s).wrapper with
          | none => some { c with pc := .thrown .badOptionalAccess }
          | some fd =>
              if c.MayAnswer fd ((c.output s).pipe.MayRead 65535) a then
                some ((c.setOutput s ((c.output s).fetch a)).read s (llRead a))
              else none
      | _ => none
  | .waited status elapsed => if c.pc = .waiting then some (c.waited status elapsed) else none
  | .childWrites s bytes =>
      if (c.output s).pipe.ended then none
      else some (c.setOutput s { c.output s with pipe := (c.output s).pipe.write bytes })
  | .childCloses s => some (c.setOutput s { c.output s with pipe := (c.output s).pipe.close })
  | .childReads bytes =>
      if bytes <+: c.stdin.buffered then
        some { c with stdin := c.stdin.advance bytes, received := c.received ++ bytes }
      else none

/-- The runs of a call, from when the child starts. -/
def system (process : Process) (input : Option (List UInt8)) (timeout : Option Int) :
    Transition.System Communicate Event :=
  .ofOption { process := process, input := input, timeout := timeout } step

end Communicate

end Dwhbll.Subprocess
