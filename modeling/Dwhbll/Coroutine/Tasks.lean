import Dwhbll.Lib.Bodies
import Dwhbll.Lib.Transition
import Mathlib.Logic.Function.Basic

/-!
# `task` of `concurrency/coroutine/task.h` and the reactor that resumes it

A coroutine is a frame on the heap, and a frame is named by its address. `co_await` of a task makes the awaiting frame the
task's continuation and enqueues the task; where a task ends, its continuation is enqueued. `spawn` starts a detached
coroutine that awaits the task, in a job of its own. What a coroutine does between two suspensions is the parameter of
`Bodies`: its calls are tasks that it awaits, its questions what else it waits for (timers, the kernel, another turn).

Jobs are named in the order in which they were spawned, so that no name is used twice. `job` in a frame, `answers` and
`finished` are read by no step.
-/

namespace Dwhbll.Concurrency.Coroutine.Tasks

open Bodies

/-- The bodies of the tasks. `nothrow` are the questions whose `await_resume` is noexcept, and `isUring` those that a
completion of io_uring answers. -/
structure Program (β ω ε κ : Type) extends Language β ω ε κ where
  nothrow : κ → Bool
  isUring : κ → Bool

/-- Where a coroutine is suspended; `cancelled` is that of the awaiter in its frame. -/
inductive Point (β ω ε κ : Type) where
  | body (b : β)
  | awaiting (child : Nat) (cancelled : Bool) (k : Except ε ω → β)
  | asking (q : κ) (cancelled : Bool) (k : Except ε ω → β)
  | final

/-- The frame of a task with its promise, or that of the coroutine in `spawn`, which awaits `child`. -/
inductive Frame (β ω ε κ : Type) where
  | task (job : Nat) (point : Point β ω ε κ) (value : Option (Except ε ω)) (continuation : Option Nat)
  | detached (job : Nat) (child : Nat) (cancelled : Bool)

/-- The awaiter a `user_data` points to, by the frame that it is in. -/
inductive Awaiter where
  | continuation (frame : Nat)
  | finalize (frame : Nat)
  | question (frame : Nat)
  deriving DecidableEq, Repr

/-- `reactor::user_data`. -/
structure Data where
  parent : Nat
  handle : Nat
  promise : Awaiter
  deriving DecidableEq, Repr

inductive Fault (ε : Type) where
  /-- What is resumed, read, written or destroyed is not there. -/
  | dangling
  /-- `debug::panic("no value stored in promise")`. -/
  | noValue
  /-- `debug::panic("uncaught exception unwound through future")`. -/
  | uncaught (e : ε)
  /-- An exception leaves an `await_resume` that is noexcept. -/
  | terminate
  deriving DecidableEq, Repr

abbrev Heap (β ω ε κ : Type) := Nat → Option (Frame β ω ε κ)

/-- `waiting` are the timers, the waiters for a submission entry, and what the kernel has. -/
structure State (β ω ε κ : Type) where
  heap : Heap β ω ε κ := fun _ => none
  ready : List Data := []
  waiting : List Data := []
  running : Option Data := none
  cancelled : Nat → Bool := fun _ => false
  fault : Option (Fault ε) := none
  /-- What each job was spawned with. -/
  roots : List β := []
  /-- `job::parent`, for each job. -/
  parents : List (Option Nat) := []
  answers : List (Nat × κ × Except ε ω) := []
  finished : List (Nat × Except ε Unit) := []

variable {β ω ε κ : Type}

def Frame.job : Frame β ω ε κ → Nat
  | .task job .. | .detached job .. => job

/-- `cancellable_base::cancel` of an awaiter. -/
def cancelPromise (heap : Heap β ω ε κ) : Awaiter → Option (Heap β ω ε κ)
  | .continuation p =>
      match heap p with
      | some (.task job (.awaiting child _ k) value continuation) =>
          some (Function.update heap p (some (.task job (.awaiting child true k) value continuation)))
      | some (.detached job child _) => some (Function.update heap p (some (.detached job child true)))
      | _ => none
  | .question p =>
      match heap p with
      | some (.task job (.asking q _ k) value continuation) =>
          some (Function.update heap p (some (.task job (.asking q true k) value continuation)))
      | _ => none
  -- Nothing reads the flag of a `finalize_awaiter`, since a coroutine is not resumed at its end.
  | .finalize p => (heap p).map fun _ => heap

namespace State

def fail (f : Fault ε) (s : State β ω ε κ) : State β ω ε κ := { s with fault := some f, running := none }

def set (h : Nat) (f : Frame β ω ε κ) (s : State β ω ε κ) : State β ω ε κ :=
  { s with heap := Function.update s.heap h (some f) }

def destroy (h : Nat) (s : State β ω ε κ) : State β ω ε κ := { s with heap := Function.update s.heap h none }

/-- `reactor::enqueue` with the job that runs. -/
def enqueue (d : Data) (s : State β ω ε κ) : State β ω ε κ :=
  if s.cancelled d.parent then
    match cancelPromise s.heap d.promise with
    | none => s.fail .dangling
    | some heap => { s with heap := heap, ready := s.ready ++ [d] }
  else { s with ready := s.ready ++ [d] }

/-- `reactor::spawn` of a task with the body `c`, in the frame `child`; the detached coroutine in the frame `h` runs until
it awaits the task. -/
def spawn (c : β) (child h : Nat) (s : State β ω ε κ) : State β ω ε κ :=
  let job := s.roots.length
  let s := { s with roots := s.roots ++ [c], parents := s.parents ++ [s.running.map Data.parent] }
  ((s.set child (.task job (.body c) none (some h))).set h (.detached job child false)).enqueue
    ⟨job, child, .continuation h⟩

def answer (job : Nat) (q : κ) (r : Except ε ω) (s : State β ω ε κ) : State β ω ε κ :=
  { s with answers := s.answers ++ [(job, q, r)] }

/-! ### Cancellation -/

/-- What waits in a queue, and the coroutine that runs. -/
def pending (s : State β ω ε κ) : List Data := s.running.toList ++ s.ready ++ s.waiting

/-- The jobs above a job: the one that it was spawned in, the one that this was spawned in, and so on. -/
def above (s : State β ω ε κ) : (fuel : Nat) → (job : Nat) → List Nat
  | 0, _ => []
  | fuel + 1, job =>
      match s.parents[job]? with
      | some (some parent) => parent :: above s fuel parent
      | _ => []

/-- A job is there as long as it has completions or children: until nothing of it or below it is pending. -/
def live (s : State β ω ε κ) (job : Nat) : Bool :=
  s.pending.any fun d => d.parent = job ∨ job ∈ s.above s.parents.length d.parent

/-- `job::children`, which a child leaves at the end of its lifetime. -/
def children (s : State β ω ε κ) (job : Nat) : List Nat :=
  (List.range s.parents.length).filter fun child => s.parents[child]? = some (some job) ∧ s.live child

/-- `job::completions`, where no coroutine runs. -/
def completions (s : State β ω ε κ) (job : Nat) : List Data := (s.ready ++ s.waiting).filter fun d => d.parent = job

/-- `completion->promise->cancel()`. -/
def cancelCompletion (s : State β ω ε κ) (completion : Data) : State β ω ε κ :=
  match cancelPromise s.heap completion.promise with
  | none => s.fail .dangling
  | some heap => { s with heap := heap }

/-- `reactor::cancel_job`, where it does not suspend: the loop over the children has none, and that over the completions
comes to none of io_uring. -/
def cancelJob (job : Nat) (s : State β ω ε κ) : State β ω ε κ :=
  (s.completions job).foldl cancelCompletion { s with cancelled := Function.update s.cancelled job true }

end State

/-! ## Steps -/

/-- How a question is taken: it is answered at once, or the coroutine is suspended, in the ready queue or elsewhere.
`checked` is whether the reactor asks for `cancelled` on that way. -/
inductive Reply (ω : Type) where
  | now (v : ω)
  | later (soon checked : Bool)
  deriving DecidableEq, Repr

/-- What a step finds: free memory for one or two frames, how a question is taken, and its answer. -/
structure Env (ω : Type) where
  first : Nat
  second : Nat
  reply : Reply ω
  value : ω

variable (P : Program β ω ε κ)

/-- `user_data::is_uring`. -/
def uringCompletion (heap : Heap β ω ε κ) (d : Data) : Bool :=
  match d.promise with
  | .question p =>
      match heap p with
      | some (.task _ (.asking q _ _) _ _) => P.isUring q
      | _ => false
  | _ => false

/-- The rest of `await_resume` of a `continuation_awaiter` in `spawn`, whose task has no value to look for. -/
def wake (h child : Nat) (cancelled : Bool) (job : Nat) [DecidableEq ε] (s : State β ω ε κ) : State β ω ε κ :=
  let done (r : Except ε Unit) (s : State β ω ε κ) : State β ω ε κ :=
    { s.destroy h with finished := s.finished ++ [(job, r)], running := none }
  match s.heap child with
  | some (.task _ _ value _) =>
      let s := s.destroy child
      if cancelled then done (.error P.cancellation) s
      else
        match value with
        | some (.error e) => if e = P.cancellation then done (.error e) s else s.fail (.uncaught e)
        | _ => done (.ok ()) s
  | _ => s.fail .dangling

/-- The running coroutine `d` is at `point`. -/
def runTask (env : Env ω) (d : Data) (job : Nat) (value : Option (Except ε ω)) (continuation : Option Nat)
    (s : State β ω ε κ) : Point β ω ε κ → Option (State β ω ε κ)
  | .awaiting child cancelled k =>
      match s.heap child with
      | some (.task _ _ result _) =>
          let resumed (r : Except ε ω) := (s.destroy child).set d.handle (.task job (.body (k r)) value continuation)
          if cancelled then some (resumed (.error P.cancellation))
          else
            match result with
            | none => some (s.fail .noValue)
            | some o => some (resumed o)
      | _ => some (s.fail .dangling)
  | .asking q cancelled k =>
      let resumed (r : Except ε ω) := (s.set d.handle (.task job (.body (k r)) value continuation)).answer d.parent q r
      if cancelled then
        if P.nothrow q then some (s.fail .terminate) else some (resumed (.error P.cancellation))
      else some (resumed (.ok env.value))
  | .body b =>
      match P.next b with
      | .ret o =>
          let s := s.set d.handle (.task job .final (some o) continuation)
          match continuation with
          | none => some { s with running := none }
          | some p => some { s.enqueue ⟨d.parent, p, .finalize d.handle⟩ with running := none }
      | .call c k =>
          if s.heap env.first = none then
            let s := s.set d.handle (.task job (.awaiting env.first false k) value continuation)
            let s := s.set env.first (.task job (.body c) none (some d.handle))
            some { s.enqueue ⟨d.parent, env.first, .continuation d.handle⟩ with running := none }
          else none
      | .ask q k =>
          match env.reply with
          | .now v =>
              some ((s.set d.handle (.task job (.body (k (.ok v))) value continuation)).answer d.parent q (.ok v))
          | .later soon checked =>
              let s := s.set d.handle (.task job (.asking q (checked && s.cancelled d.parent) k) value continuation)
              let d : Data := ⟨d.parent, d.handle, .question d.handle⟩
              if soon then some { s with ready := s.ready ++ [d], running := none }
              else some { s with waiting := s.waiting ++ [d], running := none }
      | .spawn c k =>
          if s.heap env.first = none ∧ s.heap env.second = none ∧ env.first ≠ env.second then
            some ((s.spawn c env.first env.second).set d.handle (.task job (.body k) value continuation))
          else none
  | .final => some (s.fail .dangling)

inductive Act (β ω : Type) where
  /-- `spawn` from outside. -/
  | spawn (c : β) (child h : Nat)
  /-- The first one of the ready queue is resumed. -/
  | front
  /-- `process_cqe`, or a waiter for a submission entry is resumed. -/
  | resume (d : Data)
  /-- A timer has expired, or its job was cancelled. -/
  | expire (d : Data)
  /-- The running coroutine goes on. -/
  | run (env : Env ω)
  /-- `cancel_job` is resumed and runs to its end. -/
  | cancel (job : Nat)

def step [DecidableEq ε] (s : State β ω ε κ) : Act β ω → Option (State β ω ε κ)
  | .spawn c child h =>
      if s.fault = none ∧ s.running = none ∧ s.heap child = none ∧ s.heap h = none ∧ child ≠ h then
        some (s.spawn c child h)
      else none
  | .front =>
      match s.running, s.ready with
      | none, d :: rest => if s.fault = none then some { s with running := some d, ready := rest } else none
      | _, _ => none
  | .resume d =>
      if s.fault = none ∧ s.running = none ∧ d ∈ s.waiting then
        some { s with running := some d, waiting := s.waiting.erase d }
      else none
  | .expire d =>
      if s.fault = none ∧ s.running = none ∧ d ∈ s.waiting then
        some { s with ready := s.ready ++ [d], waiting := s.waiting.erase d }
      else none
  | .run env =>
      match s.running with
      | none => none
      | some d =>
          match s.heap d.handle with
          | none => some (s.fail .dangling)
          | some (.detached job child cancelled) => some (wake P d.handle child cancelled job s)
          | some (.task job point value continuation) => runTask P env d job value continuation s point
  -- A job that has ended, has children or waits for io_uring is left out. The handle of a job that has ended dangles, and
  -- for the others `cancel_job` is suspended inside of a loop over a set that changes meanwhile.
  | .cancel job =>
      if s.fault = none ∧ s.running = none ∧ s.completions job ≠ [] ∧ s.children job = [] ∧
          ∀ d ∈ s.completions job, uringCompletion P s.heap d = false then
        some (s.cancelJob job)
      else none

def system [DecidableEq ε] : Transition.System (State β ω ε κ) (Act β ω) := .ofOption {} (step P)

end Dwhbll.Concurrency.Coroutine.Tasks
