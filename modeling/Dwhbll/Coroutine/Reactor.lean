import Dwhbll.Lib.Transition
import Mathlib.Algebra.Group.Int.Defs
import Mathlib.Algebra.Group.Nat.Defs
import Mathlib.Data.Finset.Card
import Mathlib.Data.Finset.Max
import Mathlib.Logic.Function.Basic

/-!
# The jobs of `concurrency/coroutine/reactor.cpp`

A job owns the completions its coroutines wait for and the jobs they have spawned. It ends, and goes back to
`job_pool`, when it has neither. Jobs and completions are named by their addresses, which the pools give out
again once they are offered back.
-/

namespace Dwhbll.Concurrency.Coroutine

/-- `reactor::job`, but for `cancelled`. -/
structure Job where
  parent : Option Nat := none
  children : Finset Nat := ∅
  completions : Finset Nat := ∅
  deriving DecidableEq

/-- `completions.empty() && children.empty()`. -/
def Job.isDone (job : Job) : Bool := job.completions = ∅ ∧ job.children = ∅

/-- What the reactor knows of its jobs. `jobs` are those that `job_pool` has given out and `job` what stands in
them; `pending` are the completions that `data_pool` has given out, and `parent` is the field of that name.
`spawning` are the calls of `spawn` that have not returned, the innermost first, and `resumed` the completion that
`resume_stall_check` is at. `acquired` and `offered` are what `job_pool` was asked for and was given back, with
what then stood in the job. -/
structure Reactor where
  jobs : Finset Nat := ∅
  job : Nat → Job := fun _ => {}
  pending : Finset Nat := ∅
  parent : Nat → Nat := fun _ => 0
  inflightJobs : Int := 0
  spawning : List Nat := []
  resumed : Option Nat := none
  acquired : List Nat := []
  offered : List (Nat × Job) := []

namespace Reactor

/-- `current_job`. `store_temporary` puts back what was there, so it is what the innermost call has stored. -/
def currentJob (r : Reactor) : Option Nat :=
  match r.spawning with
  | j :: _ => some j
  | [] => r.resumed.map r.parent

def modifyJob (j : Nat) (f : Job → Job) (r : Reactor) : Reactor :=
  { r with job := Function.update r.job j (f (r.job j)) }

/-- `job_pool.acquire(parent)`. -/
def acquireJob (parent : Option Nat) (j : Nat) (r : Reactor) : Reactor :=
  { r with
    jobs := insert j r.jobs
    job := Function.update r.job j { parent := parent }
    acquired := r.acquired ++ [j] }

/-- `inflight_jobs--` and `job_pool.offer(job)`. -/
def offerJob (j : Nat) (r : Reactor) : Reactor :=
  { r with
    inflightJobs := r.inflightJobs - 1
    jobs := r.jobs.erase j
    offered := r.offered ++ [(j, r.job j)] }

def insertChild (p j : Nat) : Reactor → Reactor :=
  modifyJob p fun job => { job with children := insert j job.children }

def eraseChild (p j : Nat) : Reactor → Reactor :=
  modifyJob p fun job => { job with children := job.children.erase j }

/-- `job_lifetime_begin`, where `job_pool` has `j` to give. The job that runs is touched, so it has to be one
that is out. -/
def jobLifetimeBegin (currentJob : Option Nat) (j : Nat) (r : Reactor) : Option Reactor :=
  let r := r.acquireJob currentJob j
  match currentJob with
  | none => some { r with inflightJobs := r.inflightJobs + 1 }
  | some p =>
      if p ∈ r.jobs then
        let r := r.insertChild p j
        some { r with inflightJobs := r.inflightJobs + 1 }
      else none

/-- `job_lifetime_end`. There is no answer where a job is touched or offered that the pool has back already, or
where the calls go deeper than `fuel`. The parent ends before the job itself is offered. -/
def jobLifetimeEnd : (fuel j : Nat) → Reactor → Option Reactor
  | 0, _, _ => none
  | fuel + 1, j, r =>
      if j ∈ r.jobs then
        match (r.job j).parent with
        | none => some (r.offerJob j)
        | some p =>
            if p ∈ r.jobs then
              let r := r.eraseChild p j
              match if (r.job p).isDone then jobLifetimeEnd fuel p r else some r with
              | none => none
              | some r => if j ∈ r.jobs then some (r.offerJob j) else none
            else none
      else none

/-- `data_pool.acquire(parent, nullptr)`. -/
def acquireData (parent d : Nat) (r : Reactor) : Reactor :=
  { r with pending := insert d r.pending, parent := Function.update r.parent d parent }

def offerData (d : Nat) (r : Reactor) : Reactor := { r with pending := r.pending.erase d }

def insertCompletion (j d : Nat) : Reactor → Reactor :=
  modifyJob j fun job => { job with completions := insert d job.completions }

def eraseCompletion (j d : Nat) : Reactor → Reactor :=
  modifyJob j fun job => { job with completions := job.completions.erase d }

/-- `user_data_lifetime_begin`, where `data_pool` has `d` to give. -/
def userDataLifetimeBegin (d : Nat) (r : Reactor) : Option Reactor :=
  match r.currentJob with
  | none => none
  | some j =>
      if j ∈ r.jobs then some ((r.acquireData j d).insertCompletion j d) else none

/-- `user_data_lifetime_end`. Each job that ends is another one, so there are no more calls than jobs. -/
def userDataLifetimeEnd (d : Nat) (r : Reactor) : Option Reactor :=
  let j := r.parent d
  if j ∈ r.jobs then
    let r := r.eraseCompletion j d
    match if (r.job j).isDone then jobLifetimeEnd r.jobs.card j r else some r with
    | none => none
    | some r => some (r.offerData d)
  else none

/-! ## Runs -/

inductive Action where
  /-- `resume_stall_check` goes into the coroutine of a completion. -/
  | resume (d : Nat)
  /-- `spawn`, or `reactor_job::cancel`, which puts its job at the root. -/
  | spawn (atRoot : Bool) (j : Nat)
  /-- The coroutine comes to wait for something. -/
  | begin (d : Nat)
  /-- The spawned coroutine is suspended for the first time. -/
  | endSpawn
  /-- The resumed coroutine is suspended again or has ended. -/
  | endResume
  deriving DecidableEq, Repr

def step (r : Reactor) : Action → Option Reactor
  | .resume d =>
      if r.resumed = none ∧ r.spawning = [] ∧ d ∈ r.pending then some { r with resumed := some d } else none
  | .spawn atRoot j =>
      if j ∈ r.jobs then none
      else
        match r.jobLifetimeBegin (if atRoot then none else r.currentJob) j with
        | none => none
        | some r => some { r with spawning := j :: r.spawning }
  | .begin d => if d ∈ r.pending then none else r.userDataLifetimeBegin d
  | .endSpawn =>
      match r.spawning with
      | [] => none
      | j :: rest => if (r.job j).completions = ∅ then none else some { r with spawning := rest }
  | .endResume =>
      match r.resumed, r.spawning with
      | some d, [] => ({ r with resumed := none }).userDataLifetimeEnd d
      | _, _ => none

/-- When each of these can happen: only what is pending is resumed, one at a time, the pools give out what is not
out, and a spawned coroutine waits for at least one completion of its own. -/
def Enabled (r : Reactor) : Action → Prop
  | .resume d => r.resumed = none ∧ r.spawning = [] ∧ d ∈ r.pending
  | .spawn _ j => j ∉ r.jobs
  | .begin d => d ∉ r.pending ∧ r.currentJob ≠ none
  | .endSpawn => ∃ j rest, r.spawning = j :: rest ∧ (r.job j).completions ≠ ∅
  | .endResume => r.resumed ≠ none ∧ r.spawning = []

def system : Transition.System Reactor Action := .ofOption {} step

end Reactor

end Dwhbll.Concurrency.Coroutine
