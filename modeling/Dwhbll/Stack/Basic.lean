import Dwhbll.Lib.Linked
import Dwhbll.Lib.Transition

/-!
# `RecyclingConcurrentStack` of `concurrency/recycling_concurrent_stack.h`

Any number of threads push and pop. Their steps are the loads of `_head` and `_free`, the reads and
writes of a node's `next` and `data`, and the compare-exchanges, which succeed if and only if the
pointer equals the expected one. Nodes are numbered in the order in which they are allocated; they are
never deleted, and wander between the list from `_head` and the list from `_free`.

`pushed` and `popped` record the run and are never read by a step.
-/

namespace Dwhbll.Concurrency.Stack

open Linked

variable {P T : Type}

/-- Where a thread is, with the locals `node_` and `next_` that it still needs. The value of a push is
kept up to its end. -/
inductive Pc (T : Type) where
  | idle
  | pushLoadFree (v : T)
  | pushReadNext (v : T) (node : Nat)
  | pushCasFree (v : T) (node : Nat) (next : Option Nat)
  | pushNew (v : T)
  | pushConstruct (v : T) (node : Nat)
  | pushLoadHead (v : T) (node : Nat)
  | pushWriteNext (v : T) (node : Nat) (next : Option Nat)
  | pushCasHead (v : T) (node : Nat) (next : Option Nat)
  | popLoadHead
  | popReadNext (node : Nat)
  | popCasHead (node : Nat) (next : Option Nat)
  | popMove (node : Nat)
  | popLoadFree (result : T) (node : Nat)
  | popWriteNext (result : T) (node : Nat) (next : Option Nat)
  | popCasFree (result : T) (node : Nat) (next : Option Nat)
  deriving DecidableEq, Repr

structure State (P T : Type) where
  head : Option Nat
  free : Option Nat
  next : Nat → Option Nat
  data : Nat → T
  /-- How many nodes were allocated. -/
  nodes : Nat
  pc : P → Pc T
  /-- The values of the pushes that returned. -/
  pushed : List T
  /-- The values that pops returned. -/
  popped : List T

/-- `RecyclingConcurrentStack(initial_capacity)`; each of its nodes is put before the last one. The
default constructor is the case of no nodes. -/
def State.init (initialCapacity : Nat) (data : Nat → T) : State P T :=
  { head := none
    free := if initialCapacity = 0 then none else some (initialCapacity - 1)
    next := fun i => if i = 0 then none else some (i - 1)
    data, nodes := initialCapacity, pc := fun _ => .idle, pushed := [], popped := [] }

inductive Act (P T : Type) where
  | callPush (p : P) (v : T)
  | callPop (p : P)
  | run (p : P)
  deriving DecidableEq, Repr

/-- What a call returns. -/
inductive Event (T : Type) where
  | pushReturns
  | popReturns (r : Option T)
  deriving DecidableEq, Repr

variable [DecidableEq P]

def State.goto (s : State P T) (p : P) (x : Pc T) : State P T := { s with pc := Function.update s.pc p x }

/-- The atomic step of a thread that is inside a call. -/
def runStep (s : State P T) (p : P) : Option (State P T × Option (Event T)) :=
  match s.pc p with
  | .idle => none
  | .pushLoadFree v =>
      match s.free with
      | none => some (s.goto p (.pushNew v), none)
      | some node => some (s.goto p (.pushReadNext v node), none)
  | .pushReadNext v node => some (s.goto p (.pushCasFree v node (s.next node)), none)
  | .pushCasFree v node next =>
      if s.free = some node then
        some ({ s with free := next }.goto p (.pushConstruct v node), none)
      else some (s.goto p (.pushLoadFree v), none)
  | .pushNew v => some ({ s with nodes := s.nodes + 1 }.goto p (.pushConstruct v s.nodes), none)
  | .pushConstruct v node =>
      some ({ s with data := Function.update s.data node v }.goto p (.pushLoadHead v node), none)
  | .pushLoadHead v node => some (s.goto p (.pushWriteNext v node s.head), none)
  | .pushWriteNext v node next =>
      some ({ s with next := Function.update s.next node next }.goto p (.pushCasHead v node next), none)
  | .pushCasHead v node next =>
      if s.head = next then
        some ({ s with head := some node, pushed := s.pushed ++ [v] }.goto p .idle, some .pushReturns)
      else some (s.goto p (.pushLoadHead v node), none)
  | .popLoadHead =>
      match s.head with
      | none => some (s.goto p .idle, some (.popReturns none))
      | some node => some (s.goto p (.popReadNext node), none)
  | .popReadNext node => some (s.goto p (.popCasHead node (s.next node)), none)
  | .popCasHead node next =>
      if s.head = some node then some ({ s with head := next }.goto p (.popMove node), none)
      else some (s.goto p .popLoadHead, none)
  | .popMove node => some (s.goto p (.popLoadFree (s.data node) node), none)
  | .popLoadFree result node => some (s.goto p (.popWriteNext result node s.free), none)
  | .popWriteNext result node next =>
      some ({ s with next := Function.update s.next node next }.goto p (.popCasFree result node next), none)
  | .popCasFree result node next =>
      if s.free = next then
        some ({ s with free := some node, popped := s.popped ++ [result] }.goto p .idle,
          some (.popReturns (some result)))
      else some (s.goto p (.popLoadFree result node), none)

def step (s : State P T) : Act P T → Option (State P T × Option (Event T))
  | .callPush p v => if s.pc p matches .idle then some (s.goto p (.pushLoadFree v), none) else none
  | .callPop p => if s.pc p matches .idle then some (s.goto p .popLoadHead, none) else none
  | .run p => runStep s p

/-- All interleavings of the threads, from a new stack. -/
def system (initialCapacity : Nat) : Transition.System (State P T) (Act P T) :=
  .ofPartial (fun s => ∃ data, s = .init initialCapacity data) step

end Dwhbll.Concurrency.Stack
