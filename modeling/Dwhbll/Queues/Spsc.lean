import Dwhbll.Lib.Transition
import Dwhbll.Queues.Capacity
import Mathlib.Logic.Function.Basic

/-!
# `BoundedSPSCQueue` of `concurrency/queues/bounded_spsc_queue.h`

One producer and one consumer take turns at their atomic steps: the loads of `tail` and `head`, the
construction or the move of the slot, and the store of `tail` or `head`. A put or get that is under way
is a program counter with the locals that the code still needs. `get` and `getBlocking` differ in what
they do when the queue is empty, puts with and without `FailOnFull` in what they do when it is full.

`sent`, `received` and `live` record the run and are never read by a step.
-/

namespace Dwhbll.Concurrency.Spsc

variable {T : Type}

/-- Where the producer is in `put(v)`. -/
inductive Put (T : Type) where
  | idle
  | loadHead (v : T) (t : Nat)
  | construct (v : T) (t : Nat)
  | storeTail (v : T) (t : Nat)
  deriving DecidableEq, Repr

/-- Where the consumer is in `get()` or `getBlocking()`. -/
inductive Get (T : Type) where
  | idle
  | loadTail (blocking : Bool) (h : Nat)
  | move (h : Nat)
  | storeHead (h : Nat) (result : T)
  deriving DecidableEq, Repr

structure State (T : Type) where
  head : Nat
  tail : Nat
  buffer : Nat → T
  put : Put T
  get : Get T
  /-- The values of the puts that returned true, in order. -/
  sent : List T
  /-- The values that gets returned, in order. -/
  received : List T
  /-- The slot holds a value that was constructed and not taken. -/
  live : Nat → Bool

/-- The constructor; `buffer` holds `N` default-initialised slots. -/
def State.init (buffer : Nat → T) : State T :=
  { head := 0, tail := 0, buffer, put := .idle, get := .idle
    sent := [], received := [], live := fun _ => false }

/-- How many values are queued. -/
def State.queued (s : State T) : Nat := s.sent.length - s.received.length

inductive Act (T : Type) where
  | putLoadTail (v : T)
  | putLoadHead
  | putConstruct
  | putStoreTail
  | getLoadHead (blocking : Bool)
  | getLoadTail
  | getMove
  | getStoreHead
  deriving DecidableEq, Repr

/-- What a step lets the caller see: a return value, or one more round of the waiting loop. -/
inductive Event (T : Type) where
  | putReturns (b : Bool)
  | putWaits
  | getReturns (r : Option T)
  | getWaits
  deriving DecidableEq, Repr

/-- One atomic step; `none` if the party is not at that place. -/
def step (c : Capacity) (failOnFull : Bool) (s : State T) :
    Act T → Option (State T × Option (Event T))
  | .putLoadTail v =>
      match s.put with
      | .idle => some ({ s with put := .loadHead v s.tail }, none)
      | _ => none
  | .putLoadHead =>
      match s.put with
      | .loadHead v t =>
          if (t + 1) &&& c.MASK = s.head then
            if failOnFull then some ({ s with put := .idle }, some (.putReturns false))
            else some (s, some .putWaits)
          else some ({ s with put := .construct v t }, none)
      | _ => none
  | .putConstruct =>
      match s.put with
      | .construct v t =>
          some ({ s with
            put := .storeTail v t
            buffer := Function.update s.buffer t v
            live := Function.update s.live t true }, none)
      | _ => none
  | .putStoreTail =>
      match s.put with
      | .storeTail v t =>
          some ({ s with put := .idle, tail := (t + 1) &&& c.MASK, sent := s.sent ++ [v] },
            some (.putReturns true))
      | _ => none
  | .getLoadHead blocking =>
      match s.get with
      | .idle => some ({ s with get := .loadTail blocking s.head }, none)
      | _ => none
  | .getLoadTail =>
      match s.get with
      | .loadTail blocking h =>
          if h = s.tail then
            if blocking then some (s, some .getWaits)
            else some ({ s with get := .idle }, some (.getReturns none))
          else some ({ s with get := .move h }, none)
      | _ => none
  | .getMove =>
      match s.get with
      | .move h =>
          some ({ s with
            get := .storeHead h (s.buffer h), live := Function.update s.live h false }, none)
      | _ => none
  | .getStoreHead =>
      match s.get with
      | .storeHead h result =>
          some ({ s with get := .idle, head := (h + 1) &&& c.MASK, received := s.received ++ [result] },
            some (.getReturns (some result)))
      | _ => none

/-- All interleavings of the two parties, from a new queue. -/
def system (c : Capacity) (failOnFull : Bool) : Transition.System (State T) (Act T) :=
  .ofPartial (fun s => ∃ buffer, s = .init buffer) (step c failOnFull)

end Dwhbll.Concurrency.Spsc
