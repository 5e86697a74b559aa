import Dwhbll.Lib.Transition
import Dwhbll.Queues.Capacity
import Mathlib.Logic.Function.Basic

/-!
# `BoundedMPSCQueue` of `concurrency/queues/bounded_mpsc_queue.h`

Any number of producers and one consumer take turns at their atomic steps. A put takes its ticket by the
`fetch_add` of `tail`, loads `seq` of its cell until that equals the ticket, constructs the value and
publishes it by storing `seq`. The consumer loads `seq` of the cell at `head`, moves the value out,
releases the cell for the next lap by storing `seq`, and advances `head`. All counters are 64-bit.

`tickets`, `accepted`, `rejected`, `received` and `live` record the run and are never read by a step.
-/

namespace Dwhbll.Concurrency.Mpsc

variable {P T : Type}

/-- `static_cast<intptr_t>(a) - static_cast<intptr_t>(b)`, as the 64-bit subtraction computes it. -/
def diff (a b : Nat) : Int := ((a : Int) - b).bmod (2 ^ 64)

/-- Where a producer is in `put(v)`; `pos` is its ticket. -/
inductive Put (T : Type) where
  | idle
  | load (v : T) (pos : Nat)
  | construct (v : T) (pos : Nat)
  | storeSeq (v : T) (pos : Nat)
  deriving DecidableEq, Repr

/-- Where the consumer is in `get()` or `getBlocking()`. -/
inductive Get (T : Type) where
  | idle
  | load (blocking : Bool)
  | move
  | storeSeq (result : T)
  | advance (result : T)
  deriving DecidableEq, Repr

structure State (P T : Type) where
  head : Nat
  tail : Nat
  seq : Nat → Nat
  data : Nat → T
  put : P → Put T
  get : Get T
  /-- The values of all puts, in the order of their tickets. -/
  tickets : List T
  /-- The tickets of the puts that returned true, in the order in which they did. -/
  accepted : List Nat
  /-- The tickets of the puts that returned false. -/
  rejected : List Nat
  /-- The values that gets returned, in order. -/
  received : List T
  /-- The cell holds a value that was constructed and not taken. -/
  live : Nat → Bool

/-- The constructor. It numbers the cells with an `int`, which is wide enough up to `N = 2^31`. -/
def State.init (data : Nat → T) : State P T :=
  { head := 0, tail := 0, seq := fun i => i, data, put := fun _ => .idle, get := .idle
    tickets := [], accepted := [], rejected := [], received := [], live := fun _ => false }

inductive Act (P T : Type) where
  | putFetchAdd (p : P) (v : T)
  | putLoad (p : P)
  | putConstruct (p : P)
  | putStoreSeq (p : P)
  | getCall (blocking : Bool)
  | getLoad
  | getMove
  | getStoreSeq
  | getAdvance
  deriving DecidableEq, Repr

/-- What a step lets the caller see: a return value, or one more round of the waiting loop. -/
inductive Event (T : Type) where
  | putReturns (b : Bool)
  | putWaits
  | getReturns (r : Option T)
  | getWaits
  deriving DecidableEq, Repr

variable [DecidableEq P]

/-- One atomic step; `none` if the party is not at that place. -/
def step (c : Capacity) (failOnFull : Bool) (s : State P T) :
    Act P T → Option (State P T × Option (Event T))
  | .putFetchAdd p v =>
      match s.put p with
      | .idle =>
          some ({ s with
            put := Function.update s.put p (.load v s.tail)
            tail := (s.tail + 1) % 2 ^ 64
            tickets := s.tickets ++ [v] }, none)
      | _ => none
  | .putLoad p =>
      match s.put p with
      | .load v pos =>
          let d := diff (s.seq (pos &&& c.MASK)) pos
          if d = 0 then some ({ s with put := Function.update s.put p (.construct v pos) }, none)
          else if failOnFull ∧ d < 0 then
            some ({ s with put := Function.update s.put p .idle, rejected := s.rejected ++ [pos] },
              some (.putReturns false))
          else some (s, some .putWaits)
      | _ => none
  | .putConstruct p =>
      match s.put p with
      | .construct v pos =>
          some ({ s with
            put := Function.update s.put p (.storeSeq v pos)
            data := Function.update s.data (pos &&& c.MASK) v
            live := Function.update s.live (pos &&& c.MASK) true }, none)
      | _ => none
  | .putStoreSeq p =>
      match s.put p with
      | .storeSeq _ pos =>
          some ({ s with
            put := Function.update s.put p .idle
            seq := Function.update s.seq (pos &&& c.MASK) ((pos + 1) % 2 ^ 64)
            accepted := s.accepted ++ [pos] }, some (.putReturns true))
      | _ => none
  | .getCall blocking =>
      match s.get with
      | .idle => some ({ s with get := .load blocking }, none)
      | _ => none
  | .getLoad =>
      match s.get with
      | .load blocking =>
          if diff (s.seq (s.head &&& c.MASK)) ((s.head + 1) % 2 ^ 64) < 0 then
            if blocking then some (s, some .getWaits)
            else some ({ s with get := .idle }, some (.getReturns none))
          else some ({ s with get := .move }, none)
      | _ => none
  | .getMove =>
      match s.get with
      | .move =>
          some ({ s with
            get := .storeSeq (s.data (s.head &&& c.MASK))
            live := Function.update s.live (s.head &&& c.MASK) false }, none)
      | _ => none
  | .getStoreSeq =>
      match s.get with
      | .storeSeq result =>
          some ({ s with
            get := .advance result
            seq := Function.update s.seq (s.head &&& c.MASK) ((s.head + c.N) % 2 ^ 64) }, none)
      | _ => none
  | .getAdvance =>
      match s.get with
      | .advance result =>
          some ({ s with
            get := .idle, head := (s.head + 1) % 2 ^ 64, received := s.received ++ [result] },
            some (.getReturns (some result)))
      | _ => none

/-- All interleavings of the producers and the consumer, from a new queue. -/
def system (c : Capacity) (failOnFull : Bool) : Transition.System (State P T) (Act P T) :=
  .ofPartial (fun s => ∃ data, s = .init data) (step c failOnFull)

end Dwhbll.Concurrency.Mpsc
