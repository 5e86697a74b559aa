import Dwhbll.Lib.Circular
import Dwhbll.Lib.Memory
import Dwhbll.Lib.Transition

/-!
# The ring buffer of `collections/ring.h`

`Ring<T>` keeps its elements in a vector, between `head` and `tail` taken modulo the capacity. A full
and an empty ring both have `head == tail`; `needsResize` tells them apart. Sizes are natural numbers:
a vector of `2^64` cells cannot be allocated.

The three operations that move the storage copy with `memcpy`. Which cells they read is a value of its
own (`inOrder`, `chopped`), so that a read outside the old storage can be spoken about; what it gives
is up to the memory behind the storage (`mem`).
-/

open Memory

namespace Dwhbll.Collections

structure Ring (T : Type) where
  head : Nat := 0
  tail : Nat := 0
  sz : Nat := 0
  data : List T
  needsResize : Bool := false
  deriving DecidableEq, Repr

variable {T : Type}

namespace Ring

/-- `std::out_of_range`, with its text. -/
inductive Exn where
  | outOfRange (what : String)
  deriving DecidableEq, Repr

/-- `_M_data.size()`, which is also what `capacity()` returns. -/
def capacity (r : Ring T) : Nat := r.data.length

def size (r : Ring T) : Nat := r.sz

/-- `Ring(defaultSize)`; the vector value-initialises its cells. -/
def new [Inhabited T] (defaultSize : Nat) : Ring T := { data := List.replicate defaultSize default }

/-- The elements in order: the `sz` cells from `head` on, modulo the capacity. -/
def toList [Inhabited T] (r : Ring T) : List T := Circular.window r.data r.head r.sz

/-! ## Moving the two ends -/

def incTail (r : Ring T) : Ring T :=
  let tail := if r.tail + 1 ≥ r.capacity then 0 else r.tail + 1
  { r with tail := tail, needsResize := if tail = r.head then true else r.needsResize }

def decTail (r : Ring T) : Ring T :=
  { r with tail := if r.tail = 0 then r.capacity - 1 else r.tail - 1, needsResize := false }

def incHead (r : Ring T) : Ring T :=
  { r with head := if r.head + 1 ≥ r.capacity then 0 else r.head + 1, needsResize := false }

def decHead (r : Ring T) : Ring T :=
  let head := if r.head = 0 then r.capacity - 1 else r.head - 1
  { r with head := head, needsResize := if r.tail = head then true else r.needsResize }

/-! ## Moving the storage -/

/-- The copies that put all elements in order at the start of a new storage. -/
def inOrder (r : Ring T) : List Memcpy :=
  if r.tail ≥ r.head then
    [⟨0, r.head, r.sz⟩]
  else
    [⟨0, r.head, r.capacity - r.head⟩, ⟨r.capacity - r.head, 0, r.tail⟩]

/-- The copies of `resize(target)` when the new storage is not larger than the old one. -/
def chopped (r : Ring T) (target : Nat) : List Memcpy :=
  if r.tail ≥ r.head then
    [⟨0, r.head, target⟩]
  else
    ⟨0, r.head, min (r.capacity - r.head) target⟩ ::
      if target > r.capacity - r.head then
        [⟨r.capacity - r.head, 0, target - (r.capacity - r.head)⟩]
      else []

/-- The private `resize()`: doubles the storage and puts the elements in order. -/
def resize [Inhabited T] (mem : Nat → T) (r : Ring T) : Ring T :=
  let newData := List.replicate (if r.capacity = 0 then 2 else r.capacity * 2) default
  { head := 0, tail := r.sz, sz := r.sz, needsResize := false
    data := memcpys mem r.data newData r.inOrder }

/-- The elements already start at the first cell, and `make_cont()` returns at once. -/
def isCont (r : Ring T) : Bool := r.tail ≥ r.head ∧ r.head = 0

/-- `make_cont()`. It leaves `needsResize` as it was. -/
def makeCont [Inhabited T] (mem : Nat → T) (r : Ring T) : Ring T :=
  if r.isCont then r
  else
    { r with
      head := 0, tail := r.sz
      data := memcpys mem r.data (List.replicate r.capacity default) r.inOrder }

/-- The copies of the public `resize(target)`. -/
def resizeCopies (r : Ring T) (target : Nat) : List Memcpy :=
  if target > r.capacity then r.inOrder else r.chopped target

/-- The public `resize(target)`. -/
def resizeTo [Inhabited T] (mem : Nat → T) (target : Nat) (r : Ring T) : Ring T :=
  { head := 0, tail := r.sz, sz := r.sz, needsResize := false
    data := memcpys mem r.data (List.replicate target default) (r.resizeCopies target) }

/-! ## The double-ended queue operations -/

def pushBack [Inhabited T] (mem : Nat → T) (x : T) (r : Ring T) : Ring T :=
  let r := if r.needsResize then r.resize mem else r
  let r := { r with data := r.data.set r.tail x }
  let r := r.incTail
  { r with sz := r.sz + 1 }

/-- The steps of `pushBack`, with the value moved into the cell. -/
def moveBack [Inhabited T] (mem : Nat → T) (x : T) (r : Ring T) : Ring T := r.pushBack mem x

def popBack (r : Ring T) : Except Exn Unit × Ring T :=
  if r.sz = 0 then (.error (.outOfRange "size is already zero."), r)
  else
    let r := r.decTail
    (.ok (), { r with sz := r.sz - 1 })

def pushFront [Inhabited T] (mem : Nat → T) (x : T) (r : Ring T) : Ring T :=
  let r := if r.needsResize then r.resize mem else r
  let r := r.decHead
  let r := { r with data := r.data.set r.head x }
  { r with sz := r.sz + 1 }

def popFront (r : Ring T) : Except Exn Unit × Ring T :=
  if r.sz = 0 then (.error (.outOfRange "size is already zero."), r)
  else
    let r := r.incHead
    (.ok (), { r with sz := r.sz - 1 })

/-- `front()` as it is without `DWHBLL_HARDEN`: the cell at `head`, whether it holds an element or not. -/
def front [Inhabited T] (r : Ring T) : T := (r.data[r.head]?).getD default

/-- `operator[]`: the cell it refers to, if that is one of the storage. -/
def get? (r : Ring T) (index : Nat) : Option T :=
  let index := index + r.head
  let index := if index > r.capacity then index - r.capacity else index
  r.data[index]?

/-! ## Calls and runs -/

/-- A call of one of the double-ended queue operations. -/
inductive Op (T : Type) where
  | pushBack (x : T)
  | moveBack (x : T)
  | pushFront (x : T)
  | popBack
  | popFront
  deriving DecidableEq, Repr

/-- What the call returns or throws, and the ring after it. -/
def Op.run [Inhabited T] (mem : Nat → T) : Op T → Ring T → Except Exn Unit × Ring T
  | .pushBack x, r => (.ok (), r.pushBack mem x)
  | .moveBack x, r => (.ok (), r.moveBack mem x)
  | .pushFront x, r => (.ok (), r.pushFront mem x)
  | .popBack, r => r.popBack
  | .popFront, r => r.popFront

/-- The call runs the growing `resize()`. -/
def Op.callsResize (r : Ring T) : Op T → Bool
  | .pushBack _ | .moveBack _ | .pushFront _ => r.needsResize
  | .popBack | .popFront => false

/-- An operation that moves the storage. -/
inductive Move where
  | resize
  | makeCont
  | resizeTo (target : Nat)
  deriving DecidableEq, Repr

/-- When the operation is run: the private `resize()` by a push on a full ring, and `resize(target)`
with a target that holds all elements. -/
def Move.Called (r : Ring T) : Move → Prop
  | .resize => r.needsResize = true
  | .makeCont => True
  | .resizeTo target => r.sz ≤ target

def Move.copies (r : Ring T) : Move → List Memcpy
  | .resize => r.inOrder
  | .makeCont => if r.isCont then [] else r.inOrder
  | .resizeTo target => r.resizeCopies target

def Move.run [Inhabited T] (mem : Nat → T) (r : Ring T) : Move → Ring T
  | .resize => r.resize mem
  | .makeCont => r.makeCont mem
  | .resizeTo target => r.resizeTo mem target

/-- The runs of calls on `Ring(n)`. What the memory behind a storage holds may be different at each
call. -/
def system [Inhabited T] (n : Nat) : Transition.System (Ring T) ((Nat → T) × Op T) :=
  .ofFun (Ring.new n) fun r c => (c.2.run c.1 r).2

/-- A ring that some finite sequence of calls makes of `Ring(n)`. -/
def Reachable [Inhabited T] (n : Nat) (r : Ring T) : Prop := (system n).Reachable r

end Ring

end Dwhbll.Collections
