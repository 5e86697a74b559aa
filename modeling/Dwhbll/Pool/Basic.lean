import Dwhbll.Lib.Transition
import Mathlib.Algebra.Group.Int.Defs
import Mathlib.Algebra.Group.Nat.Defs

/-!
# `Pool` of `memory/pool.h`

A pool keeps its objects in blocks of `BlockSize` slots. The blocks are a linked list that only grows at its end;
here a block is named by its position in that list, and a slot by its block and its index. The lock makes each
operation one step. Sizes are natural numbers, but for the product in the constructor.
-/

namespace Dwhbll.Memory

structure Obj (T : Type) where
  blockAvailable : Nat
  used : List Bool
  object : List T
  deriving DecidableEq, Repr

/-- A pointer to an object: one of the slots, or an address that is none. -/
inductive Ptr where
  | null
  | slot (block index : Nat)
  | foreign (address : Nat)
  deriving DecidableEq, Repr

structure Pool (T : Type) (BlockSize : Nat) where
  objects : List (Obj T)
  available : Nat
  size : Nat
  returning : Ptr → Option (Nat × Nat)

namespace Pool

/-- `std::runtime_error` with its text, or what the constructor of an object throws. -/
inductive Exn where
  | runtimeError (what : String)
  | constructor
  deriving DecidableEq, Repr

variable {T : Type} [Inhabited T] {B : Nat}

/-- `new Obj`. -/
def newObj (B : Nat) : Obj T where
  blockAvailable := B
  used := List.replicate B false
  object := List.replicate B default

def makeNew (p : Pool T B) : Pool T B := { p with objects := p.objects ++ [newObj B], size := p.size + B }

/-- `makeNew()` until there are `n` objects, for so many blocks at the most. -/
def grow (n : Nat) : Nat → Pool T B → Pool T B
  | 0, p => p
  | fuel + 1, p => if p.size < n then grow n fuel p.makeNew else p

/-- `Pool(default_size)`. Each round adds at least one object, so there are no more rounds than objects. -/
def new (B defaultSize : Nat) : Pool T B :=
  let available := defaultSize * B % 2 ^ 64
  let p : Pool T B := { objects := [newObj B], available := available, size := 0, returning := fun _ => none }
  let p := p.grow available available
  { p with available := p.size }

/-- The first slot that is not used, in the first block that has one according to `blockAvailable`. -/
def findUnused : List (Obj T) → (block : Nat) → Option (Nat × Nat)
  | [], _ => none
  | obj :: objs, block =>
      if obj.blockAvailable = 0 then findUnused objs (block + 1)
      else
        match obj.used.findIdx? (! ·) with
        | some index => some (block, index)
        | none => findUnused objs (block + 1)

/-- The construction of an object in a slot. `value` is missing where its constructor throws. -/
def construct (value : Option T) (block index : Nat) (p : Pool T B) : Except Exn Ptr × Pool T B :=
  let p := { p with
    objects := p.objects.modify block fun obj =>
      { obj with blockAvailable := obj.blockAvailable - 1, used := obj.used.set index true } }
  match value with
  | none => (.error .constructor, p)
  | some v =>
      (.ok (.slot block index),
        { p with
          objects := p.objects.modify block fun obj => { obj with object := obj.object.set index v }
          returning := fun q => if q = .slot block index then some (block, index) else p.returning q })

def acquire (value : Option T) (p : Pool T B) : Except Exn Ptr × Pool T B :=
  if p.available = 0 then
    let p := p.makeNew
    p.construct value (p.objects.length - 1) 0
  else
    match findUnused p.objects 0 with
    | none => (.error (.runtimeError "available != 0 and no available objects!"), p)
    | some (block, index) => { p with available := p.available - 1 }.construct value block index

def offer (object : Ptr) (p : Pool T B) : Except Exn Unit × Pool T B :=
  if object = .null then (.ok (), p)
  else
    match p.returning object with
    | none => (.error (.runtimeError "Object was not allocated in the pool!"), p)
    | some (block, index) =>
        (.ok (),
          { p with
            objects := p.objects.modify block fun obj =>
              { obj with used := obj.used.set index false, blockAvailable := obj.blockAvailable + 1 }
            returning := fun q => if q = object then none else p.returning q
            available := p.available + 1 })

def usedSize (p : Pool T B) : Nat := p.size - p.available

/-! ## Runs -/

/-- A pool, with the objects that were acquired and not yet returned. -/
structure World (T : Type) (B : Nat) where
  pool : Pool T B
  outstanding : List Ptr

inductive Op (T : Type) where
  | acquire (value : Option T)
  | offer (object : Ptr)
  deriving DecidableEq, Repr

def Op.run (w : World T B) : Op T → Except Exn (Option Ptr) × World T B
  | .acquire value =>
      match w.pool.acquire value with
      | (.error e, pool) => (.error e, { w with pool := pool })
      | (.ok ptr, pool) => (.ok (some ptr), ⟨pool, w.outstanding ++ [ptr]⟩)
  | .offer object =>
      match w.pool.offer object with
      | (.error e, pool) => (.error e, { w with pool := pool })
      | (.ok (), pool) => (.ok none, ⟨pool, w.outstanding.erase object⟩)

def World.new (B defaultSize : Nat) : World T B := ⟨Pool.new B defaultSize, []⟩

def system (B defaultSize : Nat) : Transition.System (World T B) (Op T) :=
  .ofFun (World.new B defaultSize) fun w op => (op.run w).2

/-- The constructor of the object does not throw. -/
def Op.Constructs : Op T → Prop
  | .acquire value => value.isSome
  | .offer _ => True

end Pool

end Dwhbll.Memory
