import Dwhbll.Lib.Transition
import Mathlib.Algebra.BigOperators.Group.Finset.Basic
import Mathlib.Algebra.Ring.Defs
import Mathlib.Logic.Function.Basic

/-!
# `matmul_cpu` of `linalg/matrix.h`

The workers share the storage of the result. Each `+=` reads an element of it and then writes it, and what the other
workers do comes in between.
-/

namespace Dwhbll.Linalg

/-- The elements in row major order. -/
structure Matrix (α : Type) (Row Col : Nat) where
  data : List α
  size : data.length = Row * Col

namespace Matrix

variable {α : Type} {Row Col K : Nat}

/-- `Matrix()`; the vector value-initialises its elements. -/
def new [Zero α] (Row Col : Nat) : Matrix α Row Col := ⟨List.replicate (Row * Col) 0, List.length_replicate⟩

/-- `operator[]`, with its assertion. -/
def get? (m : Matrix α Row Col) (row col : Nat) : Option α :=
  if row < Row ∧ col < Col then m.data[row * Col + col]? else none

/-- An assignment to what `operator[]` refers to. -/
def set? (m : Matrix α Row Col) (row col : Nat) (x : α) : Option (Matrix α Row Col) :=
  if row < Row ∧ col < Col then some ⟨m.data.set (row * Col + col) x, by rw [List.length_set, m.size]⟩ else none

/-! ## The workers -/

/-- The number of threads, for what `hardware_concurrency()` returns. -/
def numThreads (hardwareConcurrency : Nat) : Nat := if hardwareConcurrency = 0 then 1 else hardwareConcurrency

def startRow (Row threads i : Nat) : Nat := i * (Row / threads)

def endRow (Row threads i : Nat) : Nat :=
  startRow Row threads i + Row / threads + if i = threads - 1 then Row % threads else 0

/-- The updates of a worker in the order of its loops, as `(row, cur, col)`. -/
def updates (Col K start stop : Nat) : List (Nat × Nat × Nat) :=
  (List.range' start (stop - start)).flatMap fun row =>
    (List.range Col).flatMap fun cur => (List.range K).map fun col => (row, cur, col)

/-- What a worker still has to do, and the element of the result that it has read for the first of its updates. -/
structure Worker (α : Type) where
  todo : List (Nat × Nat × Nat)
  loaded : Option α := none

structure Shared (α : Type) (Row K : Nat) where
  res : Matrix α Row K
  worker : Nat → Worker α

variable [Add α] [Mul α] [Zero α]

def start (Row Col K threads : Nat) : Shared α Row K where
  res := new Row K
  worker i := { todo := if i < threads then updates Col K (startRow Row threads i) (endRow Row threads i) else [] }

/-- The next step of a worker. There is none if it is done, or if an assertion fails. -/
def step (A : Matrix α Row Col) (B : Matrix α Col K) (s : Shared α Row K) (i : Nat) : Option (Shared α Row K) :=
  match (s.worker i).todo, (s.worker i).loaded with
  | [], _ => none
  | (row, cur, col) :: todo, none => do
      let x ← s.res.get? row col
      return { s with worker := Function.update s.worker i { todo := (row, cur, col) :: todo, loaded := some x } }
  | (row, cur, col) :: todo, some x => do
      let a ← A.get? row cur
      let b ← B.get? cur col
      let res ← s.res.set? row col (x + a * b)
      return { res, worker := Function.update s.worker i { todo } }

/-- The runs of the workers, in any order of their steps. The signature of `matmul_cpu` has `Row = Col`. -/
def matmulCpu {n : Nat} (hardwareConcurrency : Nat) (A : Matrix α n n) (B : Matrix α n K) :
    Transition.System (Shared α n K) Nat :=
  .ofOption (start n n K (numThreads hardwareConcurrency)) (step A B)

/-- All threads have been joined. -/
def Shared.Joined (s : Shared α Row K) : Prop := ∀ i, (s.worker i).todo = []

end Matrix

end Dwhbll.Linalg
