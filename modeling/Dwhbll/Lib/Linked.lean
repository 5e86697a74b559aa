import Mathlib.Logic.Function.Basic

/-!
# Linked lists in a heap

`next` gives each node's successor. `IsList next start xs` says that the chain from `start` runs through
exactly the nodes `xs` and ends.
-/

namespace Linked

/-- The chain from `start` runs through the nodes `xs`. -/
def IsList (next : Nat → Option Nat) : Option Nat → List Nat → Prop
  | start, [] => start = none
  | start, x :: xs => start = some x ∧ IsList next (next x) xs

variable {next : Nat → Option Nat} {start : Option Nat} {xs ys : List Nat}

/-- A chain runs through one list of nodes only. -/
theorem IsList.unique (h : IsList next start xs) (h' : IsList next start ys) : xs = ys := by
  induction xs generalizing start ys with
  | nil =>
      cases ys with
      | nil => rfl
      | cons y ys =>
          have : none = some y := h.symm.trans h'.1
          cases this
  | cons x xs ih =>
      cases ys with
      | nil =>
          have : some x = none := h.1.symm.trans h'
          cases this
      | cons y ys =>
          have he : some x = some y := h.1.symm.trans h'.1
          cases he
          rw [ih h.2 h'.2]

/-- Writing the successor of a node that is not on the chain leaves the chain as it is. -/
theorem IsList.update {n : Nat} {m : Option Nat} (h : IsList next start xs) (hn : n ∉ xs) :
    IsList (Function.update next n m) start xs := by
  induction xs generalizing start with
  | nil => exact h
  | cons x xs ih =>
      have hx : x ≠ n := fun he => hn (he ▸ List.mem_cons_self)
      refine ⟨h.1, ?_⟩
      rw [Function.update_of_ne hx]
      exact ih h.2 fun hm => hn (List.mem_cons_of_mem _ hm)

/-- A chain that starts at a node is this node and the chain from its successor. -/
theorem IsList.some {n : Nat} (h : IsList next (some n) xs) :
    ∃ ys, xs = n :: ys ∧ IsList next (next n) ys := by
  cases xs with
  | nil => cases h
  | cons x ys =>
      have he : Option.some n = Option.some x := h.1
      cases he
      exact ⟨ys, rfl, h.2⟩

end Linked
