import Dwhbll.Lib.Search
import Dwhbll.Lib.Transition
import Mathlib.Data.List.Destutter
import Mathlib.Data.List.Sort

/-!
# `SortedLinkedList` of `collections/sorted_linked_list.h`

What stands in the list, in order. An iterator is the number of elements before it.
-/

namespace Dwhbll.Collections.SortedLinkedList

variable {α : Type} [LinearOrder α]

/-- `list_t::sort()`. -/
def listSort (xs : List α) : List α := xs.insertionSort (· ≤ ·)

/-- `std::lower_bound(begin(), end(), value)`. -/
def lowerBound (value : α) (xs : List α) : Nat := Search.lowerBound (fun x => decide (x < value)) xs

/-- A function that changes one list: a constructor, an assignment or a member. -/
inductive Mutator (α : Type) where
  | construct (n : Nat)
  | constructCopies (n : Nat) (value : α)
  /-- From two iterators or an initializer list. -/
  | constructRange (values : List α)
  /-- From a `std::list` and an allocator, by `using list_t::list_t`. -/
  | constructList (other : List α)
  | assignIlist (ilist : List α)
  /-- From a `std::list`, by `using list_t::operator=`. -/
  | assignList (other : List α)
  | assignCopies (n : Nat) (value : α)
  | assignRange (values : List α)
  | insert (value : α)
  | insertCopies (count : Nat) (value : α)
  | erase (position : Nat)
  | eraseRange (first last : Nat)
  | popFront
  | popBack
  | remove (value : α)
  | unique
  | clear
  | resize (count : Nat)
  | resizeValue (count : Nat) (value : α)
  deriving DecidableEq, Repr

/-- `list_t::resize(count, value)`. -/
def resizeValue (count : Nat) (value : α) (xs : List α) : List α :=
  if count < xs.length then xs.take count else xs ++ List.replicate (count - xs.length) value

variable [Inhabited α]

def resize (count : Nat) (xs : List α) : List α := resizeValue count default xs

/-- The list after the call, and the iterator or number of elements that the call returns. -/
def Mutator.apply (m : Mutator α) (xs : List α) : Option Nat × List α :=
  match m with
  | construct n => (none, List.replicate n default)
  | constructCopies n value => (none, List.replicate n value)
  | constructRange values => (none, listSort values)
  | constructList other => (none, other)
  | assignIlist ilist => (none, listSort ilist)
  | assignList other => (none, other)
  | assignCopies n value => (none, List.replicate n value)
  | assignRange values => (none, listSort values)
  | insert value => (some (lowerBound value xs), Search.insertAt (lowerBound value xs) value xs)
  | insertCopies count value =>
      (some (lowerBound value xs), Search.insertAllAt (lowerBound value xs) (List.replicate count value) xs)
  | erase position => (some position, xs.eraseIdx position)
  | eraseRange first last => (some first, xs.take first ++ xs.drop last)
  | popFront => (none, xs.tail)
  | popBack => (none, xs.dropLast)
  | remove value => (some (xs.count value), xs.filter (· ≠ value))
  | unique => (some (xs.length - (xs.destutter (· ≠ ·)).length), xs.destutter (· ≠ ·))
  | clear => (none, [])
  | resize count => (none, SortedLinkedList.resize count xs)
  | resizeValue count value => (none, SortedLinkedList.resizeValue count value xs)

/-- The iterators are of the list, and there is an element to take out. -/
def Mutator.Valid (m : Mutator α) (xs : List α) : Prop :=
  match m with
  | erase position => position < xs.length
  | eraseRange first last => first ≤ last ∧ last ≤ xs.length
  | popFront => xs ≠ []
  | popBack => xs ≠ []
  | _ => True

/-! ## Calls on several lists -/

/-- `copy` is the copy constructor or the assignment, which moving comes down to as well. -/
inductive Call (α : Type) where
  | own (m : Mutator α)
  | copy (other : Nat)
  | swap (other : Nat)
  | merge (other : Nat)
  deriving DecidableEq, Repr

/-- The lists by their names. One that has not been constructed yet is as good as an empty one. -/
abbrev Objects (α : Type) := Nat → List α

def start : Objects α := fun _ => []

/-- A call on the list `i`. -/
def step (s : Objects α) (call : Nat × Call α) : Option Nat × Objects α :=
  let (i, c) := call
  match c with
  | .own m => ((m.apply (s i)).1, Function.update s i (m.apply (s i)).2)
  | .copy j => (none, Function.update s i (s j))
  | .swap j => (none, Function.update (Function.update s i (s j)) j (s i))
  | .merge j =>
      if i = j then (none, s)
      else (none, Function.update (Function.update s i ((s i).merge (s j))) j [])

def Valid (s : Objects α) (call : Nat × Call α) : Prop :=
  match call with
  | (i, .own m) => m.Valid (s i)
  | _ => True

/-! ## The order -/

def Sorted (xs : List α) : Prop := xs.Pairwise (· ≤ ·)

instance (xs : List α) : Decidable (Sorted xs) := inferInstanceAs (Decidable (xs.Pairwise (· ≤ ·)))

/-- What is appended is not smaller than any of the elements, and a list that is taken as it is is in order. -/
def Mutator.Ordered (m : Mutator α) (xs : List α) : Prop :=
  match m with
  | constructList other => Sorted other
  | assignList other => Sorted other
  | resize count => xs.length < count → ∀ x ∈ xs, x ≤ default
  | resizeValue count value => xs.length < count → ∀ x ∈ xs, x ≤ value
  | _ => True

def Ordered (s : Objects α) (call : Nat × Call α) : Prop :=
  match call with
  | (i, .own m) => m.Ordered (s i)
  | _ => True

variable {s : Objects α} {xs ys : List α} {value : α} {count : Nat}

section

omit [Inhabited α]

theorem sorted_listSort (xs : List α) : Sorted (listSort xs) := List.pairwise_insertionSort (· ≤ ·) xs

theorem sorted_replicate (n : Nat) (value : α) : Sorted (List.replicate n value) :=
  List.pairwise_replicate_of_refl

theorem Sorted.sublist (h : Sorted ys) (hsub : xs.Sublist ys) : Sorted xs := List.Pairwise.sublist hsub h

theorem Sorted.partitioned (h : Sorted xs) (value : α) : Search.Partitioned (fun x => decide (x < value)) xs :=
  h.imp fun hle hlt => by simpa using lt_of_le_of_lt hle (by simpa using hlt)

/-- All copies stand where the binary search finds the place of one. -/
theorem Sorted.insertCopies (h : Sorted xs) (count : Nat) (value : α) :
    Sorted (Search.insertAllAt (lowerBound value xs) (List.replicate count value) xs) := by
  refine Search.insertAllAt_pairwise h (sorted_replicate count value) (fun x hx y hy => ?_) (fun y hy x hx => ?_)
  · rw [List.eq_of_mem_replicate hy]
    have hlt := (h.partitioned value).of_mem_take hx
    exact le_of_lt (by simpa using hlt)
  · rw [List.eq_of_mem_replicate hy]
    have hle := (h.partitioned value).of_mem_drop hx
    simpa using hle

theorem Sorted.insert (h : Sorted xs) (value : α) : Sorted (Search.insertAt (lowerBound value xs) value xs) :=
  h.insertCopies 1 value

/-- `resize` appends without looking at the order. -/
theorem Sorted.resizeValue_iff (h : Sorted xs) :
    Sorted (resizeValue count value xs) ↔ (xs.length < count → ∀ x ∈ xs, x ≤ value) := by
  unfold resizeValue
  split
  · rename_i hlt
    exact iff_of_true (h.sublist (List.take_sublist ..)) fun hgt => absurd hgt (Nat.lt_asymm hlt)
  · constructor
    · intro hsorted hlt x hx
      refine (List.pairwise_append.mp hsorted).2.2 x hx value (List.mem_replicate.mpr ⟨?_, rfl⟩)
      exact Nat.sub_ne_zero_of_lt hlt
    · intro hle
      refine List.pairwise_append.mpr ⟨h, sorted_replicate _ value, fun x hx y hy => ?_⟩
      obtain ⟨hne, rfl⟩ := List.mem_replicate.mp hy
      exact hle (Nat.lt_of_sub_ne_zero hne) x hx

theorem Sorted.eraseRange (h : Sorted xs) {first last : Nat} (hle : first ≤ last) :
    Sorted (xs.take first ++ xs.drop last) := by
  refine h.sublist ?_
  have hsub := (List.drop_sublist_drop_left xs hle).append_left (xs.take first)
  rwa [List.take_append_drop] at hsub

theorem Sorted.merge (h : Sorted xs) (h' : Sorted ys) : Sorted (xs.merge ys) := List.Pairwise.merge h h'

/-- One list is changed. -/
theorem sorted_update_iff (hs : ∀ k, Sorted (s k)) (i : Nat) :
    (∀ k, Sorted (Function.update s i xs k)) ↔ Sorted xs := by
  constructor
  · intro h
    simpa using h i
  · intro h k
    rw [Function.update_apply]
    split
    · exact h
    · exact hs k

end

theorem Mutator.sorted_apply_iff {m : Mutator α} (h : Sorted xs) (hvalid : m.Valid xs) :
    Sorted (m.apply xs).2 ↔ m.Ordered xs := by
  cases m with
  | construct n => exact iff_of_true (sorted_replicate n default) trivial
  | constructCopies n value => exact iff_of_true (sorted_replicate n value) trivial
  | constructRange values => exact iff_of_true (sorted_listSort values) trivial
  | constructList other => exact Iff.rfl
  | assignIlist ilist => exact iff_of_true (sorted_listSort ilist) trivial
  | assignList other => exact Iff.rfl
  | assignCopies n value => exact iff_of_true (sorted_replicate n value) trivial
  | assignRange values => exact iff_of_true (sorted_listSort values) trivial
  | insert value => exact iff_of_true (h.insert value) trivial
  | insertCopies count value => exact iff_of_true (h.insertCopies count value) trivial
  | erase position => exact iff_of_true (h.sublist (List.eraseIdx_sublist ..)) trivial
  | eraseRange first last => exact iff_of_true (h.eraseRange hvalid.1) trivial
  | popFront => exact iff_of_true (h.sublist (List.tail_sublist xs)) trivial
  | popBack => exact iff_of_true (h.sublist (List.dropLast_sublist xs)) trivial
  | remove value => exact iff_of_true (h.sublist List.filter_sublist) trivial
  | unique => exact iff_of_true (h.sublist (List.destutter_sublist ..)) trivial
  | clear => exact iff_of_true List.Pairwise.nil trivial
  | resize count => exact h.resizeValue_iff
  | resizeValue count value => exact h.resizeValue_iff

/-! ## Runs -/

/-- From lists in order a call leads to lists in order if and only if it is an ordered one. -/
theorem step_sorted_iff {call : Nat × Call α} (hs : ∀ k, Sorted (s k)) (hvalid : Valid s call) :
    (∀ k, Sorted ((step s call).2 k)) ↔ Ordered s call := by
  obtain ⟨i, c⟩ := call
  cases c with
  | own m => exact (sorted_update_iff hs i).trans (Mutator.sorted_apply_iff (hs i) hvalid)
  | copy j => exact iff_of_true ((sorted_update_iff hs i).mpr (hs j)) trivial
  | swap j =>
      have hfirst := (sorted_update_iff hs i).mpr (hs j)
      exact iff_of_true ((sorted_update_iff hfirst j).mpr (hs i)) trivial
  | merge j =>
      simp only [step]
      split
      · exact iff_of_true hs trivial
      · have hfirst := (sorted_update_iff hs i).mpr ((hs i).merge (hs j))
        exact iff_of_true ((sorted_update_iff hfirst j).mpr List.Pairwise.nil) trivial

/-- All lists are in order after each call of a run if and only if all its calls are ordered ones. -/
theorem run_sorted_iff {calls : List (Nat × Call α)} (hvalid : Transition.Along step Valid start calls) :
    Transition.Along step (fun s call => ∀ k, Sorted ((step s call).2 k)) start calls ↔
      Transition.Along step Ordered start calls :=
  Transition.Along.iff_of_invariant_along
    (fun _ _ hs hv => step_sorted_iff hs hv) (fun _ _ _ _ h => h) (fun _ => List.Pairwise.nil) hvalid

/-- Insertions, a copy of the list, and a `resize` by a value that is not smaller. -/
def growing : List (Nat × Call Int) :=
  [(0, .own (.insert 5)), (0, .own (.insertCopies 2 3)), (1, .copy 0), (1, .own (.resizeValue 5 7))]

theorem run_sorted_iff_growing :
    Transition.Along step (fun s call => ∀ k, Sorted ((step s call).2 k)) start growing := by
  have hvalid : Transition.Along step Valid start growing := ⟨trivial, trivial, trivial, trivial, trivial⟩
  refine (run_sorted_iff hvalid).mpr ⟨trivial, trivial, trivial, fun _ => ?_, trivial⟩
  decide

/-- `resize(2)` of a list with one positive number appends a zero. -/
theorem resize_appends_smaller :
    Transition.Along step Valid start [(0, .own (.insert (5 : Int))), (0, .own (.resize 2))] ∧
      ¬ Transition.Along step (fun s call => ∀ k, Sorted ((step s call).2 k)) start
        [(0, .own (.insert (5 : Int))), (0, .own (.resize 2))] := by
  refine ⟨⟨trivial, trivial, trivial⟩, fun ⟨_, h, _⟩ => ?_⟩
  exact absurd (h 0) (by decide)

end Dwhbll.Collections.SortedLinkedList
