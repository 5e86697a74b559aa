import Dwhbll.Ring.Access

/-!
# The iterators of the ring

An iterator is an index of the storage, and `end()` is `tail`. A step wraps at the capacity, an offset only
behind it, and a difference is taken modulo the storage unless `tail` is larger than `head`. The other
iterator classes are copies of this one.
-/

open Circular

namespace Dwhbll.Collections.Ring

variable {T : Type}

/-- `Ring::iterator`. The ring it belongs to is an argument of its operations. -/
structure Iterator where
  index : Int
  deriving DecidableEq, Repr

def beginIter (r : Ring T) : Iterator := ⟨r.head⟩

def endIter (r : Ring T) : Iterator := ⟨r.tail⟩

namespace Iterator

/-- `operator*`: the cell the reference is to, if that is one of the storage. -/
def deref? (r : Ring T) (it : Iterator) : Option T :=
  if it.index < 0 then none else r.data[it.index.toNat]?

/-- `operator++`. For the comparison the index is converted to a `std::size_t`, so that a negative one is large. -/
def inc (r : Ring T) (it : Iterator) : Iterator :=
  let index := it.index + 1
  ⟨if index < 0 ∨ index ≥ r.capacity then index - r.capacity else index⟩

/-- `operator+`, with the comparison of `inc`. -/
def add (r : Ring T) (it : Iterator) (count : Int) : Iterator :=
  let index := it.index + count
  let index := if index < 0 then index + r.capacity else index
  ⟨if index < 0 ∨ index > r.capacity then index - r.capacity else index⟩

/-- An index as the difference of iterators counts it. -/
def flatten (r : Ring T) (index : Int) : Int :=
  if 0 ≤ index ∧ index < r.head then index + r.capacity else index

/-- `operator-` of two iterators. -/
def sub (r : Ring T) (it other : Iterator) : Int :=
  if r.tail > r.head then it.index - other.index
  else flatten r it.index - flatten r other.index

end Iterator

/-- What a loop that increments the iterator visits until it is `end()`; `none` where that takes more than
`fuel` comparisons. -/
def visits (r : Ring T) : (fuel : Nat) → Iterator → Option (List (Option T))
  | 0, _ => none
  | fuel + 1, it =>
      if it = r.endIter then some [] else (visits r fuel (it.inc r)).map fun xs => it.deref? r :: xs

/-- The iterators go through the sequence: step by step, in the distance of the two ends, and by offsets. -/
structure Iterates (r : Ring T) (l : List T) : Prop where
  visits : ∃ fuel, r.visits fuel r.beginIter = some (l.map some)
  distance : r.endIter.sub r r.beginIter = (r.size : Int)
  offset : ∀ k < r.size, (r.beginIter.add r k).deref? r = l[k]?

/-! ## Steps -/

theorem Iterator.inc_eq {r : Ring T} (h : r.WF) {k : Nat} (hk : k < r.sz) :
    (⟨((r.head + k) % r.capacity : Nat)⟩ : Iterator).inc r = ⟨((r.head + (k + 1)) % r.capacity : Nat)⟩ := by
  have h1 := h.head_lt
  have h2 := h.sz_le
  rw [Iterator.inc, add_mod_wrap h1 (by omega), add_mod_wrap h1 (by omega)]
  simp only [Iterator.mk.injEq]
  split <;> split <;> split <;> omega

/-- An offset that stays in the storage or comes to its end. -/
theorem Iterator.add_eq {r : Ring T} {it : Iterator} {count : Int} (h0 : 0 ≤ it.index + count)
    (hle : it.index + count ≤ r.capacity) : it.add r count = ⟨it.index + count⟩ := by
  have hneg : ¬ it.index + count < 0 := by omega
  simp only [Iterator.add, if_neg hneg]
  rw [if_neg (by omega)]

theorem Iterator.deref?_natCast (r : Ring T) (j : Nat) : (⟨j⟩ : Iterator).deref? r = r.data[j]? := by
  rw [Iterator.deref?, if_neg (Int.not_lt.mpr (Int.natCast_nonneg j))]
  rfl

variable [Inhabited T] {n : Nat} {r : Ring T} {l : List T}

/-- From the cell of the `k`-th element on, the loop visits the elements that are left. -/
theorem Holds.visits_drop (h : Holds n r l) (hroom : r.sz < r.capacity) {k m : Nat} (hk : k + m = r.sz) :
    r.visits (m + 1) ⟨((r.head + k) % r.capacity : Nat)⟩ = some ((l.drop k).map some) := by
  have h1 := h.wf.head_lt
  induction m generalizing k with
  | zero =>
      have hend : k = r.sz := by omega
      have hdrop : l.drop k = [] := List.drop_eq_nil_of_le (by rw [h.length]; omega)
      rw [visits, endIter, h.wf.tail_eq, hend, if_pos rfl, ← hend, hdrop]
      rfl
  | succ m ih =>
      have hlt : k < r.sz := by omega
      have hlen : k < l.length := by
        rw [h.length]
        exact hlt
      -- The loop has not come to the end: its cell is one lap short of `tail`.
      have hne : (⟨((r.head + k) % r.capacity : Nat)⟩ : Iterator) ≠ r.endIter := by
        rw [endIter, h.wf.tail_eq]
        intro heq
        exact add_mod_ne h1 hlt hroom (Int.ofNat.inj (congrArg Iterator.index heq))
      rw [visits, if_neg hne, Iterator.inc_eq h.wf hlt, ih (by omega), Iterator.deref?_natCast,
        ← h.getElem?_mod hlt, List.drop_eq_getElem_cons hlen, List.getElem?_eq_getElem hlen]
      rfl

theorem Holds.visits_iff (h : Holds n r l) :
    (∃ fuel, r.visits fuel r.beginIter = some (l.map some)) ↔ r.sz ≠ r.capacity := by
  have h1 := h.wf.head_lt
  have h2 := h.wf.sz_le
  constructor
  · rintro ⟨fuel, hv⟩ hfull
    cases fuel with
    | zero => cases hv
    | succ fuel =>
        -- On a full ring the loop is over before its first step.
        have hend : r.beginIter = r.endIter := by
          rw [beginIter, endIter, h.wf.tail_eq, hfull, Nat.add_mod_right, Nat.mod_eq_of_lt h1]
        rw [visits, if_pos hend] at hv
        have hlen : l.length = 0 := by
          rw [← List.length_map (f := some), ← Option.some.inj hv]
          rfl
        rw [h.length] at hlen
        omega
  · intro hne
    refine ⟨r.sz + 1, ?_⟩
    have hv := h.visits_drop (k := 0) (by omega) (Nat.zero_add r.sz)
    rw [r.head.add_zero, Nat.mod_eq_of_lt h1] at hv
    exact hv

/-! ## Distances and offsets -/

theorem Holds.distance_iff (h : Holds n r l) :
    r.endIter.sub r r.beginIter = (r.size : Int) ↔ r.sz ≠ r.capacity := by
  have h1 := h.wf.head_lt
  have h2 := h.wf.sz_le
  have ht := h.wf.tail_wrap
  simp only [Iterator.sub, Iterator.flatten, endIter, beginIter, size]
  split at ht <;> split <;> omega

theorem Holds.offset_iff (h : Holds n r l) :
    (∀ k < r.size, (r.beginIter.add r k).deref? r = l[k]?) ↔ r.head + r.sz ≤ r.capacity := by
  have h1 := h.wf.head_lt
  have h2 := h.wf.sz_le
  constructor
  · intro hall
    rcases Nat.lt_or_ge r.capacity (r.head + r.sz) with hlt | hle
    · -- The element that wraps to the first cell is looked for behind the last one.
      have hk : r.capacity - r.head < r.size := by
        show r.capacity - r.head < r.sz
        omega
      have hsum : r.beginIter.index + ((r.capacity - r.head : Nat) : Int) = (r.capacity : Nat) := by
        show (r.head : Int) + ((r.capacity - r.head : Nat) : Int) = _
        omega
      have hget := hall _ hk
      have hlen : r.capacity - r.head < l.length := by
        rw [h.length]
        exact hk
      rw [Iterator.add_eq (by omega) (by omega), hsum, Iterator.deref?_natCast, capacity,
        List.getElem?_eq_none (Nat.le_refl _)] at hget
      rw [capacity] at hlen
      rw [List.getElem?_eq_getElem hlen] at hget
      cases hget
    · exact hle
  · intro hle k hk
    have hlt : k < r.sz := hk
    have hsum : r.beginIter.index + (k : Int) = (r.head + k : Nat) := rfl
    rw [Iterator.add_eq (by omega) (by omega), hsum, Iterator.deref?_natCast, h.getElem? hlt]
    split
    · rfl
    · omega

/-- In every state of every run that does not grow the storage, the iterators go through the elements if and
only if the ring is not full and its elements do not wrap. -/
theorem iterates_iff (hn : 1 ≤ n) (hr : (inPlace n).Reachable (r, l)) :
    r.Iterates l ↔ r.sz ≠ r.capacity ∧ r.head + r.sz ≤ r.capacity := by
  have h := holds_of_inPlace hn hr
  constructor
  · intro hit
    exact ⟨h.visits_iff.mp hit.visits, h.offset_iff.mp hit.offset⟩
  · rintro ⟨hroom, hwrap⟩
    exact ⟨h.visits_iff.mpr hroom, h.distance_iff.mpr hroom, h.offset_iff.mpr hwrap⟩

/-- `Ring(3)` after three `push_back` and one `pop_front`: two elements from cell 1 on, and `tail` at cell 0. -/
def startedAtOne : Ring Nat := { head := 1, tail := 0, sz := 2, data := [1, 2, 3] }

theorem startedAtOne_inPlace : (inPlace 3).Reachable (startedAtOne, [2, 3]) :=
  .step (i := (fun _ => 0, .popFront))
    (.step (i := (fun _ => 0, .pushBack 3))
      (.step (i := (fun _ => 0, .pushBack 2))
        (.step (i := (fun _ => 0, .pushBack 1)) (.init rfl) ⟨rfl, rfl⟩) ⟨rfl, rfl⟩) ⟨rfl, rfl⟩) ⟨rfl, rfl⟩

/-- The iterators go through the two elements of `startedAtOne`, and not through those of `wrappedFull`. -/
theorem iterates_iff_two : startedAtOne.Iterates [2, 3] ∧ ¬ wrappedFull.Iterates [2, 3] :=
  ⟨(iterates_iff (n := 3) (by decide) startedAtOne_inPlace).mpr (by decide),
    fun h => absurd ((iterates_iff (n := 2) (by decide) wrappedFull_inPlace).mp h) (by decide)⟩

/-- A loop over `wrappedFull` visits none of its two elements, its ends are 0 apart, and `begin() + 1` is behind
the storage. -/
theorem wrappedFull_iterates :
    (inPlace 2).Reachable (wrappedFull, [2, 3]) ∧ wrappedFull.visits 3 wrappedFull.beginIter = some [] ∧
      wrappedFull.endIter.sub wrappedFull wrappedFull.beginIter = 0 ∧ wrappedFull.size = 2 ∧
      (wrappedFull.beginIter.add wrappedFull 1).deref? wrappedFull = none ∧ ¬ wrappedFull.Iterates [2, 3] :=
  ⟨wrappedFull_inPlace, by decide, by decide, rfl, by decide, fun h => absurd h.distance (by decide)⟩

end Dwhbll.Collections.Ring
