import Dwhbll.Ring.Theorems
import Mathlib.Algebra.Group.Nat.Defs

/-!
# `operator[]` and `at`

Both add the index to `head` and take the capacity off a sum that is larger than it, so that the sum
that is equal to it stays one cell behind the storage. `at` compares what it gets with `tail`, which is
the end of the elements only where they do not wrap.
-/

open Circular

namespace Dwhbll.Collections.Ring

variable {T : Type}

/-- `std::vector::max_size()` at its largest: the constructor of a longer vector throws. -/
def maxSize : Nat := 2 ^ 63 - 1

/-- `at(index)`: the exception, or the cell the reference is to, if that is one of the storage. -/
def at? (r : Ring T) (index : UInt64) : Except Exn (Option T) :=
  let index := (index + UInt64.ofNat r.head).toNat
  let index := if index > r.capacity then index - r.capacity else index
  if index ≥ r.tail then .error (.outOfRange "index is out of range.") else .ok r.data[index]?

/-- The answer to an index into the sequence `l`. -/
def elementAt (l : List T) (index : Nat) : Except Exn (Option T) :=
  match l[index]? with
  | some x => .ok (some x)
  | none => .error (.outOfRange "index is out of range.")

/-- The index that `at` compares with `tail`, without the wrap at 64 bits. -/
theorem at?_cases {r : Ring T} (hh : r.head < r.capacity) (hcap : r.capacity ≤ maxSize) (index : UInt64) :
    ∃ j, (r.head + index.toNat ≤ r.capacity ∧ j = r.head + index.toNat ∨
        r.capacity < r.head + index.toNat ∧ r.head + index.toNat < 2 ^ 64 ∧
          j = r.head + index.toNat - r.capacity ∨
        2 ^ 64 ≤ r.head + index.toNat ∧ j = r.head + index.toNat - 2 ^ 64) ∧
      r.at? index = if j ≥ r.tail then .error (.outOfRange "index is out of range.") else .ok r.data[j]? := by
  have hi := index.toNat_lt
  have hsum : (index + UInt64.ofNat r.head).toNat = (index.toNat + r.head) % 2 ^ 64 := by
    simp [UInt64.toNat_add]
  simp only [maxSize] at hcap
  refine ⟨_, ?_, rfl⟩
  rw [hsum]
  rcases Nat.lt_or_ge (r.head + index.toNat) (2 ^ 64) with hlt | hge
  · rw [Nat.mod_eq_of_lt (by omega)]
    split <;> omega
  · rw [Nat.mod_eq_sub_mod (by omega), Nat.mod_eq_of_lt (by omega), if_neg (by omega)]
    omega

variable [Inhabited T]

/-! ## Runs beside the sequence they make -/

/-- Runs on `Ring(n)` in which no push grows the storage, and the sequence that the calls make of `[]`. -/
def inPlace (n : Nat) : Transition.System (Ring T × List T) ((Nat → T) × Op T) where
  init s := s = (Ring.new n, [])
  step s c s' := c.2.callsResize s.1 = false ∧ s' = ((c.2.run c.1 s.1).2, (c.2.onDeque s.2).getD s.2)

/-- The ring holds the sequence, in a storage of `n` cells. -/
structure Holds (n : Nat) (r : Ring T) (l : List T) : Prop where
  wf : r.WF
  capacity_eq : r.capacity = n
  toList_eq : r.toList = l

theorem Op.run_capacity (mem : Nat → T) {r : Ring T} {op : Op T} (hc : op.callsResize r = false) :
    (op.run mem r).2.capacity = r.capacity := by
  cases op with
  | pushBack x | moveBack x =>
      show (r.pushBack mem x).capacity = r.capacity
      rw [pushBack_eq, roomy_of_not_needsResize mem hc]
      simp [capacity]
  | pushFront x =>
      show (r.pushFront mem x).capacity = r.capacity
      rw [pushFront_eq, roomy_of_not_needsResize mem hc]
      simp [capacity]
  | popBack =>
      show r.popBack.2.capacity = r.capacity
      unfold Ring.popBack
      split <;> rfl
  | popFront => exact popFront_capacity r

theorem Holds.run {n : Nat} {r : Ring T} {l : List T} (h : Holds n r l) (mem : Nat → T) {op : Op T}
    (hc : op.callsResize r = false) : Holds n (op.run mem r).2 ((op.onDeque l).getD l) := by
  refine ⟨op.run_wf mem h.wf, (Op.run_capacity mem hc).trans h.capacity_eq, ?_⟩
  have hrun := op.run_onDeque mem h.wf hc
  rw [h.toList_eq] at hrun
  cases hd : op.onDeque l with
  | none =>
      rw [hd] at hrun
      rw [hrun]
      exact h.toList_eq
  | some l' =>
      rw [hd] at hrun
      exact hrun.2

theorem holds_of_inPlace {n : Nat} (hn : 1 ≤ n) {r : Ring T} {l : List T}
    (hr : (inPlace n).Reachable (r, l)) : Holds n r l := by
  have hinv : (inPlace n).Invariant fun s : Ring T × List T => Holds n s.1 s.2 := by
    constructor
    · rintro s rfl
      exact ⟨new_wf hn, by simp [new, capacity], rfl⟩
    · rintro s c s' hs ⟨hc, rfl⟩
      exact hs.run c.1 hc
  exact hinv.reachable hr

theorem Holds.length {n : Nat} {r : Ring T} {l : List T} (h : Holds n r l) : l.length = r.sz := by
  rw [← h.toList_eq, toList_length]

theorem Holds.getElem?_mod {n : Nat} {r : Ring T} {l : List T} (h : Holds n r l) {i : Nat} (hi : i < r.sz) :
    l[i]? = r.data[(r.head + i) % r.capacity]? := by
  rw [← h.toList_eq, toList, window_getElem? h.wf.head_lt hi]
  rfl

/-- The `i`-th element is in the cell `i` behind `head`, or one lap before that. -/
theorem Holds.getElem? {n : Nat} {r : Ring T} {l : List T} (h : Holds n r l) {i : Nat} (hi : i < r.sz) :
    l[i]? = r.data[if r.head + i < r.capacity then r.head + i else r.head + i - r.capacity]? := by
  have h2 := h.wf.sz_le
  rw [h.getElem?_mod hi, add_mod_wrap h.wf.head_lt (by omega)]

/-! ## `operator[]` -/

/-- In every state of every run that does not grow the storage, `operator[](i)` with `i < size()` is the
`i`-th element of the sequence if and only if that is not the one that wraps to the first cell. -/
theorem get?_eq_iff {n : Nat} (hn : 1 ≤ n) {r : Ring T} {l : List T} (hr : (inPlace n).Reachable (r, l))
    {i : Nat} (hi : i < r.size) : r.get? i = l[i]? ↔ r.head + i ≠ r.capacity := by
  have h := holds_of_inPlace hn hr
  have h1 := h.wf.head_lt
  have h2 := h.wf.sz_le
  have hsz : i < r.sz := hi
  have hlt : i < l.length := by
    rw [h.length]
    exact hi
  constructor
  · intro hget heq
    have hnone : r.get? i = none := by
      simp only [get?, Nat.add_comm i, heq]
      rw [if_neg (by omega)]
      exact List.getElem?_eq_none (Nat.le_refl _)
    rw [hnone, List.getElem?_eq_getElem hlt] at hget
    cases hget
  · intro hne
    rw [h.getElem? hsz]
    simp only [get?, Nat.add_comm i]
    congr 1
    split <;> split <;> omega

theorem wrappedFull_inPlace : (inPlace 2).Reachable (wrappedFull, [2, 3]) :=
  .step (i := (fun _ => 0, .pushBack 3))
    (.step (i := (fun _ => 0, .popFront))
      (.step (i := (fun _ => 0, .pushBack 2))
        (.step (i := (fun _ => 0, .pushBack 1)) (.init rfl) ⟨rfl, rfl⟩) ⟨rfl, rfl⟩) ⟨rfl, rfl⟩) ⟨rfl, rfl⟩

theorem get?_eq_iff_wrappedFull : wrappedFull.get? 0 = [2, 3][0]? ↔ wrappedFull.head + 0 ≠ wrappedFull.capacity :=
  get?_eq_iff (n := 2) (by decide) wrappedFull_inPlace (by decide)

/-- The second element of `wrappedFull` is in its first cell, and `operator[](1)` is behind the storage. -/
theorem wrappedFull_get? :
    (inPlace 2).Reachable (wrappedFull, [2, 3]) ∧ 1 < wrappedFull.size ∧ wrappedFull.get? 1 = none ∧
      wrappedFull.get? 1 ≠ [2, 3][1]? :=
  ⟨wrappedFull_inPlace, by decide, by decide, by decide⟩

/-! ## `at` -/

/-- Where `at(index)` is right. Elements that wrap end at `tail` but go on behind it, and an index may be so
large that its sum with `head` comes back from the end of the storage or of the 64 bits. -/
def AtRight (r : Ring T) (index : Nat) : Prop :=
  r.head + r.sz < r.capacity ∧
      (r.head + index ≤ r.capacity ∨ r.capacity + r.sz ≤ index ∧ r.head + index < 2 ^ 64) ∨
    r.capacity ≤ r.head + r.sz ∧
      (index < r.sz ∧ r.capacity < r.head + index ∨
        r.sz ≤ index ∧ (r.head + index < 2 ^ 64 ∨ 2 ^ 64 + r.sz ≤ index + r.capacity))

instance (r : Ring T) (index : Nat) : Decidable (r.AtRight index) := inferInstanceAs (Decidable (_ ∨ _))

theorem Holds.at?_inside {n : Nat} {r : Ring T} {l : List T} (h : r.Holds n l) (hcap : r.capacity ≤ maxSize)
    {index : UInt64} (hi : index.toNat < r.sz) :
    r.at? index = elementAt l index.toNat ↔ r.AtRight index.toNat := by
  have h1 := h.wf.head_lt
  have h2 := h.wf.sz_le
  have ht := h.wf.tail_wrap
  obtain ⟨j, hj, hat⟩ := at?_cases h1 hcap index
  simp only [maxSize] at hcap
  have hget := h.getElem? hi
  have hlt : index.toNat < l.length := by
    rw [h.length]
    exact hi
  rw [List.getElem?_eq_getElem hlt] at hget
  rw [hat, elementAt, List.getElem?_eq_getElem hlt]
  constructor
  · intro heq
    by_cases hthrow : j ≥ r.tail
    · rw [if_pos hthrow] at heq
      cases heq
    · simp only [AtRight]
      split at ht <;> omega
  · intro hright
    have hcell : j < r.tail ∧
        j = if r.head + index.toNat < r.capacity then r.head + index.toNat
          else r.head + index.toNat - r.capacity := by
      simp only [AtRight] at hright
      split at ht <;> split <;> omega
    rw [if_neg (Nat.not_le.mpr hcell.1), hcell.2, ← hget]

theorem Holds.at?_outside {n : Nat} {r : Ring T} {l : List T} (h : r.Holds n l) (hcap : r.capacity ≤ maxSize)
    {index : UInt64} (hi : r.sz ≤ index.toNat) :
    r.at? index = elementAt l index.toNat ↔ r.AtRight index.toNat := by
  have h1 := h.wf.head_lt
  have h2 := h.wf.sz_le
  have ht := h.wf.tail_wrap
  obtain ⟨j, hj, hat⟩ := at?_cases h1 hcap index
  simp only [maxSize] at hcap
  have hnone : l[index.toNat]? = none := List.getElem?_eq_none (by rw [h.length]; exact hi)
  have hbound := index.toNat_lt
  have hthrows : j ≥ r.tail ↔ r.AtRight index.toNat := by
    simp only [AtRight]
    split at ht <;> omega
  rw [hat, elementAt, hnone, ← hthrows]
  constructor
  · intro heq
    by_cases hthrow : j ≥ r.tail
    · exact hthrow
    · rw [if_neg hthrow] at heq
      cases heq
  · intro hthrow
    rw [if_pos hthrow]

/-- In every state of every run that does not grow the storage, `at(index)` throws exactly behind the elements
and is the element otherwise if and only if the index is one `AtRight` names. -/
theorem at?_eq_iff {n : Nat} (hn : 1 ≤ n) (hmax : n ≤ maxSize) {r : Ring T} {l : List T}
    (hr : (inPlace n).Reachable (r, l)) (index : UInt64) :
    r.at? index = elementAt l index.toNat ↔ r.AtRight index.toNat := by
  have h := holds_of_inPlace hn hr
  have hcap : r.capacity ≤ maxSize := by
    rw [h.capacity_eq]
    exact hmax
  rcases Nat.lt_or_ge index.toNat r.sz with hi | hi
  · exact h.at?_inside hcap hi
  · exact h.at?_outside hcap hi

theorem at?_eq_iff_wrappedFull : wrappedFull.at? 1 = elementAt [2, 3] 1 ↔ wrappedFull.AtRight 1 :=
  at?_eq_iff (n := 2) (by decide) (by decide) wrappedFull_inPlace 1

/-- A full ring that starts at its first cell ends there too: `at` throws for each of its elements. -/
theorem full_at? :
    (inPlace 1).Reachable (({ data := [7], sz := 1, needsResize := true } : Ring Nat), [7]) ∧
      ({ data := [7], sz := 1, needsResize := true } : Ring Nat).at? 0 =
        .error (.outOfRange "index is out of range.") ∧
      ({ data := [7], sz := 1, needsResize := true } : Ring Nat).at? 0 ≠ elementAt [7] 0 :=
  ⟨.step (i := (fun _ => 0, .pushBack 7)) (.init rfl) ⟨rfl, rfl⟩, rfl, nofun⟩

end Dwhbll.Collections.Ring
