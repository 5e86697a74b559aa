import Dwhbll.Ring.Basic

/-!
# The invariant of the ring

`WF` ties `tail` to `head` and `sz`, and `needsResize` to a full ring. Every operation keeps it, also a
push that grows the storage, whatever that copies.
-/

open Memory Circular

namespace Dwhbll.Collections

variable {T : Type}

structure Ring.WF (r : Ring T) : Prop where
  head_lt : r.head < r.capacity
  tail_lt : r.tail < r.capacity
  sz_le : r.sz ≤ r.capacity
  tail_eq : r.tail = (r.head + r.sz) % r.capacity
  needsResize_iff : r.needsResize = true ↔ r.sz = r.capacity

namespace Ring

@[simp] theorem toList_length [Inhabited T] (r : Ring T) : r.toList.length = r.sz := by
  simp [toList]

/-- `tail` is `sz` cells behind `head`, or one lap less. -/
theorem WF.tail_wrap {r : Ring T} (h : r.WF) :
    r.tail = if r.head + r.sz < r.capacity then r.head + r.sz else r.head + r.sz - r.capacity := by
  rw [h.tail_eq, add_mod_wrap h.head_lt h.sz_le]

theorem WF.of_wrap {r : Ring T} (hh : r.head < r.capacity) (hs : r.sz ≤ r.capacity)
    (ht : r.tail = if r.head + r.sz < r.capacity then r.head + r.sz else r.head + r.sz - r.capacity)
    (hn : r.needsResize = true ↔ r.sz = r.capacity) : r.WF where
  head_lt := hh
  tail_lt := by rw [ht]; split <;> omega
  sz_le := hs
  tail_eq := by rw [ht, add_mod_wrap hh hs]
  needsResize_iff := hn

theorem new_wf [Inhabited T] {n : Nat} (hn : 1 ≤ n) : (new n : Ring T).WF :=
  .of_wrap (by simp [new, capacity]; omega) (by simp [new]) (by simp [new, capacity])
    (by simp [new, capacity]; omega)

/-! ## Growing -/

@[simp] theorem resize_capacity [Inhabited T] (mem : Nat → T) (r : Ring T) :
    (r.resize mem).capacity = if r.capacity = 0 then 2 else r.capacity * 2 := by
  simp [resize, capacity]

theorem resize_wf [Inhabited T] (mem : Nat → T) {r : Ring T} (h : r.WF) : (r.resize mem).WF := by
  have h1 := h.head_lt
  have h2 := h.sz_le
  have hc : (r.resize mem).capacity = r.capacity * 2 := by simp; omega
  refine .of_wrap ?_ ?_ ?_ ?_
  · rw [hc]; simp only [resize]; omega
  · rw [hc]; simp only [resize]; omega
  · rw [hc, if_pos (by simp only [resize]; omega)]; simp only [resize]; omega
  · rw [hc]; simp only [resize]; simp; omega

/-- The ring a push writes to: there is room for one more element. -/
def roomy [Inhabited T] (mem : Nat → T) (r : Ring T) : Ring T :=
  if r.needsResize then r.resize mem else r

theorem roomy_wf [Inhabited T] (mem : Nat → T) {r : Ring T} (h : r.WF) : (r.roomy mem).WF := by
  unfold roomy
  split
  · exact resize_wf mem h
  · exact h

theorem roomy_sz_lt [Inhabited T] (mem : Nat → T) {r : Ring T} (h : r.WF) :
    (r.roomy mem).sz < (r.roomy mem).capacity := by
  have h1 := h.head_lt
  have h2 := h.sz_le
  unfold roomy
  split
  · simp only [resize_capacity]
    simp only [resize]
    split <;> omega
  · have hne : r.sz ≠ r.capacity := fun he => ‹¬ _› (h.needsResize_iff.mpr he)
    omega

theorem roomy_of_not_needsResize [Inhabited T] (mem : Nat → T) {r : Ring T}
    (h : r.needsResize = false) : r.roomy mem = r := by
  simp [roomy, h]

/-! ## The ends of a ring with room -/

theorem WF.needsResize_eq_false {r : Ring T} (h : r.WF) (hlt : r.sz < r.capacity) :
    r.needsResize = false := by
  cases hr : r.needsResize with
  | false => rfl
  | true =>
      have := h.needsResize_iff.mp hr
      omega

theorem incTail_eq {r : Ring T} (h : r.WF) (hlt : r.sz < r.capacity) :
    r.incTail.tail = (r.head + (r.sz + 1)) % r.capacity ∧
      (r.incTail.needsResize = true ↔ r.sz + 1 = r.capacity) := by
  have h1 := h.head_lt
  have ht := h.tail_wrap
  have htail : (if r.tail + 1 ≥ r.capacity then 0 else r.tail + 1) =
      (r.head + (r.sz + 1)) % r.capacity := by
    rw [add_mod_wrap h1 (by omega), ht]
    split <;> split <;> split <;> omega
  refine ⟨htail, ?_⟩
  simp only [incTail, h.needsResize_eq_false hlt, htail]
  rw [add_mod_wrap h1 (by omega)]
  split <;> split <;> simp <;> omega

theorem decHead_eq {r : Ring T} (h : r.WF) (hlt : r.sz < r.capacity) :
    r.decHead.head < r.capacity ∧ (r.decHead.head + 1) % r.capacity = r.head ∧
      (r.decHead.needsResize = true ↔ r.sz + 1 = r.capacity) := by
  have h1 := h.head_lt
  have ht := h.tail_wrap
  have hhead : r.decHead.head < r.capacity := by
    simp only [decHead]; split <;> omega
  refine ⟨hhead, ?_, ?_⟩
  · rw [add_mod_wrap hhead (by omega)]
    simp only [decHead]
    split <;> split <;> omega
  · simp only [decHead, h.needsResize_eq_false hlt]
    split <;> split <;> simp <;> split at ht <;> omega

theorem popFront_capacity (r : Ring T) : r.popFront.2.capacity = r.capacity := by
  unfold popFront
  split <;> rfl

theorem popFront_tail (r : Ring T) : r.popFront.2.tail = r.tail := by
  unfold popFront
  split <;> rfl

/-! ## Pushes -/

variable [Inhabited T]

theorem pushBack_eq (mem : Nat → T) (x : T) (r : Ring T) :
    r.pushBack mem x =
      let s := r.roomy mem
      { s with
        data := s.data.set s.tail x, sz := s.sz + 1
        tail := s.incTail.tail, needsResize := s.incTail.needsResize } := by
  simp [pushBack, roomy, incTail, capacity]

theorem pushFront_eq (mem : Nat → T) (x : T) (r : Ring T) :
    r.pushFront mem x =
      let s := r.roomy mem
      { s with
        data := s.data.set s.decHead.head x, sz := s.sz + 1
        head := s.decHead.head, needsResize := s.decHead.needsResize } := rfl

theorem pushBack_of_roomy (mem : Nat → T) (x : T) {r : Ring T} (hs : (r.roomy mem).WF)
    (hlt : (r.roomy mem).sz < (r.roomy mem).capacity) :
    (r.pushBack mem x).WF ∧ (r.pushBack mem x).toList = (r.roomy mem).toList ++ [x] := by
  obtain ⟨htail, hneeds⟩ := incTail_eq hs hlt
  have hcap : ∀ j y, ((r.roomy mem).data.set j y).length = (r.roomy mem).capacity := by
    simp [capacity]
  rw [pushBack_eq]
  refine ⟨⟨?_, ?_, ?_, ?_, ?_⟩, ?_⟩
  · simpa only [capacity, List.length_set] using hs.head_lt
  · rw [capacity, hcap, htail]; exact Nat.mod_lt _ (by omega)
  · rw [capacity, hcap]; exact hlt
  · rw [capacity, hcap]; exact htail
  · rw [capacity, hcap]; exact hneeds
  · simp only [toList]
    rw [hs.tail_eq]
    exact window_set_back x hs.head_lt hlt

theorem pushFront_of_roomy (mem : Nat → T) (x : T) {r : Ring T} (hs : (r.roomy mem).WF)
    (hlt : (r.roomy mem).sz < (r.roomy mem).capacity) :
    (r.pushFront mem x).WF ∧ (r.pushFront mem x).toList = x :: (r.roomy mem).toList := by
  obtain ⟨hhead, hsucc, hneeds⟩ := decHead_eq hs hlt
  have hcap : ∀ j y, ((r.roomy mem).data.set j y).length = (r.roomy mem).capacity := by
    simp [capacity]
  rw [pushFront_eq]
  refine ⟨⟨?_, ?_, ?_, ?_, ?_⟩, ?_⟩
  · rw [capacity, hcap]; exact hhead
  · simpa only [capacity, List.length_set] using hs.tail_lt
  · rw [capacity, hcap]; exact hlt
  · rw [capacity, hcap]
    show (r.roomy mem).tail = ((r.roomy mem).decHead.head + ((r.roomy mem).sz + 1)) % _
    -- One step back at the head and one element more leave the place of the tail as it is.
    rw [hs.tail_eq, ← hsucc, Nat.mod_add_mod]
    congr 1
    omega
  · rw [capacity, hcap]; exact hneeds
  · simp only [toList]
    rw [window_set_front x hhead hlt]
    simp only [capacity] at hsucc
    rw [hsucc]

theorem pushBack_spec (mem : Nat → T) (x : T) {r : Ring T} (h : r.WF) :
    (r.pushBack mem x).WF ∧ (r.pushBack mem x).toList = (r.roomy mem).toList ++ [x] :=
  pushBack_of_roomy mem x (roomy_wf mem h) (roomy_sz_lt mem h)

theorem pushFront_spec (mem : Nat → T) (x : T) {r : Ring T} (h : r.WF) :
    (r.pushFront mem x).WF ∧ (r.pushFront mem x).toList = x :: (r.roomy mem).toList :=
  pushFront_of_roomy mem x (roomy_wf mem h) (roomy_sz_lt mem h)

/-! ## Pops -/

theorem popBack_spec {r : Ring T} (h : r.WF) (hne : r.sz ≠ 0) :
    ∃ r', r.popBack = (.ok (), r') ∧ r'.WF ∧ r'.toList = r.toList.dropLast := by
  have h1 := h.head_lt
  have h2 := h.sz_le
  have ht := h.tail_wrap
  refine ⟨{ r.decTail with sz := r.sz - 1 }, by simp [popBack, hne, decTail], ?_, ?_⟩
  · refine .of_wrap h1 ?_ ?_ ?_
    · show r.sz - 1 ≤ r.capacity
      omega
    · show (if r.tail = 0 then r.capacity - 1 else r.tail - 1) =
        if r.head + (r.sz - 1) < r.capacity then r.head + (r.sz - 1)
        else r.head + (r.sz - 1) - r.capacity
      rw [ht]
      split <;> split <;> split <;> omega
    · show false = true ↔ r.sz - 1 = r.capacity
      simp; omega
  · exact window_pred r.data r.head r.sz

theorem popFront_spec {r : Ring T} (h : r.WF) (hne : r.sz ≠ 0) :
    ∃ r', r.popFront = (.ok (), r') ∧ r'.WF ∧ r'.toList = r.toList.tail := by
  have h1 := h.head_lt
  have h2 := h.sz_le
  have ht := h.tail_wrap
  have hhead : (if r.head + 1 ≥ r.capacity then 0 else r.head + 1) = (r.head + 1) % r.capacity := by
    rw [add_mod_wrap h1 (by omega)]
    split <;> split <;> omega
  refine ⟨{ r.incHead with sz := r.sz - 1 }, by simp [popFront, hne, incHead], ?_, ?_⟩
  · refine ⟨?_, h.tail_lt, ?_, ?_, ?_⟩
    · show (if r.head + 1 ≥ r.capacity then 0 else r.head + 1) < r.capacity
      split <;> omega
    · show r.sz - 1 ≤ r.capacity
      omega
    · show r.tail = ((if r.head + 1 ≥ r.capacity then 0 else r.head + 1) + (r.sz - 1)) % r.capacity
      rw [hhead, Nat.mod_add_mod, h.tail_eq]
      congr 1
      omega
    · show false = true ↔ r.sz - 1 = r.capacity
      simp; omega
  · show window r.data (if r.head + 1 ≥ r.capacity then 0 else r.head + 1) (r.sz - 1) = _
    rw [hhead]
    exact window_pred_front h1 r.sz

/-! ## Calls and runs -/

theorem Op.run_wf (mem : Nat → T) (op : Op T) {r : Ring T} (h : r.WF) : (op.run mem r).2.WF := by
  cases op with
  | pushBack x => exact (Ring.pushBack_spec mem x h).1
  | moveBack x => exact (Ring.pushBack_spec mem x h).1
  | pushFront x => exact (Ring.pushFront_spec mem x h).1
  | popBack =>
      by_cases hz : r.sz = 0
      · simpa [Op.run, Ring.popBack, hz] using h
      · obtain ⟨r', he, hw, _⟩ := Ring.popBack_spec h hz
        simpa [Op.run, he] using hw
  | popFront =>
      by_cases hz : r.sz = 0
      · simpa [Op.run, Ring.popFront, hz] using h
      · obtain ⟨r', he, hw, _⟩ := Ring.popFront_spec h hz
        simpa [Op.run, he] using hw

theorem Reachable.run {n : Nat} {r : Ring T} (h : Reachable n r) (calls : List ((Nat → T) × Op T)) :
    Reachable n (calls.foldl (fun r c => (c.2.run c.1 r).2) r) :=
  Transition.System.Reachable.foldl h calls

theorem Reachable.wf {n : Nat} (hn : 1 ≤ n) {r : Ring T} (h : Reachable n r) : r.WF :=
  (Transition.System.Invariant.ofFun (Ring.new_wf hn) fun _ c hr => c.2.run_wf c.1 hr).reachable h

end Ring

end Dwhbll.Collections
