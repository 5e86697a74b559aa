import Dwhbll.Ring.Lemmas.Storage
import Mathlib.Algebra.Group.Int.Defs
import Mathlib.Algebra.Group.Nat.Defs

/-!
# Rings that are only pushed to at the back

Such a ring starts at its first cell for good, so that growing keeps its elements and `operator[]` finds
them where they are.
-/

namespace Dwhbll.Collections.Ring

variable {T : Type} [Inhabited T] {r : Ring T}

structure Flat (r : Ring T) : Prop where
  wf : r.WF
  head_eq : r.head = 0

theorem new_flat {n : Nat} (hn : 1 ≤ n) : (new n : Ring T).Flat := ⟨new_wf hn, rfl⟩

theorem Flat.roomy (mem : Nat → T) (h : r.Flat) :
    (r.roomy mem).Flat ∧ (r.roomy mem).toList = r.toList := by
  have h1 := h.wf.head_lt
  have h2 := h.wf.sz_le
  rw [Ring.roomy]
  split
  · refine ⟨⟨resize_wf mem h.wf, rfl⟩, ?_⟩
    exact (inOrder_spec mem h.wf (.inl h.head_eq)
      (n := if r.capacity = 0 then 2 else r.capacity * 2) (by split <;> omega)).2
  · exact ⟨h, rfl⟩

theorem Flat.pushBack (mem : Nat → T) (x : T) (h : r.Flat) :
    (r.pushBack mem x).Flat ∧ (r.pushBack mem x).toList = r.toList ++ [x] := by
  obtain ⟨hwf, hl⟩ := pushBack_spec mem x h.wf
  obtain ⟨hroomy, hlist⟩ := h.roomy mem
  refine ⟨⟨hwf, ?_⟩, hl.trans (by rw [hlist])⟩
  rw [pushBack_eq]
  exact hroomy.head_eq

theorem Flat.get? {i : Nat} {x : T} (h : r.Flat) (hi : r.toList[i]? = some x) : r.get? i = some x := by
  have hsz := h.wf.sz_le
  rw [toList, h.head_eq, Circular.window_at_zero hsz, List.getElem?_take] at hi
  split at hi
  · simp only [Ring.get?, h.head_eq, Nat.add_zero]
    rw [if_neg (by omega)]
    exact hi
  · cases hi

theorem Flat.toList_eq (h : r.Flat) : r.toList = r.data.take r.sz := by
  rw [toList, h.head_eq, Circular.window_at_zero h.wf.sz_le]

omit [Inhabited T] in
theorem Flat.isCont (h : r.Flat) : r.isCont = true := by
  simp [Ring.isCont, h.head_eq]

/-! ## Rings that were cleared -/

/-- The ring starts at its first cell, but it may still be marked as full from before it was cleared. -/
structure Marked (r : Ring T) : Prop where
  flat : ({ r with needsResize := decide (r.sz = r.capacity) } : Ring T).Flat
  full : r.sz = r.capacity → r.needsResize = true

omit [Inhabited T] in
theorem Flat.marked (h : r.Flat) : r.Marked := by
  have hneeds : decide (r.sz = r.capacity) = r.needsResize := by
    rw [Bool.eq_iff_iff, decide_eq_true_eq, h.wf.needsResize_iff]
  refine ⟨?_, h.wf.needsResize_iff.mpr⟩
  rw [hneeds]
  exact h

/-- A ring that is not full grows for the mark too. -/
theorem Marked.pushBack (mem : Nat → T) (x : T) (h : r.Marked) :
    (r.pushBack mem x).Flat ∧ (r.pushBack mem x).toList = r.toList ++ [x] := by
  have h1 : r.head < r.capacity := h.flat.wf.head_lt
  have h2 : r.sz ≤ r.capacity := h.flat.wf.sz_le
  cases hneeds : r.needsResize with
  | false =>
      have hne : decide (r.sz = r.capacity) = r.needsResize := by
        rw [hneeds, decide_eq_false_iff_not]
        intro hfull
        rw [h.full hfull] at hneeds
        cases hneeds
      have hflat := h.flat
      rw [hne] at hflat
      exact hflat.pushBack mem x
  | true =>
      have hroomy : r.roomy mem = r.resize mem := by rw [roomy, if_pos hneeds]
      -- growing does not look at the mark
      have hwf : (({ r with needsResize := decide (r.sz = r.capacity) } : Ring T).resize mem).WF :=
        resize_wf mem h.flat.wf
      have hwf : (r.resize mem).WF := hwf
      have hlt : (r.resize mem).sz < (r.resize mem).capacity := by
        rw [resize_capacity, if_neg (by omega)]
        show r.sz < r.capacity * 2
        omega
      have hlist : (r.resize mem).toList = r.toList :=
        (inOrder_spec mem h.flat.wf (.inl h.flat.head_eq) (n := if r.capacity = 0 then 2 else r.capacity * 2)
          (show r.sz ≤ _ by split <;> omega)).2
      rw [← hroomy] at hwf hlt hlist
      obtain ⟨hwf', hlist'⟩ := pushBack_of_roomy mem x hwf hlt
      refine ⟨⟨hwf', ?_⟩, hlist'.trans (by rw [hlist])⟩
      rw [pushBack_eq, hroomy]
      rfl

/-! ## Pushes at the front -/

theorem roomy_sz (mem : Nat → T) : (r.roomy mem).sz = r.sz := by
  rw [roomy]
  split <;> rfl

theorem pushFront_capacity (mem : Nat → T) (x : T) :
    (r.pushFront mem x).capacity = (r.roomy mem).capacity := by
  rw [pushFront_eq]
  simp only [capacity, List.length_set]

theorem pushFront_sz (mem : Nat → T) (x : T) : (r.pushFront mem x).sz = r.sz + 1 := by
  rw [pushFront_eq, ← roomy_sz (r := r) mem]

theorem pushFront_head (mem : Nat → T) (x : T) :
    (r.pushFront mem x).head =
      if (r.roomy mem).head = 0 then (r.roomy mem).capacity - 1 else (r.roomy mem).head - 1 := rfl

theorem pushBack_sz (mem : Nat → T) (x : T) : (r.pushBack mem x).sz = r.sz + 1 := by
  rw [pushBack_eq, ← roomy_sz (r := r) mem]

/-! ## How far the storage grows -/

/-- The storage has been doubled only to make room. -/
def Grown (n : Nat) (r : Ring T) : Prop :=
  ∃ k, r.capacity = n * 2 ^ k ∧ (k = 0 ∨ r.capacity < 2 * r.sz)

theorem new_grown (n : Nat) : Grown n (new n : Ring T) := ⟨0, by simp [capacity, new], .inl rfl⟩

theorem roomy_capacity (mem : Nat → T) (h : r.WF) :
    (r.roomy mem).capacity = if r.sz = r.capacity then 2 * r.capacity else r.capacity := by
  have h1 := h.head_lt
  rw [roomy]
  split
  · rename_i hn
    rw [if_pos (h.needsResize_iff.mp hn), resize_capacity, if_neg (by omega), Nat.mul_comm]
  · rename_i hn
    rw [if_neg fun he => hn (h.needsResize_iff.mpr he)]

theorem pushBack_capacity (mem : Nat → T) (x : T) : (r.pushBack mem x).capacity = (r.roomy mem).capacity := by
  rw [pushBack_eq]
  simp only [capacity, List.length_set]

theorem Grown.pushBack {n : Nat} (mem : Nat → T) (x : T) (h : r.WF) (hg : Grown n r) :
    Grown n (r.pushBack mem x) := by
  obtain ⟨k, hcap, hk⟩ := hg
  rw [Grown, pushBack_capacity, pushBack_sz, roomy_capacity mem h]
  split
  · rename_i hf
    exact ⟨k + 1, by rw [hcap, Nat.pow_succ]; ac_rfl, .inr (by omega)⟩
  · exact ⟨k, hcap, hk.imp id fun h => by omega⟩

end Dwhbll.Collections.Ring
