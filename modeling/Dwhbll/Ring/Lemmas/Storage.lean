import Dwhbll.Ring.Lemmas.Invariant

/-!
# Moving the storage

The copies tell a straight layout from a wrapped one by `tail >= head`. A full ring has `tail == head`
wherever its elements start, so it always counts as straight.
-/

open Memory Circular

namespace Dwhbll.Collections

variable {T : Type}

namespace Ring

/-! ## Reads inside the storage -/

/-- On a full ring the copy starts at `head` and runs over the end of the storage. -/
theorem inOrder_full {r : Ring T} (h : r.WF) (hf : r.sz = r.capacity)
    (hr : ∀ c ∈ r.inOrder, c.ReadsInside r.capacity) : r.head = 0 := by
  have h1 := h.head_lt
  have ht := h.tail_wrap
  have hs : r.tail ≥ r.head := by split at ht <;> omega
  have he : r.inOrder = [⟨0, r.head, r.sz⟩] := if_pos hs
  have hin := hr ⟨0, r.head, r.sz⟩ (by rw [he]; exact List.mem_singleton.mpr rfl)
  simp only [Memcpy.ReadsInside] at hin
  omega

theorem chopped_reads_iff {r : Ring T} (h : r.WF) {target : Nat} (hle : target ≤ r.capacity) :
    (∀ c ∈ r.chopped target, c.ReadsInside r.capacity) ↔
      r.tail < r.head ∨ r.head + target ≤ r.capacity := by
  have h1 := h.head_lt
  by_cases hs : r.tail ≥ r.head
  · have he : r.chopped target = [⟨0, r.head, target⟩] := if_pos hs
    rw [he]
    simp only [List.mem_singleton, forall_eq, Memcpy.ReadsInside]
    omega
  · have he : r.chopped target = _ := if_neg hs
    rw [he]
    refine ⟨fun _ => .inl (by omega), fun _ => ?_⟩
    intro c hc
    rcases List.mem_cons.mp hc with rfl | hc
    · simp only [Memcpy.ReadsInside]; omega
    · split at hc
      · rw [List.mem_singleton.mp hc]
        simp only [Memcpy.ReadsInside]; omega
      · cases hc

/-! ## What the copies leave in the new storage -/

variable [Inhabited T]

/-- A storage that holds the elements from its first cell on has the same elements. -/
theorem window_copied {r : Ring T} {xs : List T} (hx : r.sz ≤ xs.length)
    (hc : ∀ i < r.sz, xs[i]? = r.data[(r.head + i) % r.capacity]?) :
    window xs 0 r.sz = r.toList := by
  refine window_congr fun i hi => ?_
  rw [Nat.zero_add, Nat.mod_eq_of_lt (by omega), List.getD_eq_getElem?_getD, hc i hi,
    List.getD_eq_getElem?_getD]
  rfl

/-- A straight copy that stays inside the old storage. -/
theorem copied_straight (mem : Nat → T) {r : Ring T} {n len : Nat} (hn : r.sz ≤ n) (hl : r.sz ≤ len)
    (hin : r.head + len ≤ r.capacity) {i : Nat} (hi : i < r.sz) :
    (memcpys mem r.data (List.replicate n default) [⟨0, r.head, len⟩])[i]? =
      r.data[(r.head + i) % r.capacity]? := by
  simp only [memcpys, List.foldl_cons, List.foldl_nil]
  rw [memcpy_getElem?_of_mem mem (by simp; omega) (Nat.zero_le i) (by simp; omega),
    Nat.mod_eq_of_lt (by omega), Nat.sub_zero]
  exact some_readAt mem (by simp only [capacity] at *; omega)

/-- The two pieces of a wrapped layout, the second at least as long as the wrapped part. -/
theorem copied_wrapped (mem : Nat → T) {r : Ring T} {n len : Nat} (hh : r.head < r.capacity)
    (hs : r.sz ≤ r.capacity) (hn : r.sz ≤ n) (hl : r.head + r.sz ≤ r.capacity + len) {i : Nat}
    (hi : i < r.sz) :
    (memcpys mem r.data (List.replicate n default)
        [⟨0, r.head, r.capacity - r.head⟩, ⟨r.capacity - r.head, 0, len⟩])[i]? =
      r.data[(r.head + i) % r.capacity]? := by
  simp only [memcpys, List.foldl_cons, List.foldl_nil]
  rw [add_mod_wrap hh (by omega)]
  by_cases hw : r.head + i < r.capacity
  · -- Before the end of the old storage: the first piece, which the second leaves alone.
    rw [memcpy_getElem?_of_not_mem mem (by simp; omega),
      memcpy_getElem?_of_mem mem (by simp; omega) (Nat.zero_le i) (by simp; omega), if_pos hw,
      Nat.sub_zero]
    exact some_readAt mem hw
  · have hlt : i - (r.capacity - r.head) < r.data.length := by simp only [capacity] at *; omega
    rw [memcpy_getElem?_of_mem mem (by simp; omega) (by simp; omega) (by simp; omega), if_neg hw,
      Nat.zero_add, some_readAt mem hlt]
    congr 1
    omega

theorem inOrder_spec (mem : Nat → T) {r : Ring T} (h : r.WF) (hc : r.head = 0 ∨ r.sz < r.capacity)
    {n : Nat} (hn : r.sz ≤ n) :
    (∀ c ∈ r.inOrder, c.ReadsInside r.capacity) ∧
      window (memcpys mem r.data (List.replicate n default) r.inOrder) 0 r.sz = r.toList := by
  have h1 := h.head_lt
  have h2 := h.sz_le
  have ht := h.tail_wrap
  by_cases hs : r.tail ≥ r.head
  · have hin : r.head + r.sz ≤ r.capacity := by split at ht <;> omega
    have he : r.inOrder = [⟨0, r.head, r.sz⟩] := if_pos hs
    refine ⟨?_, ?_⟩
    · intro c hc
      rw [he, List.mem_singleton] at hc
      subst c
      exact hin
    · rw [he]
      exact window_copied (by simpa using hn) fun i hi =>
        copied_straight mem hn (Nat.le_refl _) hin hi
  · have hin : r.head + r.sz = r.capacity + r.tail := by split at ht <;> omega
    have he : r.inOrder = [⟨0, r.head, r.capacity - r.head⟩, ⟨r.capacity - r.head, 0, r.tail⟩] :=
      if_neg hs
    refine ⟨?_, ?_⟩
    · intro c hc
      rw [he] at hc
      rcases List.mem_cons.mp hc with rfl | hc
      · simp only [Memcpy.ReadsInside]; omega
      · rw [List.mem_singleton.mp hc]
        simp only [Memcpy.ReadsInside]; omega
    · rw [he]
      exact window_copied (by simpa using hn) fun i hi =>
        copied_wrapped mem h1 h2 hn (by omega) hi

/-- What the copy from a full ring brings from behind the end of the storage. -/
theorem inOrder_overrun (mem : Nat → T) {r : Ring T} (h : r.WF) (hf : r.sz = r.capacity) {n i : Nat}
    (hn : r.sz ≤ n) (hi : i < r.sz) (hover : r.capacity ≤ r.head + i) :
    (memcpys mem r.data (List.replicate n default) r.inOrder)[i]? = some (mem (r.head + i)) := by
  have h1 := h.head_lt
  have ht := h.tail_wrap
  have hs : r.tail ≥ r.head := by split at ht <;> omega
  have he : r.inOrder = [⟨0, r.head, r.sz⟩] := if_pos hs
  have hout : r.data[r.head + i]? = none := List.getElem?_eq_none_iff.mpr hover
  rw [he]
  simp only [memcpys, List.foldl_cons, List.foldl_nil]
  rw [memcpy_getElem?_of_mem mem (by simp; omega) (Nat.zero_le i) (by simp; omega), Nat.sub_zero]
  simp only [readAt, hout, Option.getD_none]

theorem makeCont_toList (mem : Nat → T) {r : Ring T} (h : r.WF) (hlt : r.sz < r.capacity) :
    (r.makeCont mem).toList = r.toList := by
  rw [makeCont]
  split
  · rfl
  · exact (inOrder_spec mem h (.inr hlt) h.sz_le).2

theorem makeCont_head (mem : Nat → T) (r : Ring T) : (r.makeCont mem).head = 0 := by
  rw [makeCont]
  split
  · rename_i hc
    simp only [isCont, decide_eq_true_eq] at hc
    exact hc.2
  · rfl

theorem makeCont_sz (mem : Nat → T) (r : Ring T) : (r.makeCont mem).sz = r.sz := by
  rw [makeCont]
  split <;> rfl

theorem makeCont_capacity (mem : Nat → T) (r : Ring T) : (r.makeCont mem).capacity = r.capacity := by
  rw [makeCont]
  split
  · rfl
  · simp [capacity]

theorem WF.makeCont (mem : Nat → T) {r : Ring T} (h : r.WF) (hlt : r.sz < r.capacity) : (r.makeCont mem).WF := by
  have hneeds := h.needsResize_iff
  rw [Ring.makeCont]
  split
  · exact h
  · refine .of_wrap ?_ ?_ ?_ ?_
    · simp only [capacity, memcpys_length, List.length_replicate]
      exact Nat.zero_lt_of_lt hlt
    · simp only [capacity, memcpys_length, List.length_replicate]
      exact h.sz_le
    · simp only [capacity, memcpys_length, List.length_replicate, Nat.zero_add]
      exact (if_pos hlt).symm
    · simp only [capacity, memcpys_length, List.length_replicate]
      exact hneeds

/-- An element of a full ring that the growing `resize()` takes from behind the storage. -/
theorem resize_getElem?_of_full (mem : Nat → T) {r : Ring T} (h : r.WF) (hf : r.sz = r.capacity) {i : Nat}
    (hi : i < r.sz) (hover : r.capacity ≤ r.head + i) : (r.resize mem).toList[i]? = some (mem (r.head + i)) := by
  have hwf := resize_wf mem h
  have hsz : (r.resize mem).sz = r.sz := rfl
  rw [toList, show (r.resize mem).head = 0 from rfl, Circular.window_at_zero hwf.sz_le,
    List.getElem?_take_of_lt (by rw [hsz]; exact hi)]
  exact inOrder_overrun mem h hf (by split <;> omega) hi hover

theorem makeCont_getElem?_of_full (mem : Nat → T) {r : Ring T} (h : r.WF) (hf : r.sz = r.capacity)
    (h0 : r.head ≠ 0) {i : Nat} (hi : i < r.sz) (hover : r.capacity ≤ r.head + i) :
    (r.makeCont mem).toList[i]? = some (mem (r.head + i)) := by
  have hc : r.isCont = false := by simp [isCont, h0]
  rw [toList, makeCont_head, makeCont_sz,
    Circular.window_at_zero (by
      have hle := h.sz_le
      rwa [← makeCont_capacity mem r] at hle), List.getElem?_take_of_lt hi, makeCont,
    hc]
  exact inOrder_overrun mem h hf h.sz_le hi hover

theorem inOrder_reads_iff {r : Ring T} (h : r.WF) :
    (∀ c ∈ r.inOrder, c.ReadsInside r.capacity) ↔ r.head = 0 ∨ r.sz < r.capacity := by
  have h2 := h.sz_le
  refine ⟨fun hr => ?_, fun hc => (inOrder_spec (fun _ => default) h hc (Nat.le_refl _)).1⟩
  by_cases hf : r.sz = r.capacity
  · exact .inl (inOrder_full h hf hr)
  · exact .inr (by omega)

theorem chopped_window (mem : Nat → T) {r : Ring T} (h : r.WF) {target : Nat} (hs : r.sz ≤ target)
    (hc : r.tail < r.head ∨ r.head + target ≤ r.capacity) :
    window (memcpys mem r.data (List.replicate target default) (r.chopped target)) 0 r.sz =
      r.toList := by
  have h1 := h.head_lt
  have h2 := h.sz_le
  have ht := h.tail_wrap
  refine window_copied (by simpa using hs) fun i hi => ?_
  by_cases ho : r.tail ≥ r.head
  · have he : r.chopped target = [⟨0, r.head, target⟩] := if_pos ho
    rw [he]
    exact copied_straight mem hs hs (by omega) hi
  · have hin : r.head + r.sz = r.capacity + r.tail := by split at ht <;> omega
    have he : r.chopped target = _ := if_neg ho
    rw [he]
    by_cases hw : target > r.capacity - r.head
    · rw [if_pos hw, show min (r.capacity - r.head) target = r.capacity - r.head by omega]
      exact copied_wrapped mem h1 h2 hs (by omega) hi
    · rw [if_neg hw, show min (r.capacity - r.head) target = target by omega]
      exact copied_straight mem hs hs (by omega) hi

end Ring

end Dwhbll.Collections
