import Dwhbll.MemBuf.Basic
import Dwhbll.Ring.Lemmas.Flat

/-!
# The bytes in a `MemBuf`

The ring as a queue of bytes, whatever its capacity. Reads leave the storage and the end of the ring as they are; writes
leave the storage as it is while there is room, and may let it grow where the ring starts at its first cell.
-/

namespace Dwhbll.Collections.MemBuf

variable {b b' : MemBuf} {xs : List UInt8} {x : UInt8}

structure Contains (b : MemBuf) (xs : List UInt8) : Prop where
  wf : b.buffer.WF
  toList : b.buffer.toList = xs

/-- The storage is as large as before, and the byte order is the same. -/
structure SameStorage (b b' : MemBuf) : Prop where
  capacity : b'.buffer.capacity = b.buffer.capacity
  bigEndian : b'.bigEndian = b.bigEndian

theorem SameStorage.trans {b'' : MemBuf} (h : SameStorage b b') (h' : SameStorage b' b'') : SameStorage b b'' :=
  ⟨h'.capacity.trans h.capacity, h'.bigEndian.trans h.bigEndian⟩

theorem Contains.sz_eq (h : b.Contains xs) : b.buffer.sz = xs.length := by
  rw [← h.toList, Ring.toList_length]

theorem bind_ok {α β : Type} {m : M α} {f : α → M β} {a : α} {b b' : MemBuf} (h : m b = (.ok a, b')) :
    (m >>= f) b = f a b' := by
  simp only [bind, ExceptT.bind, ExceptT.mk, StateT.bind, h, ExceptT.bindCont]

/-! ## Reads -/

theorem Contains.front (h : b.Contains (x :: xs)) : b.buffer.front = x := by
  have hlist := h.toList
  rw [Ring.toList, h.sz_eq, List.length_cons, Circular.window_succ_front h.wf.head_lt] at hlist
  rw [Ring.front, ← List.getD_eq_getElem?_getD]
  exact (List.cons.inj hlist).1

theorem Contains.readU8 (h : b.Contains (x :: xs)) : ∃ b', readU8 b = (.ok x, b') ∧ b'.Contains xs ∧
    SameStorage b b' ∧ b'.buffer.tail = b.buffer.tail := by
  have hsz := h.sz_eq
  obtain ⟨r, hpop, hwf, hlist⟩ := Ring.popFront_spec h.wf (by rw [hsz]; simp)
  have hcap := Ring.popFront_capacity b.buffer
  have htail := Ring.popFront_tail b.buffer
  rw [hpop] at hcap htail
  refine ⟨{ b with buffer := r }, ?_, ⟨hwf, ?_⟩, ⟨hcap, rfl⟩, htail⟩
  · simp only [MemBuf.readU8, hpop, h.front]
  · rw [hlist, h.toList, List.tail_cons]

theorem Contains.readVector {data : List UInt8} (h : b.Contains (data ++ xs)) :
    ∃ b', readVector data.length b = (.ok data, b') ∧ b'.Contains xs ∧ SameStorage b b' ∧
      b'.buffer.tail = b.buffer.tail := by
  induction data generalizing b with
  | nil => exact ⟨b, rfl, h, ⟨rfl, rfl⟩, rfl⟩
  | cons x data ih =>
      obtain ⟨b1, hr1, h1, hs1, ht1⟩ := h.readU8
      obtain ⟨b2, hr2, h2, hs2, ht2⟩ := ih h1
      refine ⟨b2, ?_, h2, hs1.trans hs2, ht2.trans ht1⟩
      rw [List.length_cons, MemBuf.readVector, bind_ok hr1, bind_ok hr2]
      rfl

/-! ## Writes -/

theorem Contains.writeU8 (h : b.Contains xs) (mem : Nat → UInt8) (x : UInt8) (hroom : xs.length < b.buffer.capacity) :
    (b.writeU8 mem x).Contains (xs ++ [x]) ∧ SameStorage b (b.writeU8 mem x) := by
  have hlt : b.buffer.sz < b.buffer.capacity := by rwa [h.sz_eq]
  have hneeds := h.wf.needsResize_eq_false hlt
  have hroomy := Ring.roomy_of_not_needsResize mem hneeds
  obtain ⟨hwf, hlist⟩ := Ring.pushBack_spec mem x h.wf
  refine ⟨⟨hwf, ?_⟩, ?_, rfl⟩
  · rw [MemBuf.writeU8, hlist, hroomy, h.toList]
  · rw [MemBuf.writeU8, Ring.pushBack_capacity, hroomy]

theorem Contains.writeVector (h : b.Contains xs) (mem : Nat → UInt8) (data : List UInt8)
    (hroom : xs.length + data.length ≤ b.buffer.capacity) :
    (b.writeVector mem data).Contains (xs ++ data) ∧ SameStorage b (b.writeVector mem data) := by
  unfold MemBuf.writeVector
  induction data generalizing b xs with
  | nil => exact ⟨by simpa using h, rfl, rfl⟩
  | cons x data ih =>
      rw [List.length_cons] at hroom
      obtain ⟨hx, hsame⟩ := h.writeU8 mem x (by omega)
      rw [List.foldl_cons, List.append_cons]
      obtain ⟨hdata, hsame'⟩ := ih hx (by rw [hsame.capacity, List.length_append, List.length_singleton]; omega)
      exact ⟨hdata, hsame.trans hsame'⟩

/-- A ring that starts at its first cell may grow. -/
theorem Contains.writeVector_flat (h : b.Contains xs) (h0 : b.buffer.head = 0) (mem : Nat → UInt8)
    (data : List UInt8) : (b.writeVector mem data).Contains (xs ++ data) := by
  have hflat : b.buffer.Flat := ⟨h.wf, h0⟩
  have hlist := h.toList
  clear h h0
  unfold MemBuf.writeVector
  induction data generalizing b xs with
  | nil => exact ⟨hflat.wf, by simpa using hlist⟩
  | cons x data ih =>
      obtain ⟨hx, hxlist⟩ := hflat.pushBack mem x
      rw [List.foldl_cons, List.append_cons]
      exact ih hx (hxlist.trans (by rw [hlist]))

/-- A ring that grows stays a ring, whatever it then holds. -/
theorem writeVector_wf (h : b.buffer.WF) (mem : Nat → UInt8) (data : List UInt8) :
    (b.writeVector mem data).buffer.WF := by
  unfold MemBuf.writeVector
  induction data generalizing b with
  | nil => exact h
  | cons x data ih =>
      rw [List.foldl_cons]
      exact ih (Ring.pushBack_spec mem x h).1

theorem writeVector_size (mem : Nat → UInt8) (data : List UInt8) (b : MemBuf) :
    (b.writeVector mem data).size = b.size + data.length := by
  unfold MemBuf.writeVector
  induction data generalizing b with
  | nil => rfl
  | cons x data ih =>
      have hpush : (b.writeU8 mem x).size = b.size + 1 := Ring.pushBack_sz mem x
      rw [List.foldl_cons, ih, hpush, List.length_cons, Nat.add_assoc, Nat.add_comm 1]

end Dwhbll.Collections.MemBuf
