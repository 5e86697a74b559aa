import Dwhbll.MemBuf.Contents
import Dwhbll.Ring.Bulk
import Mathlib.Data.List.TakeDrop

/-!
# `outbound_network_buffer` of `network/buffered_socket.cpp`

A `MemBuf` that is written to and sent. The number of bytes that a send accepts is a parameter; what was written and what
the socket accepted is kept with the state.
-/

namespace Dwhbll.Network

open Collections Transition

structure OutboundNetworkBuffer where
  buf : MemBuf := MemBuf.new
  sends : Nat := 0
  written : List UInt8 := []
  accepted : List UInt8 := []
  deriving DecidableEq, Repr

namespace OutboundNetworkBuffer

/-- What is handed to the socket: so many cells of the storage as there are bytes. -/
def offered (s : OutboundNetworkBuffer) : List UInt8 := s.buf.buffer.data.take s.buf.buffer.size

/-- `flush`. What the send returns is not looked at. -/
def flush (accepts : Nat → Nat) (mem : Nat → UInt8) (s : OutboundNetworkBuffer) : OutboundNetworkBuffer :=
  let s := { s with buf := { s.buf with buffer := s.buf.buffer.makeCont mem } }
  let s := { s with sends := s.sends + 1, accepted := s.accepted ++ s.offered.take (accepts s.sends) }
  { s with buf := { s.buf with buffer := s.buf.buffer.clear } }

inductive Op where
  | writeU8 (data : UInt8)
  | writeString (data : List UInt8)
  | writeVector (data : List UInt8)
  | flush
  deriving DecidableEq, Repr

/-- A call, with the memory that it finds behind the storage. -/
def run (accepts : Nat → Nat) (s : OutboundNetworkBuffer) : (Nat → UInt8) × Op → Unit × OutboundNetworkBuffer
  | (mem, .writeU8 data) => ((), { s with buf := s.buf.writeU8 mem data, written := s.written ++ [data] })
  | (mem, .writeString data) => ((), { s with buf := s.buf.writeString mem data, written := s.written ++ data })
  | (mem, .writeVector data) => ((), { s with buf := s.buf.writeVector mem data, written := s.written ++ data })
  | (mem, .flush) => ((), s.flush accepts mem)

def Ordered (s : OutboundNetworkBuffer) : Prop := s.accepted ++ s.buf.buffer.toList = s.written

def Accepted (accepts : Nat → Nat) (s : OutboundNetworkBuffer) : (Nat → UInt8) × Op → Prop
  | (_, .flush) => s.buf.size ≤ accepts s.sends
  | _ => True

/-! ## One call -/

variable {accepts : Nat → Nat} {s : OutboundNetworkBuffer}

/-- The buffer starts at the first cell of its storage. -/
structure Sound (s : OutboundNetworkBuffer) : Prop where
  marked : s.buf.buffer.Marked
  ordered : s.Ordered

theorem writeVector_marked {b : MemBuf} (h : b.buffer.Marked) (mem : Nat → UInt8) (data : List UInt8) :
    (b.writeVector mem data).buffer.Marked ∧
      (b.writeVector mem data).buffer.toList = b.buffer.toList ++ data := by
  unfold MemBuf.writeVector
  induction data generalizing b with
  | nil => exact ⟨h, (List.append_nil _).symm⟩
  | cons x data ih =>
      obtain ⟨hflat, hlist⟩ := h.pushBack mem x
      obtain ⟨hmarked, hrest⟩ := ih (b := b.writeU8 mem x) hflat.marked
      refine ⟨hmarked, hrest.trans ?_⟩
      rw [MemBuf.writeU8, hlist, List.append_assoc, List.singleton_append]

theorem Sound.write (h : s.Sound) (mem : Nat → UInt8) (data : List UInt8) :
    Sound { s with buf := s.buf.writeVector mem data, written := s.written ++ data } := by
  obtain ⟨hmarked, hlist⟩ := writeVector_marked h.marked mem data
  refine ⟨hmarked, ?_⟩
  have hordered := h.ordered
  simp only [Ordered] at hordered ⊢
  rw [hlist, ← List.append_assoc, hordered]

/-- `flush` offers the bytes of the buffer, and has none of them after it. -/
theorem Sound.flush_spec (h : s.Sound) (accepts : Nat → Nat) (mem : Nat → UInt8) :
    (s.flush accepts mem).buf.buffer.Marked ∧ (s.flush accepts mem).buf.buffer.toList = [] ∧
      (s.flush accepts mem).written = s.written ∧
      (s.flush accepts mem).accepted = s.accepted ++ s.buf.buffer.toList.take (accepts s.sends) := by
  have hcont : s.buf.buffer.makeCont mem = s.buf.buffer := if_pos h.marked.flat.isCont
  have hlist : s.buf.buffer.toList = s.buf.buffer.data.take s.buf.buffer.sz := h.marked.flat.toList_eq
  simp only [flush, hcont, offered, Ring.size, hlist]
  exact ⟨Ring.clear_marked (Nat.lt_of_le_of_lt (Nat.zero_le _) h.marked.flat.wf.head_lt), rfl, trivial, trivial⟩

theorem Sound.flush_ordered_iff (h : s.Sound) (mem : Nat → UInt8) :
    (s.flush accepts mem).Ordered ↔ s.buf.size ≤ accepts s.sends := by
  obtain ⟨-, hlist, hwritten, haccepted⟩ := h.flush_spec accepts mem
  rw [Ordered, hlist, hwritten, haccepted, List.append_nil, ← h.ordered, List.append_right_inj,
    List.take_eq_self_iff, Ring.toList_length, MemBuf.size, Ring.size]

theorem Sound.step_ordered_iff (h : s.Sound) (c : (Nat → UInt8) × Op) :
    (s.run accepts c).2.Ordered ↔ s.Accepted accepts c := by
  obtain ⟨mem, op⟩ := c
  cases op with
  | writeU8 data => exact iff_of_true (h.write mem [data]).ordered trivial
  | writeString data => exact iff_of_true (h.write mem data).ordered trivial
  | writeVector data => exact iff_of_true (h.write mem data).ordered trivial
  | flush => exact h.flush_ordered_iff mem

theorem Sound.run (h : s.Sound) {c : (Nat → UInt8) × Op} (hordered : (s.run accepts c).2.Ordered) :
    (s.run accepts c).2.Sound := by
  obtain ⟨mem, op⟩ := c
  refine ⟨?_, hordered⟩
  cases op with
  | writeU8 data => exact (h.write mem [data]).marked
  | writeString data => exact (h.write mem data).marked
  | writeVector data => exact (h.write mem data).marked
  | flush => exact (h.flush_spec accepts mem).1

/-! ## Runs -/

theorem new_sound : Sound {} := ⟨(Ring.new_flat (by decide)).marked, rfl⟩

/-- In a run what was accepted and what is in the buffer are always the bytes that were written, if and only if each
send accepts all bytes that were in the buffer. -/
theorem run_ordered_iff (accepts : Nat → Nat) (calls : List ((Nat → UInt8) × Op)) :
    (Ordered {} ∧ Along (run accepts) (fun s c => (s.run accepts c).2.Ordered) {} calls) ↔
      Along (run accepts) (Accepted accepts) {} calls := by
  rw [and_iff_right new_sound.ordered]
  exact Along.iff_of_invariant (fun _ c h => h.step_ordered_iff c) (fun _ _ h hordered => h.run hordered) new_sound calls

/-- The socket takes one byte of two: the other one is neither sent nor kept. -/
theorem short_send_loses_bytes :
    (Transition.run (run fun _ => 1) {} [(fun _ => 0, .writeString [1, 2]), (fun _ => 0, .flush)]).2.accepted = [1] ∧
      (Transition.run (run fun _ => 1) {}
        [(fun _ => 0, .writeString [1, 2]), (fun _ => 0, .flush)]).2.buf.buffer.toList = [] ∧
      (Transition.run (run fun _ => 1) {}
        [(fun _ => 0, .writeString [1, 2]), (fun _ => 0, .flush)]).2.written = [1, 2] ∧
      ¬ Ordered (Transition.run (run fun _ => 1) {} [(fun _ => 0, .writeString [1, 2]), (fun _ => 0, .flush)]).2 := by
  refine ⟨by decide +kernel, by decide +kernel, by decide +kernel, ?_⟩
  unfold Ordered
  decide +kernel

end OutboundNetworkBuffer

end Dwhbll.Network
