import Dwhbll.Sockets.Basic

/-!
# What writing keeps

The outbound buffer is in order as long as it starts at its first byte. A write that is put behind bytes that
are already there moves its start; the writes that find it empty, or have it flushed first, do not.
-/

namespace Dwhbll.Async.Net.BufferedSocket

variable {peer : Peer} {s : BufferedSocket} {w bytes : List UInt8}

/-- The bytes that are in the outbound buffer. -/
def pending (s : BufferedSocket) : List UInt8 := Circular.window s.outboundBuffer s.outboundHead s.outboundSize

/-- What was handed over and what is in the buffer are the bytes `w`. -/
structure Ordered (w : List UInt8) (s : BufferedSocket) : Prop where
  buffer : s.outboundBuffer.length = BUFFER_SIZE
  head : s.outboundHead = 0
  size : s.outboundSize < BUFFER_SIZE
  bytes : s.wire.handed ++ s.pending = w

theorem Ordered.pending_eq (h : Ordered w s) : s.pending = s.outboundBuffer.take s.outboundSize := by
  have hb := h.buffer
  have hs := h.size
  rw [pending, h.head, Circular.window_at_zero (by omega)]

theorem new_ordered : Ordered [] {} :=
  ⟨List.length_replicate, rfl, by decide, rfl⟩

/-- All writes to the socket underneath succeed. -/
def Succeeds (peer : Peer) : Prop := ∀ i, peer.write i = .ok ()

theorem wire_write (hok : Succeeds peer) (bytes : List UInt8) (wire : Wire) :
    wire.write peer bytes = (.ok (), { wire with writes := wire.writes + 1, handed := wire.handed ++ bytes }) := by
  rw [Wire.write, hok]

theorem flush_ordered (hok : Succeeds peer) (h : Ordered w s) :
    ∃ s', s.flush peer = (.ok (), s') ∧ Ordered w s' ∧ s'.outboundSize = 0 ∧ s'.wire.handed = w := by
  have hsize := h.size
  have hbytes := h.bytes
  rw [h.pending_eq] at hbytes
  have hfirst : min BUFFER_SIZE (0 + s.outboundSize) - 0 = s.outboundSize := by omega
  refine ⟨{ s with wire := { s.wire with writes := s.wire.writes + 1
                                         handed := s.wire.handed ++ s.outboundBuffer.take s.outboundSize }
                   outboundHead := 0, outboundSize := 0 }, ?_, ⟨h.buffer, rfl, Nat.zero_lt_succ _, ?_⟩, rfl, ?_⟩
  · simp only [flush, h.head, wire_write hok, hfirst, List.drop_zero]
    rw [if_neg (by omega)]
  · rw [pending, Circular.window_at_zero (Nat.zero_le _), List.take_zero, List.append_nil]
    exact hbytes
  · exact hbytes

theorem append_ordered (h : Ordered w s) (h0 : s.outboundSize = 0) (hlen : bytes.length < BUFFER_SIZE) :
    Ordered (w ++ bytes) (s.append bytes) := by
  have hb := h.buffer
  have hhanded : s.wire.handed = w := by
    have := h.bytes
    rwa [h.pending_eq, h0, List.take_zero, List.append_nil] at this
  have happend : s.append bytes =
      { s with outboundBuffer := bytes ++ s.outboundBuffer.drop bytes.length, outboundHead := 0
               outboundSize := bytes.length } := by
    have hwrap : ¬ (0 ≥ BUFFER_SIZE) := by decide
    have hwill : ¬ (bytes.length ≥ BUFFER_SIZE) := by omega
    simp only [append, h.head, h0, Nat.zero_add, hwrap, hwill, false_and, if_false, copyTo, List.take_zero,
      List.nil_append]
  rw [happend]
  refine ⟨?_, rfl, hlen, ?_⟩
  · simp only [List.length_append, List.length_drop]
    omega
  · rw [pending, Circular.window_at_zero (by simp only [List.length_append]; omega), List.take_left, hhanded]

/-- A write to an empty buffer. -/
theorem writeFlushed_ordered (hok : Succeeds peer) (h : Ordered w s) (h0 : s.outboundSize = 0) :
    (s.writeFlushed peer bytes).1 = .ok bytes.length ∧ Ordered (w ++ bytes) (s.writeFlushed peer bytes).2 := by
  unfold writeFlushed
  split
  · rw [wire_write hok]
    refine ⟨rfl, h.buffer, h.head, h.size, ?_⟩
    have hbytes := h.bytes
    have hpending : s.pending = [] := by rw [h.pending_eq, h0, List.take_zero]
    rw [hpending, List.append_nil] at hbytes
    show s.wire.handed ++ bytes ++ s.pending = w ++ bytes
    rw [hpending, List.append_nil, hbytes]
  · rename_i hsmall
    refine ⟨rfl, append_ordered h h0 ?_⟩
    simp only [HIGH_WATERMARK, BUFFER_SIZE] at hsmall ⊢
    omega

/-- The write finds the buffer empty, or has it flushed first. -/
def Direct (s : BufferedSocket) : WriteCall → Prop
  | .write bytes | .writeSome bytes => s.outboundSize = 0 ∨ s.flushesFirst bytes
  | .flush => True

theorem writeSome_ordered (hok : Succeeds peer) (h : Ordered w s) (hd : s.outboundSize = 0 ∨ s.flushesFirst bytes) :
    (s.writeSome peer bytes).1 = .ok bytes.length ∧ Ordered (w ++ bytes) (s.writeSome peer bytes).2 := by
  unfold writeSome
  split
  · obtain ⟨t, ht, hord, h0, -⟩ := flush_ordered hok h
    rw [ht]
    exact writeFlushed_ordered hok hord h0
  · rename_i hn
    exact writeFlushed_ordered hok h (hd.resolve_right hn)

theorem WriteCall.run_ordered (hok : Succeeds peer) (c : WriteCall) (h : Ordered w s) (hd : Direct s c) :
    Ordered (w ++ c.bytes) (c.run peer s).2 := by
  cases c with
  | write bytes =>
      obtain ⟨hr, hord⟩ := writeSome_ordered hok h hd
      simp only [WriteCall.run, BufferedSocket.write]
      generalize s.writeSome peer bytes = out at hr hord
      obtain ⟨result, t⟩ := out
      cases hr
      exact hord
  | writeSome bytes => exact (writeSome_ordered hok h hd).2
  | flush =>
      obtain ⟨t, ht, hord, -, -⟩ := flush_ordered hok h
      simp only [WriteCall.run, ht, WriteCall.bytes, List.append_nil]
      exact hord

theorem run_ordered (hok : Succeeds peer) {calls : List WriteCall} (h : Ordered w s)
    (hd : Transition.Along (WriteCall.run peer) Direct s calls) :
    Ordered (w ++ calls.flatMap WriteCall.bytes) (Transition.run (WriteCall.run peer) s calls).2 := by
  induction calls generalizing s w with
  | nil =>
      rw [List.flatMap_nil, List.append_nil]
      exact h
  | cons c calls ih =>
      have hrest := ih (c.run_ordered hok h hd.1) hd.2
      rw [List.append_assoc] at hrest
      exact hrest

end Dwhbll.Async.Net.BufferedSocket
