import Dwhbll.Sockets.Lemmas.Inbound
import Dwhbll.Sockets.Lemmas.Outbound

/-!
# Theorems about buffered sockets
-/

namespace Dwhbll.Async.Net.BufferedSocket

open Transition

/-! ## Writing -/

/-- After these calls, the bytes handed over and those in the buffer are the bytes written, in order. -/
def KeepsOrder (peer : Peer) (calls : List WriteCall) : Prop :=
  (run (WriteCall.run peer) {} calls).2.wire.handed ++ (run (WriteCall.run peer) {} calls).2.pending =
    calls.flatMap WriteCall.bytes

/-- After these calls and a `flush`, the bytes written have been handed over. -/
def HandsOver (peer : Peer) (calls : List WriteCall) : Prop :=
  ((run (WriteCall.run peer) {} calls).2.flush peer).2.wire.handed = calls.flatMap WriteCall.bytes

/-- In a run in which no write is put behind bytes that are already in the buffer, the bytes are kept in order
after every call, and a `flush` hands all of them over. -/
theorem run_keepsOrder {peer : Peer} (hok : Succeeds peer) {calls : List WriteCall}
    (hd : Along (WriteCall.run peer) Direct {} calls) :
    (∀ cs, cs <+: calls → KeepsOrder peer cs) ∧ HandsOver peer calls := by
  constructor
  · intro cs hcs
    exact (run_ordered hok new_ordered (hd.of_isPrefix hcs)).bytes
  · obtain ⟨t, ht, -, -, hw⟩ := flush_ordered hok (run_ordered hok new_ordered hd)
    rw [HandsOver, ht]
    exact hw

/-- A socket that takes every byte and gives zeros. -/
def zeroPeer : Peer where
  source _ := 0
  readSome _ := .ok 0
  write _ := .ok ()

theorem run_keepsOrder_flushed : HandsOver zeroPeer [.write [1, 2], .flush, .writeSome [3]] := by
  have hd : Along (WriteCall.run zeroPeer) Direct {} [.write [1, 2], .flush, .writeSome [3]] :=
    ⟨.inl rfl, trivial, .inl rfl, trivial⟩
  exact (run_keepsOrder (fun _ => rfl) hd).2

/-- The second of two writes moves the start of the buffer behind the first: that is not handed over, and a
byte that was never written is. -/
theorem second_write_loses_first :
    Succeeds zeroPeer ∧
      ((run (WriteCall.run zeroPeer) {} [.write [1], .write [2]]).2.flush zeroPeer).2.wire.handed = [2, 0] ∧
      ¬ KeepsOrder zeroPeer [.write [1], .write [2]] ∧ ¬ HandsOver zeroPeer [.write [1], .write [2]] := by
  refine ⟨fun _ => rfl, by decide +kernel, ?_, ?_⟩
  · unfold KeepsOrder
    decide +kernel
  · unfold HandsOver
    decide +kernel

/-! ## Reading -/

/-- After these calls, the bytes delivered and those not yet read are the bytes received, and the errors
reported are those of the socket underneath. -/
def Faithful (peer : Peer) (calls : List ReadCall) : Prop :=
  (run (ReadCall.run peer) {} calls).1.flatMap ReadReply.bytes ++ (run (ReadCall.run peer) {} calls).2.unread =
      (run (ReadCall.run peer) {} calls).2.wire.received ∧
    (run (ReadCall.run peer) {} calls).1.flatMap ReadReply.errors =
      (run (ReadCall.run peer) {} calls).2.wire.failed

/-- After any calls the bytes received are accounted for if and only if every read into the inbound buffer has
filled it. -/
theorem faithful_iff (peer : Peer) (calls : List ReadCall) :
    Faithful peer calls ↔
      ∀ r ∈ (run (ReadCall.run peer) {} calls).2.refills, r = some BUFFER_SIZE := by
  obtain ⟨got, rs, hm⟩ := run_moves peer calls new_sized
  have hrefills : (run (ReadCall.run peer) {} calls).2.refills = rs := hm.refills
  have hreceived : (run (ReadCall.run peer) {} calls).2.wire.received = got := hm.received
  rw [Faithful, hrefills, hreceived, ← missing_eq_zero_iff hm.bounded]
  constructor
  · rintro ⟨hbytes, -⟩
    have hlen := congrArg List.length hbytes
    rw [List.length_append, hm.sized.unread_length] at hlen
    have := hm.length
    have h0 : ({} : BufferedSocket).inboundSize = 0 := rfl
    omega
  · intro h0
    exact ⟨hm.bytes h0, (hm.errors h0).symm⟩

def failingPeer : Peer where
  source _ := 0
  readSome _ := .error 5
  write _ := .ok ()

/-- The first read of a byte. Where the socket underneath gives one byte, 4095 more count as unread; where it
fails, a byte is delivered and nothing is reported. -/
theorem short_read_invents_bytes :
    (run (ReadCall.run zeroPeer) {} [.readSome 1]).2.wire.received = [0] ∧
      (run (ReadCall.run zeroPeer) {} [.readSome 1]).2.inboundSize = 4095 ∧
      ¬ Faithful zeroPeer [.readSome 1] ∧
      (run (ReadCall.run failingPeer) {} [.readSome 1]).1.flatMap ReadReply.bytes = [0] ∧
      (run (ReadCall.run failingPeer) {} [.readSome 1]).1.flatMap ReadReply.errors = [] ∧
      (run (ReadCall.run failingPeer) {} [.readSome 1]).2.wire.failed = [5] ∧
      ¬ Faithful failingPeer [.readSome 1] := by
  refine ⟨by decide +kernel, by decide +kernel, ?_, by decide +kernel, by decide +kernel, by decide +kernel, ?_⟩
  · rintro ⟨h, -⟩
    revert h
    decide +kernel
  · rintro ⟨-, h⟩
    revert h
    decide +kernel

end Dwhbll.Async.Net.BufferedSocket
