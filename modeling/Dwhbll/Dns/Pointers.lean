import Dwhbll.Dns.Compression
import Dwhbll.Lib.Walks

/-!
# Compression pointers that lead in a circle

The loop of `Domain::unpack` goes from one length byte to the next, and a pointer may send it anywhere. What the bytes
say about that is a walk through the offsets of the message, of which there are finitely many.
-/

namespace Dwhbll.Network.Dns.Domain

open Collections

/-! ## Received messages -/

/-- The ring after `resize(512)`, the read of a datagram into its vector and `used` with the size of the datagram. -/
def datagram (bs : List UInt8) : Collections.Ring UInt8 :=
  { tail := bs.length, sz := bs.length, data := bs.rightpad 512 0, needsResize := bs.length == 512 }

/-- The stream of an answer of these bytes, over TCP or UDP. -/
inductive Answer (bs : List UInt8) : Collections.Ring UInt8 → Prop where
  | tcp : Answer bs (received bs)
  | udp : bs.length ≤ 512 → Answer bs (datagram bs)

variable {bs : List UInt8} {data : Collections.Ring UInt8} {head start fuel : Nat}

theorem Answer.head_eq (h : Answer bs data) : data.head = 0 := by
  cases h <;> rfl

/-- The length byte that the loop of `unpack` comes to behind the one at `head`. -/
def next (data : Collections.Ring UInt8) (head : Nat) : Option Nat :=
  match data.get? head with
  | none => none
  | some size =>
      if size = 0 then none
      else if isPointer size then (data.get? (head + 1)).map (target size)
      else (label data (head + 1) size.toNat).map fun _ => head + 1 + size.toNat

end Dwhbll.Network.Dns.Domain
