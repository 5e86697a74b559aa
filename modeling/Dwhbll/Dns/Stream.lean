import Dwhbll.Ring.Basic

/-!
# `MemoryStream` of `network/dns/dns.h`

The stream keeps its bytes in a ring, written behind the last one and read with `operator[]` from
`current_head` on. `char` and `std::uint8_t` are both bytes here.

Not every call comes back with a value, and the ways in which it does not are told apart.
-/

namespace Dwhbll.Network.Dns

open Collections

/-- How a call ends. -/
inductive Outcome (α : Type) where
  | done (a : α)
  /-- It reads outside the storage of a vector. -/
  | outside
  /-- A vector throws `std::length_error`. -/
  | lengthError
  /-- It calls `std::terminate`. -/
  | terminated
  /-- Its loop has not ended within the given number of iterations. -/
  | running
  deriving DecidableEq, Repr

namespace Outcome

variable {α β : Type}

def bind (x : Outcome α) (f : α → Outcome β) : Outcome β :=
  match x with
  | done a => f a
  | outside => outside
  | lengthError => lengthError
  | terminated => terminated
  | running => running

instance : Monad Outcome where
  pure := done
  bind := bind

def ofOption : Option α → Outcome α
  | none => outside
  | some a => done a

end Outcome

/-- A new stream has the ring of the default constructor, of 16 cells. -/
structure MemoryStream where
  data : Collections.Ring UInt8 := Collections.Ring.new 16
  currentHead : Nat := 0
  deriving DecidableEq, Repr

/-- A call that reads from a stream. -/
abbrev Unpack := StateT MemoryStream Outcome

/-- A call that writes to a stream. -/
abbrev Pack := MemoryStream → Outcome MemoryStream

namespace MemoryStream

def getUint8 : Unpack UInt8 := fun s => do
  let b ← Outcome.ofOption (s.data.get? s.currentHead)
  return (b, { s with currentHead := s.currentHead + 1 })

def getUint16 : Unpack UInt16 := do
  let high ← getUint8
  let low ← getUint8
  return high.toUInt16 <<< 8 ||| low.toUInt16

def getUint32 : Unpack UInt32 := do
  let high ← getUint16
  let low ← getUint16
  return high.toUInt32 <<< 16 ||| low.toUInt32

/-- `n` times `get_uint8`. -/
def getBytes : Nat → Unpack (List UInt8)
  | 0 => return []
  | n + 1 => do
      let b ← getUint8
      let bs ← getBytes n
      return b :: bs

variable (mem : Nat → UInt8)

def writeUint8 (value : UInt8) (s : MemoryStream) : MemoryStream :=
  { s with data := s.data.pushBack mem value }

def writeUint16 (value : UInt16) (s : MemoryStream) : MemoryStream :=
  (s.writeUint8 mem (value >>> 8).toUInt8).writeUint8 mem (value &&& 0xFF).toUInt8

def writeUint32 (value : UInt32) (s : MemoryStream) : MemoryStream :=
  (s.writeUint16 mem (value >>> 16).toUInt16).writeUint16 mem (value &&& 0xFFFF).toUInt16

/-- `push_back` of each byte in turn. -/
def writeBytes (bs : List UInt8) (s : MemoryStream) : MemoryStream :=
  bs.foldl (fun s b => s.writeUint8 mem b) s

end MemoryStream

end Dwhbll.Network.Dns
