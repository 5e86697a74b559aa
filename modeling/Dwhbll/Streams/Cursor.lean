import Dwhbll.Lib.Transition
import Dwhbll.Streams.Basic

/-!
# The operations of a reader, and what they are for

A reader is a position in a byte string. `Cursor.apply` says so without any buffer: what an operation
returns is a part of the bytes, and where the position is afterwards.
-/

namespace Dwhbll.Collections.Streams

inductive Op where
  | readByte
  | readBytes (count : Nat)
  | readUntil (delimiter : UInt8) (consume : Bool)
  | readString
  | readAll
  | peekByte
  | peekBytes (count : Nat)
  | seek (pos : Nat)
  | skip (count : Nat)
  | position
  | size
  | remaining
  deriving DecidableEq, Repr

inductive Value where
  | byte (b : UInt8)
  | bytes (bs : List UInt8)
  | number (n : Nat)
  | nothing
  deriving DecidableEq, Repr

def ofByte {σ : Type} (x : Result UInt8 × σ) : Result Value × σ := (x.1.map .byte, x.2)

def ofBytes {σ : Type} (x : Result (List UInt8) × σ) : Result Value × σ := (x.1.map .bytes, x.2)

def ofVoid {σ : Type} (x : Result Unit × σ) : Result Value × σ := (x.1.map fun _ => .nothing, x.2)

def ofNumber {σ : Type} (n : Result Nat) (s : σ) : Result Value × σ := (n.map .number, s)

def StreamReader.apply (r : StreamReader) : Op → Result Value × StreamReader
  | .readByte => ofByte r.readByte
  | .readBytes count => ofBytes (r.readBytes count)
  | .readUntil delimiter consume => ofBytes (r.readUntil delimiter consume)
  | .readString => ofBytes r.readString
  | .readAll => ofBytes r.readAll
  | .peekByte => ofByte r.peekByte
  | .peekBytes count => ofBytes (r.peekBytes count)
  | .seek pos => ofVoid (r.seek pos)
  | .skip count => ofVoid (r.skip count)
  | .position => ofNumber r.position r
  | .size => ofNumber r.size r
  | .remaining => ofNumber r.remaining r

def CachedReader.apply (r : CachedReader) : Op → Result Value × CachedReader
  | .readByte => ofByte r.readByte
  | .readBytes count => ofBytes (r.readBytes count)
  | .readUntil delimiter consume => ofBytes (r.readUntil delimiter consume)
  | .readString => ofBytes r.readString
  | .readAll => ofBytes r.readAll
  | .peekByte => ofByte r.peekByte
  | .peekBytes count => ofBytes (r.peekBytes count)
  | .seek pos => ofVoid (r.seek pos)
  | .skip count => ofVoid (r.skip count)
  | .position => ofNumber r.position r
  | .size => ofNumber r.size r
  | .remaining => ofNumber r.remaining r

/-! ## The abstract reader -/

namespace Cursor

/-- What an operation that does not meet the end of the data returns at `pos`, and the new position. -/
def apply (data : List UInt8) (pos : Nat) : Op → Result Value × Nat
  | .readByte => (.ok (.byte (data.getD pos 0)), pos + 1)
  | .readBytes count => (.ok (.bytes ((data.drop pos).take count)), pos + count)
  | .readUntil delimiter consume =>
      let piece := (data.drop pos).takeWhile (· ≠ delimiter)
      (.ok (.bytes piece), pos + piece.length + if consume then 1 else 0)
  | .readString =>
      let piece := (data.drop pos).takeWhile (· ≠ 0)
      (.ok (.bytes piece), pos + piece.length + 1)
  | .readAll => (.ok (.bytes (data.drop pos)), data.length)
  | .peekByte => (.ok (.byte (data.getD pos 0)), pos)
  | .peekBytes count => (.ok (.bytes ((data.drop pos).take count)), pos)
  | .seek p => if p ≤ data.length then (.ok .nothing, p) else (.error .invalidPositionError, pos)
  | .skip count =>
      if pos + count ≤ data.length then (.ok .nothing, pos + count) else (.error .invalidPositionError, pos)
  | .position => (.ok (.number pos), pos)
  | .size => (.ok (.number data.length), pos)
  | .remaining => (.ok (.number (data.length - pos)), pos)

/-- The operation does not read at or past the end of the data. `read_all`, which the two readers take
to mean different things, is left out. -/
def Inside (data : List UInt8) (pos : Nat) : Op → Prop
  | .readByte | .peekByte => pos < data.length
  | .readBytes count | .peekBytes count => pos + count ≤ data.length
  | .readUntil delimiter _ => delimiter ∈ data.drop pos
  | .readString => 0 ∈ data.drop pos
  | .skip count => pos + count < 2 ^ 64
  | .seek _ | .position | .size | .remaining => True
  | .readAll => False

instance (data : List UInt8) (pos : Nat) : (op : Op) → Decidable (Inside data pos op)
  | .readByte | .peekByte => inferInstanceAs (Decidable (pos < data.length))
  | .readBytes count | .peekBytes count => inferInstanceAs (Decidable (pos + count ≤ data.length))
  | .readUntil delimiter _ => inferInstanceAs (Decidable (delimiter ∈ data.drop pos))
  | .readString => inferInstanceAs (Decidable (0 ∈ data.drop pos))
  | .skip count => inferInstanceAs (Decidable (pos + count < 2 ^ 64))
  | .seek _ | .position | .size | .remaining => isTrue trivial
  | .readAll => isFalse id

end Cursor

end Dwhbll.Collections.Streams
