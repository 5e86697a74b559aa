import Dwhbll.Lib.Relational
import Dwhbll.MemBuf.Theorems

/-!
# `ParseUtils` of `files/parse_utils.cpp`

A `MemBuf` that asks for more when it is empty. `feed k` is what call number `k` of `refill_buffer` writes to the
buffer, nothing where the socket has nothing; `mem` is what stands behind the storage of its ring. The loops take a
bound, `fuel`, on their rounds; `int` counters are not bounded.
-/

namespace Dwhbll.Files

open Collections Relational

structure ParseUtils where
  buf : MemBuf := MemBuf.new
  refills : Nat := 0
  deriving DecidableEq, Repr

inductive EolType where
  | crlf | cr | lf
  deriving DecidableEq, Repr

namespace ParseUtils

def lineFeed : UInt8 := 0x0A
def carriageReturn : UInt8 := 0x0D
def digitZero : UInt8 := 0x30

inductive Exn where
  | stillEmpty
  | unexpected (c : UInt8)
  | ring (e : Ring.Exn)
  deriving DecidableEq, Repr

/-- The text of the exception, as the bytes that it has. -/
def Exn.what : Exn → List UInt8
  | .stillEmpty => "buffer still empty after refill!".toUTF8.toList
  | .unexpected c => "parse exception, unexpected character ".toUTF8.toList ++ [c]
  | .ring (.outOfRange what) => what.toUTF8.toList

/-- A call has no answer if it does not return within its rounds, or does what is not defined. -/
abbrev M (α : Type) := Comp Exn ParseUtils α

/-- A call of a function of `MemBuf`. -/
def onBuf {α : Type} (m : MemBuf.M α) : M α := fun s =>
  let (r, b) := m s.buf
  some (r.mapError .ring, { s with buf := b })

def readU8 : M UInt8 := onBuf MemBuf.readU8

def peekU8 : M UInt8 := fun s => (s.buf.peekU8 0).map fun c => (.ok c, s)

def isEmpty : M Bool := fun s => some (.ok s.buf.isEmpty, s)

section

variable (feed : Nat → List UInt8) (mem : Nat → Nat → UInt8)

def refillBuffer : M Unit := fun s =>
  some (.ok (), { buf := s.buf.writeVector (mem s.refills) (feed s.refills), refills := s.refills + 1 })

def checkRefill : M Unit := do
  if ← isEmpty then
    refillBuffer feed mem
    if ← isEmpty then
      throw .stillEmpty

/-- `expect` of a string. -/
def expectString : (data : List UInt8) → M Unit
  | [] => return
  | d :: data => do
      checkRefill feed mem
      let c ← readU8
      if d ≠ c then
        throw (.unexpected c)
      else
        expectString data

/-- `expect` of a character. -/
def expect (c : UInt8) : M Unit := do
  checkRefill feed mem
  let next ← readU8
  if next ≠ c then
    throw (.unexpected next)

/-- The loop that reads up to the character `c` and drops it. -/
def takeUntil (c : UInt8) : (fuel : Nat) → (result : List UInt8) → M (List UInt8)
  | 0, _ => fun _ => none
  | fuel + 1, result => do
      checkRefill feed mem
      let next ← readU8
      if next = c then
        return result
      else
        takeUntil c fuel (result ++ [next])

/-- The loop for `EOLType::crlf`. It looks at the character behind a carriage return whether there is one or not. -/
def takeUntilCrlf : (fuel : Nat) → (result : List UInt8) → M (List UInt8)
  | 0, _ => fun _ => none
  | fuel + 1, result => do
      checkRefill feed mem
      let next ← readU8
      if next = carriageReturn then
        let following ← peekU8
        if following = lineFeed then
          let _ ← readU8
          return result
        else
          takeUntilCrlf fuel (result ++ [next])
      else
        takeUntilCrlf fuel (result ++ [next])

def consumeUntilEol (fuel : Nat) : EolType → M (List UInt8)
  | .crlf => takeUntilCrlf feed mem fuel []
  | .cr => takeUntil feed mem carriageReturn fuel []
  | .lf => takeUntil feed mem lineFeed fuel []

def consumeUntilToken (fuel : Nat) (c : UInt8) : M (List UInt8) := takeUntil feed mem c fuel []

/-- `std::isdigit`; what it is asked is a `char`. -/
def isDigit (c : UInt8) : Bool := 0x30 ≤ c ∧ c ≤ 0x39

/-- The loop of `parse_u64`, in round `i`. -/
def digits (readExactly : Int) : (fuel : Nat) → (i : Nat) → (buffer : UInt64) → M UInt64
  | 0, _, _ => fun _ => none
  | fuel + 1, i, buffer =>
      if i < readExactly ∨ readExactly = -1 then do
        checkRefill feed mem
        let next ← peekU8
        if isDigit next then
          let _ ← readU8
          digits readExactly fuel (i + 1) (buffer * 10 + (next - digitZero).toUInt64)
        else
          return buffer
      else
        return buffer

/-- `parse_u64`, with its assertion. -/
def parseU64 (fuel : Nat) (readExactly radix : Int) : M UInt64 :=
  if radix = 10 then digits feed mem readExactly fuel 0 0 else fun _ => none

/-! ## Calls -/

inductive Call where
  | expectString (data : List UInt8)
  | expect (c : UInt8)
  | consumeUntilToken (c : UInt8)
  | consumeUntilEol (type : EolType)
  | parseU64 (readExactly radix : Int)
  deriving DecidableEq, Repr

inductive Value where
  | unit
  | text (v : List UInt8)
  | number (v : UInt64)
  deriving DecidableEq, Repr

def Call.run (fuel : Nat) : Call → M Value
  | .expectString data => do
      ParseUtils.expectString feed mem data
      return .unit
  | .expect c => do
      ParseUtils.expect feed mem c
      return .unit
  | .consumeUntilToken c => return .text (← ParseUtils.consumeUntilToken feed mem fuel c)
  | .consumeUntilEol type => return .text (← ParseUtils.consumeUntilEol feed mem fuel type)
  | .parseU64 readExactly radix => return .number (← ParseUtils.parseU64 feed mem fuel readExactly radix)

/-- All bytes of the first `k` refills. -/
def delivered (k : Nat) : List UInt8 := (List.range k).flatMap feed

/-- How many bytes have been consumed: all that came, but for those that are still in the buffer. -/
def consumed (s : ParseUtils) : Nat := (delivered feed s.refills).length - s.buf.size

/-- The calls one after the other, also behind exceptions: what each returns or throws, and how much has then been
consumed. -/
def results (fuel : Nat) (s : ParseUtils) : List Call → Option (List (Except Exn Value × Nat))
  | [] => some []
  | call :: calls =>
      match call.run feed mem fuel s with
      | none => none
      | some (r, s) => (results fuel s calls).map ((r, consumed feed s) :: ·)

end

end ParseUtils

end Dwhbll.Files
