import Dwhbll.Lib.Transition
import Mathlib.Algebra.Group.Int.Defs
import Mathlib.Algebra.Group.Nat.Defs

/-!
# `SHA1` of `cryptography/SHA1.cpp`

The object with its members as the source has them. `digested` is not one of them: it keeps the blocks that were
passed to `digest_chunk`, in order.
-/

namespace Dwhbll.Cryptography

/-- The five words of `h`. -/
structure Chain where
  a : UInt32
  b : UInt32
  c : UInt32
  d : UInt32
  e : UInt32
  deriving DecidableEq, Repr

structure SHA1 where
  messageLength : UInt64
  block : List UInt8
  blockHead : Nat
  h : Chain
  w : List UInt32
  digested : List (List UInt8)
  deriving DecidableEq, Repr

namespace SHA1

def HLEN : Nat := 20

/-! ## One block -/

def rotl (x : UInt32) (n : UInt32) : UInt32 := x <<< n ||| x >>> (32 - n)

/-- The word of the block from byte `i` on. -/
def word (block : List UInt8) (i : Nat) : UInt32 :=
  let byte (j : Nat) : UInt32 := (block.getD (i + j) 0).toUInt32
  let w3 : UInt32 := byte 0 <<< 24 &&& (0xFF000000 : UInt32)
  let w2 : UInt32 := byte 1 <<< 16 &&& (0x00FF0000 : UInt32)
  let w1 : UInt32 := byte 2 <<< 8 &&& (0x0000FF00 : UInt32)
  let w0 : UInt32 := byte 3 &&& (0x000000FF : UInt32)
  w3 ||| w2 ||| w1 ||| w0

def schedule (block : List UInt8) : List UInt32 :=
  (List.range' 16 64).foldl
    (fun w i => w ++ [rotl (w.getD (i - 3) 0 ^^^ w.getD (i - 8) 0 ^^^ w.getD (i - 14) 0 ^^^ w.getD (i - 16) 0) 1])
    ((List.range 16).map fun i => word block (4 * i))

def round (w : List UInt32) (s : Chain) (i : Nat) : Chain :=
  let (f, k) : UInt32 × UInt32 :=
    if i ≤ 19 then ((s.b &&& s.c) ||| (~~~s.b &&& s.d), 0x5A827999)
    else if i ≤ 39 then (s.b ^^^ s.c ^^^ s.d, 0x6ED9EBA1)
    else if i ≤ 59 then ((s.b &&& s.c) ||| (s.b &&& s.d) ||| (s.c &&& s.d), 0x8F1BBCDC)
    else (s.b ^^^ s.c ^^^ s.d, 0xCA62C1D6)
  let temp := rotl s.a 5 + f + s.e + k + w.getD i 0
  { e := s.d, d := s.c, c := rotl s.b 30, b := s.a, a := temp }

/-- What `digest_chunk` makes of `h`. -/
def compress (h : Chain) (block : List UInt8) : Chain :=
  let s := (List.range 80).foldl (round (schedule block)) h
  ⟨h.a + s.a, h.b + s.b, h.c + s.c, h.d + s.d, h.e + s.e⟩

/-- The block and the message schedule are wiped. -/
def digestChunk (s : SHA1) : SHA1 :=
  { s with
    h := compress s.h s.block, w := List.replicate 80 0, block := List.replicate 64 0
    digested := s.digested ++ [s.block] }

/-! ## The object -/

def initialChain : Chain := ⟨0x67452301, 0xEFCDAB89, 0x98BADCFE, 0x10325476, 0xC3D2E1F0⟩

/-- `initialize()`. -/
def initialized (s : SHA1) : SHA1 :=
  { messageLength := 0, blockHead := 0, w := List.replicate 80 0, block := List.replicate 64 0, h := initialChain
    digested := s.digested }

/-- `SHA1()`. -/
def new : SHA1 :=
  { messageLength := 0, blockHead := 0, w := List.replicate 80 0, block := List.replicate 64 0, h := initialChain
    digested := [] }

/-- `memcpy` to `block + pos`. -/
def copyTo (block : List UInt8) (pos : Nat) (bytes : List UInt8) : List UInt8 :=
  block.take pos ++ bytes ++ block.drop (pos + bytes.length)

/-- The loop of `update` over whole blocks, and the copy of what is left. -/
def updateBlocks (data : List UInt8) (s : SHA1) : SHA1 :=
  if data.length ≥ 64 then
    let s := { s with block := copyTo s.block 0 (data.take 64), messageLength := s.messageLength + 64 }
    updateBlocks (data.drop 64) s.digestChunk
  else
    let s := { s with block := List.replicate 64 0 }
    if data.length > 0 then
      { s with
        block := copyTo s.block 0 data, blockHead := data.length
        messageLength := s.messageLength + UInt64.ofNat data.length }
    else s
termination_by data.length
decreasing_by
  rw [List.length_drop]
  omega

def update (data : List UInt8) (s : SHA1) : SHA1 :=
  if data.length = 0 then s
  else if data.length + s.blockHead < 64 then
    { s with
      block := copyTo s.block s.blockHead data, blockHead := s.blockHead + data.length
      messageLength := s.messageLength + UInt64.ofNat data.length }
  else
    let copied := 64 - s.blockHead
    let s := { s with
      block := copyTo s.block s.blockHead (data.take copied)
      messageLength := s.messageLength + UInt64.ofNat copied, blockHead := 0 }
    updateBlocks (data.drop copied) s.digestChunk

/-- `while (block_head < limit) block[block_head++] = 0`. -/
def zeroUpTo (limit : Nat) (s : SHA1) : SHA1 :=
  { s with
    block := (List.range' s.blockHead (limit - s.blockHead)).foldl (fun block i => block.set i 0) s.block
    blockHead := max s.blockHead limit }

/-- The eight bytes of the bit length. -/
def lengthBytes (n : UInt64) : List UInt8 :=
  [56, 48, 40, 32, 24, 16, 8, 0].map fun k : UInt64 => ((n >>> k) &&& 0xFF).toUInt8

def digestBytes (h : Chain) : List UInt8 :=
  [h.a, h.b, h.c, h.d, h.e].flatMap fun x : UInt32 =>
    [(x >>> 24).toUInt8, (x >>> 16).toUInt8, (x >>> 8).toUInt8, x.toUInt8]

/-- The bit behind the message, and the rest of its block where the length does not fit in there. -/
def appendBit (s : SHA1) : SHA1 :=
  let s := { s with block := s.block.set s.blockHead 0x80, blockHead := s.blockHead + 1 }
  if s.blockHead ≥ 64 - 8 then { (s.zeroUpTo 64).digestChunk with blockHead := 0 } else s

def appendLength (s : SHA1) : SHA1 :=
  let s := s.zeroUpTo (64 - 8)
  let s := { s with messageLength := s.messageLength * 8 }
  let s := { s with block := s.block.take 56 ++ lengthBytes s.messageLength }
  s.digestChunk

/-- What is in the output after `finalize`, which panics if the hash does not fit in there. -/
def finalize (output : List UInt8) (s : SHA1) : Option (List UInt8 × SHA1) :=
  if output.length < HLEN then none
  else
    let s := s.appendBit.appendLength
    some (digestBytes s.h ++ output.drop HLEN, s.initialized)

/-! ## Runs -/

/-- An object, with the bytes given to it since it was made or its last `finalize`. -/
structure Hashing where
  sha : SHA1
  given : List UInt8
  deriving DecidableEq, Repr

inductive Call where
  | update (data : List UInt8)
  | finalize (output : List UInt8)
  deriving DecidableEq, Repr

/-- A call, with messages shorter than 2^61 bytes and outputs in which the hash fits. -/
def Call.run (x : Hashing) : Call → Option Hashing
  | .update data =>
      if x.given.length + data.length < 2 ^ 61 then some ⟨x.sha.update data, x.given ++ data⟩ else none
  | .finalize output => (x.sha.finalize output).map fun (_, sha) => ⟨sha, []⟩

def system : Transition.System Hashing Call := .ofOption ⟨new, []⟩ Call.run

/-! ## The padding of FIPS 180-4 -/

/-- The message, a byte `0x80`, the fewest zero bytes that make the length 56 modulo 64, and the length in bits
as a big-endian number of 64 bits. -/
def IsPadded (m p : List UInt8) : Prop :=
  ∃ z, (m.length + 1 + z) % 64 = 56 ∧ (∀ z' < z, (m.length + 1 + z') % 64 ≠ 56) ∧
    p = m ++ [0x80] ++ List.replicate z 0 ++
      (List.range 8).map fun i => UInt8.ofNat (8 * m.length / 256 ^ (7 - i))

end SHA1

end Dwhbll.Cryptography
