import Dwhbll.Ring.Basic

/-!
# `MemBuf` of `collections/memory_buffer.cpp`

A stream of bytes in a ring. `mem` is what stands in the memory behind the storage of the ring, as there.
-/

namespace Dwhbll.Collections

structure MemBuf where
  buffer : Ring UInt8
  bigEndian : Bool := false
  deriving DecidableEq, Repr

namespace MemBuf

/-- What a call may throw, and the buffer after it. -/
abbrev M (α : Type) := ExceptT Ring.Exn (StateM MemBuf) α

def new : MemBuf := { buffer := .new 1024 }

def setBigEndian (endian : Bool) (b : MemBuf) : MemBuf := { b with bigEndian := endian }

/-! ## Reads -/

def readU8 : M UInt8 := fun b =>
  match b.buffer.popFront with
  | (.ok (), r) => (.ok b.buffer.front, { b with buffer := r })
  | (.error e, r) => (.error e, { b with buffer := r })

def isBigEndian : M Bool := fun b => (.ok b.bigEndian, b)

def readU16 : M UInt16 := do
  let a := (← readU8).toUInt16 &&& 0xFF
  let b := (← readU8).toUInt16 &&& 0xFF
  return if ← isBigEndian then a <<< 8 ||| b else b <<< 8 ||| a

def readU32 : M UInt32 := do
  let a := (← readU16).toUInt32 &&& 0xFFFF
  let b := (← readU16).toUInt32 &&& 0xFFFF
  return if ← isBigEndian then a <<< 16 ||| b else b <<< 16 ||| a

def readU64 : M UInt64 := do
  let a := (← readU32).toUInt64 &&& 0xFFFFFFFF
  let b := (← readU32).toUInt64 &&& 0xFFFFFFFF
  return if ← isBigEndian then a <<< 32 ||| b else b <<< 32 ||| a

def readVector : (size : Nat) → M (List UInt8)
  | 0 => return []
  | size + 1 => do
      let x ← readU8
      return x :: (← readVector size)

def popFront : M Unit := fun b =>
  let (r, buffer) := b.buffer.popFront
  (r, { b with buffer := buffer })

def skip : (count : Nat) → M Unit
  | 0 => return
  | count + 1 => do
      popFront
      skip count

def peekU8 (index : Nat) (b : MemBuf) : Option UInt8 := b.buffer.get? index

def size (b : MemBuf) : Nat := b.buffer.size

def isEmpty (b : MemBuf) : Bool := b.size = 0

/-! ## Writes -/

variable (mem : Nat → UInt8)

def writeU8 (data : UInt8) (b : MemBuf) : MemBuf := { b with buffer := b.buffer.pushBack mem data }

def writeU16 (data : UInt16) (b : MemBuf) : MemBuf :=
  if b.bigEndian then writeU8 mem (data &&& 0xFF).toUInt8 (writeU8 mem (data >>> 8).toUInt8 b)
  else writeU8 mem (data >>> 8).toUInt8 (writeU8 mem (data &&& 0xFF).toUInt8 b)

def writeU32 (data : UInt32) (b : MemBuf) : MemBuf :=
  if b.bigEndian then writeU16 mem (data &&& 0xFFFF).toUInt16 (writeU16 mem (data >>> 16).toUInt16 b)
  else writeU16 mem (data >>> 16).toUInt16 (writeU16 mem (data &&& 0xFFFF).toUInt16 b)

def writeU64 (data : UInt64) (b : MemBuf) : MemBuf :=
  if b.bigEndian then writeU32 mem (data &&& 0xFFFFFFFF).toUInt32 (writeU32 mem (data >>> 32).toUInt32 b)
  else writeU32 mem (data >>> 32).toUInt32 (writeU32 mem (data &&& 0xFFFFFFFF).toUInt32 b)

def writeVector (data : List UInt8) (b : MemBuf) : MemBuf := data.foldl (fun b d => writeU8 mem d b) b

/-- The characters of the string, each converted to a byte. -/
def writeString (data : List UInt8) (b : MemBuf) : MemBuf := data.foldl (fun b c => writeU8 mem c b) b

/-! ## Calls -/

inductive Value where
  | u8 (v : UInt8)
  | u16 (v : UInt16)
  | u32 (v : UInt32)
  | u64 (v : UInt64)
  | bytes (v : List UInt8)
  deriving DecidableEq, Repr

inductive Op where
  | setBigEndian (endian : Bool)
  | writeU8 (data : UInt8)
  | writeU16 (data : UInt16)
  | writeU32 (data : UInt32)
  | writeU64 (data : UInt64)
  | writeVector (data : List UInt8)
  | writeString (data : List UInt8)
  | readU8
  | readU16
  | readU32
  | readU64
  | readVector (size : Nat)
  deriving DecidableEq, Repr

/-- What a call answers, if it is a read. -/
abbrev Answer := Option (Except Ring.Exn Value)

/-- A read as a call, with the value that it answers. -/
def answer {α : Type} (f : α → Value) (m : M α) (b : MemBuf) : Answer × MemBuf :=
  let (r, b) := m b
  (some (r.map f), b)

/-- A call, with the memory that it finds. -/
def step (b : MemBuf) : (Nat → UInt8) × Op → Answer × MemBuf
  | (_, .setBigEndian endian) => (none, b.setBigEndian endian)
  | (mem, .writeU8 data) => (none, b.writeU8 mem data)
  | (mem, .writeU16 data) => (none, b.writeU16 mem data)
  | (mem, .writeU32 data) => (none, b.writeU32 mem data)
  | (mem, .writeU64 data) => (none, b.writeU64 mem data)
  | (mem, .writeVector data) => (none, b.writeVector mem data)
  | (mem, .writeString data) => (none, b.writeString mem data)
  | (_, .readU8) => answer .u8 readU8 b
  | (_, .readU16) => answer .u16 readU16 b
  | (_, .readU32) => answer .u32 readU32 b
  | (_, .readU64) => answer .u64 readU64 b
  | (_, .readVector size) => answer .bytes (readVector size) b

end MemBuf

end Dwhbll.Collections
