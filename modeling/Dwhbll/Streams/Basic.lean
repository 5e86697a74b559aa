import Mathlib.Algebra.Group.Int.Defs
import Mathlib.Algebra.Group.Nat.Defs

/-!
# Buffers and readers of `collections/streams.hpp`

`size_t` values are naturals; an operation whose result can leave the type is taken modulo `2 ^ 64`.
Vectors are lists, and their allocation succeeds. What a call returns comes first, the new state last.
-/

namespace Dwhbll.Collections.Streams

inductive Error where
  | noError
  | genericError
  | endOfData
  | invalidPositionError
  | decompressionError
  | fileOpenError
  | unimplemented
  deriving DecidableEq, Repr

abbrev Result := Except Error

/-- `std::vector::resize`. -/
def resize (xs : List UInt8) (n : Nat) : List UInt8 := xs.take n ++ List.replicate (n - xs.length) 0

/-! ## `MemoryBuffer` -/

/-- `pos_` is moved only after a check against the size, and a vector holds less than `2 ^ 63` bytes. -/
structure MemoryBuffer where
  data : List UInt8
  pos : Nat
  pos_le : pos ≤ data.length
  size_lt : data.length < 2 ^ 63

namespace MemoryBuffer

def new (data : List UInt8) (h : data.length < 2 ^ 63) : MemoryBuffer := ⟨data, 0, Nat.zero_le _, h⟩

def position (b : MemoryBuffer) : Result Nat := .ok b.pos

def size (b : MemoryBuffer) : Result Nat := .ok b.data.length

def remaining (b : MemoryBuffer) : Result Nat := .ok (b.data.length - b.pos)

/-- How many of `count` bytes are there. -/
def fetch (b : MemoryBuffer) (count : Nat) : Nat := min count (b.data.length - b.pos)

/-- `dest` with the bytes from `pos_` on copied to its front. -/
def copyTo (b : MemoryBuffer) (dest : List UInt8) : List UInt8 :=
  (b.data.drop b.pos).take (b.fetch dest.length) ++ dest.drop (b.fetch dest.length)

def advance (b : MemoryBuffer) (count : Nat) : MemoryBuffer where
  data := b.data
  pos := b.pos + b.fetch count
  pos_le := by have := b.pos_le; unfold fetch; omega
  size_lt := b.size_lt

def readRawBytes (b : MemoryBuffer) (dest : List UInt8) : Result Nat × List UInt8 × MemoryBuffer :=
  if dest = [] then (.error .genericError, dest, b)
  else (.ok (b.fetch dest.length), b.copyTo dest, b.advance dest.length)

def peekRawBytes (b : MemoryBuffer) (dest : List UInt8) : Result Nat × List UInt8 :=
  if dest = [] then (.error .genericError, dest)
  else (.ok (b.fetch dest.length), b.copyTo dest)

def seek (b : MemoryBuffer) (pos : Nat) : Result Unit × MemoryBuffer :=
  if h : pos > b.data.length then (.error .invalidPositionError, b)
  else (.ok (), { b with pos, pos_le := Nat.not_lt.mp h })

def skip (b : MemoryBuffer) (count : Nat) : Result Unit × MemoryBuffer :=
  b.seek ((b.pos + count) % 2 ^ 64)

end MemoryBuffer

/-! ## Scanning for a byte -/

/-- A reader whose `read_byte` succeeds only finitely often in a row. -/
structure ByteSource (σ : Type) where
  readByte : σ → Result UInt8 × σ
  left : σ → Nat
  left_lt : ∀ {s b s'}, readByte s = (.ok b, s') → left s' < left s

/-- The loop of `read_until` and `read_string`. The flag tells whether it ended at the byte `stop`. -/
def ByteSource.scan {σ : Type} (src : ByteSource σ) (stop : UInt8) (s : σ) (data : List UInt8) :
    Result (List UInt8) × Bool × σ :=
  match _h : src.readByte s with
  | (.error e, s') =>
      if e = .endOfData ∧ data ≠ [] then (.ok data, false, s') else (.error e, false, s')
  | (.ok byte, s') => if byte = stop then (.ok data, true, s') else src.scan stop s' (data ++ [byte])
termination_by src.left s
decreasing_by exact src.left_lt ‹_›

/-! ## `StreamReader` -/

structure StreamReader where
  source : MemoryBuffer

namespace StreamReader

def new (source : MemoryBuffer) : StreamReader := ⟨source⟩

def readByte (r : StreamReader) : Result UInt8 × StreamReader :=
  match r.source.readRawBytes [0] with
  | (.error e, _, source) => (.error e, ⟨source⟩)
  | (.ok n, temp, source) => if n = 0 then (.error .endOfData, ⟨source⟩) else (.ok (temp.headD 0), ⟨source⟩)

def readBytes (r : StreamReader) (count : Nat) : Result (List UInt8) × StreamReader :=
  if count = 0 then (.ok [], r)
  else
    match r.source.readRawBytes (List.replicate count 0) with
    | (.error e, _, source) => (.error e, ⟨source⟩)
    | (.ok n, buf, source) => if n = 0 then (.error .endOfData, ⟨source⟩) else (.ok (resize buf n), ⟨source⟩)

def position (r : StreamReader) : Result Nat := r.source.position

def size (r : StreamReader) : Result Nat := r.source.size

def remaining (r : StreamReader) : Result Nat := r.source.remaining

def seek (r : StreamReader) (pos : Nat) : Result Unit × StreamReader :=
  match r.source.seek pos with
  | (res, source) => (res, ⟨source⟩)

def skip (r : StreamReader) (count : Nat) : Result Unit × StreamReader :=
  match r.source.skip count with
  | (res, source) => (res, ⟨source⟩)

theorem readByte_remaining {r r' : StreamReader} {b : UInt8} (h : r.readByte = (.ok b, r')) :
    r'.source.data.length - r'.source.pos < r.source.data.length - r.source.pos := by
  simp only [readByte, MemoryBuffer.readRawBytes, List.cons_ne_nil, if_false] at h
  split at h
  · cases h
  · cases h
    simp only [MemoryBuffer.advance, MemoryBuffer.fetch, List.length_singleton] at *
    omega

def byteSource : ByteSource StreamReader where
  readByte := readByte
  left r := r.source.data.length - r.source.pos
  left_lt := readByte_remaining

def readUntil (r : StreamReader) (delimiter : UInt8) (consume : Bool) : Result (List UInt8) × StreamReader :=
  match byteSource.scan delimiter r [] with
  | (.ok data, true, r') =>
      if consume then (.ok data, r')
      else
        match r'.position with
        | .error e => (.error e, r')
        | .ok pos =>
            -- The delimiter was read, so the position is not 0.
            match r'.seek (pos - 1) with
            | (.error e, r'') => (.error e, r'')
            | (.ok _, r'') => (.ok data, r'')
  | (res, _, r') => (res, r')

def readString (r : StreamReader) : Result (List UInt8) × StreamReader :=
  match byteSource.scan 0 r [] with
  | (res, _, r') => (res, r')

def readAll (r : StreamReader) : Result (List UInt8) × StreamReader :=
  match r.remaining with
  | .error e => (.error e, r)
  | .ok n => if n = 0 then (.ok [], r) else r.readBytes n

def peekByte (r : StreamReader) : Result UInt8 × StreamReader :=
  match r.source.peekRawBytes [0] with
  | (.error e, _) => (.error e, r)
  | (.ok n, temp) => if n = 0 then (.error .endOfData, r) else (.ok (temp.headD 0), r)

def peekBytes (r : StreamReader) (count : Nat) : Result (List UInt8) × StreamReader :=
  if count = 0 then (.ok [], r)
  else
    match r.source.peekRawBytes (List.replicate count 0) with
    | (.error e, _) => (.error e, r)
    | (.ok n, data) => (.ok (resize data n), r)

end StreamReader

/-! ## `CachedReader` -/

structure CachedReader where
  source : MemoryBuffer
  cache : List UInt8
  chunkSize : Nat
  pos : Nat
  cacheStart : Nat

namespace CachedReader

def new (source : MemoryBuffer) (chunkSize : Nat) : CachedReader := ⟨source, [], chunkSize, 0, 0⟩

def updateCache (r : CachedReader) : Result Unit × CachedReader :=
  if r.cacheStart ≤ r.pos ∧ r.pos < (r.cacheStart + r.cache.length) % 2 ^ 64 then (.ok (), r)
  else
    match r.source.seek r.pos with
    | (.error e, source) => (.error e, { r with source })
    | (.ok _, source) =>
        match source.readRawBytes (resize r.cache r.chunkSize) with
        | (.error e, cache, source) => (.error e, { r with source, cache })
        | (.ok n, cache, source) =>
            if n = 0 then (.error .endOfData, { r with source, cache })
            else (.ok (), { r with source, cache := resize cache n, cacheStart := r.pos })

-- Once `update_cache` has succeeded, `pos_` is not below `cache_start_pos_`.
def readByte (r : CachedReader) : Result UInt8 × CachedReader :=
  match r.updateCache with
  | (.error e, r) => (.error e, r)
  | (.ok _, r) =>
      match r.cache[r.pos - r.cacheStart]? with
      | none => (.error .endOfData, r)
      | some byte => (.ok byte, { r with pos := (r.pos + 1) % 2 ^ 64 })

/-- The loop of `read_bytes`, with `count` bytes to go and `buf` read so far. -/
def readBytesLoop (r : CachedReader) (count : Nat) (buf : List UInt8) : Result (List UInt8) × CachedReader :=
  if count = 0 then (.ok buf, r)
  else
    match r.updateCache with
    | (.error e, r) => if e = .endOfData ∧ buf ≠ [] then (.ok buf, r) else (.error e, r)
    | (.ok _, r) =>
        let offset := r.pos - r.cacheStart
        let available := r.cache.length - offset
        if available = 0 then if buf ≠ [] then (.ok buf, r) else (.error .endOfData, r)
        else
          let toCopy := min available count
          readBytesLoop { r with pos := (r.pos + toCopy) % 2 ^ 64 } (count - toCopy)
            (buf ++ (r.cache.drop offset).take toCopy)
termination_by count

def readBytes (r : CachedReader) (count : Nat) : Result (List UInt8) × CachedReader :=
  if count = 0 then (.ok [], r) else r.readBytesLoop count []

theorem updateCache_pos {r r' : CachedReader} (h : r.updateCache = (.ok (), r')) :
    r'.pos = r.pos ∧ r.pos + 1 < 2 ^ 64 := by
  simp only [updateCache] at h
  split at h
  · cases h
    exact ⟨rfl, by omega⟩
  · have := r.source.size_lt
    simp only [MemoryBuffer.seek] at h
    split at h
    · cases h
    · rename_i he
      split at he
      · cases he
      · cases he
        split at h
        · cases h
        · split at h
          · cases h
          · cases h
            exact ⟨rfl, by omega⟩

theorem readByte_pos {r r' : CachedReader} {b : UInt8} (h : r.readByte = (.ok b, r')) :
    2 ^ 64 - r'.pos < 2 ^ 64 - r.pos := by
  simp only [readByte] at h
  split at h
  · cases h
  · rename_i hu
    obtain ⟨hpos, hlt⟩ := updateCache_pos hu
    split at h
    · cases h
    · cases h
      simp only [hpos]
      omega

def byteSource : ByteSource CachedReader where
  readByte := readByte
  left r := 2 ^ 64 - r.pos
  left_lt := readByte_pos

def readUntil (r : CachedReader) (delimiter : UInt8) (consume : Bool) : Result (List UInt8) × CachedReader :=
  match byteSource.scan delimiter r [] with
  | (.ok data, true, r') => (.ok data, if consume then r' else { r' with pos := r'.pos - 1 })
  | (res, _, r') => (res, r')

def readString (r : CachedReader) : Result (List UInt8) × CachedReader :=
  match byteSource.scan 0 r [] with
  | (res, _, r') => (res, r')

def position (r : CachedReader) : Result Nat := .ok r.pos

def size (r : CachedReader) : Result Nat := r.source.size

def remaining (r : CachedReader) : Result Nat :=
  match r.size with
  | .error e => .error e
  | .ok sz => .ok ((sz + 2 ^ 64 - r.pos) % 2 ^ 64)

def seek (r : CachedReader) (pos : Nat) : Result Unit × CachedReader :=
  match r.size with
  | .error e => (.error e, r)
  | .ok sz => if pos > sz then (.error .invalidPositionError, r) else (.ok (), { r with pos })

def skip (r : CachedReader) (count : Nat) : Result Unit × CachedReader :=
  match r.size with
  | .error e => (.error e, r)
  | .ok sz =>
      if (r.pos + count) % 2 ^ 64 > sz then (.error .invalidPositionError, r)
      else (.ok (), { r with pos := (r.pos + count) % 2 ^ 64 })

def readAll (r : CachedReader) : Result (List UInt8) × CachedReader :=
  match r.seek 0 with
  | (.error e, r) => (.error e, r)
  | (.ok _, r) =>
      match r.remaining with
      | .error e => (.error e, r)
      | .ok n => r.readBytes n

def peekByte (r : CachedReader) : Result UInt8 × CachedReader :=
  match r.readByte with
  | (res, r') => (res, { r' with pos := r.pos })

def peekBytes (r : CachedReader) (count : Nat) : Result (List UInt8) × CachedReader :=
  match r.readBytes count with
  | (res, r') => (res, { r' with pos := r.pos })

end CachedReader

end Dwhbll.Collections.Streams
