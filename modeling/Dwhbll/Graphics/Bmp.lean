import Dwhbll.Lib.Words
import Mathlib.Tactic.MkIffOfInductiveProp

/-!
# The BMP format

A file of 24-bit rows: a header of 14 bytes, a `BITMAPINFOHEADER` of 40 bytes, and the rows, each padded to a multiple
of 4 bytes. The format is stated here as a reader of such files.
-/

namespace Dwhbll.Graphics

structure Color where
  red : UInt8
  green : UInt8
  blue : UInt8
  deriving DecidableEq

structure Image where
  width : Nat
  height : Nat
  pixel : (x y : Nat) → Color

/-- The same size and the same pixels, up to vertical orientation. -/
def Image.Same (a b : Image) : Prop :=
  a.width = b.width ∧ a.height = b.height ∧
    ((∀ y < b.height, ∀ x < b.width, a.pixel x y = b.pixel x y) ∨
      ∀ y < b.height, ∀ x < b.width, a.pixel x y = b.pixel x (b.height - 1 - y))

/-- The three bytes of a pixel, blue first. -/
def colorAt (bytes : List UInt8) (i : Nat) : Color :=
  ⟨bytes.getD (i + 2) 0, bytes.getD (i + 1) 0, bytes.getD i 0⟩

theorem colorAt_congr {xs ys : List UInt8} {i j : Nat} (h : ∀ k < 3, xs[i + k]? = ys[j + k]?) :
    colorAt xs i = colorAt ys j := by
  have h0 := h 0 (by decide)
  rw [Nat.add_zero, Nat.add_zero] at h0
  simp only [colorAt, List.getD_eq_getElem?_getD, h0, h 1 (by decide), h 2 (by decide)]

namespace Bmp

def fileHeaderSize : Nat := 14

def infoHeaderSize : Nat := 40

/-- What a row of `width` pixels takes. -/
def stride (width : Nat) : Nat := (width * 3 + 3) / 4 * 4

/-- The number in the `k` bytes from position `i` on. -/
def field (bytes : List UInt8) (i k : Nat) : Nat := Words.ofLittleEndian ((bytes.drop i).take k)

/-- A number of 32 bits in two's complement. -/
def signed (n : Nat) : Int := if n < 2 ^ 31 then n else n - 2 ^ 32

/-- The fields of both headers that say where the pixels are and how they are stored. -/
structure Headers where
  magic : List UInt8
  size : Nat
  offset : Nat
  infoSize : Nat
  width : Int
  height : Int
  planes : Nat
  bits : Nat
  compression : Nat
  deriving DecidableEq

def readHeaders (bytes : List UInt8) : Headers where
  magic := bytes.take 2
  size := field bytes 2 4
  offset := field bytes 10 4
  infoSize := field bytes 14 4
  width := signed (field bytes 18 4)
  height := signed (field bytes 22 4)
  planes := field bytes 26 2
  bits := field bytes 28 2
  compression := field bytes 30 4

/-- What a reader requires of a file with these headers. A strict one wants the pixels to be behind the headers. -/
@[mk_iff]
structure Valid (strict : Bool) (bytes : List UInt8) (h : Headers) : Prop where
  magic : h.magic = [0x42, 0x4D]
  size : h.size = bytes.length
  infoSize : h.infoSize = infoHeaderSize
  room : fileHeaderSize + infoHeaderSize ≤ bytes.length
  width : 0 < h.width
  height : h.height ≠ 0
  planes : h.planes = 1
  bits : h.bits = 24
  compression : h.compression = 0
  behind : strict = true → fileHeaderSize + infoHeaderSize ≤ h.offset
  rows : h.offset + stride h.width.toNat * h.height.natAbs ≤ bytes.length

instance (strict : Bool) (bytes : List UInt8) (h : Headers) : Decidable (Valid strict bytes h) :=
  decidable_of_iff' _ (valid_iff strict bytes h)

/-- The rows are stored from the bottom up unless the height is negative. -/
def rowOf (height : Int) (y : Nat) : Nat := if 0 < height then height.toNat - 1 - y else y

def image (bytes : List UInt8) (h : Headers) : Image where
  width := h.width.toNat
  height := h.height.natAbs
  pixel x y := colorAt bytes (h.offset + rowOf h.height y * stride h.width.toNat + x * 3)

def decode (strict : Bool) (bytes : List UInt8) : Option Image :=
  if Valid strict bytes (readHeaders bytes) then some (image bytes (readHeaders bytes)) else none

end Bmp

end Dwhbll.Graphics
