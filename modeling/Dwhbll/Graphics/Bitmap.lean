import Dwhbll.Graphics.Bmp
import Dwhbll.Lib.Lists

/-!
# `bitmap` of `graphics/bitmap.cpp`

The numbers are small enough for an `int`, which the theorems have as a hypothesis. `width` and `height` are positive
where a file is written.
-/

namespace Dwhbll.Graphics

open Words

/-- The bytes of `file_header` are packed, as those of `info_header` are. -/
structure FileHeader where
  h : List UInt8 := [0x42, 0x4D]
  size : Nat := 0
  reserved : Nat := 0
  offset : Nat := 0

namespace FileHeader

def sizeof : Nat := 14

def bytes (fh : FileHeader) : List UInt8 :=
  [fh.h, littleEndian 4 fh.size, littleEndian 4 fh.reserved, littleEndian 4 fh.offset].flatten

end FileHeader

structure InfoHeader where
  size : Nat := 40
  width : Nat := 0
  height : Nat := 0
  planes : Nat := 1
  bitsPp : Nat := 24
  compression : Nat := 0
  hRes : Nat := 2400
  vRes : Nat := 2400
  colors : Nat := 0
  impColors : Nat := 0

namespace InfoHeader

def sizeof : Nat := 36

def bytes (ih : InfoHeader) : List UInt8 :=
  [littleEndian 4 ih.size, littleEndian 4 ih.width, littleEndian 4 ih.height, littleEndian 2 ih.planes,
    littleEndian 2 ih.bitsPp, littleEndian 4 ih.compression, littleEndian 4 ih.hRes, littleEndian 4 ih.vRes,
    littleEndian 4 ih.colors, littleEndian 4 ih.impColors].flatten

/-- The header is four bytes shorter than the size that it declares. -/
theorem bytes_length (ih : InfoHeader) : ih.bytes.length = sizeof := by
  simp [bytes, sizeof]

end InfoHeader

theorem FileHeader.bytes_length (size offset : Nat) : (FileHeader.bytes { size, offset }).length = sizeof := by
  simp [bytes, sizeof]

structure Bitmap where
  width : Nat
  height : Nat
  pixels : List UInt8
  size : pixels.length = width * height * 3

namespace Bitmap

variable {b : Bitmap} {strict : Bool}

def new (width height : Nat) : Bitmap where
  width
  height
  pixels := List.replicate (width * height * 3) 0
  size := List.length_replicate

/-- Where the pixel at `x` and `y` is stored. -/
def offset (b : Bitmap) (x y : Int) : Int := y * b.width * 3 + x * 3

/-- The three bytes of the pixel stored at `i`. -/
def store (b : Bitmap) (i : Nat) (red green blue : UInt8) : Bitmap where
  width := b.width
  height := b.height
  pixels := ((b.pixels.set i blue).set (i + 1) green).set (i + 2) red
  size := by simp [b.size]

/-- `set_pixel`. It looks at the end of the array only: before its beginning the write is undefined. -/
def setPixel (b : Bitmap) (x y : Int) (red green blue : UInt8) : Option (Bool × Bitmap) :=
  if b.offset x y + 2 < b.width * b.height * 3 then
    if 0 ≤ b.offset x y then some (true, b.store (b.offset x y).toNat red green blue) else none
  else some (false, b)

/-- The `fh` of `write_to_file`. -/
def fh (b : Bitmap) : FileHeader where
  size := FileHeader.sizeof + InfoHeader.sizeof + b.width * b.height * 3
  offset := FileHeader.sizeof + InfoHeader.sizeof

/-- The `ih` of `write_to_file`. -/
def ih (b : Bitmap) : InfoHeader where
  width := b.width
  height := b.height

/-- `write_to_file`, with what is in the file afterwards. -/
def writeToFile (b : Bitmap) (isOpen : Bool) : Bool × List UInt8 :=
  if isOpen then (true, b.fh.bytes ++ b.ih.bytes ++ b.pixels) else (false, [])

/-- The pixels are those that `set_pixel` has put at their places. -/
def image (b : Bitmap) : Image where
  width := b.width
  height := b.height
  pixel x y := colorAt b.pixels (y * b.width * 3 + x * 3)

/-! ## Pixels -/

theorem offset_cast (x y : Nat) : b.offset x y = ((y * b.width + x) * 3 : Nat) := by
  rw [offset]
  omega

theorem colorAt_store {i : Nat} (hi : i + 2 < b.pixels.length) (red green blue : UInt8) :
    colorAt (b.store i red green blue).pixels i = ⟨red, green, blue⟩ := by
  simp [colorAt, store, hi, show i + 1 < b.pixels.length by omega,
    show i < b.pixels.length by omega]

theorem colorAt_store_of_ne {i j : Nat} (h : j + 2 < i ∨ i + 2 < j) (red green blue : UInt8) :
    colorAt (b.store i red green blue).pixels j = colorAt b.pixels j := by
  refine colorAt_congr fun k hk => ?_
  simp only [store]
  rw [List.getElem?_set_ne (by omega), List.getElem?_set_ne (by omega), List.getElem?_set_ne (by omega)]

/-- `set_pixel` inside of the picture sets this pixel and no other. -/
theorem setPixel_inside {x y : Nat} (hx : x < b.width) (hy : y < b.height) (red green blue : UInt8) :
    ∃ b', b.setPixel x y red green blue = some (true, b') ∧ b'.width = b.width ∧ b'.height = b.height ∧
      ∀ x' < b.width, ∀ y' < b.height, b'.image.pixel x' y' =
        if x' = x ∧ y' = y then ⟨red, green, blue⟩ else b.image.pixel x' y' := by
  have hlt := Lists.index_lt hy hx
  have hsize := b.size
  rw [Nat.mul_comm b.width] at hsize
  refine ⟨b.store ((y * b.width + x) * 3) red green blue, ?_, rfl, rfl, ?_⟩
  · rw [setPixel, offset_cast, if_pos, if_pos (Int.natCast_nonneg _), Int.toNat_natCast]
    rw [Int.mul_comm b.width]
    omega
  · intro x' hx' y' hy'
    have hat : y' * b.width * 3 + x' * 3 = (y' * b.width + x') * 3 := (Nat.add_mul ..).symm
    simp only [image, store, hat]
    split
    · rename_i heq
      obtain ⟨rfl, rfl⟩ := heq
      exact colorAt_store (by omega) red green blue
    · rename_i hne
      refine colorAt_store_of_ne ?_ red green blue
      have : y * b.width + x ≠ y' * b.width + x' := fun h =>
        hne ⟨(Lists.index_inj hx hx' h).2.symm, (Lists.index_inj hx hx' h).1.symm⟩
      omega

/-! ## The file -/

theorem headers_length : (b.fh.bytes ++ b.ih.bytes).length = FileHeader.sizeof + InfoHeader.sizeof := by
  rw [List.length_append, fh, FileHeader.bytes_length, InfoHeader.bytes_length]

variable (b) in
theorem writeToFile_length :
    (b.writeToFile true).2.length = FileHeader.sizeof + InfoHeader.sizeof + b.width * b.height * 3 := by
  rw [writeToFile, if_pos rfl, List.length_append, headers_length, b.size]

theorem colorAt_append {xs ys : List UInt8} {n : Nat} (hxs : xs.length = n) (i : Nat) :
    colorAt (xs ++ ys) (n + i) = colorAt ys i := by
  refine colorAt_congr fun k _ => ?_
  rw [List.getElem?_append_right (by omega), hxs, Nat.add_assoc, Nat.add_sub_cancel_left]

theorem colorAt_writeToFile (i : Nat) :
    colorAt (b.writeToFile true).2 (FileHeader.sizeof + InfoHeader.sizeof + i) = colorAt b.pixels i := by
  rw [writeToFile, if_pos rfl, colorAt_append headers_length]

/-- What a reader finds in the headers. -/
theorem readHeaders_writeToFile (hw : 1 ≤ b.width) (hh : 1 ≤ b.height)
    (hfits : b.width * b.height * 3 < 2 ^ 31 - 64) :
    Bmp.readHeaders (b.writeToFile true).2 =
      { magic := [0x42, 0x4D], size := 50 + b.width * b.height * 3, offset := 50, infoSize := 40,
        width := b.width, height := b.height, planes := 1, bits := 24, compression := 0 } := by
  have hwidth := Nat.le_mul_of_pos_right b.width hh
  have hheight := Nat.le_mul_of_pos_left b.height hw
  have hfield : Bmp.readHeaders (b.writeToFile true).2 =
      { magic := [0x42, 0x4D]
        size := ofLittleEndian (littleEndian 4 (FileHeader.sizeof + InfoHeader.sizeof + b.width * b.height * 3))
        offset := ofLittleEndian (littleEndian 4 (FileHeader.sizeof + InfoHeader.sizeof))
        infoSize := ofLittleEndian (littleEndian 4 40)
        width := Bmp.signed (ofLittleEndian (littleEndian 4 b.width))
        height := Bmp.signed (ofLittleEndian (littleEndian 4 b.height))
        planes := ofLittleEndian (littleEndian 2 1)
        bits := ofLittleEndian (littleEndian 2 24)
        compression := ofLittleEndian (littleEndian 4 0) } := rfl
  simp only [FileHeader.sizeof, InfoHeader.sizeof] at hfield
  simp (disch := omega) only [hfield, ofLittleEndian_littleEndian, Bmp.signed]
  rw [if_pos (by omega), if_pos (by omega)]

theorem stride_eq_iff {width : Nat} : Bmp.stride width = width * 3 ↔ 4 ∣ width := by
  rw [Bmp.stride]
  omega

/-- A row that is padded takes more than the pixels of a row. -/
theorem stride_mul_le_iff {width height : Nat} (hh : 1 ≤ height) :
    Bmp.stride width * height ≤ width * height * 3 ↔ 4 ∣ width := by
  rw [← stride_eq_iff, Nat.mul_right_comm, Nat.mul_le_mul_right_iff hh]
  rw [Bmp.stride]
  omega

/-- A reader takes only files without padding, and only if it does not look where the pixels begin. -/
theorem dvd_of_decode {image : Image} (hw : 1 ≤ b.width) (hh : 1 ≤ b.height)
    (hfits : b.width * b.height * 3 < 2 ^ 31 - 64) (h : Bmp.decode strict (b.writeToFile true).2 = some image) :
    4 ∣ b.width ∧ strict = false := by
  rw [Bmp.decode, readHeaders_writeToFile hw hh hfits] at h
  split at h
  · rename_i hvalid
    have hrows := hvalid.rows
    have hbehind := hvalid.behind
    simp only [writeToFile_length, FileHeader.sizeof, InfoHeader.sizeof, Int.toNat_natCast, Int.natAbs_natCast,
      Bmp.fileHeaderSize, Bmp.infoHeaderSize] at hrows hbehind
    refine ⟨(stride_mul_le_iff hh).mp (by omega), ?_⟩
    cases strict with
    | false => rfl
    | true => exact absurd (hbehind rfl) (by decide)
  · cases h

/-- A file is decoded to the same picture if and only if no row is to be padded and the reader takes the pixels from
where the headers say, inside of what they say is the second header. -/
theorem decode_writeToFile_iff (strict : Bool) (b : Bitmap) (hw : 1 ≤ b.width) (hh : 1 ≤ b.height)
    (hfits : b.width * b.height * 3 < 2 ^ 31 - 64) :
    (∃ image, Bmp.decode strict (b.writeToFile true).2 = some image ∧ image.Same b.image) ↔
      4 ∣ b.width ∧ strict = false := by
  constructor
  · rintro ⟨image, hdecode, -⟩
    exact dvd_of_decode hw hh hfits hdecode
  · rintro ⟨hdvd, rfl⟩
    have hrows := (stride_mul_le_iff hh).mpr hdvd
    have hwidth := Nat.le_mul_of_pos_right b.width hh
    have hlength := b.writeToFile_length
    rw [Bmp.decode, readHeaders_writeToFile hw hh hfits, if_pos]
    · refine ⟨_, rfl, Int.toNat_natCast _, Int.natAbs_natCast _, .inr fun y hy x hx => ?_⟩
      have hrow : 0 < (b.height : Int) := by omega
      simp only [Bmp.image, Bmp.rowOf, if_pos hrow, Int.toNat_natCast, stride_eq_iff.mpr hdvd, image]
      rw [Nat.add_assoc, ← Nat.mul_assoc]
      exact colorAt_writeToFile _
    · simp only [FileHeader.sizeof, InfoHeader.sizeof] at hlength
      have hdims : (b.width : Int).toNat = b.width ∧ (b.height : Int).natAbs = b.height :=
        ⟨Int.toNat_natCast _, Int.natAbs_natCast _⟩
      exact
        { magic := rfl
          size := by rw [hlength]
          infoSize := rfl
          room := by rw [hlength, Bmp.fileHeaderSize, Bmp.infoHeaderSize]; omega
          width := by simp only; omega
          height := by simp only; omega
          planes := rfl
          bits := rfl
          compression := rfl
          behind := nofun
          rows := by simp only [hlength, hdims]; omega }

/-- Two rows of four pixels, of which no two are the same. -/
def twoRows : Bitmap where
  width := 4
  height := 2
  pixels := (List.range 24).map UInt8.ofNat
  size := rfl

/-- A reader that is not strict takes the file of `twoRows`, and one that is strict does not. -/
theorem decode_writeToFile_iff_twoRows :
    (∃ image, Bmp.decode false (twoRows.writeToFile true).2 = some image ∧ image.Same twoRows.image) ∧
      ¬ ∃ image, Bmp.decode true (twoRows.writeToFile true).2 = some image ∧ image.Same twoRows.image :=
  ⟨(decode_writeToFile_iff false twoRows (by decide) (by decide) (by decide)).mpr ⟨by decide, rfl⟩,
    fun h => absurd ((decode_writeToFile_iff true twoRows (by decide) (by decide) (by decide)).mp h).2 (by decide)⟩

/-- The rows of a picture of two by two pixels are not padded, and no reader takes its file. -/
theorem twoByTwo_not_decoded : ¬ ∃ strict image,
    Bmp.decode strict ((new 2 2).writeToFile true).2 = some image ∧ image.Same (new 2 2).image := by
  rintro ⟨strict, image, hdecode, -⟩
  obtain ⟨hdvd, -⟩ := dvd_of_decode (by decide) (by decide) (by decide) hdecode
  exact absurd hdvd (by decide)

end Bitmap

end Dwhbll.Graphics
