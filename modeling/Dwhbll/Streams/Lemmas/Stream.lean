import Dwhbll.Lib.Lists
import Dwhbll.Streams.Lemmas.Scan

/-!
# `StreamReader` is a cursor
-/

namespace Dwhbll.Collections.Streams

/-! ## Vectors and the buffer -/

theorem resize_of_le {xs : List UInt8} {n : Nat} (h : n ≤ xs.length) : resize xs n = xs.take n := by
  rw [resize, Nat.sub_eq_zero_of_le h, List.replicate_zero, List.append_nil]

theorem resize_length (xs : List UInt8) (n : Nat) : (resize xs n).length = n := by
  rw [resize, List.length_append, List.length_take, List.length_replicate]
  omega

namespace MemoryBuffer

variable (b : MemoryBuffer) (dest : List UInt8)

theorem copied_length : ((b.data.drop b.pos).take (b.fetch dest.length)).length = b.fetch dest.length := by
  rw [List.length_take, List.length_drop, fetch]
  omega

theorem copyTo_length : (b.copyTo dest).length = dest.length := by
  rw [copyTo, List.length_append, copied_length, List.length_drop, fetch]
  omega

/-- The part of `dest` that a read has filled. -/
theorem resize_copyTo :
    resize (b.copyTo dest) (b.fetch dest.length) = (b.data.drop b.pos).take dest.length := by
  rw [resize_of_le (by rw [copyTo_length]; exact Nat.min_le_left ..), copyTo,
    List.take_append_of_le_length (Nat.le_of_eq (copied_length ..).symm), List.take_take, Nat.min_self, fetch,
    ← List.length_drop]
  exact List.take_eq_take_min.symm

theorem seek_of_le {p : Nat} (h : p ≤ b.data.length) : b.seek p = (.ok (), { b with pos := p, pos_le := h }) :=
  dif_neg (Nat.not_lt.mpr h)

theorem seek_of_lt {p : Nat} (h : b.data.length < p) : b.seek p = (.error .invalidPositionError, b) :=
  dif_pos h

end MemoryBuffer

/-! ## `StreamReader` -/

namespace StreamReader

variable {data : List UInt8} {r : StreamReader} {pos : Nat} {bs : List UInt8}

/-- The reader is at `pos` in `data`. -/
structure At (data : List UInt8) (r : StreamReader) (pos : Nat) : Prop where
  data_eq : r.source.data = data
  pos_eq : r.source.pos = pos

theorem At.le (h : At data r pos) : pos ≤ data.length := by
  obtain ⟨rfl, rfl⟩ := h
  exact r.source.pos_le

theorem readByte_cons {b : UInt8} (h : At data r pos) (hd : data.drop pos = b :: bs) :
    ∃ r', r.readByte = (.ok b, r') ∧ At data r' (pos + 1) := by
  obtain ⟨rfl, rfl⟩ := h
  have hlt := Lists.lt_of_drop hd
  have hf : r.source.fetch 1 = 1 := by rw [MemoryBuffer.fetch]; omega
  refine ⟨⟨r.source.advance 1⟩, ?_, rfl, ?_⟩
  · simp [readByte, MemoryBuffer.readRawBytes, hf, MemoryBuffer.copyTo, hd]
  · simp [MemoryBuffer.advance, hf]

theorem readByte_nil (h : At data r pos) (hd : data.drop pos = []) :
    ∃ r', r.readByte = (.error .endOfData, r') ∧ At data r' pos := by
  obtain ⟨rfl, rfl⟩ := h
  have hle := List.drop_eq_nil_iff.mp hd
  have hf : r.source.fetch 1 = 0 := by rw [MemoryBuffer.fetch]; omega
  refine ⟨⟨r.source.advance 1⟩, ?_, rfl, ?_⟩
  · simp [readByte, MemoryBuffer.readRawBytes, hf]
  · simp [MemoryBuffer.advance, hf]

theorem byteSource_feeds (data : List UInt8) :
    byteSource.Feeds (fun r bs => ∃ pos, At data r pos ∧ data.drop pos = bs) (At data · data.length) where
  next := by
    rintro r b bs ⟨pos, h, hd⟩
    obtain ⟨r', hr, h'⟩ := readByte_cons h hd
    exact ⟨r', hr, pos + 1, h', Lists.drop_succ_of_drop hd⟩
  stop := by
    rintro r ⟨pos, h, hd⟩
    obtain ⟨r', hr, h'⟩ := readByte_nil h hd
    have : pos = data.length := Nat.le_antisymm h.le (List.drop_eq_nil_iff.mp hd)
    exact ⟨r', hr, this ▸ h'⟩

theorem scan_delimiter {d : UInt8} (h : At data r pos) (hd : d ∈ data.drop pos) :
    ∃ r', byteSource.scan d r [] = (.ok ((data.drop pos).takeWhile (· ≠ d)), true, r') ∧
      At data r' (pos + ((data.drop pos).takeWhile (· ≠ d)).length + 1) := by
  obtain ⟨r', hr, pos', h', hdrop⟩ := (byteSource_feeds data).scan_found [] ⟨pos, h, rfl⟩ hd
  refine ⟨r', hr, h'.data_eq, ?_⟩
  -- The position is determined by how many bytes are left.
  have hlen := congrArg List.length hdrop
  have hlt := Lists.length_takeWhile_ne_lt hd
  have := h.le
  have := h'.le
  rw [List.length_drop] at hlt
  simp only [List.length_drop] at hlen
  rw [h'.pos_eq]
  omega

theorem seek_of_le {p : Nat} (h : At data r pos) (hp : p ≤ data.length) :
    ∃ r', r.seek p = (.ok (), r') ∧ At data r' p := by
  obtain ⟨rfl, rfl⟩ := h
  exact ⟨⟨{ r.source with pos := p, pos_le := hp }⟩, by rw [seek, r.source.seek_of_le hp], rfl, rfl⟩

theorem seek_of_lt {p : Nat} (h : At data r pos) (hp : data.length < p) :
    r.seek p = (.error .invalidPositionError, r) := by
  obtain ⟨rfl, rfl⟩ := h
  rw [seek, r.source.seek_of_lt hp]

theorem readBytes_inside {n : Nat} (h : At data r pos) (hn : pos + n ≤ data.length) :
    ∃ r', r.readBytes n = (.ok ((data.drop pos).take n), r') ∧ At data r' (pos + n) := by
  obtain ⟨rfl, rfl⟩ := h
  by_cases h0 : n = 0
  · subst h0
    exact ⟨r, rfl, rfl, rfl⟩
  · have hf : r.source.fetch n = n := by rw [MemoryBuffer.fetch]; omega
    have hres := r.source.resize_copyTo (List.replicate n 0)
    simp only [List.length_replicate, hf] at hres
    refine ⟨⟨r.source.advance n⟩, ?_, rfl, by simp [MemoryBuffer.advance, hf]⟩
    simp [readBytes, h0, MemoryBuffer.readRawBytes, hf, hres]

theorem peekBytes_inside {n : Nat} (h : At data r pos) (hn : pos + n ≤ data.length) :
    r.peekBytes n = (.ok ((data.drop pos).take n), r) := by
  obtain ⟨rfl, rfl⟩ := h
  by_cases h0 : n = 0
  · subst h0
    rfl
  · have hf : r.source.fetch n = n := by rw [MemoryBuffer.fetch]; omega
    have hres := r.source.resize_copyTo (List.replicate n 0)
    simp only [List.length_replicate, hf] at hres
    simp [peekBytes, h0, MemoryBuffer.peekRawBytes, hf, hres]

theorem peekByte_inside {b : UInt8} (h : At data r pos) (hd : data.drop pos = b :: bs) :
    r.peekByte = (.ok b, r) := by
  obtain ⟨rfl, rfl⟩ := h
  have hlt := Lists.lt_of_drop hd
  have hf : r.source.fetch 1 = 1 := by rw [MemoryBuffer.fetch]; omega
  simp [peekByte, MemoryBuffer.peekRawBytes, hf, MemoryBuffer.copyTo, hd]

theorem readUntil_inside {d : UInt8} (consume : Bool) (h : At data r pos) (hd : d ∈ data.drop pos) :
    ∃ r', r.readUntil d consume = (.ok ((data.drop pos).takeWhile (· ≠ d)), r') ∧
      At data r' (pos + ((data.drop pos).takeWhile (· ≠ d)).length + if consume then 1 else 0) := by
  obtain ⟨r₁, hr, h₁⟩ := scan_delimiter h hd
  cases consume with
  | true => exact ⟨r₁, by simp [readUntil, hr], h₁⟩
  | false =>
      obtain ⟨r₂, hs, h₂⟩ := seek_of_le h₁ (Nat.le_of_succ_le h₁.le)
      refine ⟨r₂, ?_, h₂⟩
      simp only [readUntil, hr, position, MemoryBuffer.position, h₁.pos_eq, Nat.add_sub_cancel, hs]
      rfl

theorem drop_eq_getD (h : pos < data.length) : data.drop pos = data.getD pos 0 :: data.drop (pos + 1) := by
  rw [List.drop_eq_getElem_cons h, List.getD_eq_getElem?_getD, List.getElem?_eq_getElem h]
  rfl

/-- As long as no call reads at or past the end, a `StreamReader` is the cursor. -/
theorem apply_inside {op : Op} (h : At data r pos) (hin : Cursor.Inside data pos op) :
    (r.apply op).1 = (Cursor.apply data pos op).1 ∧ At data (r.apply op).2 (Cursor.apply data pos op).2 := by
  cases op with
  | readByte =>
      obtain ⟨r', hr, h'⟩ := readByte_cons h (drop_eq_getD hin)
      simp only [apply, hr]
      exact ⟨rfl, h'⟩
  | readBytes n =>
      obtain ⟨r', hr, h'⟩ := readBytes_inside h hin
      simp only [apply, hr]
      exact ⟨rfl, h'⟩
  | readUntil d consume =>
      obtain ⟨r', hr, h'⟩ := readUntil_inside consume h hin
      simp only [apply, hr]
      exact ⟨rfl, h'⟩
  | readString =>
      obtain ⟨r', hr, h'⟩ := scan_delimiter h hin
      simp only [apply, readString, hr]
      exact ⟨rfl, h'⟩
  | peekByte =>
      simp only [apply, peekByte_inside h (drop_eq_getD hin)]
      exact ⟨rfl, h⟩
  | peekBytes n =>
      simp only [apply, peekBytes_inside h hin]
      exact ⟨rfl, h⟩
  | seek p =>
      by_cases hp : p ≤ data.length
      · obtain ⟨r', hr, h'⟩ := seek_of_le h hp
        simp only [apply, hr, Cursor.apply, hp, if_true]
        exact ⟨rfl, h'⟩
      · simp only [apply, seek_of_lt h (Nat.lt_of_not_le hp), Cursor.apply, hp, if_false]
        exact ⟨rfl, h⟩
  | skip n =>
      have hskip : r.skip n = r.seek (pos + n) := by
        rw [skip, MemoryBuffer.skip, h.pos_eq, Nat.mod_eq_of_lt hin]
        rfl
      by_cases hp : pos + n ≤ data.length
      · obtain ⟨r', hr, h'⟩ := seek_of_le h hp
        simp only [apply, hskip, hr, Cursor.apply, hp, if_true]
        exact ⟨rfl, h'⟩
      · simp only [apply, hskip, seek_of_lt h (Nat.lt_of_not_le hp), Cursor.apply, hp, if_false]
        exact ⟨rfl, h⟩
  | position =>
      obtain ⟨rfl, rfl⟩ := h
      exact ⟨rfl, rfl, rfl⟩
  | size =>
      obtain ⟨rfl, rfl⟩ := h
      exact ⟨rfl, rfl, rfl⟩
  | remaining =>
      obtain ⟨rfl, rfl⟩ := h
      exact ⟨rfl, rfl, rfl⟩
  | readAll => cases hin

end StreamReader

end Dwhbll.Collections.Streams
