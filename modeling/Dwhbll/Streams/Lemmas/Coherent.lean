import Dwhbll.Streams.Lemmas.Cached

/-!
# A `CachedReader` that has not met the end of the data is a cursor
-/

namespace Dwhbll.Collections.Streams.CachedReader

variable {data : List UInt8} {c : Nat} {r : CachedReader}

/-- The window holds the bytes of the data that it stands for. -/
def Coherent (data : List UInt8) (r : CachedReader) : Prop := r.cache <+: data.drop r.cacheStart

theorem coherent_new (h : data.length < 2 ^ 63) : Coherent data (new (.new data h) c) :=
  List.nil_prefix

theorem coherent_stable : Stable data c (Coherent data) where
  refill := by
    intro r source _ _ _ _
    exact List.take_prefix ..
  advance := by
    intro r n _ hq _ _
    exact hq

theorem Coherent.unread_eq (hq : Coherent data r) (h : Window data c r) : r.unread = data.drop r.pos := by
  rw [unread, h.data_eq]
  split
  · rename_i hw
    obtain ⟨h1, h2⟩ := hw
    have hk : r.pos = r.cacheStart + (r.pos - r.cacheStart) := by omega
    calc r.cache.drop (r.pos - r.cacheStart) ++ data.drop (r.cacheStart + r.cache.length)
        = (r.cache ++ data.drop (r.cacheStart + r.cache.length)).drop (r.pos - r.cacheStart) :=
          (List.drop_append_of_le_length (by omega)).symm
      _ = (data.drop r.cacheStart).drop (r.pos - r.cacheStart) := by
          rw [← List.drop_drop, List.prefix_iff_eq_append.mp hq]
      _ = data.drop r.pos := by rw [List.drop_drop, ← hk]
  · rfl

/-- The position is determined by how many bytes are left. -/
theorem Window.pos_eq {pos n : Nat} (h : Window data c r) (hu : r.unread = (data.drop pos).drop n)
    (hn : pos + n ≤ data.length) : r.pos = pos + n := by
  have hlen := h.unread_length
  have := h.pos_le
  rw [hu, List.length_drop, List.length_drop] at hlen
  omega

theorem scan_delimiter {d : UInt8} (hc : 1 ≤ c) (h : Window data c r) (hq : Coherent data r)
    (hd : d ∈ data.drop r.pos) :
    ∃ r', byteSource.scan d r [] = (.ok ((data.drop r.pos).takeWhile (· ≠ d)), true, r') ∧
      Window data c r' ∧ Coherent data r' ∧
      r'.pos = r.pos + ((data.drop r.pos).takeWhile (· ≠ d)).length + 1 := by
  obtain ⟨r', hr, h', hq', hu⟩ := (byteSource_feeds hc coherent_stable).scan_found []
    ⟨h, hq, hq.unread_eq h⟩ hd
  have hlt := Lists.length_takeWhile_ne_lt hd
  rw [List.length_drop] at hlt
  refine ⟨r', hr, h', hq', ?_⟩
  rw [h'.pos_eq hu (by omega), Nat.add_assoc]

theorem readBytes_inside {n : Nat} (hc : 1 ≤ c) (h : Window data c r) (hq : Coherent data r)
    (hn : r.pos + n ≤ data.length) :
    ∃ r', r.readBytes n = (.ok ((data.drop r.pos).take n), r') ∧ Window data c r' ∧ Coherent data r' ∧
      r'.pos = r.pos + n := by
  have hlen : n ≤ r.unread.length := by rw [h.unread_length]; omega
  obtain ⟨r', hr, h', hq', hu⟩ := readBytes_enough hc coherent_stable h hq hlen
  rw [hq.unread_eq h] at hr hu
  exact ⟨r', hr, h', hq', h'.pos_eq hu hn⟩

theorem readByte_inside (hc : 1 ≤ c) (h : Window data c r) (hq : Coherent data r)
    (hp : r.pos < data.length) :
    ∃ r', r.readByte = (.ok (data.getD r.pos 0), r') ∧ Window data c r' ∧ Coherent data r' ∧
      r'.pos = r.pos + 1 := by
  have hd := StreamReader.drop_eq_getD hp
  obtain ⟨r', hr, h', hq', hu⟩ := readByte_cons hc coherent_stable h hq ((hq.unread_eq h).trans hd)
  rw [← List.drop_drop] at hu
  exact ⟨r', hr, h', hq', h'.pos_eq hu hp⟩

/-- As long as no call reads at or past the end, a `CachedReader` is the cursor. -/
theorem apply_inside {op : Op} (hc : 1 ≤ c) (h : Window data c r) (hq : Coherent data r)
    (hin : Cursor.Inside data r.pos op) :
    (r.apply op).1 = (Cursor.apply data r.pos op).1 ∧ Window data c (r.apply op).2 ∧
      Coherent data (r.apply op).2 ∧ (r.apply op).2.pos = (Cursor.apply data r.pos op).2 := by
  have hseek : ∀ p, (ofVoid (r.seek p)).1 = (Cursor.apply data r.pos (.seek p)).1 ∧
      Window data c (ofVoid (r.seek p)).2 ∧ Coherent data (ofVoid (r.seek p)).2 ∧
      (ofVoid (r.seek p)).2.pos = (Cursor.apply data r.pos (.seek p)).2 := by
    intro p
    by_cases hp : p ≤ data.length
    · simp only [seek_of_le h hp, Cursor.apply, hp, if_true]
      exact ⟨rfl, h.withPos hp, hq, rfl⟩
    · simp only [seek_of_lt h (Nat.lt_of_not_le hp), Cursor.apply, hp, if_false]
      exact ⟨rfl, h, hq, rfl⟩
  cases op with
  | readByte =>
      obtain ⟨r', hr, h', hq', hpos⟩ := readByte_inside hc h hq hin
      simp only [apply, hr]
      exact ⟨rfl, h', hq', hpos⟩
  | readBytes n =>
      obtain ⟨r', hr, h', hq', hpos⟩ := readBytes_inside hc h hq hin
      simp only [apply, hr]
      exact ⟨rfl, h', hq', hpos⟩
  | readUntil d consume =>
      obtain ⟨r', hr, h', hq', hpos⟩ := scan_delimiter hc h hq hin
      simp only [apply, readUntil, hr]
      cases consume with
      | true => exact ⟨rfl, h', hq', hpos⟩
      | false =>
          refine ⟨rfl, h'.withPos (Nat.le_trans (Nat.sub_le ..) h'.pos_le), hq', ?_⟩
          exact congrArg (· - 1) hpos
  | readString =>
      obtain ⟨r', hr, h', hq', hpos⟩ := scan_delimiter hc h hq hin
      simp only [apply, readString, hr]
      exact ⟨rfl, h', hq', hpos⟩
  | peekByte =>
      obtain ⟨r', hr, h', hq', -⟩ := readByte_inside hc h hq hin
      simp only [apply, peekByte, hr]
      exact ⟨rfl, h'.withPos h.pos_le, hq', rfl⟩
  | peekBytes n =>
      obtain ⟨r', hr, h', hq', -⟩ := readBytes_inside hc h hq hin
      simp only [apply, peekBytes, hr]
      exact ⟨rfl, h'.withPos h.pos_le, hq', rfl⟩
  | seek p => exact hseek p
  | skip n =>
      have hs := hseek (r.pos + n)
      rw [apply, skip_eq, Nat.mod_eq_of_lt hin]
      exact hs
  | position => exact ⟨rfl, h, hq, rfl⟩
  | size =>
      refine ⟨?_, h, hq, rfl⟩
      simp only [apply, size, MemoryBuffer.size, h.data_eq]
      rfl
  | remaining =>
      refine ⟨?_, h, hq, rfl⟩
      rw [apply, h.remaining_eq]
      rfl
  | readAll => cases hin

end Dwhbll.Collections.Streams.CachedReader
