import Dwhbll.Streams.Lemmas.Stream

/-!
# The cache window of a `CachedReader`

As long as the window lies inside the data, what the reader is going to deliver is the rest of the
window and then the data behind it, whatever bytes the window holds.
-/

namespace Dwhbll.Collections.Streams.CachedReader

variable {data : List UInt8} {c : Nat} {r r' : CachedReader}

structure Window (data : List UInt8) (c : Nat) (r : CachedReader) : Prop where
  data_eq : r.source.data = data
  chunk_eq : r.chunkSize = c
  pos_le : r.pos ≤ data.length
  window_le : r.cacheStart + r.cache.length ≤ data.length
  start_lt : data ≠ [] → r.cacheStart < data.length

theorem Window.new (h : data.length < 2 ^ 63) : Window data c (new (.new data h) c) where
  data_eq := rfl
  chunk_eq := rfl
  pos_le := Nat.zero_le _
  window_le := Nat.zero_le _
  start_lt := List.length_pos_iff.mpr

theorem Window.size_lt (h : Window data c r) : data.length < 2 ^ 63 := h.data_eq ▸ r.source.size_lt

/-- The position lies in the window. -/
def InWindow (r : CachedReader) : Prop := r.cacheStart ≤ r.pos ∧ r.pos < r.cacheStart + r.cache.length

instance : Decidable r.InWindow := inferInstanceAs (Decidable (_ ∧ _))

/-- The bytes from the position on, as the reader sees them. -/
def unread (r : CachedReader) : List UInt8 :=
  if r.InWindow then r.cache.drop (r.pos - r.cacheStart) ++ r.source.data.drop (r.cacheStart + r.cache.length)
  else r.source.data.drop r.pos

theorem Window.unread_length (h : Window data c r) : r.unread.length = data.length - r.pos := by
  have := h.window_le
  rw [unread, h.data_eq]
  split
  · rename_i hw
    obtain ⟨_, _⟩ := hw
    rw [List.length_append, List.length_drop, List.length_drop]
    omega
  · rw [List.length_drop]

theorem Window.unread_eq_nil_iff (h : Window data c r) : r.unread = [] ↔ r.pos = data.length := by
  rw [← List.length_eq_zero_iff, h.unread_length]
  have := h.pos_le
  omega

/-- A property that neither filling the window nor moving on inside it takes away. -/
structure Stable (data : List UInt8) (c : Nat) (Q : CachedReader → Prop) : Prop where
  refill : ∀ {r source}, Window data c r → Q r → ¬ r.InWindow → r.pos < data.length →
    Q { r with source, cache := (data.drop r.pos).take c, cacheStart := r.pos }
  advance : ∀ {r n}, Window data c r → Q r → r.InWindow → r.pos + n ≤ r.cacheStart + r.cache.length →
    Q { r with pos := r.pos + n }

/-- `r` is what a reader at the end of the data is left as when `update_cache` fails: the cache has
the size of a chunk and starts where it did. -/
structure Ended (data : List UInt8) (c : Nat) (Q : CachedReader → Prop) (r : CachedReader) : Prop where
  data_eq : r.source.data = data
  chunk_eq : r.chunkSize = c
  pos_eq : r.pos = data.length
  length_eq : r.cache.length = c
  start : ∃ r₀, Window data c r₀ ∧ Q r₀ ∧ r₀.pos = data.length ∧ r₀.cacheStart = r.cacheStart

/-! ## `update_cache` -/

theorem Window.end_mod (h : Window data c r) :
    (r.cacheStart + r.cache.length) % 2 ^ 64 = r.cacheStart + r.cache.length := by
  have := h.window_le
  have := h.size_lt
  exact Nat.mod_eq_of_lt (by omega)

theorem updateCache_inWindow (h : Window data c r) (hw : r.InWindow) : r.updateCache = (.ok (), r) := by
  rw [InWindow] at hw
  rw [updateCache, h.end_mod, if_pos hw]

theorem resize_ne_nil {xs : List UInt8} {n : Nat} (h : 1 ≤ n) : resize xs n ≠ [] := by
  intro he
  have hlen := resize_length xs n
  rw [he, List.length_nil] at hlen
  omega

theorem updateCache_outside (hc : 1 ≤ c) (h : Window data c r) (hw : ¬ r.InWindow) :
    ∃ b : MemoryBuffer, b.data = data ∧ b.pos = r.pos ∧ r.updateCache =
      if b.fetch c = 0 then
        (.error .endOfData, { r with source := b.advance c, cache := b.copyTo (resize r.cache c) })
      else
        (.ok (), { r with source := b.advance c, cache := (data.drop r.pos).take c, cacheStart := r.pos }) := by
  have hmod := h.end_mod
  obtain ⟨rfl, rfl, hle, -, -⟩ := h
  refine ⟨{ r.source with pos := r.pos, pos_le := hle }, rfl, rfl, ?_⟩
  have hres := MemoryBuffer.resize_copyTo { r.source with pos := r.pos, pos_le := hle }
    (resize r.cache r.chunkSize)
  simp only [resize_length] at hres
  rw [InWindow] at hw
  rw [updateCache, hmod, if_neg hw, r.source.seek_of_le hle]
  simp only [MemoryBuffer.readRawBytes, resize_ne_nil hc, if_false, resize_length, hres]

theorem updateCache_refill (hc : 1 ≤ c) (h : Window data c r) (hw : ¬ r.InWindow) (hp : r.pos < data.length) :
    ∃ source : MemoryBuffer, source.data = data ∧ r.updateCache = (.ok (),
      { r with source, cache := (data.drop r.pos).take c, cacheStart := r.pos }) := by
  obtain ⟨b, hb, hpos, hu⟩ := updateCache_outside hc h hw
  have hf : b.fetch c ≠ 0 := by rw [MemoryBuffer.fetch, hb, hpos]; omega
  rw [if_neg hf] at hu
  exact ⟨b.advance c, hb, hu⟩

theorem updateCache_end {Q : CachedReader → Prop} (hc : 1 ≤ c) (h : Window data c r) (hq : Q r)
    (hp : r.pos = data.length) : ∃ r', r.updateCache = (.error .endOfData, r') ∧ Ended data c Q r' := by
  have hw : ¬ r.InWindow := by
    have := h.window_le
    rw [InWindow]
    omega
  obtain ⟨b, hb, hpos, hu⟩ := updateCache_outside hc h hw
  have hf : b.fetch c = 0 := by rw [MemoryBuffer.fetch, hb, hpos]; omega
  rw [if_pos hf] at hu
  refine ⟨_, hu, hb, h.chunk_eq, hp, ?_, r, h, hq, hp, rfl⟩
  exact (b.copyTo_length _).trans (resize_length ..)

/-- Before the end of the data, `update_cache` brings the position into the window. -/
theorem updateCache_spec {Q : CachedReader → Prop} (hc : 1 ≤ c) (hQ : Stable data c Q) (h : Window data c r)
    (hq : Q r) (hp : r.pos < data.length) :
    ∃ r', r.updateCache = (.ok (), r') ∧ Window data c r' ∧ Q r' ∧ r'.InWindow ∧ r'.pos = r.pos ∧
      r'.unread = r.unread := by
  by_cases hw : r.InWindow
  · exact ⟨r, updateCache_inWindow h hw, h, hq, hw, rfl, rfl⟩
  · obtain ⟨source, hs, hu⟩ := updateCache_refill hc h hw hp
    have hlen : ((data.drop r.pos).take c).length = min c (data.length - r.pos) := by
      rw [List.length_take, List.length_drop]
    refine ⟨_, hu, ⟨hs, h.chunk_eq, h.pos_le, ?_, fun _ => hp⟩, hQ.refill h hq hw hp, ?_, rfl, ?_⟩
    · simp only [hlen]; omega
    · simp only [InWindow, hlen]; omega
    · have hin : InWindow { r with source, cache := (data.drop r.pos).take c, cacheStart := r.pos } := by
        simp only [InWindow, hlen]; omega
      rw [unread, unread, if_pos hin, if_neg hw, h.data_eq]
      simp only [hs, Nat.sub_self, List.drop_zero]
      rw [← List.drop_drop]
      exact List.prefix_iff_eq_append.mp (List.take_prefix ..)

/-! ## Reading -/

theorem Window.advance {n : Nat} (h : Window data c r) (hw : r.InWindow)
    (hn : r.pos + n ≤ r.cacheStart + r.cache.length) :
    Window data c { r with pos := r.pos + n } ∧ unread { r with pos := r.pos + n } = r.unread.drop n := by
  have hle := h.window_le
  refine ⟨⟨h.data_eq, h.chunk_eq, Nat.le_trans hn hle, hle, h.start_lt⟩, ?_⟩
  rw [unread, unread, if_pos hw]
  obtain ⟨h1, h2⟩ := hw
  by_cases hlt : r.pos + n < r.cacheStart + r.cache.length
  · have hin : InWindow { r with pos := r.pos + n } := ⟨by simp only; omega, hlt⟩
    rw [if_pos hin, List.drop_append_of_le_length (by rw [List.length_drop]; omega), List.drop_drop,
      ← Nat.sub_add_comm h1]
  · -- The position is now the end of the window.
    have hout : ¬ InWindow { r with pos := r.pos + n } := fun hw => hlt hw.2
    have hend : r.cacheStart + r.cache.length = r.pos + n := by omega
    have hk : n = (r.cache.drop (r.pos - r.cacheStart)).length := by rw [List.length_drop]; omega
    rw [if_neg hout, hend]
    exact (List.drop_left' hk.symm).symm

theorem InWindow.cache_eq (hw : r.InWindow) {n : Nat} (hn : r.pos + n ≤ r.cacheStart + r.cache.length) :
    (r.cache.drop (r.pos - r.cacheStart)).take n = r.unread.take n := by
  rw [unread, if_pos hw, List.take_append_of_le_length]
  rw [List.length_drop]
  obtain ⟨_, _⟩ := hw
  omega

section Reads

variable {Q : CachedReader → Prop} {bs buf : List UInt8} {n : Nat}

theorem readByte_cons {b : UInt8} (hc : 1 ≤ c) (hQ : Stable data c Q) (h : Window data c r) (hq : Q r)
    (hu : r.unread = b :: bs) :
    ∃ r', r.readByte = (.ok b, r') ∧ Window data c r' ∧ Q r' ∧ r'.unread = bs := by
  have hp : r.pos < data.length := by
    refine Nat.lt_of_le_of_ne h.pos_le fun he => ?_
    rw [h.unread_eq_nil_iff.mpr he] at hu
    cases hu
  obtain ⟨r₁, hup, h₁, hq₁, hw, -, hu₁⟩ := updateCache_spec hc hQ h hq hp
  have hend : r₁.pos + 1 ≤ r₁.cacheStart + r₁.cache.length := hw.2
  obtain ⟨h₂, hu₂⟩ := h₁.advance hw hend
  have hb : r₁.cache[r₁.pos - r₁.cacheStart]? = some b := by
    have htake := hw.cache_eq hend
    rw [hu₁, hu] at htake
    have h0 := congrArg (·[0]?) htake
    simpa [List.getElem?_take, List.getElem?_drop] using h0
  have hmod : (r₁.pos + 1) % 2 ^ 64 = r₁.pos + 1 := by
    have := h₁.window_le
    have := h₁.size_lt
    exact Nat.mod_eq_of_lt (by omega)
  refine ⟨{ r₁ with pos := r₁.pos + 1 }, ?_, h₂, hQ.advance h₁ hq₁ hw hend, ?_⟩
  · simp only [readByte, hup, hb, hmod]
  · rw [hu₂, hu₁, hu]; rfl

theorem readByte_nil (hc : 1 ≤ c) (h : Window data c r) (hq : Q r) (hu : r.unread = []) :
    ∃ r', r.readByte = (.error .endOfData, r') ∧ Ended data c Q r' := by
  obtain ⟨r', hup, he⟩ := updateCache_end hc h hq (h.unread_eq_nil_iff.mp hu)
  exact ⟨r', by simp only [readByte, hup], he⟩

theorem byteSource_feeds (hc : 1 ≤ c) (hQ : Stable data c Q) :
    byteSource.Feeds (fun r bs => Window data c r ∧ Q r ∧ r.unread = bs) (Ended data c Q) where
  next := by
    rintro r b bs ⟨h, hq, hu⟩
    exact readByte_cons hc hQ h hq hu
  stop := by
    rintro r ⟨h, hq, hu⟩
    exact readByte_nil hc h hq hu

/-- What an iteration of the loop of `read_bytes` copies before the end of the data. -/
theorem readBytesLoop_step (buf : List UInt8) (hc : 1 ≤ c) (hQ : Stable data c Q) (h : Window data c r)
    (hq : Q r) (hn : 1 ≤ n) (hu : r.unread ≠ []) :
    ∃ k r', 1 ≤ k ∧ k ≤ n ∧ k ≤ r.unread.length ∧ Window data c r' ∧ Q r' ∧ r'.unread = r.unread.drop k ∧
      r.readBytesLoop n buf = r'.readBytesLoop (n - k) (buf ++ r.unread.take k) := by
  have hp : r.pos < data.length := Nat.lt_of_le_of_ne h.pos_le (mt h.unread_eq_nil_iff.mpr hu)
  obtain ⟨r₁, hup, h₁, hq₁, hw, -, hu₁⟩ := updateCache_spec hc hQ h hq hp
  obtain ⟨hw1, hw2⟩ := id hw
  let k := min (r₁.cache.length - (r₁.pos - r₁.cacheStart)) n
  have hk : 1 ≤ k := by simp only [k]; omega
  have hend : r₁.pos + k ≤ r₁.cacheStart + r₁.cache.length := by simp only [k]; omega
  obtain ⟨h₂, hu₂⟩ := h₁.advance hw hend
  have hle := h₂.pos_le
  have hmod : (r₁.pos + k) % 2 ^ 64 = r₁.pos + k := by
    have := h₁.size_lt
    exact Nat.mod_eq_of_lt (by simp only at hle; omega)
  refine ⟨k, { r₁ with pos := r₁.pos + k }, hk, Nat.min_le_right .., ?_, h₂, hQ.advance h₁ hq₁ hw hend, ?_, ?_⟩
  · rw [← hu₁, h₁.unread_length]
    simp only at hle
    omega
  · rw [hu₂, hu₁]
  · rw [readBytesLoop, if_neg (by omega), hup, ← hu₁, ← hw.cache_eq hend, ← hmod]
    simp only
    rw [if_neg (by omega)]

theorem readBytesLoop_enough (buf : List UInt8) (hc : 1 ≤ c) (hQ : Stable data c Q) (h : Window data c r)
    (hq : Q r) (hn : n ≤ r.unread.length) :
    ∃ r', r.readBytesLoop n buf = (.ok (buf ++ r.unread.take n), r') ∧ Window data c r' ∧ Q r' ∧
      r'.unread = r.unread.drop n := by
  induction n using Nat.strongRecOn generalizing r buf with
  | ind n ih =>
      by_cases h0 : n = 0
      · subst h0
        exact ⟨r, by simp [readBytesLoop], h, hq, rfl⟩
      · have hu : r.unread ≠ [] := by
          intro he
          rw [he, List.length_nil] at hn
          omega
        obtain ⟨k, r₁, hk, hkn, hku, h₁, hq₁, hu₁, heq⟩ :=
          readBytesLoop_step buf hc hQ h hq (Nat.pos_of_ne_zero h0) hu
        obtain ⟨r₂, hr, h₂, hq₂, hu₂⟩ := ih (n - k) (by omega) (buf ++ r.unread.take k) h₁ hq₁
          (by rw [hu₁, List.length_drop]; omega)
        refine ⟨r₂, ?_, h₂, hq₂, ?_⟩
        · have hsplit : r.unread.take n = r.unread.take k ++ (r.unread.drop k).take (n - k) := by
            rw [← List.take_add, Nat.add_sub_cancel' hkn]
          rw [heq, hr, hu₁, hsplit, List.append_assoc]
        · rw [hu₂, hu₁, List.drop_drop, Nat.add_sub_cancel' hkn]

theorem readBytesLoop_short (buf : List UInt8) (hc : 1 ≤ c) (hQ : Stable data c Q) (h : Window data c r)
    (hq : Q r) (hn : r.unread.length < n) :
    ∃ r', r.readBytesLoop n buf =
        (if buf ++ r.unread = [] then .error .endOfData else .ok (buf ++ r.unread), r') ∧
      Ended data c Q r' := by
  induction n using Nat.strongRecOn generalizing r buf with
  | ind n ih =>
      by_cases hu : r.unread = []
      · obtain ⟨r₁, hup, he⟩ := updateCache_end hc h hq (h.unread_eq_nil_iff.mp hu)
        refine ⟨r₁, ?_, he⟩
        rw [readBytesLoop, if_neg (by omega), hup, hu, List.append_nil]
        by_cases hb : buf = []
        · simp [hb]
        · simp [hb]
      · obtain ⟨k, r₁, hk, hkn, hku, h₁, hq₁, hu₁, heq⟩ :=
          readBytesLoop_step (n := n) buf hc hQ h hq (by omega) hu
        obtain ⟨r₂, hr, he⟩ := ih (n - k) (by omega) (buf ++ r.unread.take k) h₁ hq₁
          (by rw [hu₁, List.length_drop]; omega)
        refine ⟨r₂, ?_, he⟩
        rw [heq, hr, hu₁, List.append_assoc, List.take_append_drop]

theorem readBytes_enough (hc : 1 ≤ c) (hQ : Stable data c Q) (h : Window data c r) (hq : Q r)
    (hn : n ≤ r.unread.length) :
    ∃ r', r.readBytes n = (.ok (r.unread.take n), r') ∧ Window data c r' ∧ Q r' ∧
      r'.unread = r.unread.drop n := by
  by_cases h0 : n = 0
  · subst h0
    exact ⟨r, rfl, h, hq, rfl⟩
  · rw [readBytes, if_neg h0]
    exact readBytesLoop_enough [] hc hQ h hq hn

theorem readBytes_short (hc : 1 ≤ c) (hQ : Stable data c Q) (h : Window data c r) (hq : Q r)
    (hn : r.unread.length < n) :
    ∃ r', r.readBytes n = (if r.unread = [] then .error .endOfData else .ok r.unread, r') ∧
      Ended data c Q r' := by
  rw [readBytes, if_neg (by omega)]
  exact readBytesLoop_short [] hc hQ h hq hn

end Reads

/-! ## Moving -/

theorem Window.withPos {p : Nat} (h : Window data c r) (hp : p ≤ data.length) :
    Window data c { r with pos := p } := ⟨h.data_eq, h.chunk_eq, hp, h.window_le, h.start_lt⟩

theorem seek_of_le {p : Nat} (h : Window data c r) (hp : p ≤ data.length) :
    r.seek p = (.ok (), { r with pos := p }) := by
  simp only [seek, size, MemoryBuffer.size, h.data_eq, Nat.not_lt.mpr hp, if_false]

theorem seek_of_lt {p : Nat} (h : Window data c r) (hp : data.length < p) :
    r.seek p = (.error .invalidPositionError, r) := by
  simp only [seek, size, MemoryBuffer.size, h.data_eq, hp, if_true]

/-- `skip` is `seek` to the sum as a `size_t`. -/
theorem skip_eq (r : CachedReader) (n : Nat) : r.skip n = r.seek ((r.pos + n) % 2 ^ 64) := rfl

theorem Window.remaining_eq (h : Window data c r) : r.remaining = .ok (data.length - r.pos) := by
  have := h.size_lt
  have := h.pos_le
  simp only [remaining, size, MemoryBuffer.size, h.data_eq]
  congr 1
  omega

end Dwhbll.Collections.Streams.CachedReader
