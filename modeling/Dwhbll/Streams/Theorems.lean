import Dwhbll.Streams.Lemmas.AtEnd
import Dwhbll.Streams.Lemmas.Coherent

/-!
# Theorems about the readers
-/

namespace Dwhbll.Collections.Streams

open Transition

/-! ## Agreement of the two readers -/

theorem stream_cursor (data : List UInt8) :
    Simulation StreamReader.apply (Cursor.apply data) (fun r => Cursor.Inside data r.source.pos)
      (StreamReader.At data) where
  answer := by
    intro r pos op h hin
    rw [h.pos_eq] at hin
    exact (StreamReader.apply_inside h hin).1
  related := by
    intro r pos op h hin
    rw [h.pos_eq] at hin
    exact (StreamReader.apply_inside h hin).2

theorem stream_cached {data : List UInt8} {c : Nat} (hc : 1 ≤ c) :
    Simulation StreamReader.apply CachedReader.apply (fun r => Cursor.Inside data r.source.pos)
      (fun r k => StreamReader.At data r k.pos ∧ k.Window data c ∧ k.Coherent data) where
  answer := by
    rintro r k op ⟨h, hw, hq⟩ hin
    rw [h.pos_eq] at hin
    exact (StreamReader.apply_inside h hin).1.trans (CachedReader.apply_inside hc hw hq hin).1.symm
  related := by
    rintro r k op ⟨h, hw, hq⟩ hin
    rw [h.pos_eq] at hin
    obtain ⟨-, hw', hq', hpos⟩ := CachedReader.apply_inside hc hw hq hin
    exact ⟨hpos ▸ (StreamReader.apply_inside h hin).2, hw', hq'⟩

/-- Over the same data and as long as no call reads at or past the end, a `CachedReader` and a
`StreamReader` give the same results and have the same positions, those of the cursor. -/
theorem cachedReader_agrees (data : List UInt8) (hsize : data.length < 2 ^ 63) (c : Nat) (hc : 1 ≤ c)
    (ops : List Op)
    (hin : Along StreamReader.apply (fun r => Cursor.Inside data r.source.pos) (.new (.new data hsize)) ops) :
    trace CachedReader.apply (·.pos) (.new (.new data hsize) c) ops =
        trace StreamReader.apply (·.source.pos) (.new (.new data hsize)) ops ∧
      trace StreamReader.apply (·.source.pos) (.new (.new data hsize)) ops =
        trace (Cursor.apply data) id 0 ops := by
  constructor
  · refine ((stream_cached hc).trace_eq (fun r k h => h.1.pos_eq) ⟨⟨rfl, rfl⟩, ?_, ?_⟩ hin).symm
    · exact CachedReader.Window.new hsize
    · exact CachedReader.coherent_new hsize
  · exact (stream_cursor data).trace_eq (fun r pos h => h.pos_eq) ⟨rfl, rfl⟩ hin

/-- Chunks of two bytes: a read over two of them, a step back into the first, a peek and a skip. -/
theorem cachedReader_agrees_five :
    trace CachedReader.apply (·.pos) (.new (.new [1, 2, 3, 4, 5] (by decide)) 2)
        [.readBytes 3, .seek 1, .peekBytes 4, .skip 3, .readByte] =
      [(.ok (.bytes [1, 2, 3]), 3), (.ok .nothing, 1), (.ok (.bytes [2, 3, 4, 5]), 1), (.ok .nothing, 4),
        (.ok (.byte 5), 5)] := by
  have h := cachedReader_agrees [1, 2, 3, 4, 5] (by decide) 2 (by decide)
    [.readBytes 3, .seek 1, .peekBytes 4, .skip 3, .readByte] (by decide)
  rw [h.1, h.2]
  rfl

/-! ## The end of the data -/

namespace CachedReader

variable {data : List UInt8} {c : Nat} {r : CachedReader}

/-- Any sequence of operations on a new reader. -/
def system (data : List UInt8) (hsize : data.length < 2 ^ 63) (c : Nat) : System CachedReader Op :=
  .ofFun (new (.new data hsize) c) fun r op => (r.apply op).2

theorem window_of_safe {hsize : data.length < 2 ^ 63} (hc : 1 ≤ c)
    (h : ((system data hsize c).restrict (Safe data c)).Reachable r) : Window data c r := by
  refine System.Invariant.reachable ⟨?_, ?_⟩ h
  · rintro r rfl
    exact Window.new hsize
  · rintro r op r' hw ⟨hs, rfl⟩
    exact apply_window hc hw hs

/-- With chunks of one byte, every operation is safe. -/
theorem window_of_one {hsize : data.length < 2 ^ 63} (hne : data ≠ [])
    (h : (system data hsize 1).Reachable r) : Window data 1 r := by
  refine System.Invariant.reachable ⟨?_, ?_⟩ h
  · rintro r rfl
    exact Window.new hsize
  · rintro r op r' hw rfl
    refine apply_window (Nat.le_refl 1) hw fun _ => ?_
    rw [EndSafe]
    split
    · exact hw.start_lt hne
    · exact Nat.one_dvd _

/-- A cache that was left behind at the end of the data and reaches past it is read. -/
theorem Ended.not_stopsAtEnd {Q : CachedReader → Prop} (h : Ended data c Q r) (hmax : c < 2 ^ 63)
    (hlt : data.length < r.cacheStart + c) : ¬ StopsAtEnd data r := by
  rintro ⟨-, hs⟩
  obtain ⟨hres, -⟩ := hs h.pos_eq .readByte trivial
  obtain ⟨r₀, h₀, -, -, hstart⟩ := h.start
  have hle : r.cacheStart ≤ data.length := by
    have := h₀.window_le
    omega
  have hsize := h₀.size_lt
  have hmod : (r.cacheStart + r.cache.length) % 2 ^ 64 = r.cacheStart + c := by
    rw [h.length_eq]
    exact Nat.mod_eq_of_lt (by omega)
  have hup : r.updateCache = (.ok (), r) := by
    rw [updateCache, hmod, h.pos_eq, if_pos ⟨hle, hlt⟩]
  have hget : r.cache[r.pos - r.cacheStart]? ≠ none := by
    rw [Ne, List.getElem?_eq_none_iff, h.length_eq, h.pos_eq]
    omega
  obtain ⟨b, hb⟩ := Option.ne_none_iff_exists'.mp hget
  simp only [apply, readByte, hup, hb] at hres
  cases hres

/-- The last byte is in a window of its own if the reader has moved there right away. -/
def Last (data : List UInt8) (r : CachedReader) : Prop :=
  data.length ≤ r.pos + 1 ∧ (r.InWindow ∨ r.pos = data.length → data.length ≤ r.cacheStart + 1)

theorem last_stable : Stable data c (Last data) where
  refill := by
    intro r source _ hq _ _
    exact ⟨hq.1, fun _ => hq.1⟩
  advance := by
    intro r n _ hq hw _
    have := hq.2 (.inl hw)
    exact ⟨by have := hq.1; simp only; omega, fun _ => this⟩

theorem exists_ended (hsize : data.length < 2 ^ 63) (hc : 1 ≤ c) :
    ∃ r, (system data hsize c).Reachable r ∧ Ended data c (Last data) r ∧
      data.length ≤ r.cacheStart + 1 := by
  have h₀ : Window data c (new (.new data hsize) c) := Window.new hsize
  have hp : data.length - 1 ≤ data.length := Nat.sub_le ..
  have h₁ := h₀.withPos hp
  have hq : Last data { new (.new data hsize) c with pos := data.length - 1 } := by
    refine ⟨by simp only; omega, ?_⟩
    rintro (⟨-, hlt⟩ | heq)
    · cases hlt
    · simp only at heq
      omega
  obtain ⟨r, hr, he⟩ := readBytes_short hc last_stable h₁ hq (n := 2)
    (by rw [h₁.unread_length]; simp only; omega)
  refine ⟨r, ?_, he, ?_⟩
  · have := (System.Reachable.init rfl : (system data hsize c).Reachable _).foldl
      [.seek (data.length - 1), .readBytes 2]
    simp only [List.foldl, apply, seek_of_le h₀ hp, ofVoid, ofBytes, hr] at this
    exact this
  · obtain ⟨r₀, -, hl, hpos, hs⟩ := he.start
    rw [← hs]
    exact hl.2 (.inr hpos)

/-- Over all operations, the reader stops at the end of the data if and only if chunks are of one byte
and there are data. In every run it does so as long as no operation that asks for a byte behind the last
one leaves a cache that reaches past the end. -/
theorem reachable_stopsAtEnd_iff (data : List UInt8) (hsize : data.length < 2 ^ 63) (c : Nat) (hc : 1 ≤ c)
    (hmax : c < 2 ^ 63) :
    ((∀ r, (system data hsize c).Reachable r → StopsAtEnd data r) ↔ c = 1 ∧ data ≠ []) ∧
      ∀ r, ((system data hsize c).restrict (Safe data c)).Reachable r → StopsAtEnd data r := by
  refine ⟨⟨?_, ?_⟩, fun r hr => (window_of_safe hc hr).stopsAtEnd hc⟩
  · intro hall
    obtain ⟨r, hr, he, hstart⟩ := exists_ended hsize hc
    have hle : r.cacheStart + c ≤ data.length :=
      Nat.le_of_not_lt fun hlt => he.not_stopsAtEnd hmax hlt (hall r hr)
    refine ⟨by omega, ?_⟩
    rintro rfl
    simp only [List.length_nil] at hle
    omega
  · rintro ⟨rfl, hne⟩ r hr
    exact (window_of_one hne hr).stopsAtEnd hc

/-- One byte, in a chunk of one: the second and the third read both fail. -/
theorem reachable_stopsAtEnd_iff_single :
    StopsAtEnd [7] (((new (.new [7] (by decide)) 1).apply .readByte).2.apply .readByte).2 :=
  ((reachable_stopsAtEnd_iff [7] (by decide) 1 (by decide) (by decide)).1.mpr ⟨rfl, by decide⟩) _
    (.step (.step (.init rfl) rfl) rfl)

/-- One byte, in a chunk of four. The second read fails at the end of the data and leaves a cache of four
bytes; the third returns one of them and moves behind the end. -/
theorem read_behind_end :
    ∃ r, (system [7] (by decide) 4).Reachable r ∧ r.pos = 1 ∧ r.readByte.1 = .ok 0 ∧
      r.readByte.2.pos = 2 ∧ ¬ StopsAtEnd [7] r := by
  have hr := (System.Reachable.init rfl : (system [7] (by decide) 4).Reachable _).foldl [.readByte, .readByte]
  refine ⟨_, hr, rfl, rfl, rfl, ?_⟩
  rintro ⟨-, hs⟩
  cases (hs rfl .readByte trivial).1

end CachedReader

end Dwhbll.Collections.Streams
