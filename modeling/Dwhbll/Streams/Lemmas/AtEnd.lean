import Dwhbll.Streams.Lemmas.Cached

/-!
# A `CachedReader` at the end of the data

`update_cache` at the end of the data leaves a cache of the size of a chunk at the old start. Only where
that cache ends inside the data does the window stay inside it.
-/

namespace Dwhbll.Collections.Streams

/-- The calls that have to fail at the end of the data. -/
def Op.Reads : Op → Prop
  | .readByte | .readUntil .. | .readString | .peekByte => True
  | .readBytes count => 1 ≤ count
  | _ => False

namespace CachedReader

variable {data : List UInt8} {c : Nat} {r : CachedReader}

/-- The position is inside the data, and at the end of it every read fails and stays there. -/
def StopsAtEnd (data : List UInt8) (r : CachedReader) : Prop :=
  r.pos ≤ data.length ∧ (r.pos = data.length → ∀ op : Op, op.Reads →
    (r.apply op).1 = .error .endOfData ∧ (r.apply op).2.pos = r.pos)

/-- Where the next refill takes place. -/
def windowEnd (r : CachedReader) : Nat := if r.InWindow then r.cacheStart + r.cache.length else r.pos

/-- The cache that is left when the reader has read all the data ends inside the data. -/
def EndSafe (data : List UInt8) (c : Nat) (r : CachedReader) : Prop :=
  if r.windowEnd = data.length then r.cacheStart + c ≤ data.length else c ∣ data.length - r.windowEnd

/-- The operation asks for a byte behind the last one. -/
def RunsOut (data : List UInt8) (r : CachedReader) : Op → Prop
  | .readByte | .peekByte => r.pos = data.length
  | .readBytes count | .peekBytes count => data.length < r.pos + count
  | .readUntil delimiter _ => delimiter ∉ r.unread
  | .readString => 0 ∉ r.unread
  | _ => False

def Safe (data : List UInt8) (c : Nat) (r : CachedReader) (op : Op) : Prop := r.RunsOut data op → r.EndSafe data c

/-! ## The window at the end -/

theorem true_stable : Stable data c fun _ => True where
  refill := by intros; trivial
  advance := by intros; trivial

theorem endSafe_stable (hc : 1 ≤ c) : Stable data c (EndSafe data c) where
  refill := by
    intro r source h hq hw hp
    have hlen : ((data.drop r.pos).take c).length = min c (data.length - r.pos) := by
      rw [List.length_take, List.length_drop]
    have hin : InWindow { r with source, cache := (data.drop r.pos).take c, cacheStart := r.pos } := by
      simp only [InWindow, hlen]; omega
    simp only [EndSafe, windowEnd, if_neg hw, if_neg (Nat.ne_of_lt hp)] at hq
    simp only [EndSafe, windowEnd, if_pos hin, hlen]
    split
    · have := Nat.le_of_dvd (by omega) hq
      omega
    · have hmin : data.length - (r.pos + min c (data.length - r.pos)) = data.length - r.pos - c := by omega
      rw [hmin]
      exact Nat.dvd_sub hq (Nat.dvd_refl c)
  advance := by
    intro r n h hq hw hn
    have hend : windowEnd { r with pos := r.pos + n } = r.windowEnd := by
      rw [windowEnd, windowEnd, if_pos hw]
      obtain ⟨_, _⟩ := hw
      split
      · rfl
      · rename_i hout
        simp only [InWindow] at hout ⊢
        omega
    simp only [EndSafe, hend]
    exact hq

/-- What the failure leaves still has its window inside the data. -/
theorem Ended.window (h : Ended data c (EndSafe data c) r) : Window data c r := by
  obtain ⟨r₀, h₀, hq, hp, hs⟩ := h.start
  have hw : ¬ r₀.InWindow := by
    have := h₀.window_le
    rw [InWindow]
    omega
  simp only [EndSafe, windowEnd, if_neg hw, if_pos hp] at hq
  refine ⟨h.data_eq, h.chunk_eq, Nat.le_of_eq h.pos_eq, ?_, ?_⟩
  · rw [h.length_eq, ← hs]; exact hq
  · rw [← hs]; exact h₀.start_lt

/-! ## Operations -/

theorem readByte_window (hc : 1 ≤ c) (h : Window data c r) (hs : r.pos = data.length → r.EndSafe data c) :
    Window data c r.readByte.2 := by
  cases hu : r.unread with
  | nil =>
      obtain ⟨r', hr, he⟩ := readByte_nil hc h (hs (h.unread_eq_nil_iff.mp hu)) hu
      rw [hr]
      exact he.window
  | cons b bs =>
      obtain ⟨r', hr, h', -⟩ := readByte_cons hc true_stable h trivial hu
      rw [hr]
      exact h'

theorem readBytes_window {n : Nat} (hc : 1 ≤ c) (h : Window data c r)
    (hs : data.length < r.pos + n → r.EndSafe data c) : Window data c (r.readBytes n).2 := by
  have hlen := h.unread_length
  have hle := h.pos_le
  by_cases hn : n ≤ r.unread.length
  · obtain ⟨r', hr, h', -⟩ := readBytes_enough hc true_stable h trivial hn
    rw [hr]
    exact h'
  · obtain ⟨r', hr, he⟩ := readBytes_short hc (endSafe_stable hc) h (hs (by omega)) (Nat.lt_of_not_le hn)
    rw [hr]
    exact he.window

theorem scan_window {d : UInt8} (hc : 1 ≤ c) (h : Window data c r) (hs : d ∉ r.unread → r.EndSafe data c) :
    Window data c (byteSource.scan d r []).2.2 := by
  by_cases hd : d ∈ r.unread
  · obtain ⟨r', hr, h', -⟩ :=
      (byteSource_feeds hc true_stable).scan_found [] ⟨h, trivial, rfl⟩ hd
    rw [hr]
    exact h'
  · obtain ⟨r', hr, he⟩ :=
      (byteSource_feeds hc (endSafe_stable hc)).scan_end [] ⟨h, hs hd, rfl⟩ hd
    rw [hr]
    exact he.window

theorem seek_window (p : Nat) (h : Window data c r) : Window data c (r.seek p).2 := by
  by_cases hp : p ≤ data.length
  · rw [seek_of_le h hp]
    exact h.withPos hp
  · rw [seek_of_lt h (Nat.lt_of_not_le hp)]
    exact h

/-- A safe operation keeps the window inside the data. -/
theorem apply_window {op : Op} (hc : 1 ≤ c) (h : Window data c r) (hs : r.Safe data c op) :
    Window data c (r.apply op).2 := by
  cases op with
  | readByte => exact readByte_window hc h hs
  | readBytes n => exact readBytes_window hc h hs
  | readUntil d consume =>
      have h' := scan_window hc h hs
      simp only [apply, readUntil, ofBytes]
      split
      · rename_i heq
        rw [heq] at h'
        split
        · exact h'
        · exact h'.withPos (Nat.le_trans (Nat.sub_le ..) h'.pos_le)
      · rename_i heq
        rw [heq] at h'
        exact h'
  | readString => exact scan_window hc h hs
  | readAll =>
      have h0 : Window data c { r with pos := 0 } := h.withPos (Nat.zero_le _)
      simp only [apply, readAll, seek_of_le h (Nat.zero_le _), h0.remaining_eq, Nat.sub_zero]
      exact readBytes_window hc h0 fun hlt => absurd hlt (by simp)
  | peekByte => exact (readByte_window hc h hs).withPos h.pos_le
  | peekBytes n => exact (readBytes_window hc h hs).withPos h.pos_le
  | seek p => exact seek_window p h
  | skip n =>
      rw [apply, skip_eq]
      exact seek_window _ h
  | position | size | remaining => exact h

theorem Window.stopsAtEnd (hc : 1 ≤ c) (h : Window data c r) : StopsAtEnd data r := by
  refine ⟨h.pos_le, fun hp op hop => ?_⟩
  have hu : r.unread = [] := h.unread_eq_nil_iff.mpr hp
  have hscan : ∀ d, ∃ r', byteSource.scan d r [] = (.error .endOfData, false, r') ∧ r'.pos = r.pos := by
    intro d
    have hd : d ∉ ([] : List UInt8) := List.not_mem_nil
    obtain ⟨r', hr, he⟩ := (byteSource_feeds hc true_stable).scan_end [] ⟨h, trivial, hu⟩ hd
    exact ⟨r', hr, he.pos_eq.trans hp.symm⟩
  obtain ⟨r', hr, he⟩ := readByte_nil (Q := fun _ => True) hc h trivial hu
  cases op with
  | readByte =>
      simp only [apply, hr]
      exact ⟨rfl, he.pos_eq.trans hp.symm⟩
  | readBytes n =>
      obtain ⟨r₂, hr₂, he₂⟩ := readBytes_short hc true_stable h trivial
        (show r.unread.length < n by rw [hu]; exact hop)
      rw [hu, if_pos rfl] at hr₂
      simp only [apply, hr₂]
      exact ⟨rfl, he₂.pos_eq.trans hp.symm⟩
  | readUntil d consume =>
      obtain ⟨r₂, hr₂, hpos⟩ := hscan d
      simp only [apply, readUntil, hr₂]
      exact ⟨rfl, hpos⟩
  | readString =>
      obtain ⟨r₂, hr₂, hpos⟩ := hscan 0
      simp only [apply, readString, hr₂]
      exact ⟨rfl, hpos⟩
  | peekByte =>
      simp only [apply, peekByte, hr]
      exact ⟨rfl, rfl⟩
  | _ => cases hop

end CachedReader

end Dwhbll.Collections.Streams
