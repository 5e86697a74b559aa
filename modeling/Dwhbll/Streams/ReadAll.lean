import Dwhbll.Streams.Lemmas.AtEnd

/-!
# `read_all` and `peek_bytes` of the two readers

`read_all` of a `StreamReader` reads what is left, that of a `CachedReader` goes back to the start first; and at the
end of the data one `peek_bytes` returns no bytes where the other one fails.
-/

namespace Dwhbll.Collections.Streams

variable {data : List UInt8} {c p : Nat}

/-- The two calls return the same, and leave their readers at the same position. -/
structure Alike (x : Result (List UInt8) × StreamReader) (y : Result (List UInt8) × CachedReader) : Prop where
  result : x.1 = y.1
  position : x.2.position = y.2.position

namespace StreamReader

variable {r : StreamReader}

/-- A new reader, moved to `pos`. -/
def seeked (data : List UInt8) (hsize : data.length < 2 ^ 63) (pos : Nat) : StreamReader :=
  ((new (.new data hsize)).seek pos).2

theorem seeked_at (hsize : data.length < 2 ^ 63) (hp : p ≤ data.length) : At data (seeked data hsize p) p := by
  obtain ⟨r', hr, h'⟩ := seek_of_le (r := new (.new data hsize)) ⟨rfl, rfl⟩ hp
  rw [seeked, hr]
  exact h'

theorem At.position_eq (h : At data r p) : r.position = .ok p := by rw [position, MemoryBuffer.position, h.pos_eq]

theorem readAll_eq (h : At data r p) :
    ∃ r', r.readAll = (.ok (data.drop p), r') ∧ r'.position = .ok data.length := by
  have hle := h.le
  have hremaining : r.remaining = .ok (data.length - p) := by
    rw [remaining, MemoryBuffer.remaining, h.data_eq, h.pos_eq]
  simp only [readAll, hremaining]
  by_cases hend : data.length - p = 0
  · have hp : p = data.length := by omega
    rw [if_pos hend, hp, List.drop_length]
    exact ⟨r, rfl, hp ▸ h.position_eq⟩
  · obtain ⟨r', hr, h'⟩ := readBytes_inside (n := data.length - p) h (by omega)
    rw [if_neg hend, hr, List.take_of_length_le (by rw [List.length_drop])]
    exact ⟨r', rfl, h'.position_eq.trans (by rw [Nat.add_sub_cancel' hle])⟩

/-- Only what is there is returned, be it nothing. -/
theorem peekBytes_eq (h : At data r p) (n : Nat) : r.peekBytes n = (.ok ((data.drop p).take n), r) := by
  obtain ⟨rfl, rfl⟩ := h
  by_cases h0 : n = 0
  · subst h0
    rfl
  · have hres := r.source.resize_copyTo (List.replicate n 0)
    simp only [List.length_replicate] at hres
    simp [peekBytes, h0, MemoryBuffer.peekRawBytes, hres]

end StreamReader

namespace CachedReader

variable {r : CachedReader}

def seeked (data : List UInt8) (hsize : data.length < 2 ^ 63) (c pos : Nat) : CachedReader :=
  ((new (.new data hsize) c).seek pos).2

theorem seeked_eq (hsize : data.length < 2 ^ 63) (c : Nat) (hp : p ≤ data.length) :
    seeked data hsize c p = { new (.new data hsize) c with pos := p } := by
  rw [seeked, seek_of_le (Window.new hsize) hp]

theorem seeked_window (hsize : data.length < 2 ^ 63) (c : Nat) (hp : p ≤ data.length) :
    Window data c (seeked data hsize c p) := by
  rw [seeked_eq hsize c hp]
  exact (Window.new hsize).withPos hp

/-- The reader has read nothing yet. -/
theorem seeked_unread (hsize : data.length < 2 ^ 63) (c : Nat) (hp : p ≤ data.length) :
    (seeked data hsize c p).unread = data.drop p := by
  rw [seeked_eq hsize c hp, unread, if_neg]
  · rfl
  · rintro ⟨-, hlt⟩
    cases hlt

theorem readAll_eq (hsize : data.length < 2 ^ 63) (hc : 1 ≤ c) (hp : p ≤ data.length) :
    ∃ r', (seeked data hsize c p).readAll = (.ok data, r') ∧ r'.position = .ok data.length := by
  have h0 := seeked_window hsize c (Nat.zero_le data.length)
  have hunread := seeked_unread hsize c (Nat.zero_le data.length)
  rw [List.drop_zero] at hunread
  have hseek : (seeked data hsize c p).seek 0 = (.ok (), seeked data hsize c 0) := by
    rw [seek_of_le (seeked_window hsize c hp) (Nat.zero_le _), seeked_eq hsize c hp, seeked_eq hsize c (Nat.zero_le _)]
  obtain ⟨r', hr, h', -, hrest⟩ :=
    readBytes_enough (n := data.length) hc true_stable h0 trivial (by rw [hunread])
  rw [hunread, List.drop_length] at hrest
  have hremaining : (seeked data hsize c 0).remaining = .ok data.length := by
    rw [h0.remaining_eq, seeked_eq hsize c (Nat.zero_le _), Nat.sub_zero]
  refine ⟨r', ?_, congrArg Except.ok (h'.unread_eq_nil_iff.mp hrest)⟩
  simp only [readAll, hseek, hremaining, hr, hunread, List.take_length]

/-- Where nothing is left, a call that asks for something fails. -/
theorem peekBytes_eq (hsize : data.length < 2 ^ 63) (hc : 1 ≤ c) (hp : p ≤ data.length) (n : Nat) :
    ∃ r', (seeked data hsize c p).peekBytes n =
        (if n = 0 ∨ p < data.length then .ok ((data.drop p).take n) else .error .endOfData, r') ∧
      r'.position = .ok p := by
  have h := seeked_window hsize c hp
  have hunread := seeked_unread hsize c hp
  have hpos : (seeked data hsize c p).pos = p := by rw [seeked_eq hsize c hp]
  have hlen : (data.drop p).length = data.length - p := List.length_drop
  have hnil : data.drop p = [] ↔ ¬ p < data.length := by rw [List.drop_eq_nil_iff, Nat.not_lt]
  simp only [peekBytes, hpos]
  by_cases hn : n ≤ (data.drop p).length
  · obtain ⟨r', hr, -⟩ := readBytes_enough (n := n) hc true_stable h trivial (by rwa [hunread])
    have hsome : n = 0 ∨ p < data.length := by omega
    simp only [hr, hunread, if_pos hsome]
    exact ⟨_, rfl, rfl⟩
  · have hshort : (data.drop p).length < n := Nat.lt_of_not_le hn
    obtain ⟨r', hr, -⟩ := readBytes_short (n := n) hc true_stable h trivial (by rwa [hunread])
    simp only [hr, hunread]
    refine ⟨_, Prod.ext ?_ rfl, rfl⟩
    by_cases hend : p < data.length
    · rw [if_pos (Or.inr hend), if_neg (fun h => hnil.mp h hend), List.take_of_length_le (Nat.le_of_lt hshort)]
    · have hnone : ¬ (n = 0 ∨ p < data.length) := by omega
      rw [if_neg hnone, if_pos (hnil.mpr hend)]

end CachedReader

/-- At one position, `read_all` comes to the same if and only if that is the start, and `peek_bytes` if and only if
nothing is asked for or something is left. -/
theorem readAll_peekBytes_alike_iff (data : List UInt8) (hsize : data.length < 2 ^ 63) (c : Nat) (hc : 1 ≤ c) (p : Nat)
    (hp : p ≤ data.length) (n : Nat) :
    (Alike (StreamReader.seeked data hsize p).readAll (CachedReader.seeked data hsize c p).readAll ↔ p = 0) ∧
      (Alike ((StreamReader.seeked data hsize p).peekBytes n) ((CachedReader.seeked data hsize c p).peekBytes n) ↔
        n = 0 ∨ p < data.length) := by
  have h := StreamReader.seeked_at hsize hp
  constructor
  · obtain ⟨r', hr, hrpos⟩ := StreamReader.readAll_eq h
    obtain ⟨k', hk, hkpos⟩ := CachedReader.readAll_eq hsize hc hp
    rw [hr, hk]
    constructor
    · rintro ⟨hres, -⟩
      have hlen := congrArg List.length (Except.ok.inj hres)
      rw [List.length_drop] at hlen
      omega
    · rintro rfl
      exact ⟨rfl, hrpos.trans hkpos.symm⟩
  · obtain ⟨k', hk, hkpos⟩ := CachedReader.peekBytes_eq hsize hc hp n
    rw [StreamReader.peekBytes_eq h, hk]
    split
    · exact iff_of_true ⟨rfl, h.position_eq.trans hkpos.symm⟩ ‹_›
    · exact iff_of_false (fun hx => by cases hx.result) ‹_›

/-- Three bytes, of which the cached reader takes two at a time: at the start both return all of them. -/
theorem readAll_peekBytes_alike_iff_start :
    Alike (StreamReader.seeked [1, 2, 3] (by decide) 0).readAll
        (CachedReader.seeked [1, 2, 3] (by decide) 2 0).readAll ∧
      Alike ((StreamReader.seeked [1, 2, 3] (by decide) 0).peekBytes 5)
        ((CachedReader.seeked [1, 2, 3] (by decide) 2 0).peekBytes 5) :=
  have h := readAll_peekBytes_alike_iff [1, 2, 3] (by decide) 2 (by decide) 0 (by decide) 5
  ⟨h.1.mpr rfl, h.2.mpr (by decide)⟩

/-- Behind the first of two bytes, one reader returns the second and the other both; at the end, one returns nothing
and the other fails. -/
theorem readAll_differs :
    (StreamReader.seeked [1, 2] (by decide) 1).readAll.1 = .ok [2] ∧
      (CachedReader.seeked [1, 2] (by decide) 4 1).readAll.1 = .ok [1, 2] ∧
      ((StreamReader.seeked [1, 2] (by decide) 2).peekBytes 1).1 = .ok [] ∧
      ((CachedReader.seeked [1, 2] (by decide) 4 2).peekBytes 1).1 = .error .endOfData ∧
      ¬ ∀ (data : List UInt8) (hsize : data.length < 2 ^ 63) (c : Nat), 1 ≤ c → ∀ p ≤ data.length, ∀ n,
        Alike (StreamReader.seeked data hsize p).readAll (CachedReader.seeked data hsize c p).readAll ∧
          Alike ((StreamReader.seeked data hsize p).peekBytes n) ((CachedReader.seeked data hsize c p).peekBytes n) := by
  have hsize : ([1, 2] : List UInt8).length < 2 ^ 63 := by decide
  have hread : (StreamReader.seeked [1, 2] (by decide) 1).readAll.1 = .ok [2] := by decide
  have hcached : (CachedReader.seeked [1, 2] hsize 4 1).readAll.1 = .ok [1, 2] := by
    obtain ⟨k', hk, -⟩ := CachedReader.readAll_eq hsize (show 1 ≤ 4 by decide) (show 1 ≤ [1, 2].length by decide)
    rw [hk]
  obtain ⟨k', hk, -⟩ :=
    CachedReader.peekBytes_eq hsize (show 1 ≤ 4 by decide) (show 2 ≤ [1, 2].length by decide) 1
  refine ⟨hread, hcached, by decide, congrArg Prod.fst hk, fun h => ?_⟩
  · have hres := (h [1, 2] (by decide) 4 (by decide) 1 (by decide) 0).1.result
    rw [hread, hcached] at hres
    cases hres

end Dwhbll.Collections.Streams
