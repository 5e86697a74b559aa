import Dwhbll.Lib.Pieces
import Dwhbll.Streams.Lemmas.Stream

/-!
# Reading the data piece by piece

Calls of `read_until` or `read_string` one after the other, up to the first one that fails.
-/

namespace Dwhbll.Collections.Streams

/-- The values that calls return until one fails, its error, and the state in which that one is made. There is no answer
where `fuel` calls all succeed. -/
def untilFailure {σ α : Type} (call : σ → Result α × σ) : (fuel : Nat) → σ → Option (List α × Error × σ)
  | 0, _ => none
  | fuel + 1, s =>
      match call s with
      | (.error e, _) => some ([], e, s)
      | (.ok a, s') => (untilFailure call fuel s').map fun (as, e, s) => (a :: as, e, s)

theorem untilFailure_error {σ α : Type} {call : σ → Result α × σ} {s s' : σ} {e : Error} (h : call s = (.error e, s'))
    (fuel : Nat) : untilFailure call (fuel + 1) s = some ([], e, s) := by
  rw [untilFailure, h]

theorem untilFailure_ok {σ α : Type} {call : σ → Result α × σ} {s s' : σ} {a : α} (h : call s = (.ok a, s'))
    (fuel : Nat) :
    untilFailure call (fuel + 1) s = (untilFailure call fuel s').map fun (as, e, s) => (a :: as, e, s) := by
  rw [untilFailure, h]

namespace StreamReader

variable {data : List UInt8} {r : StreamReader} {pos : Nat} {d : UInt8}

theorem readString_eq (r : StreamReader) : r.readString = r.readUntil 0 true := by
  rw [readString, readUntil]
  obtain ⟨res, found, r'⟩ := byteSource.scan 0 r []
  cases res with
  | error e => rfl
  | ok bytes => cases found <;> rfl

theorem readUntil_nil (h : At data r pos) (hend : data.drop pos = []) :
    ∃ r', r.readUntil d true = (.error .endOfData, r') := by
  obtain ⟨r', hr, -⟩ := (byteSource_feeds data).scan_end [] ⟨pos, h, hend⟩ (List.not_mem_nil (a := d))
  exact ⟨r', by rw [readUntil, hr]; rfl⟩

/-- What is behind the last delimiter is returned as if there were one more. -/
theorem readUntil_last (h : At data r pos) (hne : data.drop pos ≠ []) (hd : d ∉ data.drop pos) :
    ∃ r', r.readUntil d true = (.ok (data.drop pos), r') ∧ At data r' data.length := by
  obtain ⟨r', hr, h'⟩ := (byteSource_feeds data).scan_end [] ⟨pos, h, rfl⟩ hd
  rw [List.nil_append, if_neg hne] at hr
  exact ⟨r', by rw [readUntil, hr], h'⟩

theorem readUntil_piece {xs ys : List UInt8} (h : At data r pos) (hd : d ∉ xs) (hdrop : data.drop pos = xs ++ d :: ys) :
    ∃ r', r.readUntil d true = (.ok xs, r') ∧ At data r' (pos + (xs ++ [d]).length) := by
  obtain ⟨r', hr, h'⟩ := readUntil_inside true h (hdrop ▸ List.mem_append_right xs List.mem_cons_self)
  have hne : ∀ x ∈ xs, decide (x ≠ d) = true := by
    intro x hx
    exact decide_eq_true fun heq => hd (heq ▸ hx)
  have hpiece : (data.drop pos).takeWhile (· ≠ d) = xs := by
    rw [hdrop, List.takeWhile_append_of_pos hne, List.takeWhile_cons_of_neg (by simp), List.append_nil]
  rw [hpiece] at hr h'
  rw [List.length_append, List.length_singleton]
  exact ⟨r', hr, h'⟩

/-- The calls return the pieces of what is left one after the other, and the one that fails is made behind them. -/
theorem untilFailure_readUntil (h : At data r pos) {rest : List UInt8} (hrest : data.drop pos = rest) {fuel : Nat}
    (hfuel : rest.length < fuel) :
    ∃ r', untilFailure (readUntil · d true) fuel r = some (Pieces.pieces d rest, .endOfData, r') ∧
      At data r' data.length := by
  obtain ⟨fuel, rfl⟩ := Nat.exists_eq_add_of_lt (Nat.zero_lt_of_lt hfuel)
  rw [Nat.zero_add] at hfuel ⊢
  induction rest using Pieces.pieces_induction d generalizing r pos fuel with
  | nil =>
      obtain ⟨r', hr⟩ := readUntil_nil (d := d) h hrest
      have hpos : pos = data.length := Nat.le_antisymm h.le (List.drop_eq_nil_iff.mp hrest)
      exact ⟨r, untilFailure_error hr fuel, hpos ▸ h⟩
  | last rest hne hd =>
      obtain ⟨r', hr, h'⟩ := readUntil_last h (hrest ▸ hne) (hrest ▸ hd)
      have hpos := List.length_pos_iff.mpr hne
      obtain ⟨fuel, rfl⟩ := Nat.exists_eq_add_of_lt (Nat.lt_of_lt_of_le hpos (Nat.le_of_lt_succ hfuel))
      obtain ⟨r'', hr'⟩ := readUntil_nil (d := d) h' List.drop_length
      refine ⟨r', ?_, h'⟩
      rw [untilFailure_ok hr, untilFailure_error hr', Pieces.pieces_of_not_mem hne hd, hrest]
      rfl
  | more xs ys hd ih =>
      obtain ⟨r', hr, h'⟩ := readUntil_piece h hd hrest
      have hlen : ys.length < fuel := by
        rw [List.length_append, List.length_cons] at hfuel
        omega
      obtain ⟨fuel, rfl⟩ := Nat.exists_eq_add_of_lt (Nat.zero_lt_of_lt hlen)
      rw [Nat.zero_add] at hlen ⊢
      have hrest' : data.drop (pos + (xs ++ [d]).length) = ys := Lists.drop_add_of_drop (by simpa using hrest)
      obtain ⟨r'', hr'', h''⟩ := ih h' hrest' fuel hlen
      exact ⟨r'', by rw [untilFailure_ok hr, hr'', Pieces.pieces_append_cons hd]; rfl, h''⟩

/-- On new data the calls return its pieces up to the delimiters, and the call that is made at the end of the data
fails; `read_string` does so with the delimiter 0. -/
theorem untilFailure_pieces (data : List UInt8) (hsize : data.length < 2 ^ 63) (d : UInt8) {fuel : Nat}
    (hfuel : data.length < fuel) :
    (∃ r, untilFailure (readUntil · d true) fuel (new (.new data hsize)) =
        some (Pieces.pieces d data, .endOfData, r) ∧ r.position = .ok data.length) ∧
      ∃ r, untilFailure readString fuel (new (.new data hsize)) = some (Pieces.pieces 0 data, .endOfData, r) ∧
        r.position = .ok data.length := by
  have hstart : At data (new (.new data hsize)) 0 := ⟨rfl, rfl⟩
  have hall : ∀ d, ∃ r, untilFailure (readUntil · d true) fuel (new (.new data hsize)) =
      some (Pieces.pieces d data, .endOfData, r) ∧ r.position = .ok data.length := by
    intro d
    obtain ⟨r, hr, h⟩ := untilFailure_readUntil (d := d) hstart List.drop_zero hfuel
    exact ⟨r, hr, by rw [position, MemoryBuffer.position, h.pos_eq]⟩
  refine ⟨hall d, ?_⟩
  rw [show readString = (readUntil · 0 true) from funext readString_eq]
  exact hall 0

/-- Two delimiters side by side, and nothing behind the last one. -/
theorem untilFailure_pieces_three :
    ∃ r, untilFailure (readUntil · 0 true) 5 (new (.new [1, 0, 0, 2] (by decide))) =
      some ([[1], [], [2]], .endOfData, r) ∧ r.position = .ok 4 :=
  (untilFailure_pieces [1, 0, 0, 2] (by decide) 0 (show 4 < 5 by decide)).1

end StreamReader

end Dwhbll.Collections.Streams
