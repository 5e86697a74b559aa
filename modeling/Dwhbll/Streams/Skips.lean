import Dwhbll.Streams.Theorems

/-!
# Skipping

`skip` checks the sum of the position and the count as a `size_t`. A sum that wraps is less than the position, and may
pass the check.
-/

namespace Dwhbll.Collections.Streams

/-- What a call of `skip` at `pos` comes to: it moves on by `count` bytes if there are so many, and otherwise it fails
and stays. -/
structure SkipsBy (size pos count : Nat) (r : Result Unit × Nat) : Prop where
  skipped : pos + count ≤ size → r = (.ok (), pos + count)
  refused : size < pos + count → r = (.error .invalidPositionError, pos)
  forward : pos ≤ r.2

variable {size pos count : Nat}

/-- The check on the sum as a `size_t`. -/
def skipChecked (size pos count : Nat) : Result Unit × Nat :=
  if (pos + count) % 2 ^ 64 > size then (.error .invalidPositionError, pos) else (.ok (), (pos + count) % 2 ^ 64)

theorem skipsBy_iff (hsize : size < 2 ^ 64) (hpos : pos < 2 ^ 64) (hcount : count < 2 ^ 64) :
    SkipsBy size pos count (skipChecked size pos count) ↔ pos + count < 2 ^ 64 ∨ size < pos + count - 2 ^ 64 := by
  rw [skipChecked]
  by_cases hwraps : pos + count < 2 ^ 64
  · rw [Nat.mod_eq_of_lt hwraps]
    refine iff_of_true ?_ (.inl hwraps)
    split
    · exact ⟨fun h => by omega, fun _ => rfl, Nat.le_refl pos⟩
    · exact ⟨fun _ => rfl, fun h => by omega, Nat.le_add_right pos count⟩
  · have hmod : (pos + count) % 2 ^ 64 = pos + count - 2 ^ 64 := by omega
    rw [hmod]
    split
    · exact iff_of_true ⟨fun h => by omega, fun _ => rfl, Nat.le_refl pos⟩ (.inr ‹_›)
    · refine iff_of_false (fun h => ?_) (by omega)
      have hforward := h.forward
      simp only at hforward
      omega

/-! ## `MemoryBuffer` -/

namespace MemoryBuffer

variable (b : MemoryBuffer)

theorem skip_checked (count : Nat) :
    ((b.skip count).1, (b.skip count).2.pos) = skipChecked b.data.length b.pos count := by
  rw [skip, seek, skipChecked]
  split <;> rfl

theorem seek_data (p : Nat) : (b.seek p).2.data = b.data := by
  rw [seek]
  split <;> rfl

theorem readRawBytes_data (dest : List UInt8) : (b.readRawBytes dest).2.2.data = b.data := by
  rw [readRawBytes]
  split <;> rfl

end MemoryBuffer

/-! ## `CachedReader` -/

theorem ByteSource.scan_keeps {σ : Type} {src : ByteSource σ} {P : σ → Prop} {stop : UInt8} {s : σ}
    {data : List UInt8} (hstep : ∀ s x s', src.readByte s = (x, s') → P s → P s') (h : P s) :
    P (src.scan stop s data).2.2 := by
  fun_induction ByteSource.scan src stop s data with
  | case1 s data e s' hread hpart => exact hstep s _ s' hread h
  | case2 s data e s' hread hpart => exact hstep s _ s' hread h
  | case3 s data s' hread => exact hstep s _ s' hread h
  | case4 s data byte s' hread hstop ih => exact ih (hstep s _ s' hread h)

namespace CachedReader

variable {data : List UInt8} {r : CachedReader} {c : Nat}

theorem skip_checked (r : CachedReader) (count : Nat) :
    ((r.skip count).1, (r.skip count).2.pos) = skipChecked r.source.data.length r.pos count := by
  simp only [skip, CachedReader.size, MemoryBuffer.size, skipChecked]
  split <;> rfl

/-- What holds of the reader whatever its cache is. -/
structure Sized (data : List UInt8) (r : CachedReader) : Prop where
  data_eq : r.source.data = data
  pos_lt : r.pos < 2 ^ 64

theorem Sized.withPos {p : Nat} (h : Sized data r) (hp : p < 2 ^ 64) : Sized data { r with pos := p } :=
  ⟨h.data_eq, hp⟩

theorem updateCache_sized {x : Result Unit} {r' : CachedReader} (hr : r.updateCache = (x, r')) (h : Sized data r) :
    Sized data r' := by
  rw [updateCache] at hr
  split at hr
  · cases hr
    exact h
  · have hseek := r.source.seek_data r.pos
    split at hr
    · rename_i heq
      rw [heq] at hseek
      cases hr
      exact ⟨hseek.trans h.data_eq, h.pos_lt⟩
    · rename_i source heq
      rw [heq] at hseek
      have hread := source.readRawBytes_data (resize r.cache r.chunkSize)
      split at hr
      · rename_i heq
        rw [heq] at hread
        cases hr
        exact ⟨(hread.trans hseek).trans h.data_eq, h.pos_lt⟩
      · rename_i heq
        rw [heq] at hread
        split at hr
        · cases hr
          exact ⟨(hread.trans hseek).trans h.data_eq, h.pos_lt⟩
        · cases hr
          exact ⟨(hread.trans hseek).trans h.data_eq, h.pos_lt⟩

theorem readByte_sized {x : Result UInt8} {r' : CachedReader} (hr : r.readByte = (x, r')) (h : Sized data r) :
    Sized data r' := by
  rw [readByte] at hr
  split at hr
  · rename_i hupdate
    cases hr
    exact updateCache_sized hupdate h
  · rename_i hupdate
    have hsized := updateCache_sized hupdate h
    split at hr
    · cases hr
      exact hsized
    · cases hr
      exact hsized.withPos (Nat.mod_lt _ (by decide))

theorem readBytesLoop_sized {buf : List UInt8} (h : Sized data r) : Sized data (r.readBytesLoop count buf).2 := by
  fun_induction readBytesLoop r count buf with
  | case1 => exact h
  | case2 r count buf hcount e r' hupdate => exact updateCache_sized hupdate h
  | case3 r count buf hcount e r' hupdate => exact updateCache_sized hupdate h
  | case4 r count buf hcount _ r' hupdate => exact updateCache_sized hupdate h
  | case5 r count buf hcount _ r' hupdate => exact updateCache_sized hupdate h
  | case6 r count buf hcount _ r' hupdate offset available havailable toCopy ih =>
      exact ih ((updateCache_sized hupdate h).withPos (Nat.mod_lt _ (by decide)))

theorem readBytes_sized (h : Sized data r) : Sized data (r.readBytes count).2 := by
  rw [readBytes]
  split
  · exact h
  · exact readBytesLoop_sized h

theorem scan_sized (stop : UInt8) (h : Sized data r) : Sized data (byteSource.scan stop r []).2.2 :=
  ByteSource.scan_keeps (fun _ _ _ hr h => readByte_sized hr h) h

theorem seek_sized (p : Nat) (h : Sized data r) : Sized data (r.seek p).2 := by
  have hsize := r.source.size_lt
  simp only [seek, CachedReader.size, MemoryBuffer.size]
  split
  · exact h
  · exact h.withPos (by omega)

theorem readUntil_sized (delimiter : UInt8) (consume : Bool) (h : Sized data r) :
    Sized data (r.readUntil delimiter consume).2 := by
  have hscan := scan_sized delimiter h
  rw [readUntil]
  split
  · rename_i heq
    rw [heq] at hscan
    split
    · exact hscan
    · exact hscan.withPos (Nat.lt_of_le_of_lt (Nat.sub_le ..) hscan.pos_lt)
  · rename_i heq
    rw [heq] at hscan
    exact hscan

theorem readString_sized (h : Sized data r) : Sized data r.readString.2 := by
  have hscan := scan_sized 0 h
  rw [readString]
  exact hscan

theorem readAll_sized (h : Sized data r) : Sized data r.readAll.2 := by
  have hseek := seek_sized 0 h
  rw [readAll]
  split
  · rename_i heq
    rw [heq] at hseek
    exact hseek
  · rename_i heq
    rw [heq] at hseek
    split
    · exact hseek
    · exact readBytes_sized hseek

theorem ofBytes_snd {σ : Type} (x : Result (List UInt8) × σ) : (ofBytes x).2 = x.2 := rfl

theorem apply_sized (op : Op) (h : Sized data r) : Sized data (r.apply op).2 := by
  cases op with
  | readByte => exact readByte_sized rfl h
  | readBytes count => exact readBytes_sized h
  | readUntil delimiter consume => exact readUntil_sized delimiter consume h
  | readString => exact readString_sized h
  | readAll =>
      rw [apply, ofBytes_snd]
      exact readAll_sized h
  | peekByte =>
      have hread : Sized data r.readByte.2 := readByte_sized rfl h
      exact ⟨hread.data_eq, h.pos_lt⟩
  | peekBytes count =>
      have hread : Sized data (r.readBytes count).2 := readBytes_sized h
      exact ⟨hread.data_eq, h.pos_lt⟩
  | seek p => exact seek_sized p h
  | skip count => exact seek_sized ((r.pos + count) % 2 ^ 64) h
  | position => exact h
  | size => exact h
  | remaining => exact h

theorem sized_of_reachable {hsize : data.length < 2 ^ 63} (h : (system data hsize c).Reachable r) : Sized data r :=
  Transition.System.Invariant.reachable (.ofFun ⟨rfl, Nat.two_pow_pos 64⟩ fun _ op hr => apply_sized op hr) h

end CachedReader

/-! ## Both -/

/-- In every state that the operations lead to, `skip` does what it is for if and only if the sum of the position and the
count is a `size_t` or, with the cached reader, what it wraps to is behind the end. -/
theorem skip_iff (data : List UInt8) (hsize : data.length < 2 ^ 63) (c count : Nat) (hcount : count < 2 ^ 64) :
    (∀ b : MemoryBuffer, SkipsBy b.data.length b.pos count ((b.skip count).1, (b.skip count).2.pos) ↔
      b.pos + count < 2 ^ 64) ∧
    ∀ r, (CachedReader.system data hsize c).Reachable r →
      (SkipsBy data.length r.pos count ((r.skip count).1, (r.skip count).2.pos) ↔
        r.pos + count < 2 ^ 64 ∨ data.length < r.pos + count - 2 ^ 64) := by
  constructor
  · intro b
    have hle := b.pos_le
    have hlt := b.size_lt
    rw [b.skip_checked, skipsBy_iff (by omega) (by omega) hcount]
    exact or_iff_left (by omega)
  · intro r hr
    have hsized := CachedReader.sized_of_reachable hr
    rw [r.skip_checked, hsized.data_eq, skipsBy_iff (by omega) hsized.pos_lt hcount]

/-- Three bytes, of which one has been skipped. -/
def skippedOne : MemoryBuffer := ((MemoryBuffer.new [1, 2, 3] (by decide)).skip 1).2

theorem skip_iff_rest : SkipsBy 3 1 2 ((skippedOne.skip 2).1, (skippedOne.skip 2).2.pos) :=
  ((skip_iff [] (by decide) 1 2 (by decide)).1 skippedOne).mpr (by decide)

/-- A skip by 2 ^ 64 - 1 bytes goes back by one. -/
theorem skip_back :
    ((skippedOne.skip (2 ^ 64 - 1)).1, (skippedOne.skip (2 ^ 64 - 1)).2.pos) = (.ok (), 0) ∧
      (∃ r, (CachedReader.system [1, 2, 3] (by decide) 1).Reachable r ∧ r.pos = 1 ∧
        ((r.skip (2 ^ 64 - 1)).1, (r.skip (2 ^ 64 - 1)).2.pos) = (.ok (), 0)) ∧
      ¬ ∀ (b : MemoryBuffer) (count : Nat), count < 2 ^ 64 →
        SkipsBy b.data.length b.pos count ((b.skip count).1, (b.skip count).2.pos) := by
  refine ⟨by decide, ⟨_, .step (i := .skip 1) (.init rfl) rfl, by decide, by decide⟩, fun h => ?_⟩
  have hforward := (h skippedOne (2 ^ 64 - 1) (by decide)).forward
  revert hforward
  decide

end Dwhbll.Collections.Streams
