import Dwhbll.Streams.Cursor

/-!
# Scanning a source of known bytes

`I s bs` says that the reader `s` has the bytes `bs` still to deliver, and `E s` what is left of it once
it has failed at their end.
-/

namespace Dwhbll.Collections.Streams

structure ByteSource.Feeds {σ : Type} (src : ByteSource σ) (I : σ → List UInt8 → Prop) (E : σ → Prop) :
    Prop where
  next : ∀ {s b bs}, I s (b :: bs) → ∃ s', src.readByte s = (.ok b, s') ∧ I s' bs
  stop : ∀ {s}, I s [] → ∃ s', src.readByte s = (.error .endOfData, s') ∧ E s'

namespace ByteSource

variable {σ : Type} {src : ByteSource σ} {I : σ → List UInt8 → Prop} {E : σ → Prop} {s s' : σ}
  {stop : UInt8} {bs data : List UInt8}

theorem scan_ok {b : UInt8} (h : src.readByte s = (.ok b, s')) :
    src.scan stop s data = if b = stop then (.ok data, true, s') else src.scan stop s' (data ++ [b]) := by
  rw [scan]
  split
  · rename_i he; cases h.symm.trans he
  · rename_i he; cases h.symm.trans he; rfl

theorem scan_endOfData (h : src.readByte s = (.error .endOfData, s')) :
    src.scan stop s data = (if data = [] then .error .endOfData else .ok data, false, s') := by
  rw [scan]
  split
  · rename_i he
    cases h.symm.trans he
    by_cases hd : data = []
    · simp [hd]
    · simp [hd]
  · rename_i he; cases h.symm.trans he

theorem Feeds.scan_found (hf : src.Feeds I E) (data : List UInt8) (hI : I s bs) (hm : stop ∈ bs) :
    ∃ s', src.scan stop s data = (.ok (data ++ bs.takeWhile (· ≠ stop)), true, s') ∧
      I s' (bs.drop ((bs.takeWhile (· ≠ stop)).length + 1)) := by
  induction bs generalizing s data with
  | nil => cases hm
  | cons b bs ih =>
      obtain ⟨s₁, h1, hI₁⟩ := hf.next hI
      by_cases hb : b = stop
      · exact ⟨s₁, by simp [scan_ok h1, hb], by simpa [hb] using hI₁⟩
      · obtain ⟨s₂, h2, hI₂⟩ := ih (data ++ [b]) hI₁ (List.mem_of_ne_of_mem (Ne.symm hb) hm)
        exact ⟨s₂, by simp [scan_ok h1, hb, h2], by simpa [hb] using hI₂⟩

theorem Feeds.scan_end (hf : src.Feeds I E) (data : List UInt8) (hI : I s bs) (hm : stop ∉ bs) :
    ∃ s', src.scan stop s data =
        (if data ++ bs = [] then .error .endOfData else .ok (data ++ bs), false, s') ∧ E s' := by
  induction bs generalizing s data with
  | nil =>
      obtain ⟨s₁, h1, hE⟩ := hf.stop hI
      exact ⟨s₁, by simp [scan_endOfData h1], hE⟩
  | cons b bs ih =>
      obtain ⟨s₁, h1, hI₁⟩ := hf.next hI
      rw [List.mem_cons, not_or] at hm
      obtain ⟨s₂, h2, hE⟩ := ih (data ++ [b]) hI₁ hm.2
      exact ⟨s₂, by simp [scan_ok h1, Ne.symm hm.1, h2], hE⟩

end ByteSource

end Dwhbll.Collections.Streams
