import Dwhbll.Dns.Format
import Dwhbll.Dns.Lemmas.Reading

/-!
# Names without pointers
-/

namespace Dwhbll.Network.Dns.Domain

open Collections

variable {data : Collections.Ring UInt8} {fuel head : Nat} {bs : List UInt8} {acc ls : List (List UInt8)}

theorem isPointer_ofNat {n : Nat} (h : n ≤ 63) : isPointer (UInt8.ofNat n) = false := by
  have hall : ∀ n < 64, isPointer (UInt8.ofNat n) = false := by decide
  exact hall n (by omega)

theorem isPointer_of_le {size : UInt8} (h : size ≤ 63) : isPointer size = false := by
  have hle : size.toNat ≤ 63 := UInt8.le_iff_toNat_le.mp h
  have hp := isPointer_ofNat hle
  rwa [UInt8.ofNat_toNat] at hp

theorem label_eq_some_iff {n : Nat} : label data head n = some bs ↔ bs.length = n ∧ Holds data head bs := by
  induction n generalizing head bs with
  | zero =>
      rw [label, Option.some.injEq, List.length_eq_zero_iff]
      constructor
      · rintro rfl
        exact ⟨rfl, holds_nil⟩
      · rintro ⟨rfl, -⟩
        rfl
  | succ n ih =>
      rw [label]
      cases hc : data.get? head with
      | none =>
          constructor
          · intro h
            cases h
          · rintro ⟨hl, hh⟩
            cases bs with
            | nil => cases hl
            | cons b bs => cases hc.symm.trans (holds_cons.mp hh).1
      | some c =>
          simp only [Option.map_eq_some_iff, ih]
          constructor
          · rintro ⟨cs, ⟨hl, hh⟩, rfl⟩
            exact ⟨congrArg (· + 1) hl, holds_cons.mpr ⟨hc, hh⟩⟩
          · rintro ⟨hl, hh⟩
            cases bs with
            | nil => cases hl
            | cons b bs =>
                obtain ⟨hb, ht⟩ := holds_cons.mp hh
                cases hc.symm.trans hb
                exact ⟨bs, ⟨Nat.succ.inj hl, ht⟩, rfl⟩

/-- A label that `pack` writes whole. -/
def Fits (l : List UInt8) : Prop := 1 ≤ l.length ∧ l.length ≤ 63

theorem format_cons {l : List UInt8} (h : Fits l) :
    format (l :: ls) = UInt8.ofNat l.length :: (l ++ format ls) := by
  have hne : l ≠ [] := List.length_pos_iff.mp h.1
  rw [format, if_neg hne, List.take_of_length_le h.2]

/-- One iteration of the loop, at a label. -/
theorem unpackLoop_label {size : UInt8} {after : Option Nat} {l : List UInt8}
    (hs : data.get? head = some size) (h0 : size ≠ 0) (hp : isPointer size = false)
    (hl : label data (head + 1) size.toNat = some l) :
    unpackLoop data (fuel + 1) head after acc =
      unpackLoop data fuel (head + 1 + size.toNat) after (acc ++ [l]) := by
  simp only [unpackLoop, hs, Outcome.ofOption_some, Outcome.done_bind, if_neg h0, hp, Bool.false_eq_true,
    if_false, hl]

theorem unpackLoop_end {after : Option Nat} (hs : data.get? head = some 0) :
    unpackLoop data (fuel + 1) head after acc = .done (⟨acc ++ [[]]⟩, after.getD (head + 1)) := by
  rw [unpackLoop, hs]
  rfl

theorem unpackLoop_of_holds (hls : ∀ l ∈ ls, Fits l) (hfuel : ls.length < fuel)
    (hh : Holds data head (format (ls ++ [[]]))) :
    unpackLoop data fuel head none acc =
      .done (⟨acc ++ (ls ++ [[]])⟩, head + (format (ls ++ [[]])).length) := by
  induction ls generalizing fuel head acc with
  | nil =>
      obtain ⟨fuel, rfl⟩ := Nat.exists_eq_add_of_lt hfuel
      exact unpackLoop_end (holds_cons.mp hh).1
  | cons l ls ih =>
      obtain ⟨fuel, rfl⟩ : ∃ m, fuel = m + 1 := ⟨fuel - 1, by omega⟩
      have hl := hls l List.mem_cons_self
      rw [List.cons_append, format_cons hl] at hh ⊢
      obtain ⟨hs, hrest⟩ := holds_cons.mp hh
      obtain ⟨hlab, htail⟩ := holds_append.mp hrest
      have hsize : (UInt8.ofNat l.length).toNat = l.length := by
        rw [UInt8.toNat_ofNat', Nat.mod_eq_of_lt (by have := hl.2; omega)]
      have h0 : UInt8.ofNat l.length ≠ 0 := by
        intro he
        have := congrArg UInt8.toNat he
        rw [hsize] at this
        exact absurd hl.1 (by rw [this]; decide)
      rw [unpackLoop_label hs h0 (isPointer_ofNat hl.2) (label_eq_some_iff.mpr ⟨hsize.symm, hlab⟩), hsize,
        ih (fun m hm => hls m (List.mem_cons_of_mem _ hm)) (by simp only [List.length_cons] at hfuel; omega) htail]
      simp only [List.append_assoc, List.singleton_append, List.length_cons, List.length_append]
      congr 2
      omega

theorem lengths_label {size : UInt8} (hs : data.get? head = some size) (h0 : size ≠ 0)
    (hp : isPointer size = false) :
    lengths data (fuel + 1) head = size :: lengths data fuel (head + 1 + size.toNat) := by
  simp only [lengths, hs, if_neg h0, hp, Bool.false_eq_true, if_false]

/-- One round of a loop that meets only lengths up to 63: it ends, or it reads a label. -/
theorem unpackLoop_cases {r : Domain × Nat} (h : unpackLoop data (fuel + 1) head none acc = .done r)
    (hlen : ∀ b ∈ lengths data (fuel + 1) head, b ≤ 63) :
    (data.get? head = some 0 ∧ r = (⟨acc ++ [[]]⟩, head + 1)) ∨
      ∃ l, Fits l ∧ data.get? head = some (UInt8.ofNat l.length) ∧ Holds data (head + 1) l ∧
        unpackLoop data fuel (head + 1 + l.length) none (acc ++ [l]) = .done r ∧
        ∀ b ∈ lengths data fuel (head + 1 + l.length), b ≤ 63 := by
  cases hs : data.get? head with
  | none =>
      rw [unpackLoop, hs] at h
      cases h
  | some size =>
      by_cases h0 : size = 0
      · subst h0
        rw [unpackLoop_end hs] at h
        cases h
        exact .inl ⟨rfl, rfl⟩
      · have hp : isPointer size = false := by
          cases hp : isPointer size with
          | false => rfl
          | true =>
              have hmem : size ∈ lengths data (fuel + 1) head := by simp [lengths, hs, h0, hp]
              exact hp.symm.trans (isPointer_of_le (hlen size hmem))
        rw [lengths_label hs h0 hp] at hlen
        have hle : size.toNat ≤ 63 := UInt8.le_iff_toNat_le.mp (hlen size List.mem_cons_self)
        have hpos : size.toNat ≠ 0 := fun he => h0 (UInt8.toNat_inj.mp he)
        cases hl : label data (head + 1) size.toNat with
        | none =>
            simp only [unpackLoop, hs, Outcome.ofOption_some, Outcome.done_bind, if_neg h0, hp,
              Bool.false_eq_true, if_false, hl] at h
            cases h
        | some l =>
            obtain ⟨hlength, hlab⟩ := label_eq_some_iff.mp hl
            rw [unpackLoop_label hs h0 hp hl, ← hlength] at h
            rw [← hlength] at hlen
            refine .inr ⟨l, ?_, ?_, hlab, h, fun b hb => hlen b (List.mem_cons_of_mem _ hb)⟩
            · rw [Fits, hlength]
              omega
            · rw [hlength, UInt8.ofNat_toNat]

/-- A loop that has met only lengths up to 63 has read the format of the labels it returns. -/
theorem holds_of_unpackLoop {d : Domain} {head' : Nat}
    (h : unpackLoop data fuel head none acc = .done (d, head'))
    (hlen : ∀ b ∈ lengths data fuel head, b ≤ 63) :
    ∃ ls, (∀ l ∈ ls, Fits l) ∧ d.labels = acc ++ (ls ++ [[]]) ∧ Holds data head (format (ls ++ [[]])) ∧
      head' = head + (format (ls ++ [[]])).length := by
  induction fuel generalizing head acc with
  | zero => cases h
  | succ fuel ih =>
      rcases unpackLoop_cases h hlen with ⟨hs, hr⟩ | ⟨l, hl, hs, hlab, h', hlen'⟩
      · cases hr
        exact ⟨[], by simp, rfl, holds_cons.mpr ⟨hs, holds_nil⟩, rfl⟩
      · obtain ⟨ls, hfits, hlabels, hh, hhead⟩ := ih h' hlen'
        refine ⟨l :: ls, ?_, ?_, ?_, ?_⟩
        · intro m hm
          rcases List.mem_cons.mp hm with rfl | hm
          · exact hl
          · exact hfits m hm
        · rw [hlabels]; simp
        · rw [List.cons_append, format_cons hl]
          exact holds_cons.mpr ⟨hs, holds_append.mpr ⟨hlab, hh⟩⟩
        · rw [List.cons_append, format_cons hl, hhead, List.length_cons, List.length_append]
          omega

/-! ## `Domain::unpack` -/

theorem unpack_yields {d : Domain} (hd : d.Plain) (hfuel : d.labels.length ≤ fuel) :
    Yields (unpack fuel) (format d.labels) d := by
  obtain ⟨⟨ls, hls⟩, hlen⟩ := hd
  rw [hls, List.dropLast_concat] at hlen
  rw [hls, List.length_append, List.length_singleton] at hfuel
  intro s hs
  rw [hls] at hs
  rw [unpack, unpackLoop_of_holds hlen hfuel hs, hls, List.nil_append, ← hls]
  rfl

theorem unpack_consumes {d : Domain} {s s' : MemoryStream} (h : unpack fuel s = .done (d, s'))
    (hlen : ∀ b ∈ lengths s.data fuel s.currentHead, b ≤ 63) :
    d.Plain ∧ Holds s.data s.currentHead (format d.labels) ∧
      s' = { s with currentHead := s.currentHead + (format d.labels).length } := by
  obtain ⟨⟨d₁, head'⟩, h1, h2⟩ := Outcome.bind_eq_done.mp h
  obtain ⟨ls, hfits, hlabels, hh, hhead⟩ := holds_of_unpackLoop h1 hlen
  cases h2
  rw [List.nil_append] at hlabels
  refine ⟨⟨⟨ls, hlabels⟩, ?_⟩, ?_, ?_⟩
  · rw [hlabels, List.dropLast_concat]
    exact hfits
  · rw [hlabels]; exact hh
  · rw [hlabels, hhead]

end Dwhbll.Network.Dns.Domain
