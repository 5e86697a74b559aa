import Dwhbll.Lib.Lists
import Dwhbll.Lib.Splitting

/-!
# `split` of `utils/string.cpp`

The loop over the positions at which the separator is found.
-/

namespace Dwhbll.Utils

abbrev Bytes := List UInt8

/-- `find` of `std::string_view` from `start` on, where nothing is `npos`. -/
def find (str sep : Bytes) (start : Nat) : Option Nat :=
  (List.range' start (str.length + 1 - start)).find? fun pos => sep.isPrefixOf (str.drop pos)

/-- The first occurrence of the separator from `start` on. -/
structure First (str sep : Bytes) (start pos : Nat) : Prop where
  le : start ≤ pos
  occurs : sep <+: str.drop pos
  first : ∀ k, start ≤ k → k < pos → ¬ sep <+: str.drop k

variable {str sep : Bytes} {start pos : Nat}

theorem First.length_le (h : First str sep start pos) (hsep : sep ≠ []) : pos + sep.length ≤ str.length := by
  have hlen := h.occurs.length_le
  have hpos := List.length_pos_iff.mpr hsep
  rw [List.length_drop] at hlen
  omega

theorem find_eq_some (hsep : sep ≠ []) : find str sep start = some pos ↔ First str sep start pos := by
  simp only [find, List.find?_range'_eq_some, List.isPrefixOf_iff_prefix, List.mem_range'_1, Bool.not_eq_eq_eq_not,
    Bool.not_true, ← Bool.not_eq_true]
  constructor
  · rintro ⟨hoccurs, ⟨hle, -⟩, hfirst⟩
    exact ⟨hle, hoccurs, hfirst⟩
  · intro h
    have hlen := h.length_le hsep
    exact ⟨h.occurs, ⟨h.le, by have := h.le; omega⟩, h.first⟩

theorem find_eq_none (hsep : sep ≠ []) : find str sep start = none ↔ ∀ k, start ≤ k → ¬ sep <+: str.drop k := by
  simp only [find, List.find?_eq_none, List.isPrefixOf_iff_prefix, List.mem_range'_1]
  refine ⟨fun h k hk hoccurs => h k ⟨hk, ?_⟩ hoccurs, fun h k hk => h k hk.1⟩
  have hlen := hoccurs.length_le
  have hpos := List.length_pos_iff.mpr hsep
  rw [List.length_drop] at hlen
  omega

/-- The loop. `start` is never behind the end of the string. -/
def splitLoop (str sep : Bytes) (hsep : sep ≠ []) (start : Nat) (strs : List Bytes) : List Bytes :=
  match _h : find str sep start with
  | none => strs ++ [str.drop start]
  | some pos => splitLoop str sep hsep (pos + sep.length) (strs ++ [(str.drop start).take (pos - start)])
termination_by str.length - start
decreasing_by
  have hfirst := (find_eq_some hsep).mp _h
  have hle := hfirst.le
  have hlen := hfirst.length_le hsep
  have hpos := List.length_pos_iff.mpr hsep
  omega

def split (str sep : Bytes) : List Bytes := if h : sep = [] then [str] else splitLoop str sep h 0 []

theorem splitLoop_none (hsep : sep ≠ []) (h : find str sep start = none) (strs : List Bytes) :
    splitLoop str sep hsep start strs = strs ++ [str.drop start] := by
  rw [splitLoop]
  split
  · rfl
  · rename_i heq
    cases h.symm.trans heq

theorem splitLoop_some (hsep : sep ≠ []) (h : find str sep start = some pos) (strs : List Bytes) :
    splitLoop str sep hsep start strs =
      splitLoop str sep hsep (pos + sep.length) (strs ++ [(str.drop start).take (pos - start)]) := by
  rw [splitLoop]
  split
  · rename_i heq
    cases h.symm.trans heq
  · rename_i heq
    cases h.symm.trans heq
    rfl

/-! ## The pieces -/

theorem splitLoop_eq (hsep : sep ≠ []) (strs : List Bytes) :
    splitLoop str sep hsep start strs = strs ++ Splitting.splitFrom sep 0 [] (str.drop start) := by
  induction start, strs using splitLoop.induct str sep hsep with
  | case1 start strs h =>
      have hnone := (find_eq_none hsep).mp h
      rw [splitLoop_none hsep h, Splitting.splitFrom_of_not_prefix, List.nil_append]
      intro i _
      rw [List.drop_drop]
      exact hnone (start + i) (Nat.le_add_right ..)
  | case2 start strs pos h ih =>
      have hfirst := (find_eq_some hsep).mp h
      obtain ⟨k, rfl⟩ := Nat.exists_eq_add_of_le hfirst.le
      have hbefore : ∀ i < k, ¬ sep <+: (str.drop start).drop i := by
        intro i hi
        rw [List.drop_drop]
        exact hfirst.first (start + i) (Nat.le_add_right ..) (by omega)
      have hoccurs : sep <+: (str.drop start).drop k := by
        rw [List.drop_drop]
        exact hfirst.occurs
      rw [splitLoop_some hsep h, ih, Splitting.splitFrom_of_first hsep hbefore hoccurs, List.append_assoc,
        List.singleton_append, List.drop_drop, Nat.add_sub_cancel_left, List.nil_append, Nat.add_assoc]

theorem split_eq (hsep : sep ≠ []) (str : Bytes) : split str sep = Splitting.splitFrom sep 0 [] str := by
  rw [split, dif_neg hsep, splitLoop_eq, List.nil_append, List.drop_zero]

/-- Where a piece starts: behind the pieces before it and their separators. -/
def pieceStart (sep : Bytes) (strs : List Bytes) (i : Nat) : Nat :=
  ((strs.take i).map fun p => p.length + sep.length).sum

/-- Each piece but the last one ends at the first separator behind its start. -/
def EndsFirst (str sep : Bytes) (strs : List Bytes) : Prop :=
  ∀ i p, i + 1 < strs.length → strs[i]? = some p →
    First str sep (pieceStart sep strs i) (pieceStart sep strs i + p.length)

theorem pieceStart_concat {strs : List Bytes} {i : Nat} (hi : i ≤ strs.length) (p : Bytes) :
    pieceStart sep (strs ++ [p]) i = pieceStart sep strs i := by
  rw [pieceStart, List.take_append_of_le_length hi, pieceStart]

theorem pieceStart_all (sep : Bytes) (strs : List Bytes) (p : Bytes) :
    pieceStart sep (strs ++ [p]) (strs ++ [p]).length = pieceStart sep strs strs.length + p.length + sep.length := by
  simp only [pieceStart, List.take_length, List.map_append, List.sum_append, List.map_cons, List.map_nil, List.sum_cons,
    List.sum_nil]
  omega

/-- The pieces that the loop has, each of them ended by a separator, and `start` behind the last of these. -/
structure Ended (str sep : Bytes) (start : Nat) (strs : List Bytes) : Prop where
  start : pieceStart sep strs strs.length = start
  first : ∀ i p, strs[i]? = some p → First str sep (pieceStart sep strs i) (pieceStart sep strs i + p.length)

theorem Ended.endsFirst {strs : List Bytes} (h : Ended str sep start strs) (rest : Bytes) :
    EndsFirst str sep (strs ++ [rest]) := by
  intro i p hi hp
  rw [List.length_append, List.length_singleton, Nat.add_lt_add_iff_right] at hi
  rw [List.getElem?_append_left hi] at hp
  rw [pieceStart_concat (Nat.le_of_lt hi)]
  exact h.first i p hp

theorem Ended.next {strs : List Bytes} (h : Ended str sep start strs) (hsep : sep ≠ [])
    (hfirst : First str sep start pos) :
    Ended str sep (pos + sep.length) (strs ++ [(str.drop start).take (pos - start)]) := by
  have hlen : ((str.drop start).take (pos - start)).length = pos - start := by
    have := hfirst.length_le hsep
    rw [List.length_take, List.length_drop]
    omega
  have hle := hfirst.le
  have hstart := h.start
  refine ⟨?_, ?_⟩
  · rw [pieceStart_all, hstart, hlen]
    omega
  · intro i p hp
    rcases Nat.lt_or_ge i strs.length with hi | hi
    · rw [List.getElem?_append_left hi] at hp
      rw [pieceStart_concat (Nat.le_of_lt hi)]
      exact h.first i p hp
    · have hlast := (List.getElem?_eq_some_iff.mp hp).1
      rw [List.length_append, List.length_singleton] at hlast
      obtain rfl : i = strs.length := by omega
      rw [List.getElem?_concat_length, Option.some.injEq] at hp
      rw [← hp, pieceStart_concat (Nat.le_refl _), hstart, hlen, Nat.add_sub_cancel' hle]
      exact hfirst

theorem splitLoop_endsFirst (hsep : sep ≠ []) {strs : List Bytes} (h : Ended str sep start strs) :
    EndsFirst str sep (splitLoop str sep hsep start strs) := by
  induction start, strs using splitLoop.induct str sep hsep with
  | case1 start strs hfind =>
      rw [splitLoop_none hsep hfind]
      exact h.endsFirst _
  | case2 start strs pos hfind ih =>
      rw [splitLoop_some hsep hfind]
      exact ih (h.next hsep ((find_eq_some hsep).mp hfind))

/-- The pieces joined are the string, none has the separator in it, and each ends at the first one behind its start. -/
theorem split_spec (str : Bytes) (hsep : sep ≠ []) :
    sep.intercalate (split str sep) = str ∧ (∀ p ∈ split str sep, ¬ sep <:+: p) ∧ EndsFirst str sep (split str sep) := by
  refine ⟨?_, ?_, ?_⟩
  · rw [split_eq hsep, Splitting.intercalate_splitFrom hsep, List.nil_append, List.drop_zero]
  · rw [split_eq hsep]
    exact Splitting.not_infix_splitFrom hsep fun i hi => absurd hi (Nat.not_lt_zero i)
  · rw [split, dif_neg hsep]
    exact splitLoop_endsFirst hsep ⟨rfl, fun i p hp => by cases hp⟩

/-- `aaa` at `aa`: the first two letters are the separator. -/
theorem split_spec_overlap :
    [0x61, 0x61].intercalate (split [0x61, 0x61, 0x61] [0x61, 0x61]) = [0x61, 0x61, 0x61] ∧
      split [0x61, 0x61, 0x61] [0x61, 0x61] = [[], [0x61]] :=
  ⟨(split_spec [0x61, 0x61, 0x61] (show [0x61, 0x61] ≠ [] by decide)).1, by rw [split_eq (by decide)]; decide⟩

end Dwhbll.Utils
