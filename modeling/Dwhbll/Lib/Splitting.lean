import Mathlib.Data.List.Basic

/-!
# Splitting at the occurrences of a pattern

The leftmost occurrences of a pattern that do not overlap, and what joining the pieces between them with another text
does to the occurrences of a key.
-/

namespace Splitting

variable {α : Type} {key pat piece sep xs ys : List α} {pieces : List (List α)} {skip : Nat}

/-! ## Occurrences -/

theorem exists_drop_of_infix (hkey : key ≠ []) (h : key <:+: xs) : ∃ i < xs.length, key <+: xs.drop i := by
  obtain ⟨s, t, rfl⟩ := h
  have hpos := List.length_pos_iff.mpr hkey
  refine ⟨s.length, by simp only [List.length_append]; omega, ?_⟩
  rw [List.append_assoc, List.drop_left]
  exact List.prefix_append key t

/-- An occurrence inside of `piece` would begin there. -/
theorem not_infix_of_not_prefix (hpat : pat ≠ []) (h : ∀ i < piece.length, ¬ pat <+: (piece ++ ys).drop i) :
    ¬ pat <:+: piece := by
  intro hin
  obtain ⟨i, hi, hstarts⟩ := exists_drop_of_infix hpat hin
  refine h i hi ?_
  rw [List.drop_append_of_le_length (Nat.le_of_lt hi)]
  exact hstarts.trans (List.prefix_append _ _)

/-- An occurrence of `key` is on one side of an element that is not in it. -/
theorem infix_of_infix_cons {x : α} (hx : x ∉ key) (h : key <:+: xs ++ x :: ys) : key <:+: xs ∨ key <:+: ys := by
  obtain ⟨s, t, h⟩ := h
  rcases List.append_eq_append_iff.mp h with ⟨u, hxs, -⟩ | ⟨u, hskey, ht⟩
  · exact .inl ⟨s, u, hxs.symm⟩
  · cases u with
    | nil => exact .inl ⟨s, [], by simpa using hskey⟩
    | cons y u =>
        obtain ⟨rfl, rfl⟩ := List.cons.inj ht
        rcases List.append_eq_append_iff.mp hskey with ⟨v, hxs, hkey⟩ | ⟨v, hs, hu⟩
        · exact absurd (hkey ▸ List.mem_append_right v List.mem_cons_self) hx
        · cases v with
          | nil =>
              rw [List.nil_append] at hu
              exact absurd (hu ▸ List.mem_cons_self) hx
          | cons z v =>
              obtain ⟨rfl, rfl⟩ := List.cons.inj hu
              exact .inr ⟨v, t, rfl⟩

/-- An occurrence of `key` is on one side of a text that shares no element with it. -/
theorem infix_of_infix_append (hsep : sep ≠ []) (hdisj : ∀ x ∈ sep, x ∉ key) (h : key <:+: xs ++ (sep ++ ys)) :
    key <:+: xs ∨ key <:+: ys := by
  induction sep generalizing xs with
  | nil => exact absurd rfl hsep
  | cons x sep ih =>
      rcases infix_of_infix_cons (hdisj x List.mem_cons_self) h with h | h
      · exact .inl h
      · by_cases hnil : sep = []
        · rw [hnil] at h
          exact .inr h
        · have hrest : key <:+: [] ++ (sep ++ ys) := h
          exact ih hnil (fun y hy => hdisj y (List.mem_cons_of_mem x hy)) hrest |>.imp_left fun h =>
            h.trans List.nil_infix

theorem intercalate_cons (h : pieces ≠ []) :
    sep.intercalate (piece :: pieces) = piece ++ (sep ++ sep.intercalate pieces) := by
  cases pieces with
  | nil => exact absurd rfl h
  | cons p pieces => rw [List.intercalate_cons_cons, List.append_assoc]

/-- Joining with such a text makes no occurrences of `key`. -/
theorem not_infix_intercalate (hkey : key ≠ []) (hsep : sep ≠ []) (hdisj : ∀ x ∈ sep, x ∉ key)
    (h : ∀ p ∈ pieces, ¬ key <:+: p) : ¬ key <:+: sep.intercalate pieces := by
  induction pieces with
  | nil => simpa using hkey
  | cons p pieces ih =>
      have hp := h p List.mem_cons_self
      have hrest := ih fun q hq => h q (List.mem_cons_of_mem p hq)
      by_cases hnil : pieces = []
      · rwa [hnil, List.intercalate_singleton]
      · rw [intercalate_cons hnil]
        exact fun hin => (infix_of_infix_append hsep hdisj hin).elim hp hrest

/-- What is joined is in the result. -/
theorem infix_intercalate (hp : piece ∈ pieces) : piece <:+: sep.intercalate pieces := by
  induction pieces with
  | nil => cases hp
  | cons p pieces ih =>
      by_cases hnil : pieces = []
      · rw [hnil, List.mem_singleton] at hp
        exact ⟨[], [], by simp [hnil, hp, List.intercalate_singleton]⟩
      · rw [intercalate_cons hnil]
        rcases List.mem_cons.mp hp with rfl | hp
        · exact (List.prefix_append ..).isInfix
        · exact (ih hp).trans ((List.suffix_append ..).trans (List.suffix_append ..)).isInfix

/-! ## The pieces between occurrences -/

variable [DecidableEq α]

/-- The pieces of `xs` behind its first `skip` elements, where `piece` stands in front of them. -/
def splitFrom (pat : List α) : (skip : Nat) → (piece xs : List α) → List (List α)
  | _, piece, [] => [piece]
  | skip + 1, piece, _ :: xs => splitFrom pat skip piece xs
  | 0, piece, x :: xs =>
      if pat <+: x :: xs then piece :: splitFrom pat (pat.length - 1) [] xs else splitFrom pat 0 (piece ++ [x]) xs

/-- The pieces between the occurrences. An empty list has no pieces, and an empty pattern occurs between any two
elements. -/
def split (pat xs : List α) : List (List α) :=
  if xs = [] then [] else if pat = [] then xs.map fun x => [x] else splitFrom pat 0 [] xs

/-- The leftmost occurrences of `pat` that do not overlap are replaced. -/
def replace (pat new xs : List α) : List α := new.intercalate (split pat xs)

theorem splitFrom_ne_nil (pat : List α) (skip : Nat) (piece xs : List α) : splitFrom pat skip piece xs ≠ [] := by
  induction xs generalizing skip piece with
  | nil => simp [splitFrom]
  | cons x xs ih =>
      cases skip with
      | zero =>
          rw [splitFrom]
          split
          · exact List.cons_ne_nil _ _
          · exact ih _ _
      | succ skip => exact ih _ _

theorem intercalate_splitFrom (hpat : pat ≠ []) :
    pat.intercalate (splitFrom pat skip piece xs) = piece ++ xs.drop skip := by
  induction xs generalizing skip piece with
  | nil => simp [splitFrom]
  | cons x xs ih =>
      cases skip with
      | zero =>
          rw [splitFrom]
          split
          · rename_i hstarts
            obtain ⟨ys, hys⟩ := hstarts
            obtain ⟨y, pat, rfl⟩ := List.exists_cons_of_ne_nil hpat
            obtain ⟨rfl, rfl⟩ := List.cons.inj hys
            rw [intercalate_cons (splitFrom_ne_nil _ _ _ _), ih]
            simp
          · rw [ih]
            simp
      | succ skip => exact ih

theorem intercalate_split (hpat : pat ≠ []) (xs : List α) : pat.intercalate (Splitting.split pat xs) = xs := by
  unfold Splitting.split
  split
  · rename_i h
    rw [h, List.intercalate_nil]
  · rw [intercalate_splitFrom hpat]
    rfl

theorem not_infix_splitFrom (hpat : pat ≠ []) (h : ∀ i < piece.length, ¬ pat <+: (piece ++ xs.drop skip).drop i) :
    ∀ p ∈ splitFrom pat skip piece xs, ¬ pat <:+: p := by
  induction xs generalizing skip piece with
  | nil => simpa [splitFrom] using not_infix_of_not_prefix hpat h
  | cons x xs ih =>
      cases skip with
      | zero =>
          rw [splitFrom]
          split
          · intro p hp
            rcases List.mem_cons.mp hp with rfl | hp
            · exact not_infix_of_not_prefix hpat h
            · exact ih (by simp) p hp
          · rename_i hno
            refine ih fun i hi => ?_
            rw [List.length_append, List.length_singleton] at hi
            rw [List.drop_zero, List.append_assoc]
            by_cases hi' : i < piece.length
            · exact h i hi'
            · rw [show i = piece.length by omega, List.drop_left]
              exact hno
      | succ skip => exact ih h

theorem not_infix_split (hpat : pat ≠ []) (xs : List α) : ∀ p ∈ Splitting.split pat xs, ¬ pat <:+: p := by
  unfold Splitting.split
  split
  · simp
  · exact not_infix_splitFrom hpat (by simp)

theorem splitFrom_eq_drop (pat : List α) (skip : Nat) (piece xs : List α) :
    splitFrom pat skip piece xs = splitFrom pat 0 piece (xs.drop skip) := by
  induction xs generalizing skip with
  | nil => cases skip <;> simp [splitFrom]
  | cons x xs ih =>
      cases skip with
      | zero => rfl
      | succ skip => exact ih skip

theorem splitFrom_of_not_prefix (h : ∀ i < xs.length, ¬ pat <+: xs.drop i) :
    splitFrom pat 0 piece xs = [piece ++ xs] := by
  induction xs generalizing piece with
  | nil => rw [splitFrom, List.append_nil]
  | cons x xs ih =>
      have hrest : ∀ i < xs.length, ¬ pat <+: xs.drop i := fun i hi => h (i + 1) (Nat.succ_lt_succ hi)
      have hfirst : ¬ pat <+: x :: xs := h 0 (Nat.succ_pos _)
      rw [splitFrom, if_neg hfirst, ih hrest, List.append_assoc, List.singleton_append]

/-- The first piece ends at the first occurrence. -/
theorem splitFrom_of_first (hpat : pat ≠ []) {k : Nat} (h : ∀ i < k, ¬ pat <+: xs.drop i) (hk : pat <+: xs.drop k) :
    splitFrom pat 0 piece xs = (piece ++ xs.take k) :: splitFrom pat 0 [] (xs.drop (k + pat.length)) := by
  obtain ⟨x, xs, rfl⟩ : ∃ y ys, xs = y :: ys := by
    refine List.exists_cons_of_ne_nil fun hnil => hpat ?_
    rwa [hnil, List.drop_nil, List.prefix_nil] at hk
  induction k generalizing piece x xs with
  | zero =>
      obtain ⟨y, pat, rfl⟩ := List.exists_cons_of_ne_nil hpat
      rw [List.drop_zero] at hk
      rw [splitFrom, if_pos hk, splitFrom_eq_drop, List.take_zero, List.append_nil, Nat.zero_add, List.length_cons,
        List.drop_succ_cons, Nat.add_sub_cancel]
  | succ k ih =>
      obtain ⟨y, ys, hxs⟩ : ∃ y ys, xs = y :: ys := by
        refine List.exists_cons_of_ne_nil fun hnil => hpat ?_
        rwa [hnil, List.drop_succ_cons, List.drop_nil, List.prefix_nil] at hk
      subst hxs
      have hfirst : ¬ pat <+: x :: y :: ys := h 0 (Nat.succ_pos k)
      rw [splitFrom, if_neg hfirst, ih y ys (fun i hi => h (i + 1) (Nat.succ_lt_succ hi)) hk,
        List.append_assoc, List.singleton_append, List.take_succ_cons, Nat.add_right_comm, List.drop_succ_cons]

/-! ## Replacing -/

variable {new : List α}

/-- The pattern is gone. -/
theorem not_infix_replace (hpat : pat ≠ []) (hnew : new ≠ []) (hdisj : ∀ x ∈ new, x ∉ pat) (xs : List α) :
    ¬ pat <:+: replace pat new xs :=
  not_infix_intercalate hpat hnew hdisj (not_infix_split hpat xs)

/-- A key that is not there does not appear. -/
theorem not_infix_replace_of_not_infix (hkey : key ≠ []) (hpat : pat ≠ []) (hnew : new ≠ [])
    (hdisj : ∀ x ∈ new, x ∉ key) (h : ¬ key <:+: xs) : ¬ key <:+: replace pat new xs := by
  refine not_infix_intercalate hkey hnew hdisj fun p hp hin => h (hin.trans ?_)
  have hinside : p <:+: pat.intercalate (split pat xs) := infix_intercalate hp
  rwa [intercalate_split hpat] at hinside

end Splitting
