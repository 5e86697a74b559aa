import Mathlib.Data.List.TakeWhile

/-!
# Splitting at an element

The pieces of a list between the occurrences of an element, where nothing behind the last occurrence is no piece: the
element is an end of a piece and not what stands between two.
-/

namespace Pieces

variable {α : Type} [DecidableEq α] {a : α} {xs ys : List α}

/-- The pieces of `xs` that end at an `a`, and what is behind the last `a` if that is not empty. -/
def pieces (a : α) (xs : List α) : List (List α) :=
  if (xs.splitOn a).getLast? = some [] then (xs.splitOn a).dropLast else xs.splitOn a

theorem pieces_nil (a : α) : pieces a [] = [] := rfl

theorem pieces_of_not_mem (hne : xs ≠ []) (h : a ∉ xs) : pieces a xs = [xs] := by
  rw [pieces, List.splitOn_eq_singleton h, if_neg]
  simpa using hne

theorem pieces_append_cons (h : a ∉ xs) (ys : List α) : pieces a (xs ++ a :: ys) = xs :: pieces a ys := by
  obtain ⟨p, ps, hps⟩ := List.exists_cons_of_ne_nil (List.splitOn_ne_nil a ys)
  rw [pieces, pieces, List.splitOn_append_cons_self_of_not_mem h, hps, List.getLast?_cons_cons, List.dropLast_cons_cons]
  split <;> rfl

/-- The first piece, and those behind the first occurrence. -/
theorem pieces_eq_cons (hne : xs ≠ []) :
    pieces a xs = xs.takeWhile (· ≠ a) :: pieces a (xs.dropWhile (· ≠ a)).tail := by
  by_cases hmem : a ∈ xs
  · obtain ⟨us, vs, rfl, hus⟩ := List.eq_append_cons_of_mem hmem
    have hall : ∀ u ∈ us, decide (u ≠ a) = true := fun u hu => decide_eq_true fun heq => hus (heq ▸ hu)
    rw [pieces_append_cons hus, List.takeWhile_append_of_pos hall, List.dropWhile_append_of_pos hall,
      List.takeWhile_cons_of_neg (by simp), List.dropWhile_cons_of_neg (by simp), List.append_nil, List.tail_cons]
  · have hall : ∀ x ∈ xs, decide (x ≠ a) = true := fun x hx => decide_eq_true fun heq => hmem (heq ▸ hx)
    rw [pieces_of_not_mem hne hmem, List.takeWhile_eq_self_iff.mpr hall, List.dropWhile_eq_nil_iff.mpr hall, List.tail_nil,
      pieces_nil]

/-- A list has no elements, or it is one piece, or its first piece ends at the first occurrence. -/
@[elab_as_elim]
theorem pieces_induction (a : α) {motive : List α → Prop} (nil : motive [])
    (last : ∀ xs, xs ≠ [] → a ∉ xs → motive xs)
    (more : ∀ xs ys, a ∉ xs → motive ys → motive (xs ++ a :: ys)) (xs : List α) : motive xs := by
  by_cases hmem : a ∈ xs
  · obtain ⟨us, vs, hxs, hus⟩ := List.eq_append_cons_of_mem hmem
    have hlt : vs.length < xs.length := by
      rw [hxs, List.length_append, List.length_cons]
      omega
    exact hxs ▸ more us vs hus (pieces_induction a nil last more vs)
  · by_cases hne : xs = []
    · exact hne ▸ nil
    · exact last xs hne hmem
termination_by xs.length

end Pieces
