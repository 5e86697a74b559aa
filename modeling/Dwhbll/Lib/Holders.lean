import Mathlib.Data.List.Perm.Basic

/-!
# Things in the hands of holders

Each holder of a list has some things in its hands. What a change of one of the holders does to the things that are held
in all, and what it does when one of them hands over what it has to another.
-/

namespace Holders

variable {α β : Type} {f : α → List β} {ws : List α} {x y x' y' : α} {i j : Nat}

def held (f : α → List β) (ws : List α) : List β := ws.flatMap f

theorem held_concat (f : α → List β) (ws : List α) (x : α) : held f (ws ++ [x]) = held f ws ++ f x := by
  rw [held, List.flatMap_append, List.flatMap_singleton, held]

theorem held_perm_of_perm {vs : List α} (h : vs.Perm ws) : (held f vs).Perm (held f ws) := h.flatMap_right f

/-- One holder is put in the place of another. -/
theorem held_set (h : ws[i]? = some x) (y : α) : (f x ++ held f (ws.set i y)).Perm (f y ++ held f ws) := by
  obtain ⟨hi, rfl⟩ := List.getElem?_eq_some_iff.mp h
  have hset : (held f (ws.set i y)).Perm (f y ++ held f (ws.eraseIdx i)) :=
    held_perm_of_perm (List.set_perm_cons_eraseIdx hi y)
  have hget : (f ws[i] ++ held f (ws.eraseIdx i)).Perm (held f ws) :=
    held_perm_of_perm (List.getElem_cons_eraseIdx_perm hi)
  exact (hset.append_left _).trans ((List.perm_append_comm_assoc ..).trans (hget.append_left _))

/-- The holder at `j` takes what the one at `i` has, and nobody has what it had before. -/
theorem held_move (hi : ws[i]? = some x) (hj : ws[j]? = some y) (hij : j ≠ i) (hx : f x' = []) (hy : f y' = f x) :
    (f y ++ held f ((ws.set j y').set i x')).Perm (held f ws) := by
  have hi' : (ws.set j y')[i]? = some x := by rw [List.getElem?_set_ne hij, hi]
  have htaken := held_set (f := f) hj y'
  have hleft := held_set (f := f) hi' x'
  rw [hy] at htaken
  rw [hx, List.nil_append] at hleft
  refine (List.perm_append_left_iff (f x)).mp ?_
  exact (List.perm_append_comm_assoc ..).trans ((hleft.append_left _).trans htaken)

theorem held_swap (hi : ws[i]? = some x) (hj : ws[j]? = some y) (hij : j ≠ i) (hx : f x' = f y) (hy : f y' = f x) :
    (held f ((ws.set j y').set i x')).Perm (held f ws) := by
  have hi' : (ws.set j y')[i]? = some x := by rw [List.getElem?_set_ne hij, hi]
  have htaken := held_set (f := f) hj y'
  have hgiven := held_set (f := f) hi' x'
  rw [hy] at htaken
  rw [hx] at hgiven
  exact (List.perm_append_left_iff (f x)).mp (hgiven.trans htaken)

end Holders
