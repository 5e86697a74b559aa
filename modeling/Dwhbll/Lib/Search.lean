import Mathlib.Data.List.Perm.Basic

/-!
# Searching in partitioned lists

The halving of `std::lower_bound`, and what stands before and behind the place it finds.
-/

namespace Search

variable {α : Type} {p : α → Bool} {r : α → α → Prop} {xs : List α} {k : Nat}

/-- The first of the `len` elements from `first` on that does not have `p`. -/
def lowerBoundLoop (p : α → Bool) (xs : List α) : (fuel first len : Nat) → Nat
  | 0, first, _ => first
  | fuel + 1, first, len =>
      if len = 0 then first
      else
        match xs[first + len / 2]? with
        | none => first
        | some x =>
            if p x then lowerBoundLoop p xs fuel (first + len / 2 + 1) (len - len / 2 - 1)
            else lowerBoundLoop p xs fuel first (len / 2)

/-- `std::lower_bound`. Each round at least halves the length, so that there are no more rounds than elements. -/
def lowerBound (p : α → Bool) (xs : List α) : Nat := lowerBoundLoop p xs xs.length 0 xs.length

/-- The elements that have `p` are the first `k`. -/
def PartitionedAt (p : α → Bool) (xs : List α) (k : Nat) : Prop :=
  ∀ i x, xs[i]? = some x → (p x = true ↔ i < k)

theorem lowerBoundLoop_eq (h : PartitionedAt p xs k) {fuel first len : Nat} (hfirst : first ≤ k)
    (hk : k ≤ first + len) (hlen : first + len ≤ xs.length) (hfuel : len ≤ fuel) :
    lowerBoundLoop p xs fuel first len = k := by
  induction fuel generalizing first len with
  | zero =>
      rw [lowerBoundLoop]
      omega
  | succ fuel ih =>
      rw [lowerBoundLoop]
      split
      · omega
      · have hlt : first + len / 2 < xs.length := by omega
        have hi := h _ _ (List.getElem?_eq_getElem hlt)
        rw [List.getElem?_eq_getElem hlt]
        simp only
        split
        · rename_i hp
          have := hi.mp hp
          exact ih (by omega) (by omega) (by omega) (by omega)
        · rename_i hp
          have := mt hi.mpr hp
          exact ih hfirst (by omega) (by omega) (by omega)

/-- No element that has `p` stands behind one that does not. -/
def Partitioned (p : α → Bool) (xs : List α) : Prop := xs.Pairwise fun x y => p y = true → p x = true

theorem Partitioned.exists_at (h : Partitioned p xs) : ∃ k ≤ xs.length, PartitionedAt p xs k := by
  induction xs with
  | nil => exact ⟨0, Nat.le_refl _, fun i x hx => by cases hx⟩
  | cons y ys ih =>
      obtain ⟨hy, hys⟩ := List.pairwise_cons.mp h
      obtain ⟨k, hk, hat⟩ := ih hys
      cases hp : p y with
      | true =>
          refine ⟨k + 1, Nat.succ_le_succ hk, fun i x hx => ?_⟩
          cases i with
          | zero =>
              cases hx
              simp [hp]
          | succ i => rw [hat i x hx, Nat.succ_lt_succ_iff]
      | false =>
          refine ⟨0, Nat.zero_le _, fun i x hx => ?_⟩
          have hx' : p x ≠ true := by
            rcases List.mem_cons.mp (List.mem_of_getElem? hx) with rfl | hmem
            · simp [hp]
            · exact fun hpx => absurd (hy x hmem hpx) (by simp [hp])
          simp [hx']

theorem Partitioned.at_lowerBound (h : Partitioned p xs) : PartitionedAt p xs (lowerBound p xs) := by
  obtain ⟨k, hk, hat⟩ := h.exists_at
  rwa [lowerBound, lowerBoundLoop_eq hat (Nat.zero_le _) (by omega) (by omega) (Nat.le_refl _)]

theorem Partitioned.of_mem_take (h : Partitioned p xs) {x : α} (hx : x ∈ xs.take (lowerBound p xs)) :
    p x = true := by
  obtain ⟨i, hi, rfl⟩ := List.mem_take_iff_getElem.mp hx
  exact (h.at_lowerBound i _ (List.getElem?_eq_getElem _)).mpr (by omega)

theorem Partitioned.of_mem_drop (h : Partitioned p xs) {x : α} (hx : x ∈ xs.drop (lowerBound p xs)) :
    p x = false := by
  obtain ⟨i, hi, rfl⟩ := List.mem_drop_iff_getElem.mp hx
  rw [Nat.add_comm] at hi
  have hp := mt (h.at_lowerBound _ _ (List.getElem?_eq_getElem hi)).mp (by omega)
  exact Bool.eq_false_iff.mpr hp

/-! ## Inserting -/

/-- `list::insert` at the position `k`. -/
def insertAt (k : Nat) (x : α) (xs : List α) : List α := xs.take k ++ x :: xs.drop k

theorem insertAt_perm (k : Nat) (x : α) (xs : List α) : (insertAt k x xs).Perm (x :: xs) := by
  have h : (insertAt k x xs).Perm (x :: (xs.take k ++ xs.drop k)) := List.perm_middle
  rwa [List.take_append_drop] at h

/-- `list::insert` of all of `ys` at the position `k`. -/
def insertAllAt (k : Nat) (ys xs : List α) : List α := xs.take k ++ (ys ++ xs.drop k)

theorem insertAllAt_pairwise {ys : List α} (h : xs.Pairwise r) (hys : ys.Pairwise r)
    (hbefore : ∀ x ∈ xs.take k, ∀ y ∈ ys, r x y) (hbehind : ∀ y ∈ ys, ∀ x ∈ xs.drop k, r y x) :
    (insertAllAt k ys xs).Pairwise r := by
  rw [← List.take_append_drop k xs, List.pairwise_append] at h
  obtain ⟨htake, hdrop, hacross⟩ := h
  refine List.pairwise_append.mpr ⟨htake, List.pairwise_append.mpr ⟨hys, hdrop, hbehind⟩, fun a ha b hb => ?_⟩
  rcases List.mem_append.mp hb with hb | hb
  · exact hbefore a ha b hb
  · exact hacross a ha b hb

theorem insertAt_pairwise {x : α} (h : xs.Pairwise r) (hbefore : ∀ y ∈ xs.take k, r y x)
    (hbehind : ∀ y ∈ xs.drop k, r x y) : (insertAt k x xs).Pairwise r :=
  insertAllAt_pairwise h (List.pairwise_singleton r x) (by simpa using hbefore) (by simpa using hbehind)

end Search
