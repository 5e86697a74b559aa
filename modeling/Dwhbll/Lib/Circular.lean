/-!
# Circular storage

The `n` cells of a list that start at an index and wrap around its end, and how this window changes
when a cell next to it is written or one of its ends moves.
-/

namespace Circular

variable {T : Type}

/-- An index that is past the end by less than one lap wraps by one subtraction. -/
theorem add_mod_wrap {h i n : Nat} (hh : h < n) (hi : i ≤ n) :
    (h + i) % n = if h + i < n then h + i else h + i - n := by
  split
  · exact Nat.mod_eq_of_lt ‹_›
  · rw [Nat.mod_eq_sub_mod (by omega), Nat.mod_eq_of_lt (by omega)]

theorem add_mod_ne {h i j n : Nat} (hh : h < n) (hij : i < j) (hj : j < n) :
    (h + i) % n ≠ (h + j) % n := by
  rw [add_mod_wrap hh (by omega), add_mod_wrap hh (by omega)]
  split <;> split <;> omega

/-- Indices of one lap are told apart by their places. -/
theorem mod_inj {g j k n : Nat} (hj : g ≤ j) (hj' : j < g + n) (hk : g ≤ k) (hk' : k < g + n)
    (h : j % n = k % n) : j = k := by
  rcases Nat.le_total j k with hle | hle
  · have hd : n ∣ k - j := Nat.dvd_of_mod_eq_zero (Nat.sub_mod_eq_zero_of_mod_eq h.symm)
    have := Nat.eq_zero_of_dvd_of_lt hd (by omega)
    omega
  · have hd : n ∣ j - k := Nat.dvd_of_mod_eq_zero (Nat.sub_mod_eq_zero_of_mod_eq h)
    have := Nat.eq_zero_of_dvd_of_lt hd (by omega)
    omega

/-- The `n` cells from `head` on, modulo the length. -/
def window [Inhabited T] (xs : List T) (head n : Nat) : List T :=
  (List.range n).map fun i => xs.getD ((head + i) % xs.length) default

variable [Inhabited T]

@[simp] theorem window_length (xs : List T) (head n : Nat) : (window xs head n).length = n := by
  simp [window]

theorem window_getElem? {xs : List T} {head n i : Nat} (hh : head < xs.length) (hi : i < n) :
    (window xs head n)[i]? = xs[(head + i) % xs.length]? := by
  have hlt : (head + i) % xs.length < xs.length := Nat.mod_lt _ (by omega)
  simp [window, hi, hlt]

theorem window_succ (xs : List T) (head n : Nat) :
    window xs head (n + 1) = window xs head n ++ [xs.getD ((head + n) % xs.length) default] := by
  simp [window, List.range_succ]

theorem window_succ_front {xs : List T} {head : Nat} (hh : head < xs.length) (n : Nat) :
    window xs head (n + 1) = xs.getD head default :: window xs ((head + 1) % xs.length) n := by
  simp only [window, List.range_succ_eq_map, List.map_cons, List.map_map, Nat.add_zero,
    Nat.mod_eq_of_lt hh, List.cons.injEq, true_and]
  refine List.map_congr_left fun i _ => ?_
  simp only [Function.comp, Nat.mod_add_mod]
  rw [show head + (i + 1) = head + 1 + i by omega]

/-- Two storages with the same cells at the places of the window have the same window. -/
theorem window_congr {xs ys : List T} {h h' n : Nat}
    (hxy : ∀ i < n, xs.getD ((h + i) % xs.length) default = ys.getD ((h' + i) % ys.length) default) :
    window xs h n = window ys h' n :=
  List.map_congr_left fun i hi => hxy i (List.mem_range.mp hi)

theorem window_set_of_ne {xs : List T} {head n j : Nat} (x : T)
    (hj : ∀ i < n, (head + i) % xs.length ≠ j) : window (xs.set j x) head n = window xs head n := by
  refine window_congr fun i hi => ?_
  simp [List.getD_eq_getElem?_getD, List.getElem?_set_ne (hj i hi).symm]

/-- Writing the cell behind the window and taking it in appends to the window. -/
theorem window_set_back {xs : List T} {head n : Nat} (x : T) (hh : head < xs.length)
    (hn : n < xs.length) :
    window (xs.set ((head + n) % xs.length) x) head (n + 1) = window xs head n ++ [x] := by
  rw [window_succ, window_set_of_ne x fun i hi => add_mod_ne hh hi hn]
  have hlt : (head + n) % xs.length < xs.length := Nat.mod_lt _ (by omega)
  simp [List.getD_eq_getElem?_getD, hlt]

/-- Writing the cell before the window and taking it in prepends to the window. -/
theorem window_set_front {xs : List T} {head n : Nat} (x : T) (hh : head < xs.length)
    (hn : n < xs.length) :
    window (xs.set head x) head (n + 1) = x :: window xs ((head + 1) % xs.length) n := by
  rw [window_succ_front (by simpa using hh), List.length_set, window_set_of_ne x]
  · simp [List.getD_eq_getElem?_getD, hh]
  · intro i hi
    rw [Nat.mod_add_mod, show head + 1 + i = head + (i + 1) by omega]
    have h := add_mod_ne (i := 0) (j := i + 1) hh (by omega) (by omega)
    rw [Nat.add_zero, Nat.mod_eq_of_lt hh] at h
    exact h.symm

theorem window_pred (xs : List T) (head n : Nat) :
    window xs head (n - 1) = (window xs head n).dropLast := by
  cases n with
  | zero => rfl
  | succ n => rw [window_succ]; simp

theorem window_pred_front {xs : List T} {head : Nat} (hh : head < xs.length) (n : Nat) :
    window xs ((head + 1) % xs.length) (n - 1) = (window xs head n).tail := by
  cases n with
  | zero => rfl
  | succ n => rw [window_succ_front hh]; rfl

/-- A window that starts at the first cell is a part of the list. -/
theorem window_at_zero {xs : List T} {n : Nat} (hn : n ≤ xs.length) : window xs 0 n = xs.take n := by
  refine List.ext_getElem (by simp; omega) fun i h1 h2 => ?_
  have hi : i < n := by simpa using h1
  simp [window, Nat.mod_eq_of_lt (show i < xs.length by omega), List.getD_eq_getElem?_getD,
    show i < xs.length by omega]

/-! ## What is left of earlier laps -/

/-- The cells after the elements of `log` were written one behind the other, from the first cell on: in each there is the
last element that was written to it. -/
structure Logged (n : Nat) (xs log : List T) : Prop where
  length : xs.length = n
  written : ∀ (i : Nat) x, log[i]? = some x → log.length ≤ i + n → xs[i % n]? = some x
  untouched : ∀ j, log.length ≤ j → j < n → xs[j]? = some default

variable {n : Nat} {xs log : List T}

theorem Logged.new (n : Nat) : Logged n (List.replicate n (default : T)) [] where
  length := List.length_replicate
  written i x hx := by cases hx
  untouched j _ hj := by rw [List.getElem?_replicate, if_pos hj]

theorem Logged.push (h : Logged n xs log) (hn : 0 < n) (x : T) : Logged n (xs.set (log.length % n) x) (log ++ [x]) := by
  have hlt : log.length % n < xs.length := by
    rw [h.length]
    exact Nat.mod_lt _ hn
  refine ⟨by rw [List.length_set, h.length], fun i y hy hle => ?_, fun j hle hj => ?_⟩
  · rw [List.length_append, List.length_singleton] at hle
    rw [List.getElem?_append] at hy
    split at hy
    · rename_i hi
      have hne : log.length % n ≠ i % n := fun heq => by
        have := mod_inj (g := i) (by omega) (by omega) (Nat.le_refl i) (by omega) heq
        omega
      rw [List.getElem?_set_ne hne]
      exact h.written i y hy (by omega)
    · rename_i hi
      have hi0 : i = log.length := by
        have := (List.getElem?_eq_some_iff.mp hy).1
        rw [List.length_singleton] at this
        omega
      subst hi0
      rw [Nat.sub_self] at hy
      rw [List.getElem?_set_self hlt]
      exact hy
  · rw [List.length_append, List.length_singleton] at hle
    rw [Nat.mod_eq_of_lt (by omega), List.getElem?_set_ne (by omega)]
    exact h.untouched j (by omega) hj

/-- The cell that is written next has the element of one lap before. -/
theorem Logged.next (h : Logged n xs log) (hn : 0 < n) :
    xs[log.length % n]? = if n ≤ log.length then log[log.length - n]? else some default := by
  split
  · rename_i hle
    have hlt : log.length - n < log.length := by omega
    have hwritten := h.written (log.length - n) _ (List.getElem?_eq_getElem hlt) (by omega)
    rw [← Nat.mod_eq_sub_mod hle] at hwritten
    rw [hwritten, List.getElem?_eq_getElem hlt]
  · rename_i hle
    rw [Nat.mod_eq_of_lt (by omega)]
    exact h.untouched _ (Nat.le_refl _) (by omega)

end Circular
