import Mathlib.Algebra.GroupWithZero.Nat
import Mathlib.Data.List.TakeWhile

/-!
# Lists
-/

namespace Lists

variable {α : Type}

/-- A prefix may be extended by the element that follows it. -/
theorem concat_prefix {xs ys : List α} {v : α} (h : xs <+: ys) (hv : ys[xs.length]? = some v) :
    xs ++ [v] <+: ys := by
  obtain ⟨zs, rfl⟩ := h
  rw [List.getElem?_append_right (Nat.le_refl _), Nat.sub_self] at hv
  cases zs with
  | nil => cases hv
  | cons z zs =>
      simp only [List.getElem?_cons_zero, Option.some.injEq] at hv
      subst z
      exact ⟨zs, by simp⟩

theorem getElem?_of_prefix {xs ys : List α} (h : xs <+: ys) {i : Nat} {v : α} (hv : xs[i]? = some v) :
    ys[i]? = some v := by
  obtain ⟨zs, rfl⟩ := h
  rw [List.getElem?_append_left (List.getElem?_eq_some_iff.mp hv).1]
  exact hv

theorem length_takeWhile_ne_lt [DecidableEq α] {xs : List α} {x : α} (h : x ∈ xs) :
    (xs.takeWhile (· ≠ x)).length < xs.length := by
  induction xs with
  | nil => cases h
  | cons y ys ih =>
      by_cases hy : y = x
      · simp [hy]
      · have := ih (List.mem_of_ne_of_mem (Ne.symm hy) h)
        simpa [hy] using this

/-! ## What stands at a position -/

variable {xs ys zs : List α} {y : α} {i : Nat}

theorem getElem?_of_drop (h : xs.drop i = y :: ys) : xs[i]? = some y := by
  have h0 : (xs.drop i)[0]? = some y := by rw [h]; rfl
  rwa [List.getElem?_drop, Nat.add_zero] at h0

theorem lt_of_drop (h : xs.drop i = y :: ys) : i < xs.length :=
  (List.getElem?_eq_some_iff.mp (getElem?_of_drop h)).1

theorem drop_add_of_drop (h : xs.drop i = ys ++ zs) : xs.drop (i + ys.length) = zs := by
  rw [← List.drop_drop, h, List.drop_left]

theorem drop_succ_of_drop (h : xs.drop i = y :: ys) : xs.drop (i + 1) = ys := by
  rw [← List.drop_drop, h, List.drop_one, List.tail_cons]

theorem forall_getElem?_concat {P : Nat → α → Prop} :
    (∀ i x, (xs ++ [y])[i]? = some x → P i x) ↔ (∀ i x, xs[i]? = some x → P i x) ∧ P xs.length y := by
  constructor
  · intro h
    refine ⟨fun i x hx => h i x ?_, h xs.length y (by simp)⟩
    rw [List.getElem?_append_left (List.getElem?_eq_some_iff.mp hx).1, hx]
  · rintro ⟨hxs, hy⟩ i x hx
    rcases Nat.lt_or_ge i xs.length with hi | hi
    · rw [List.getElem?_append_left hi] at hx
      exact hxs i x hx
    · rw [List.getElem?_append_right hi, List.getElem?_singleton] at hx
      split at hx
      · rename_i h0
        cases hx
        rwa [show i = xs.length by omega]
      · cases hx

/-- The first of the elements that are left of `ys` is replaced. -/
theorem set_append_drop {xs ys : List α} {n : Nat} (hx : xs.length = n) (hn : n < ys.length) (v : α) :
    (xs ++ ys.drop n).set n v = (xs ++ [v]) ++ ys.drop (n + 1) := by
  subst hx
  rw [List.set_append_right _ _ (Nat.le_refl _), Nat.sub_self, List.drop_eq_getElem_cons hn, List.set_cons_zero,
    List.append_assoc, List.singleton_append]

theorem forall_mem_set {P : α → Prop} (h : ∀ x ∈ xs, P x) (hi : i < xs.length) (v : α) :
    (∀ x ∈ xs.set i v, P x) ↔ P v := by
  constructor
  · intro hset
    exact hset v (List.mem_set hi v)
  · intro hv x hx
    rcases List.mem_or_eq_of_mem_set hx with hx | rfl
    · exact h x hx
    · exact hv

theorem forall_mem_set_set {P : α → Prop} {j : Nat} (h : ∀ x ∈ xs, P x) (hi : i < xs.length) (hj : j < xs.length)
    (hij : i ≠ j) (u v : α) : (∀ x ∈ (xs.set i u).set j v, P x) ↔ P u ∧ P v := by
  constructor
  · intro hset
    have hu : ((xs.set i u).set j v)[i]? = some u := by
      rw [List.getElem?_set_ne (Ne.symm hij), List.getElem?_set_self hi]
    exact ⟨hset u (List.mem_of_getElem? hu), hset v (List.mem_set (by simpa using hj) v)⟩
  · rintro ⟨hu, hv⟩
    rw [forall_mem_set _ (by simpa using hj)]
    · exact hv
    · exact (forall_mem_set h hi u).mpr hu

/-- Two functions that differ at most in the element at `i`. -/
theorem map_set_of_eraseIdx {β : Type} {f g : α → β} (h : ∀ x ∈ xs.eraseIdx i, f x = g x) (b : β) :
    (xs.map f).set i b = (xs.map g).set i b := by
  induction xs generalizing i with
  | nil => rfl
  | cons x xs ih =>
      cases i with
      | zero =>
          rw [List.eraseIdx_zero, List.tail_cons] at h
          rw [List.map_cons, List.map_cons, List.set_cons_zero, List.set_cons_zero, List.map_congr_left h]
      | succ i =>
          rw [List.eraseIdx_cons_succ, List.forall_mem_cons] at h
          rw [List.map_cons, List.map_cons, List.set_cons_succ, List.set_cons_succ, h.1, ih h.2]

/-- A sum over a list of which one element is changed. -/
theorem sum_map_modify {xs : List α} {k : Nat} {x : α} (f : α → Nat) (g : α → α) (h : xs[k]? = some x) :
    ((xs.modify k g).map f).sum + f x = (xs.map f).sum + f (g x) := by
  induction xs generalizing k with
  | nil => cases h
  | cons y xs ih =>
      cases k with
      | zero =>
          cases h
          simp only [List.modify_zero_cons, List.map_cons, List.sum_cons]
          omega
      | succ k =>
          have := ih h
          simp only [List.modify_succ_cons, List.map_cons, List.sum_cons]
          omega

/-! ## Lists of which a beginning is kept -/

theorem flatten_mapIdx_sublist {g : Nat → List α → List α} (hg : ∀ k b, g k b <+: b) (bs : List (List α)) :
    (bs.mapIdx g).flatten.Sublist bs.flatten := by
  induction bs generalizing g with
  | nil => exact .slnil
  | cons b bs ih =>
      rw [List.mapIdx_cons, List.flatten_cons, List.flatten_cons]
      exact (hg 0 b).sublist.append (ih fun k => hg (k + 1))

/-- Nothing is missing of all the lists only if nothing is missing of any of them. -/
theorem flatten_mapIdx_eq_iff {g : Nat → List α → List α} (hg : ∀ k b, g k b <+: b) (bs : List (List α)) :
    (bs.mapIdx g).flatten = bs.flatten ↔ ∀ k b, bs[k]? = some b → g k b = b := by
  induction bs generalizing g with
  | nil => simp
  | cons b bs ih =>
      rw [List.mapIdx_cons, List.flatten_cons, List.flatten_cons]
      have ih' := ih fun k => hg (k + 1)
      constructor
      · intro h k c hc
        have hlen := congrArg List.length h
        have hhead := (hg 0 b).length_le
        have htail := (flatten_mapIdx_sublist (fun k => hg (k + 1)) bs).length_le
        rw [List.length_append, List.length_append] at hlen
        have hb : g 0 b = b := (hg 0 b).eq_of_length (by omega)
        cases k with
        | zero =>
            cases hc
            exact hb
        | succ k =>
            rw [hb] at h
            exact ih'.mp (List.append_cancel_left h) k c hc
      · intro h
        rw [h 0 b rfl, ih'.mpr fun k c hc => h (k + 1) c hc]

theorem length_flatMap_le {β : Type} {f g : α → List β} (h : ∀ x, (f x).length ≤ (g x).length) (xs : List α) :
    (xs.flatMap f).length ≤ (xs.flatMap g).length := by
  induction xs with
  | nil => exact Nat.le_refl _
  | cons x xs ih =>
      simp only [List.flatMap_cons, List.length_append]
      exact Nat.add_le_add (h x) ih

/-- Where no piece becomes shorter, pieces that change change the whole. -/
theorem flatMap_eq_iff {β : Type} {f g : α → List β} (h : ∀ x, (f x).length ≤ (g x).length) (xs : List α) :
    xs.flatMap g = xs.flatMap f ↔ ∀ x ∈ xs, g x = f x := by
  induction xs with
  | nil => exact iff_of_true rfl nofun
  | cons x xs ih =>
      simp only [List.flatMap_cons, List.forall_mem_cons]
      constructor
      · intro heq
        have hlen := congrArg List.length heq
        rw [List.length_append, List.length_append] at hlen
        have hx := h x
        have hxs := length_flatMap_le h xs
        obtain ⟨hpiece, hrest⟩ := List.append_inj heq (by omega)
        exact ⟨hpiece, ih.mp hrest⟩
      · rintro ⟨hpiece, hrest⟩
        rw [hpiece, ih.mpr hrest]

/-! ## The longest beginning of one kind -/

variable {p : α → Bool}

theorem drop_takeWhile (p : α → Bool) (xs : List α) : xs.drop (xs.takeWhile p).length = xs.dropWhile p := by
  have h : (xs.takeWhile p ++ xs.dropWhile p).drop (xs.takeWhile p).length = xs.dropWhile p := List.drop_left
  rwa [List.takeWhile_append_dropWhile] at h

theorem not_mem_takeWhile (hp : p y = false) (xs : List α) : y ∉ xs.takeWhile p := by
  intro hmem
  have htrue := List.mem_takeWhile_imp hmem
  rw [hp] at htrue
  cases htrue

theorem of_head?_dropWhile (h : (xs.dropWhile p).head? = some y) : p y = false := by
  have hnot := List.head?_dropWhile_not p xs
  rw [h] at hnot
  exact hnot

/-! ## The first element of one kind -/

/-- A search by the index is one of the elements before `n`. -/
theorem find?_range (p : α → Bool) (xs : List α) (n : Nat) :
    (List.range n).find? (fun i => xs[i]?.any p) = (xs.take n).findIdx? p := by
  cases h : (xs.take n).findIdx? p with
  | none =>
      rw [List.findIdx?_eq_none_iff] at h
      refine List.find?_range_eq_none.mpr fun i hi => ?_
      cases hx : xs[i]? with
      | none => rfl
      | some x => simpa using h x (List.mem_of_getElem? ((List.getElem?_take_of_lt hi).trans hx))
  | some i =>
      obtain ⟨hi, hp, hbefore⟩ := List.findIdx?_eq_some_iff_getElem.mp h
      rw [List.length_take] at hi
      rw [List.getElem_take] at hp
      refine List.find?_range_eq_some.mpr ⟨?_, by simp; omega, fun j hj => ?_⟩
      · simpa [List.getElem?_eq_getElem (show i < xs.length by omega)] using hp
      · have := hbefore j hj
        rw [List.getElem_take] at this
        simpa [List.getElem?_eq_getElem (show j < xs.length by omega)] using this

/-- The first of the elements that `p` holds of is taken out. -/
theorem filter_of_find? {x : α} (h : xs.find? p = some x) :
    xs.filter p = x :: (xs.eraseP p).filter p ∧ (xs.eraseP p).filter (! p ·) = xs.filter (! p ·) := by
  obtain ⟨hp, before, after, rfl, hbefore⟩ := List.find?_eq_some_iff_append.mp h
  have hnone : before.filter p = [] := List.filter_eq_nil_iff.mpr fun y hy => by simpa using hbefore y hy
  have herase : (before ++ x :: after).eraseP p = before ++ after := by
    rw [List.eraseP_append_right _ fun y hy => by simpa using hbefore y hy, List.eraseP_cons_of_pos hp]
  rw [herase]
  simp [hnone, hp]

theorem mem_eraseP_of_find? {x : α} (h : xs.find? p = some x) (hnot : x ∉ (xs.eraseP p).filter p)
    (hy : y ∈ xs.eraseP p) : y ∈ xs ∧ y ≠ x := by
  refine ⟨List.mem_of_mem_eraseP hy, ?_⟩
  rintro rfl
  exact hnot (List.mem_filter.mpr ⟨hy, List.find?_some h⟩)

/-! ## Rows of one length, one after the other -/

theorem index_lt {rows cols row col : Nat} (hrow : row < rows) (hcol : col < cols) :
    row * cols + col < rows * cols := by
  have h := Nat.mul_le_mul_right cols (Nat.succ_le_of_lt hrow)
  rw [Nat.succ_mul] at h
  omega

theorem index_last {rows cols : Nat} (hrows : 0 < rows) (hcols : 0 < cols) :
    (rows - 1) * cols + (cols - 1) + 1 = rows * cols := by
  obtain ⟨m, rfl⟩ := Nat.exists_eq_succ_of_ne_zero (Nat.ne_of_gt hrows)
  rw [Nat.succ_mul, Nat.succ_sub_one]
  omega

theorem index_inj {cols row row' col col' : Nat} (hcol : col < cols) (hcol' : col' < cols)
    (h : row * cols + col = row' * cols + col') : row = row' ∧ col = col' := by
  have hle : ∀ {a b}, a < b → a * cols + cols ≤ b * cols := by
    intro a b hab
    rw [← Nat.succ_mul]
    exact Nat.mul_le_mul_right cols hab
  rcases Nat.lt_trichotomy row row' with hlt | rfl | hlt
  · have := hle hlt
    omega
  · exact ⟨rfl, by omega⟩
  · have := hle hlt
    omega

end Lists
