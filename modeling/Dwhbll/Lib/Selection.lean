import Mathlib.Data.List.Basic

/-!
# Elements struck out at given positions

What is left of a list without some of its positions, and what striking them out one after the other comes to: whoever
waits for the next position on a list waits for good if that one is past.
-/

namespace Selection

variable {α : Type} {idx : List Nat} {r i : Nat} {x : α} {xs : List α}

/-- The elements of `xs`, numbered from `r` on, whose numbers are not in `idx`. -/
def without (idx : List Nat) (r : Nat) (xs : List α) : List α :=
  ((xs.zipIdx r).filter fun q => q.2 ∉ idx).map Prod.fst

@[simp] theorem without_nil (idx : List Nat) (r : Nat) : without idx r ([] : List α) = [] := rfl

theorem without_cons_of_mem (h : r ∈ idx) (x : α) (xs : List α) : without idx r (x :: xs) = without idx (r + 1) xs := by
  simp [without, h]

theorem without_cons_of_not_mem (h : r ∉ idx) (x : α) (xs : List α) :
    without idx r (x :: xs) = x :: without idx (r + 1) xs := by
  simp [without, h]

theorem without_congr {idx' : List Nat} (h : ∀ i, r ≤ i → (i ∈ idx ↔ i ∈ idx')) (xs : List α) :
    without idx r xs = without idx' r xs := by
  unfold without
  congr 1
  refine List.filter_congr fun q hq => ?_
  simp only [decide_eq_decide]
  exact not_congr (h q.2 (List.le_snd_of_mem_zipIdx hq))

/-- Nothing is missing if and only if none of the positions is one of the list. -/
theorem without_eq_self_iff : without idx r xs = xs ↔ ∀ i ∈ idx, r ≤ i → r + xs.length ≤ i := by
  induction xs generalizing r with
  | nil => simp
  | cons x xs ih =>
      by_cases hr : r ∈ idx
      · rw [without_cons_of_mem hr]
        refine iff_of_false (fun h => ?_) fun h => ?_
        · have hle : (without idx (r + 1) xs).length ≤ xs.length := by
            rw [without, List.length_map]
            exact Nat.le_trans (List.length_filter_le ..) (Nat.le_of_eq List.length_zipIdx)
          rw [h, List.length_cons] at hle
          omega
        · have := h r hr (Nat.le_refl r)
          rw [List.length_cons] at this
          omega
      · rw [without_cons_of_not_mem hr, List.cons.injEq, and_iff_right rfl, ih, List.length_cons]
        refine forall_congr' fun i => forall_congr' fun hi => ?_
        have hne : i ≠ r := fun heq => hr (heq ▸ hi)
        omega

/-- The elements of `xs`, numbered from `r` on, are passed one after the other, and the one that has the first of the
pending numbers is struck out. -/
def strike : (pending : List Nat) → (r : Nat) → List α → List α
  | _, _, [] => []
  | [], _, xs => xs
  | p :: ps, r, x :: xs => if p = r then strike ps (r + 1) xs else x :: strike (p :: ps) (r + 1) xs

@[simp] theorem strike_nil (r : Nat) (xs : List α) : strike [] r xs = xs := by
  cases xs <;> rfl

theorem strike_cons_self (ps : List Nat) (r : Nat) (x : α) (xs : List α) :
    strike (r :: ps) r (x :: xs) = strike ps (r + 1) xs := by rw [strike, if_pos rfl]

theorem strike_cons_of_head_ne {pending : List Nat} (h : pending.head? ≠ some r) (x : α) (xs : List α) :
    strike pending r (x :: xs) = x :: strike pending (r + 1) xs := by
  cases pending with
  | nil => rw [strike_nil, strike_nil]
  | cons p ps => rw [strike, if_neg fun heq => h (congrArg some heq)]

theorem strike_of_lt {p : Nat} (h : p < r) (ps : List Nat) (xs : List α) : strike (p :: ps) r xs = xs := by
  induction xs generalizing r with
  | nil => rfl
  | cons x xs ih => rw [strike, if_neg (Nat.ne_of_lt h), ih (Nat.lt_succ_of_lt h)]

theorem strike_of_behind {p : Nat} (h : r + xs.length ≤ p) (ps : List Nat) : strike (p :: ps) r xs = xs := by
  induction xs generalizing r with
  | nil => rfl
  | cons x xs ih =>
      rw [List.length_cons] at h
      rw [strike, if_neg (by omega), ih (by omega)]

/-- No position that is pending twice is in front of another one before `stop`. -/
def Unblocked (pending : List Nat) (stop : Nat) : Prop :=
  ∀ i ∈ pending, ∀ j ∈ pending, 1 < pending.count i → i < j → stop ≤ j

instance (pending : List Nat) (stop : Nat) : Decidable (Unblocked pending stop) :=
  inferInstanceAs (Decidable (∀ i ∈ pending, ∀ j ∈ pending, 1 < pending.count i → i < j → stop ≤ j))

variable {pending ps : List Nat} {p stop : Nat}

theorem unblocked_cons_of_forall_lt (h : ∀ i ∈ ps, p < i) : Unblocked (p :: ps) stop ↔ Unblocked ps stop := by
  have hnot : p ∉ ps := fun hmem => absurd (h p hmem) (Nat.lt_irrefl p)
  constructor
  · intro hub i hi j hj hcount
    refine hub i (List.mem_cons_of_mem p hi) j (List.mem_cons_of_mem p hj) ?_
    rwa [List.count_cons_of_ne (Nat.ne_of_lt (h i hi))]
  · intro hub i hi j hj hcount hij
    rcases List.mem_cons.mp hi with rfl | hi'
    · rw [List.count_cons_self, List.count_eq_zero_of_not_mem hnot] at hcount
      exact absurd hcount (by decide)
    · have hpi := h i hi'
      rw [List.count_cons_of_ne (Nat.ne_of_lt hpi)] at hcount
      rcases List.mem_cons.mp hj with rfl | hj'
      · exact absurd hij (Nat.lt_asymm hpi)
      · exact hub i hi' j hj' hcount hij

/-- The first position is pending twice: after one element nothing is struck out any more. -/
theorem strike_twice_iff (h : ∀ i ∈ ps, p ≤ i) (xs : List α) :
    strike (p :: ps) (p + 1) xs = without (p :: p :: ps) (p + 1) xs ↔ Unblocked (p :: p :: ps) (p + 1 + xs.length) := by
  have hle : ∀ i ∈ p :: p :: ps, p ≤ i := by
    intro i hi
    rcases List.mem_cons.mp hi with rfl | hi
    · exact Nat.le_refl i
    · rcases List.mem_cons.mp hi with rfl | hi
      · exact Nat.le_refl i
      · exact h i hi
  have hcount : 1 < (p :: p :: ps).count p := by
    rw [List.count_cons_self, List.count_cons_self]
    omega
  rw [strike_of_lt (Nat.lt_succ_self p), eq_comm, without_eq_self_iff]
  constructor
  · intro hall i hi j hj _ hij
    exact hall j hj (Nat.lt_of_le_of_lt (hle i hi) hij)
  · intro hub j hj hlt
    exact hub p List.mem_cons_self j hj hcount hlt

/-- For a sorted list of positions striking out works if and only if none of them is in the way of another one. -/
theorem strike_eq_without_iff (hsorted : pending.Pairwise (· ≤ ·)) (hr : ∀ p ∈ pending, r ≤ p) (xs : List α) :
    strike pending r xs = without pending r xs ↔ Unblocked pending (r + xs.length) := by
  induction xs generalizing pending r with
  | nil => exact iff_of_true (by cases pending <;> rfl) fun i _ j hj _ _ => hr j hj
  | cons x xs ih =>
      rw [List.length_cons, ← Nat.succ_add_eq_add_succ]
      cases pending with
      | nil =>
          rw [strike_nil, eq_comm, without_eq_self_iff]
          exact iff_of_true (fun i hi => by cases hi) fun i hi => by cases hi
      | cons p ps =>
          obtain ⟨hp, hps⟩ := List.pairwise_cons.mp hsorted
          by_cases hpr : p = r
          · subst hpr
            rw [strike_cons_self, without_cons_of_mem List.mem_cons_self]
            by_cases htwice : p ∈ ps
            · obtain ⟨q, qs, rfl⟩ := List.exists_cons_of_ne_nil (List.ne_nil_of_mem htwice)
              obtain ⟨hq, -⟩ := List.pairwise_cons.mp hps
              have heq : q = p := by
                refine Nat.le_antisymm ?_ (hp q List.mem_cons_self)
                rcases List.mem_cons.mp htwice with heq | hmem
                · exact Nat.le_of_eq heq.symm
                · exact hq p hmem
              subst heq
              exact strike_twice_iff hq xs
            · have hnext : ∀ i ∈ ps, p < i :=
                fun i hi => Nat.lt_of_le_of_ne (hp i hi) fun heq => htwice (heq ▸ hi)
              have hsame : without (p :: ps) (p + 1) xs = without ps (p + 1) xs := by
                refine without_congr (fun i hi => ?_) xs
                rw [List.mem_cons, or_iff_right (Ne.symm (Nat.ne_of_lt hi))]
              rw [hsame, ih hps hnext, unblocked_cons_of_forall_lt hnext]
          · have hlt : ∀ q ∈ p :: ps, r < q := by
              have hle := Nat.lt_of_le_of_ne (hr p List.mem_cons_self) (Ne.symm hpr)
              intro q hq
              rcases List.mem_cons.mp hq with rfl | hq
              · exact hle
              · exact Nat.lt_of_lt_of_le hle (hp q hq)
            have hnot : r ∉ p :: ps := fun hmem => absurd (hlt r hmem) (Nat.lt_irrefl r)
            have hne : (p :: ps).head? ≠ some r := fun heq => hpr (Option.some.inj heq)
            rw [strike_cons_of_head_ne hne, without_cons_of_not_mem hnot, List.cons.injEq, and_iff_right rfl,
              ih hsorted hlt]

theorem Unblocked.perm {pending' : List Nat} (hperm : pending.Perm pending') (h : Unblocked pending stop) :
    Unblocked pending' stop := by
  intro i hi j hj hcount
  rw [← hperm.count_eq] at hcount
  exact h i (hperm.mem_iff.mpr hi) j (hperm.mem_iff.mpr hj) hcount

theorem strike_eq_without (hsorted : pending.Pairwise (· < ·)) (xs : List α) :
    strike pending 0 xs = without pending 0 xs := by
  refine (strike_eq_without_iff (hsorted.imp Nat.le_of_lt) (fun p _ => Nat.zero_le p) xs).mpr ?_
  intro i hi _ _ hcount
  have hnodup : pending.Nodup := hsorted.imp Nat.ne_of_lt
  rw [hnodup.count, if_pos hi] at hcount
  exact absurd hcount (by decide)

end Selection
