import Dwhbll.Lib.Lists
import Dwhbll.Linalg.Matrix
import Mathlib.Algebra.BigOperators.Ring.Finset

/-!
# The workers compute the product

Each row of the result belongs to one worker. An element of the result and the updates that its worker has still to do
on it make up the element of the product, whatever the other workers do.
-/

namespace Dwhbll.Linalg.Matrix

open Finset

variable {α : Type} {Row Col K n threads r c first last : Nat}

/-! ## Rows and ranges -/

/-- The ranges of the workers follow each other. -/
theorem endRow_eq_startRow {i : Nat} (hi : i + 1 < threads) : endRow Row threads i = startRow Row threads (i + 1) := by
  rw [endRow, if_neg (by omega), startRow, startRow, Nat.succ_mul, Nat.add_zero]

theorem endRow_last (hthreads : 0 < threads) : endRow Row threads (threads - 1) = Row := by
  obtain ⟨m, rfl⟩ := Nat.exists_eq_succ_of_ne_zero (Nat.ne_of_gt hthreads)
  have h := Nat.div_add_mod Row (m + 1)
  rw [Nat.succ_mul] at h
  rw [endRow, if_pos rfl, startRow]
  simpa using h

theorem endRow_le_startRow {i j : Nat} (hij : i < j) (hj : j < threads) :
    endRow Row threads i ≤ startRow Row threads j := by
  rw [endRow_eq_startRow (by omega)]
  exact Nat.mul_le_mul_right _ hij

theorem startRow_le_endRow (Row threads i : Nat) : startRow Row threads i ≤ endRow Row threads i :=
  (Nat.le_add_right _ _).trans (Nat.le_add_right _ _)

theorem endRow_le {i : Nat} (hi : i < threads) : endRow Row threads i ≤ Row := by
  by_cases hlast : i = threads - 1
  · rw [hlast, endRow_last (by omega)]
  · have hle : endRow Row threads i ≤ startRow Row threads (threads - 1) := endRow_le_startRow (by omega) (by omega)
    have hend : endRow Row threads (threads - 1) = Row := endRow_last (by omega)
    exact (hle.trans (startRow_le_endRow _ _ _)).trans hend.le

/-- The row is one of the worker. -/
def Owns (Row threads i r : Nat) : Prop := i < threads ∧ startRow Row threads i ≤ r ∧ r < endRow Row threads i

theorem exists_owns (hthreads : 0 < threads) (hr : r < Row) : ∃ i, Owns Row threads i r := by
  have hup : ∀ m < threads, r < endRow Row threads m → ∃ i, Owns Row threads i r := by
    intro m
    induction m with
    | zero =>
        intro hm hlt
        exact ⟨0, hm, by simp [startRow], hlt⟩
    | succ m ih =>
        intro hm hlt
        by_cases hstart : startRow Row threads (m + 1) ≤ r
        · exact ⟨m + 1, hm, hstart, hlt⟩
        · rw [← endRow_eq_startRow hm] at hstart
          exact ih (by omega) (by omega)
  exact hup (threads - 1) (by omega) (by rwa [endRow_last hthreads])

theorem Owns.unique {i j : Nat} (hi : Owns Row threads i r) (hj : Owns Row threads j r) : i = j := by
  obtain ⟨hi1, hi2, hi3⟩ := hi
  obtain ⟨hj1, hj2, hj3⟩ := hj
  rcases Nat.lt_trichotomy i j with hlt | heq | hlt
  · have hle : endRow Row threads i ≤ startRow Row threads j := endRow_le_startRow hlt hj1
    omega
  · exact heq
  · have hle : endRow Row threads j ≤ startRow Row threads i := endRow_le_startRow hlt hi1
    omega

/-! ## Elements -/

section Elements

variable [Zero α] {m m' : Matrix α Row Col} {row col : Nat} {x : α}

/-- The element, for mathematics. -/
def entry (m : Matrix α Row Col) (row col : Nat) : α := (m.data[row * Col + col]?).getD 0

theorem get?_eq (m : Matrix α Row Col) (hrow : row < Row) (hcol : col < Col) :
    m.get? row col = some (m.entry row col) := by
  have hlt := Lists.index_lt hrow hcol
  rw [← m.size] at hlt
  rw [get?, if_pos ⟨hrow, hcol⟩, entry, List.getElem?_eq_getElem hlt]
  rfl

theorem entry_new (Row Col row col : Nat) : (new Row Col : Matrix α Row Col).entry row col = 0 := by
  rw [entry, new, List.getElem?_replicate]
  split <;> rfl

/-- An assignment changes the one element. -/
theorem exists_set? (m : Matrix α Row Col) (hrow : row < Row) (hcol : col < Col) (x : α) :
    ∃ m', m.set? row col x = some m' ∧ m'.entry row col = x ∧
      ∀ row' col', col' < Col → ¬ (row = row' ∧ col = col') → m'.entry row' col' = m.entry row' col' := by
  have hlt := Lists.index_lt hrow hcol
  rw [← m.size] at hlt
  refine ⟨_, if_pos ⟨hrow, hcol⟩, ?_, fun row' col' hcol' hne => ?_⟩
  · simp only [entry]
    rw [List.getElem?_set_self hlt]
    rfl
  · simp only [entry]
    rw [List.getElem?_set_ne fun heq => hne (Lists.index_inj hcol hcol' heq)]

end Elements

/-! ## What is still to be added -/

variable [CommRing α] {A : Matrix α n n} {B : Matrix α n K} {s s' : Shared α n K}

/-- What the updates add to an element of the result. -/
def added (A : Matrix α n n) (B : Matrix α n K) (r c : Nat) (todo : List (Nat × Nat × Nat)) : α :=
  (todo.map fun u => if u.1 = r ∧ u.2.2 = c then A.entry u.1 u.2.1 * B.entry u.2.1 u.2.2 else 0).sum

/-- An element of the product. -/
def product (A : Matrix α n n) (B : Matrix α n K) (r c : Nat) : α := ∑ k ∈ range n, A.entry r k * B.entry k c

theorem sum_map_range (f : Nat → α) (n : Nat) : ((List.range n).map f).sum = ∑ i ∈ range n, f i := rfl

theorem sum_map_flatMap {β γ : Type} (f : γ → α) (g : β → List γ) (xs : List β) :
    ((xs.flatMap g).map f).sum = (xs.map fun x => ((g x).map f).sum).sum := by
  induction xs with
  | nil => rfl
  | cons x xs ih => rw [List.flatMap_cons, List.map_append, List.sum_append, ih, List.map_cons, List.sum_cons]

/-- The loops over `cur` and `col`, in one row. -/
theorem sum_row (A : Matrix α n n) (B : Matrix α n K) (hc : c < K) (row r : Nat) :
    (((List.range n).flatMap fun cur => (List.range K).map fun col => (row, cur, col)).map fun u =>
        if u.1 = r ∧ u.2.2 = c then A.entry u.1 u.2.1 * B.entry u.2.1 u.2.2 else 0).sum =
      if row = r then product A B r c else 0 := by
  rw [sum_map_flatMap]
  simp only [List.map_map, sum_map_range, Function.comp_def]
  by_cases hrow : row = r
  · subst hrow
    simp [product, sum_ite_eq', hc]
  · simp [hrow]

/-- All updates of a worker make up the elements of its rows. -/
theorem added_updates (A : Matrix α n n) (B : Matrix α n K) (hc : c < K) (hr : first ≤ r) (hr' : r < last) :
    added A B r c (updates n K first last) = product A B r c := by
  rw [added, updates, sum_map_flatMap]
  simp only [sum_row A B hc]
  rw [List.range'_eq_map_range, List.map_map, sum_map_range, sum_eq_single (r - first)]
  · simp [Nat.add_sub_of_le hr]
  · intro j _ hj
    have hne : first + j ≠ r := by omega
    simp [hne]
  · intro hnot
    rw [mem_range] at hnot
    omega

theorem added_cons (A : Matrix α n n) (B : Matrix α n K) (r c : Nat) (u : Nat × Nat × Nat) (todo : List (Nat × Nat × Nat)) :
    added A B r c (u :: todo) =
      (if u.1 = r ∧ u.2.2 = c then A.entry u.1 u.2.1 * B.entry u.2.1 u.2.2 else 0) + added A B r c todo := by
  rw [added, List.map_cons, List.sum_cons]
  rfl

theorem mem_updates {u : Nat × Nat × Nat} (hu : u ∈ updates Col K first last) :
    first ≤ u.1 ∧ u.1 < last ∧ u.2.1 < Col ∧ u.2.2 < K := by
  simp only [updates, List.mem_flatMap, List.mem_map, List.mem_range, List.mem_range'_1] at hu
  obtain ⟨row, hrow, cur, hcur, col, hcol, rfl⟩ := hu
  exact ⟨hrow.1, by omega, hcur, hcol⟩

/-! ## The invariant -/

structure Inv (A : Matrix α n n) (B : Matrix α n K) (threads : Nat) (s : Shared α n K) : Prop where
  bounds : ∀ i, ∀ u ∈ (s.worker i).todo, Owns n threads i u.1 ∧ u.2.1 < n ∧ u.2.2 < K
  loaded : ∀ i u todo x, (s.worker i).todo = u :: todo → (s.worker i).loaded = some x → s.res.entry u.1 u.2.2 = x
  sum : ∀ i r c, Owns n threads i r → c < K → s.res.entry r c + added A B r c (s.worker i).todo = product A B r c

theorem Inv.start (A : Matrix α n n) (B : Matrix α n K) (threads : Nat) : Inv A B threads (start n n K threads) where
  bounds := by
    intro i u hu
    simp only [Matrix.start] at hu
    split at hu
    · obtain ⟨h1, h2, h3, h4⟩ := mem_updates hu
      exact ⟨⟨‹_›, h1, h2⟩, h3, h4⟩
    · cases hu
  loaded := by
    intro i u todo x _ hx
    cases hx
  sum := by
    intro i r c hown hc
    simp only [Matrix.start, if_pos hown.1]
    rw [entry_new, added_updates A B hc hown.2.1 hown.2.2, zero_add]

theorem Owns.lt {i : Nat} (h : Owns Row threads i r) : r < Row := Nat.lt_of_lt_of_le h.2.2 (endRow_le h.1)

variable {i : Nat} {u : Nat × Nat × Nat} {todo : List (Nat × Nat × Nat)} {x : α}

/-- A worker that reads an element. -/
theorem Inv.load (h : Inv A B threads s) (htodo : (s.worker i).todo = u :: todo) :
    Inv A B threads
      { s with worker := Function.update s.worker i { todo := u :: todo, loaded := some (s.res.entry u.1 u.2.2) } } where
  bounds := by
    intro j v hv
    by_cases hj : j = i
    · subst hj
      simp only [Function.update_self] at hv
      exact h.bounds j v (htodo ▸ hv)
    · simp only [Function.update_of_ne hj] at hv
      exact h.bounds j v hv
  loaded := by
    intro j v rest y hv hy
    by_cases hj : j = i
    · subst hj
      simp only [Function.update_self, List.cons.injEq, Option.some.injEq] at hv hy
      rw [← hv.1, hy]
    · simp only [Function.update_of_ne hj] at hv hy
      exact h.loaded j v rest y hv hy
  sum := by
    intro j r c hown hc
    have hsum := h.sum j r c hown hc
    by_cases hj : j = i
    · subst hj
      simpa only [Function.update_self, htodo] using hsum
    · simpa only [Function.update_of_ne hj] using hsum

/-- A worker that writes an element. No other worker has to do with its row. -/
theorem Inv.store {res : Matrix α n K} (h : Inv A B threads s) (htodo : (s.worker i).todo = u :: todo)
    (hloaded : (s.worker i).loaded = some x)
    (hself : res.entry u.1 u.2.2 = x + A.entry u.1 u.2.1 * B.entry u.2.1 u.2.2)
    (hother : ∀ r c, c < K → ¬ (u.1 = r ∧ u.2.2 = c) → res.entry r c = s.res.entry r c) :
    Inv A B threads { res, worker := Function.update s.worker i { todo } } where
  bounds := by
    intro j v hv
    by_cases hj : j = i
    · subst hj
      simp only [Function.update_self] at hv
      exact h.bounds j v (htodo ▸ List.mem_cons_of_mem u hv)
    · simp only [Function.update_of_ne hj] at hv
      exact h.bounds j v hv
  loaded := by
    intro j v rest y hv hy
    by_cases hj : j = i
    · subst hj
      simp only [Function.update_self, reduceCtorEq] at hy
    · simp only [Function.update_of_ne hj] at hv hy
      have hu := h.bounds i u (htodo ▸ List.mem_cons_self)
      have hv' := h.bounds j v (hv ▸ List.mem_cons_self)
      refine (hother v.1 v.2.2 hv'.2.2 fun heq => ?_).trans (h.loaded j v rest y hv hy)
      exact hj (hv'.1.unique (heq.1 ▸ hu.1))
  sum := by
    intro j r c hown hc
    have hsum := h.sum j r c hown hc
    have hu := h.bounds i u (htodo ▸ List.mem_cons_self)
    by_cases hj : j = i
    · subst hj
      rw [htodo, added_cons] at hsum
      simp only [Function.update_self]
      by_cases hcell : u.1 = r ∧ u.2.2 = c
      · rw [if_pos hcell] at hsum
        obtain ⟨rfl, rfl⟩ := hcell
        rw [hself, ← h.loaded j u todo x htodo hloaded, add_assoc]
        exact hsum
      · rw [if_neg hcell, zero_add] at hsum
        rw [hother r c hc hcell]
        exact hsum
    · simp only [Function.update_of_ne hj]
      rw [hother r c hc fun heq => hj (hown.unique (heq.1 ▸ hu.1))]
      exact hsum

/-- The steps that the worker has still to take. -/
def Worker.left (w : Worker α) : Nat := w.todo.length * 2 - w.loaded.toList.length

/-- No assertion fails, and the invariant is kept. -/
theorem Inv.exists_step (h : Inv A B threads s) (hne : (s.worker i).todo ≠ []) :
    ∃ s' w, step A B s i = some s' ∧ Inv A B threads s' ∧ s'.worker = Function.update s.worker i w ∧
      w.left + 1 = (s.worker i).left := by
  obtain ⟨⟨row, cur, col⟩, todo, htodo⟩ := List.exists_cons_of_ne_nil hne
  obtain ⟨hown, hcur, hcol⟩ := h.bounds i _ (htodo ▸ List.mem_cons_self)
  have hrow : row < n := hown.lt
  cases hloaded : (s.worker i).loaded with
  | none =>
      refine ⟨_, _, ?_, h.load htodo, rfl, ?_⟩
      · simp only [step, htodo, hloaded, get?_eq s.res hrow hcol]
        rfl
      · simp only [Worker.left, htodo, hloaded, Option.toList_some, Option.toList_none, List.length_cons, List.length_nil]
        omega
  | some x =>
      obtain ⟨res, hset, hself, hother⟩ := exists_set? s.res hrow hcol (x + A.entry row cur * B.entry cur col)
      refine ⟨_, _, ?_, h.store htodo hloaded hself hother, rfl, ?_⟩
      · simp only [step, htodo, hloaded, get?_eq A hrow hcur, get?_eq B hcur hcol, Option.bind_eq_bind,
          Option.bind_some]
        rw [hset]
        rfl
      · simp only [Worker.left, htodo, hloaded, Option.toList_some, Option.toList_none, List.length_cons, List.length_nil]
        omega

theorem ne_nil_of_step (hs : step A B s i = some s') : (s.worker i).todo ≠ [] := by
  intro hnil
  simp only [step, hnil, reduceCtorEq] at hs

/-! ## The result -/

/-- The steps that the workers have still to take. -/
def Shared.left (threads : Nat) (s : Shared α n K) : Nat := ∑ i ∈ range threads, (s.worker i).left

theorem Inv.step (h : Inv A B threads s) (hs : step A B s i = some s') :
    Inv A B threads s' ∧ s'.left threads + 1 = s.left threads := by
  have hne := ne_nil_of_step hs
  obtain ⟨t, w, ht, hinv, hworker, hleft⟩ := h.exists_step hne
  obtain rfl : t = s' := Option.some.inj (ht.symm.trans hs)
  refine ⟨hinv, ?_⟩
  have hi : i ∈ range threads := mem_range.mpr (h.bounds i _ (List.head_mem hne)).1.1
  have hother : ∀ j ∈ (range threads).erase i, (t.worker j).left = (s.worker j).left := by
    intro j hj
    rw [hworker, Function.update_of_ne (ne_of_mem_erase hj)]
  rw [Shared.left, Shared.left, ← add_sum_erase _ _ hi, ← add_sum_erase _ _ hi, sum_congr rfl hother, hworker,
    Function.update_self, ← hleft]
  omega

theorem inv_of_reachable {hardwareConcurrency : Nat} (hs : (matmulCpu hardwareConcurrency A B).Reachable s) :
    Inv A B (numThreads hardwareConcurrency) s :=
  (Transition.System.Invariant.ofOption (.start A B _) fun _ _ _ hinv hstep => (hinv.step hstep).1).reachable hs

/-- The rows are shared out among the workers, no assertion fails, the workers are done after a number of steps that
does not depend on their order, and then the result is the product. -/
theorem matmulCpu_spec (hardwareConcurrency : Nat) (A : Matrix α n n) (B : Matrix α n K) :
    (∀ r < n, ∃! i, Owns n (numThreads hardwareConcurrency) i r) ∧
      (∀ i r, Owns n (numThreads hardwareConcurrency) i r → r < n) ∧
      ∀ s, (matmulCpu hardwareConcurrency A B).Reachable s →
        (∀ i, (s.worker i).todo ≠ [] → ∃ s', step A B s i = some s') ∧
        (∀ i s', step A B s i = some s' →
          s'.left (numThreads hardwareConcurrency) + 1 = s.left (numThreads hardwareConcurrency)) ∧
        (s.Joined → ∀ r < n, ∀ c < K,
          s.res.get? r c = some (∑ k ∈ range n, A.entry r k * B.entry k c)) := by
  have hthreads : 0 < numThreads hardwareConcurrency := by
    unfold numThreads
    split <;> omega
  refine ⟨fun r hr => ?_, fun i r hown => hown.lt, fun s hs => ?_⟩
  · obtain ⟨i, hown⟩ := exists_owns hthreads hr
    exact ⟨i, hown, fun j hj => hj.unique hown⟩
  · have hinv := inv_of_reachable hs
    refine ⟨fun i hne => ?_, fun i s' hstep => (hinv.step hstep).2, fun hjoined r hr c hc => ?_⟩
    · obtain ⟨s', -, hstep, -⟩ := hinv.exists_step hne
      exact ⟨s', hstep⟩
    · obtain ⟨i, hown⟩ := exists_owns hthreads hr
      have hsum := hinv.sum i r c hown hc
      rw [hjoined i, added, List.map_nil, List.sum_nil, add_zero] at hsum
      rw [get?_eq s.res hr hc, hsum]
      rfl

end Dwhbll.Linalg.Matrix
