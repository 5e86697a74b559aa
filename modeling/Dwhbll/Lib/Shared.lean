import Mathlib.Data.List.Perm.Basic

/-!
# Objects with a count of the pointers to them

A heap of objects that `std::shared_ptr`s point to. An address is not used again after its object is gone. `Counts`
relates a heap to the list of all pointers into it, wherever they are stored.
-/

namespace Shared

variable {T : Type}

/-- A pointer, which may be null. -/
abbrev Ptr := Option Nat

structure Heap (T : Type) where
  /-- The objects that are there, each with its `use_count`. -/
  objects : Nat → Option (T × Nat)
  next : Nat

namespace Heap

def empty : Heap T := ⟨fun _ => none, 0⟩

def useCount (H : Heap T) (a : Nat) : Nat := ((H.objects a).map (·.2)).getD 0

/-- What the pointer points to: nothing where it is null, and no answer where the object is gone. -/
def deref (H : Heap T) : Ptr → Option (Option T)
  | none => some none
  | some a => (H.objects a).map fun (v, _) => some v

def set (H : Heap T) (a : Nat) (o : Option (T × Nat)) : Heap T :=
  { H with objects := fun b => if b = a then o else H.objects b }

/-- `std::make_shared`. -/
def make (v : T) (H : Heap T) : Nat × Heap T := (H.next, { H.set H.next (some (v, 1)) with next := H.next + 1 })

def acquire (p : Ptr) (H : Heap T) : Heap T :=
  match p with
  | none => H
  | some a => H.set a ((H.objects a).map fun (v, n) => (v, n + 1))

/-- A pointer is given up; the last one takes the object with it. -/
def release (p : Ptr) (H : Heap T) : Heap T :=
  match p with
  | none => H
  | some a => H.set a ((H.objects a).bind fun (v, n) => if n = 1 then none else some (v, n - 1))

def write (a : Nat) (f : T → T) (H : Heap T) : Heap T := H.set a ((H.objects a).map fun (v, n) => (f v, n))

/-- `ps` are all the pointers into the heap. -/
structure Counts (H : Heap T) (ps : List Ptr) : Prop where
  count : ∀ a, H.useCount a = ps.count (some a)
  fresh : ∀ a, H.next ≤ a → H.objects a = none

variable {H : Heap T} {p q : Ptr} {ps qs : List Ptr} {a : Nat}

theorem set_objects (H : Heap T) (a b : Nat) (o : Option (T × Nat)) :
    (H.set a o).objects b = if b = a then o else H.objects b := rfl

theorem set_useCount (H : Heap T) (a b : Nat) (o : Option (T × Nat)) :
    (H.set a o).useCount b = if b = a then (o.map (·.2)).getD 0 else H.useCount b := by
  unfold useCount
  rw [set_objects]
  split <;> rfl

theorem set_deref_of_ne {o : Option (T × Nat)} (h : q ≠ some a) : (H.set a o).deref q = H.deref q := by
  cases q with
  | none => rfl
  | some b =>
      have hb : b ≠ a := fun he => h (congrArg some he)
      simp [deref, set_objects, hb]

theorem counts_empty : (empty : Heap T).Counts [] where
  count := by simp [empty, useCount]
  fresh := by simp [empty]

theorem Counts.perm (h : H.Counts ps) (hp : ps.Perm qs) : H.Counts qs where
  count a := by rw [h.count a, hp.count_eq]
  fresh := h.fresh

theorem counts_null : H.Counts (none :: ps) ↔ H.Counts ps := by
  constructor
  · intro h
    exact ⟨fun a => by simpa using h.count a, h.fresh⟩
  · intro h
    exact ⟨fun a => by simpa using h.count a, h.fresh⟩

/-- No pointer dangles. -/
theorem Counts.live (h : H.Counts ps) (ha : some a ∈ ps) : ∃ v n, H.objects a = some (v, n) := by
  have hpos : 0 < H.useCount a := by
    rw [h.count a]
    exact List.count_pos_iff.mpr ha
  cases ho : H.objects a with
  | none => simp [useCount, ho] at hpos
  | some o => exact ⟨o.1, o.2, rfl⟩

theorem Counts.ne_of_next_le (h : H.Counts ps) (ha : some a ∈ ps) {b : Nat} (hb : H.next ≤ b) : b ≠ a := by
  rintro rfl
  obtain ⟨v, n, hv⟩ := h.live ha
  rw [h.fresh b hb] at hv
  cases hv

theorem Counts.ne_next (h : H.Counts ps) (hp : p ∈ ps) : p ≠ some H.next := by
  rintro rfl
  exact h.ne_of_next_le hp (Nat.le_refl _) rfl

/-! ## The operations -/

theorem Counts.make (h : H.Counts ps) (v : T) : (H.make v).2.Counts (some (H.make v).1 :: ps) where
  count b := by
    change (H.set H.next (some (v, 1))).useCount b = _
    rw [set_useCount, List.count_cons, ← h.count b]
    by_cases hb : b = H.next
    · subst hb
      simp [Heap.make, useCount, h.fresh H.next (Nat.le_refl _)]
    · simp [Heap.make, hb, Ne.symm hb]
  fresh b hb := by
    have hb : H.next + 1 ≤ b := hb
    change (H.set H.next (some (v, 1))).objects b = none
    rw [set_objects, if_neg (by omega)]
    exact h.fresh b (by omega)

theorem make_deref (H : Heap T) (v : T) : (H.make v).2.deref (some (H.make v).1) = some (some v) := by
  simp [make, deref, set_objects]

theorem Counts.make_deref_of_mem (h : H.Counts ps) (v : T) (hq : q ∈ ps) : (H.make v).2.deref q = H.deref q :=
  set_deref_of_ne (h.ne_next hq)

theorem make_useCount (H : Heap T) (v : T) : (H.make v).2.useCount (H.make v).1 = 1 := by
  simp [make, useCount, set_objects]

theorem acquire_deref (H : Heap T) (p q : Ptr) : (H.acquire p).deref q = H.deref q := by
  cases p with
  | none => rfl
  | some a =>
      by_cases hq : q = some a
      · subst hq
        simp only [acquire, deref, set_objects, if_true]
        cases H.objects a <;> rfl
      · exact set_deref_of_ne hq

theorem Counts.acquire (h : H.Counts ps) (hp : p ∈ ps) : (H.acquire p).Counts (p :: ps) := by
  cases p with
  | none => exact counts_null.mpr h
  | some a =>
      obtain ⟨v, n, hv⟩ := h.live hp
      constructor
      · intro b
        simp only [Heap.acquire, set_useCount, List.count_cons, ← h.count b]
        by_cases hb : b = a
        · subst hb
          simp [useCount, hv]
        · simp [hb, Ne.symm hb]
      · intro b hb
        simp [Heap.acquire, set_objects, h.ne_of_next_le hp hb, h.fresh b hb]

theorem Counts.release (h : H.Counts (p :: ps)) : (H.release p).Counts ps := by
  cases p with
  | none => exact counts_null.mp h
  | some a =>
      obtain ⟨v, n, hv⟩ := h.live List.mem_cons_self
      constructor
      · intro b
        have hcount := h.count b
        simp only [Heap.release, set_useCount]
        by_cases hb : b = a
        · subst hb
          simp only [useCount, hv, List.count_cons_self] at hcount ⊢
          simp only [if_true, Option.bind_some]
          split
          · simp at hcount ⊢
            omega
          · simp at hcount ⊢
            omega
        · rw [if_neg hb, hcount]
          simp [Ne.symm hb]
      · intro b hb
        simp [Heap.release, set_objects, h.ne_of_next_le List.mem_cons_self hb, h.fresh b hb]

theorem Counts.release_deref_of_mem (h : H.Counts (p :: ps)) (hq : q ∈ ps) : (H.release p).deref q = H.deref q := by
  cases p with
  | none => rfl
  | some a =>
      by_cases hqa : q = some a
      · subst hqa
        have hcount := h.count a
        have hpos := List.count_pos_iff.mpr hq
        obtain ⟨v, n, hv⟩ := h.live (List.mem_cons_of_mem _ hq)
        rw [List.count_cons_self] at hcount
        simp only [useCount, hv, Option.map_some, Option.getD_some] at hcount
        have hn : n ≠ 1 := by omega
        simp [Heap.release, deref, set_objects, hv, hn]
      · exact set_deref_of_ne hqa

theorem release_useCount_of_ne (h : p ≠ some a) : (H.release p).useCount a = H.useCount a := by
  cases p with
  | none => rfl
  | some b =>
      have hb : a ≠ b := fun he => h (congrArg some he.symm)
      rw [release, set_useCount, if_neg hb]

theorem Counts.write (h : H.Counts ps) (a : Nat) (f : T → T) : (H.write a f).Counts ps where
  count b := by
    rw [Heap.write, set_useCount, ← h.count b]
    split
    · rename_i hb
      subst hb
      unfold useCount
      cases H.objects b <;> rfl
    · rfl
  fresh b hb := by
    rw [Heap.write, set_objects]
    split
    · rename_i heq
      rw [← heq, h.fresh b hb]
      rfl
    · exact h.fresh b hb

theorem write_deref {v : T} (f : T → T) (hv : H.deref (some a) = some (some v)) :
    (H.write a f).deref (some a) = some (some (f v)) := by
  cases ho : H.objects a with
  | none => simp [deref, ho] at hv
  | some o =>
      simp [deref, ho] at hv
      simp [write, deref, set_objects, ho, hv]

theorem Counts.write_deref_of_mem (h : H.Counts (some a :: ps)) (h1 : H.useCount a = 1) (f : T → T) (hq : q ∈ ps) :
    (H.write a f).deref q = H.deref q := by
  refine set_deref_of_ne ?_
  rintro rfl
  have hcount := h.count a
  have hpos := List.count_pos_iff.mpr hq
  rw [h1, List.count_cons_self] at hcount
  omega

end Heap

end Shared
