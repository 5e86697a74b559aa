import Dwhbll.Pool.Lemmas

/-!
# `find`

The loop over the blocks ends where a block holds the value, and has no step to the next one.
-/

namespace Dwhbll.Memory.Pool

open Transition

variable {T : Type} {B : Nat}

section

variable [BEq T]

/-- The loop over the slots of a block. -/
def findSlot (B : Nat) (value : T) (obj : Obj T) : Option Nat :=
  (List.range B).find? fun i => obj.used[i]? == some true && obj.object[i]?.any (· == value)

/-- The loop over the blocks, for so many rounds at the most. There is no block at a null pointer. -/
def findFrom (value : T) (p : Pool T B) : (rounds current : Nat) → Option Ptr
  | 0, _ => none
  | rounds + 1, current =>
      match p.objects[current]? with
      | none => some .null
      | some obj =>
          match findSlot B value obj with
          | some i => some (.slot current i)
          -- `current` stays where it is.
          | none => findFrom value p rounds current

def find (rounds : Nat) (value : T) (p : Pool T B) : Option Ptr := findFrom value p rounds 0

/-- The slot is in use, and its object is equal to the value. -/
def Holds (value : T) (p : Pool T B) (b i : Nat) : Prop :=
  ∃ obj x, p.objects[b]? = some obj ∧ obj.used[i]? = some true ∧ obj.object[i]? = some x ∧ (x == value) = true

/-- The search returns, with a slot that holds the value or, if there is none, with a null pointer. -/
def Finds (value : T) (p : Pool T B) : Prop :=
  ∃ rounds q, find rounds value p = some q ∧
    ((∃ b i, q = .slot b i ∧ Holds value p b i) ∨ q = .null ∧ ¬ ∃ b i, Holds value p b i)

variable {value : T} {p : Pool T B} {obj : Obj T} {current rounds i : Nat}

theorem findSlot_some (hobj : p.objects[current]? = some obj) (h : findSlot B value obj = some i) :
    Holds value p current i := by
  have hfound := List.find?_some h
  rw [Bool.and_eq_true, beq_iff_eq] at hfound
  obtain ⟨x, hx, heq⟩ := (Option.any_eq_true ..).mp hfound.2
  exact ⟨obj, x, hobj, hfound.1, hx, heq⟩

theorem findSlot_none (hlen : obj.used.length = B) (hobj : p.objects[current]? = some obj)
    (h : findSlot B value obj = none) : ¬ ∃ i, Holds value p current i := by
  rintro ⟨i, obj', x, hobj', hused, hx, heq⟩
  cases hobj.symm.trans hobj'
  have hlt : i < B := hlen ▸ (List.getElem?_eq_some_iff.mp hused).1
  refine List.find?_eq_none.mp h i (List.mem_range.mpr hlt) ?_
  rw [hused, hx, Option.any_some, heq]
  rfl

/-- A block that does not hold the value is searched for ever. -/
theorem findFrom_running (hobj : p.objects[current]? = some obj) (h : findSlot B value obj = none) (rounds : Nat) :
    findFrom value p rounds current = none := by
  induction rounds with
  | zero => rfl
  | succ rounds ih => simp only [findFrom, hobj, h, ih]

end

/-! ## The blocks of a pool -/

/-- There is a block, and each has its flags. -/
structure Shaped (B : Nat) (os : List (Obj T)) : Prop where
  ne_nil : os ≠ []
  length : ∀ o ∈ os, o.used.length = B

variable {os : List (Obj T)} {b i : Nat} {p : Pool T B}

theorem Shaped.modify {g : Obj T → Obj T} (h : Shaped B os) (hg : ∀ o, (g o).used.length = o.used.length) :
    Shaped B (os.modify b g) := by
  refine ⟨?_, fun o ho => ?_⟩
  · rw [← List.length_pos_iff, List.length_modify]
    exact List.length_pos_iff.mpr h.ne_nil
  · obtain ⟨k, hk⟩ := List.mem_iff_getElem?.mp ho
    rw [List.getElem?_modify] at hk
    obtain ⟨o', ho', rfl⟩ := Option.map_eq_some_iff.mp hk
    have hlen := h.length o' (List.mem_of_getElem? ho')
    split
    · rw [hg, hlen]
    · exact hlen

theorem Shaped.offer (h : Shaped B p.objects) (q : Ptr) : Shaped B (p.offer q).2.objects := by
  unfold Pool.offer
  split
  · exact h
  · split
    · exact h
    · exact h.modify fun o => List.length_set

theorem Shaped.construct {value : Option T} (h : Shaped B p.objects) : Shaped B (p.construct value b i).2.objects := by
  have hreserved : Shaped B (p.objects.modify b fun obj =>
      { obj with blockAvailable := obj.blockAvailable - 1, used := obj.used.set i true }) :=
    h.modify fun o => List.length_set
  cases value with
  | none => exact hreserved
  | some v => exact hreserved.modify fun o => rfl

variable [Inhabited T]

theorem Shaped.makeNew (h : Shaped B p.objects) : Shaped B p.makeNew.objects := by
  refine ⟨by simp [Pool.makeNew], fun o ho => ?_⟩
  rcases List.mem_append.mp ho with ho | ho
  · exact h.length o ho
  · rw [List.mem_singleton.mp ho]
    exact List.length_replicate

theorem Shaped.acquire {value : Option T} (h : Shaped B p.objects) : Shaped B (p.acquire value).2.objects := by
  unfold Pool.acquire
  split
  · exact h.makeNew.construct
  · split
    · exact h
    · exact Shaped.construct (p := { p with available := p.available - 1 }) h

theorem Shaped.grow (n fuel : Nat) (h : Shaped B p.objects) : Shaped B (p.grow n fuel).objects := by
  induction fuel generalizing p with
  | zero => exact h
  | succ fuel ih =>
      rw [Pool.grow]
      split
      · exact ih h.makeNew
      · exact h

theorem new_shaped (B defaultSize : Nat) : Shaped B (Pool.new B defaultSize : Pool T B).objects := by
  refine Shaped.grow _ _ ⟨List.cons_ne_nil _ _, fun o ho => ?_⟩
  rw [List.mem_singleton.mp ho]
  exact List.length_replicate

theorem shaped_of_reachable {w : World T B} {defaultSize : Nat} (h : (system B defaultSize).Reachable w) :
    Shaped B w.pool.objects := by
  refine System.Invariant.reachable (P := fun w => Shaped B w.pool.objects) (.ofFun (new_shaped B defaultSize) ?_) h
  intro w op hw
  cases op with
  | acquire value =>
      rw [run_acquire_pool]
      exact hw.acquire
  | offer q =>
      rw [run_offer_pool]
      exact hw.offer q

/-! ## What is found -/

variable [BEq T]

/-- In every pool that the operations lead to, the search does what it is for if and only if the first block holds the
value. -/
theorem finds_iff {w : World T B} {defaultSize : Nat} (h : (system B defaultSize).Reachable w) (value : T) :
    Finds value w.pool ↔ ∃ i, Holds value w.pool 0 i := by
  have hshaped := shaped_of_reachable h
  obtain ⟨obj, objs, hobjs⟩ := List.exists_cons_of_ne_nil hshaped.ne_nil
  have hfirst : w.pool.objects[0]? = some obj := by rw [hobjs]; rfl
  cases hslot : findSlot B value obj with
  | none =>
      have hnone := findSlot_none (hshaped.length obj (hobjs ▸ List.mem_cons_self)) hfirst hslot
      refine iff_of_false ?_ hnone
      rintro ⟨rounds, q, hfind, -⟩
      rw [find, findFrom_running hfirst hslot] at hfind
      cases hfind
  | some i =>
      have hholds := findSlot_some hfirst hslot
      refine iff_of_true ⟨1, .slot 0 i, ?_, .inl ⟨0, i, rfl, hholds⟩⟩ ⟨i, hholds⟩
      simp only [find, findFrom, hfirst, hslot]

/-- The value is in the second slot of the first block. -/
theorem finds_iff_second :
    Finds 6 (run Op.run (World.new 2 1 : World Nat 2) [.acquire (some 5), .acquire (some 6)]).2.pool :=
  (finds_iff (.step (i := .acquire (some 6)) (.step (i := .acquire (some 5)) (.init rfl) rfl) rfl) 6).mpr
    ⟨1, _, 6, rfl, rfl, rfl, rfl⟩

/-- A value in the second block, and one that is in no slot: the search does not return. -/
theorem second_block_not_found :
    (∃ w : World Nat 1, (system 1 2).Reachable w ∧ Holds 6 w.pool 1 0 ∧ ∀ rounds, find rounds 6 w.pool = none) ∧
      (∀ rounds, find rounds 7 (Pool.new 1 1 : Pool Nat 1) = none) ∧
      ¬ ∀ (w : World Nat 1) (value : Nat), (system 1 1).Reachable w → Finds value w.pool := by
  have hmiss : ∀ rounds, find rounds 7 (Pool.new 1 1 : Pool Nat 1) = none := findFrom_running rfl rfl
  refine ⟨⟨_, .step (i := .acquire (some 6)) (.step (i := .acquire (some 5)) (.init rfl) rfl) rfl,
    ⟨_, 6, rfl, rfl, rfl, rfl⟩, findFrom_running rfl rfl⟩, hmiss, fun h => ?_⟩
  obtain ⟨rounds, q, hfind, -⟩ := h (World.new 1 1) 7 (.init rfl)
  rw [show (World.new 1 1 : World Nat 1).pool = Pool.new 1 1 from rfl, hmiss] at hfind
  cases hfind

end Dwhbll.Memory.Pool
