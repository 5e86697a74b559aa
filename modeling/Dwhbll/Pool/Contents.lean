import Dwhbll.Pool.Find
import Dwhbll.Pool.Theorems
import Mathlib.Data.List.Find

/-!
# What a pool holds

A pool as a map from pointers to the objects in use. `acquire` adds one at a pointer that had none, `offer` takes one
away, and no other object changes.
-/

namespace Dwhbll.Memory.Pool

variable {T : Type} {B : Nat} {p : Pool T B} {q : Ptr} {b i : Nat}

/-- The object behind a pointer, if its slot is in use. -/
def object? (p : Pool T B) : Ptr → Option T
  | .slot b i => p.objects[b]?.bind fun o => if o.used[i]? = some true then o.object[i]? else none
  | .null | .foreign _ => none

/-- A pool whose records agree, with the pointers that were acquired and not returned. -/
structure Holding (p : Pool T B) (outstanding : List Ptr) : Prop where
  inv : Inv ⟨p, outstanding⟩
  length : ∀ o ∈ p.objects, o.object.length = B

variable {qs : List Ptr}

theorem object?_of_getElem? {o : Obj T} (ho : p.objects[b]? = some o) :
    p.object? (.slot b i) = if o.used[i]? = some true then o.object[i]? else none := by
  simp [object?, ho]

theorem object?_eq_none (hu : ¬ Used p.objects b i) : p.object? (.slot b i) = none := by
  cases ho : p.objects[b]? with
  | none => simp [object?, ho]
  | some o =>
      have hi : o.used[i]? ≠ some true := fun h => hu ⟨o, ho, h⟩
      simp [object?, ho, hi]

theorem Holding.isSome_iff (h : Holding p qs) : (p.object? q).isSome ↔ q ∈ qs := by
  rw [h.inv.outstanding q]
  constructor
  · intro hq
    cases q with
    | null => cases hq
    | foreign a => cases hq
    | slot b i =>
        refine ⟨b, i, rfl, ?_⟩
        by_contra hu
        rw [object?_eq_none hu] at hq
        cases hq
  · rintro ⟨b, i, rfl, o, ho, hi⟩
    have hmem := List.mem_of_getElem? ho
    have hlt : i < o.object.length := by
      rw [h.length o hmem, ← (h.inv.objects o hmem).length]
      exact (List.getElem?_eq_some_iff.mp hi).1
    simp [object?_of_getElem? ho, hi, hlt]

theorem Holding.slot_of_mem (h : Holding p qs) (hq : q ∈ qs) : ∃ b i, q = .slot b i ∧ i < B := by
  obtain ⟨b, i, rfl, o, ho, hi⟩ := (h.inv.outstanding q).mp hq
  have hlen := (h.inv.objects o (List.mem_of_getElem? ho)).length
  exact ⟨b, i, rfl, hlen ▸ (List.getElem?_eq_some_iff.mp hi).1⟩

/-! ## The operations -/

/-- One block is replaced by one that differs from it in one slot. -/
theorem object?_modify {p' : Pool T B} {o : Obj T} {g : Obj T → Obj T} {x : Option T} (ho : p.objects[b]? = some o)
    (hp' : p'.objects = p.objects.modify b g)
    (hx : (if (g o).used[i]? = some true then (g o).object[i]? else none) = x)
    (hrest : ∀ k, k ≠ i → (g o).used[k]? = o.used[k]? ∧ (g o).object[k]? = o.object[k]?) :
    p'.object? q = if q = .slot b i then x else p.object? q := by
  cases q with
  | null => rfl
  | foreign a => rfl
  | slot b' i' =>
      by_cases hb : b = b'
      · subst hb
        have ho' : p'.objects[b]? = some (g o) := by rw [hp', getElem?_modify_of_some ho, if_pos rfl]
        rw [object?_of_getElem? ho', object?_of_getElem? ho]
        by_cases hi : i' = i
        · simp [hi, hx]
        · simp [hi, hrest i' hi]
      · have ho' : p'.objects[b']? = p.objects[b']? := by rw [hp', getElem?_modify_of_some ho, if_neg hb]
        simp [object?, ho', Ne.symm hb]

theorem Holding.offer (h : Holding p qs) (hq : q ∈ qs) :
    ∃ p', p.offer q = (.ok (), p') ∧ Holding p' (qs.erase q) ∧
      ∀ q', p'.object? q' = if q' = q then none else p.object? q' := by
  obtain ⟨b, i, rfl, hu⟩ := (h.inv.outstanding q).mp hq
  have hret : p.returning (.slot b i) = some (b, i) := (h.inv.returning _ b i).mpr ⟨rfl, hu⟩
  obtain ⟨os', hflips, heq⟩ := offer_spec h.inv.objects hret hu
  have hinv := h.inv.offer hu hflips
  obtain ⟨o, ho, hi⟩ := hu
  have hlt : i < o.used.length := (List.getElem?_eq_some_iff.mp hi).1
  have hobjects : os' = p.objects.modify b fun obj =>
      { obj with used := obj.used.set i false, blockAvailable := obj.blockAvailable + 1 } := by
    have := congrArg (fun r => r.2.objects) heq
    simpa [Pool.offer, hret] using this.symm
  refine ⟨_, heq, ⟨hinv, ?_⟩, fun q' => ?_⟩
  · intro o' ho'
    obtain ⟨k, hk⟩ := List.mem_iff_getElem?.mp ho'
    simp only [hobjects] at hk
    rw [getElem?_modify_of_some ho] at hk
    split at hk
    · cases hk
      exact h.length o (List.mem_of_getElem? ho)
    · exact h.length o' (List.mem_of_getElem? hk)
  · refine object?_modify ho hobjects ?_ fun k hk => ?_
    · simp [List.getElem?_set_self hlt]
    · simp [List.getElem?_set_ne (Ne.symm hk)]

section

variable [Inhabited T]

theorem object?_slots (p p' : Pool T B) (hp' : p'.objects = p.slots) : p'.object? q = p.object? q := by
  cases q with
  | null => rfl
  | foreign a => rfl
  | slot b i =>
      by_cases hu : Used p.objects b i
      · obtain ⟨o, ho, hi⟩ := hu
        have ho' : p'.objects[b]? = some o := by
          rw [hp', slots]
          split
          · rw [List.getElem?_append_left (List.getElem?_eq_some_iff.mp ho).1]
            exact ho
          · exact ho
        rw [object?_of_getElem? ho, object?_of_getElem? ho']
      · have hu' : ¬ Used p'.objects b i := by rwa [hp', slots_used]
        rw [object?_eq_none hu, object?_eq_none hu']

theorem Holding.slots_length (h : Holding p qs) : ∀ o ∈ p.slots, o.object.length = B := by
  intro o ho
  rw [slots] at ho
  split at ho
  · rcases List.mem_append.mp ho with ho | ho
    · exact h.length o ho
    · simp [List.mem_singleton.mp ho, newObj]
  · exact h.length o ho

theorem Holding.acquire (h : Holding p qs) (hB : 1 ≤ B) (v : T) :
    ∃ b i p', p.acquire (some v) = (.ok (.slot b i), p') ∧ Holding p' (qs ++ [.slot b i]) ∧ .slot b i ∉ qs ∧
      ∀ q, p'.object? q = if q = .slot b i then some v else p.object? q := by
  obtain ⟨b, i, o, hwf, ho, hi, hu, heq⟩ := acquire_reserves hB h.inv.objects fun _ => h.inv.free hB
  obtain ⟨b', i', os', -, hflips, heq'⟩ := acquire_spec v hB h.inv.objects fun _ => h.inv.free hB
  have hconstruct := (heq (some v)).symm.trans heq'
  simp only [construct, Prod.mk.injEq, Except.ok.injEq, Ptr.slot.injEq] at hconstruct
  obtain ⟨⟨rfl, rfl⟩, hpool⟩ := hconstruct
  have hobjects := congrArg Pool.objects hpool
  simp only [List.modify_modify_eq] at hobjects
  have hlt : i < o.used.length := (List.getElem?_eq_some_iff.mp hi).1
  have hlt' : i < o.object.length := by
    rw [h.slots_length o (List.mem_of_getElem? ho), ← (hwf o (List.mem_of_getElem? ho)).length]
    exact hlt
  refine ⟨b, i, _, heq', ⟨h.inv.acquire hB hu hflips, ?_⟩, h.inv.not_mem hu, fun q => ?_⟩
  · intro o' ho'
    simp only [← hobjects] at ho'
    obtain ⟨k, hk⟩ := List.mem_iff_getElem?.mp ho'
    rw [getElem?_modify_of_some ho] at hk
    split at hk
    · cases hk
      simp [h.slots_length o (List.mem_of_getElem? ho)]
    · exact h.slots_length o' (List.mem_of_getElem? hk)
  · have hslots := object?_slots (q := q) p ⟨p.slots, 0, 0, p.returning⟩ rfl
    rw [← hslots]
    refine object?_modify (p := ⟨p.slots, 0, 0, p.returning⟩) ho hobjects.symm ?_ fun k hk => ?_
    · simp [hlt, hlt']
    · simp [List.getElem?_set_ne (Ne.symm hk)]

theorem new_holding (B defaultSize : Nat) : Holding (Pool.new B defaultSize : Pool T B) [] := by
  refine ⟨new_inv B defaultSize, ?_⟩
  have hgrow : ∀ (n fuel : Nat) (p : Pool T B), (∀ o ∈ p.objects, o.object.length = B) →
      ∀ o ∈ (p.grow n fuel).objects, o.object.length = B := by
    intro n fuel
    induction fuel with
    | zero => exact fun p h => h
    | succ fuel ih =>
        intro p h
        rw [grow]
        split
        · refine ih _ fun o ho => ?_
          rcases List.mem_append.mp ho with ho | ho
          · exact h o ho
          · simp [List.mem_singleton.mp ho, newObj]
        · exact h
  exact hgrow _ _ _ (by simp [newObj])

end

/-! ## Pools that are only filled -/

/-- The second template argument of `Pool` where there is none: a block has about a kilobyte. -/
def defaultBlockSize (sizeof : Nat) : Nat := max (1024 / sizeof) 1

theorem one_le_defaultBlockSize (sizeof : Nat) : 1 ≤ defaultBlockSize sizeof := Nat.le_max_right ..

theorem defaultBlockSize_le (sizeof : Nat) : defaultBlockSize sizeof ≤ 1024 :=
  Nat.max_le.mpr ⟨Nat.div_le_self .., by decide⟩

/-- The objects `vs` were acquired one after the other, and none of them was returned. -/
structure Filling (vs : List T) (p : Pool T B) (qs : List Ptr) : Prop where
  holding : Holding p qs
  length : qs.length = vs.length
  objects : ∀ (j : Nat) (q : Ptr), qs[j]? = some q → p.object? q = vs[j]?
  first : ∀ (j : Nat) (q : Ptr), qs[j]? = some q → j < B → q = .slot 0 j
  available : B ≤ p.available + qs.length
  ne_nil : p.objects ≠ []

variable {vs : List T}

theorem Filling.getElem?_first (h : Filling vs p qs) (hi : i < B) (hlt : i < qs.length) :
    qs[i]? = some (.slot 0 i) := by
  have hq := List.getElem?_eq_getElem hlt
  rwa [h.first i _ hq hi] at hq

theorem Filling.mem_first (h : Filling vs p qs) (hi : i < B) : .slot 0 i ∈ qs ↔ i < qs.length := by
  constructor
  · intro hmem
    obtain ⟨j, hj⟩ := List.mem_iff_getElem?.mp hmem
    have hlt := (List.getElem?_eq_some_iff.mp hj).1
    by_cases hjB : j < B
    · cases h.first j _ hj hjB
      exact hlt
    · omega
  · exact fun hlt => List.mem_of_getElem? (h.getElem?_first hi hlt)

/-- In the first block the objects are in the order in which they were acquired. -/
theorem Filling.object?_first (h : Filling vs p qs) (hi : i < B) : p.object? (.slot 0 i) = vs[i]? := by
  by_cases hlt : i < qs.length
  · exact h.objects i _ (h.getElem?_first hi hlt)
  · have hnone : ¬ (p.object? (.slot 0 i)).isSome := by
      rw [h.holding.isSome_iff, h.mem_first hi]
      exact hlt
    have hle : vs.length ≤ i := h.length ▸ Nat.not_lt.mp hlt
    rw [Option.not_isSome_iff_eq_none.mp hnone, List.getElem?_eq_none hle]

theorem findUnused_first {o : Obj T} {os : List (Obj T)} {n : Nat} (ho : o.WF B) (hlt : ∀ k < n, o.used[k]? = some true)
    (hn : o.used[n]? = some false) : findUnused (o :: os) 0 = some (0, n) := by
  have hpos : 0 < o.used.count false := List.count_pos_iff.mpr (List.mem_of_getElem? hn)
  have hidx : o.used.findIdx? (! ·) = some n := by
    obtain ⟨hlen, hval⟩ := List.getElem?_eq_some_iff.mp hn
    refine List.findIdx?_eq_some_iff_getElem.mpr ⟨hlen, by simp [hval], fun k hk => ?_⟩
    simp [(List.getElem?_eq_some_iff.mp (hlt k hk)).2]
  rw [findUnused, if_neg (by rw [ho.blockAvailable]; omega), hidx]

/-- A search comes to the first equal object if that is in the first block, and to no end otherwise. -/
theorem Filling.find [BEq T] (h : Filling vs p qs) (rounds : Nat) (value : T) :
    find (rounds + 1) value p = ((vs.take B).findIdx? (· == value)).map (.slot 0) := by
  obtain ⟨o, os, hobjects⟩ := List.exists_cons_of_ne_nil h.ne_nil
  have ho : p.objects[0]? = some o := by simp [hobjects]
  have hslot : findSlot B value o = (vs.take B).findIdx? (· == value) := by
    rw [findSlot, ← Lists.find?_range]
    refine List.find?_congr fun i hi => ?_
    rw [← h.object?_first (List.mem_range.mp hi), object?_of_getElem? ho]
    by_cases hu : o.used[i]? = some true <;> simp [hu]
  rw [← hslot]
  cases hf : findSlot B value o with
  | none => exact findFrom_running ho hf _
  | some i => simp [Pool.find, findFrom, ho, hf]

/-- A search that ends has found an equal object, or has no block to look into. -/
theorem object?_of_find [BEq T] {rounds current : Nat} {value : T} (h : findFrom value p rounds current = some q) :
    q = .null ∨ ∃ x, p.object? q = some x ∧ (x == value) = true := by
  induction rounds generalizing current with
  | zero => cases h
  | succ rounds ih =>
      cases hobj : p.objects[current]? with
      | none =>
          simp only [findFrom, hobj, Option.some.injEq] at h
          exact .inl h.symm
      | some obj =>
          cases hslot : findSlot B value obj with
          | none =>
              simp only [findFrom, hobj, hslot] at h
              exact ih h
          | some i =>
              simp only [findFrom, hobj, hslot, Option.some.injEq] at h
              subst h
              obtain ⟨obj', x, hobj', hused, hx, heq⟩ := findSlot_some hobj hslot
              exact .inr ⟨x, by simp [object?_of_getElem? hobj', hused, hx], heq⟩

variable [Inhabited T]

/-- The first slot that is not used is the next one, as long as the first block has one. -/
theorem Filling.acquire_first (h : Filling vs p qs) (v : T) (hlt : qs.length < B) :
    (p.acquire (some v)).1 = .ok (.slot 0 qs.length) := by
  obtain ⟨o, os, hobjects⟩ := List.exists_cons_of_ne_nil h.ne_nil
  have ho : p.objects[0]? = some o := by simp [hobjects]
  have hwf := h.holding.inv.objects o (hobjects ▸ List.mem_cons_self)
  have hused : ∀ k < B, (o.used[k]? = some true ↔ k < qs.length) := by
    intro k hk
    rw [← h.mem_first hk, h.holding.inv.outstanding]
    constructor
    · intro hu
      exact ⟨0, k, rfl, o, ho, hu⟩
    · rintro ⟨b, k', heq, o', ho', hu⟩
      cases heq
      cases ho.symm.trans ho'
      exact hu
  have hfree : o.used[qs.length]? = some false := by
    have hlen : qs.length < o.used.length := hwf.length ▸ hlt
    have hnot := mt (hused _ hlt).mp (Nat.lt_irrefl _)
    rw [List.getElem?_eq_getElem hlen] at hnot ⊢
    cases hval : o.used[qs.length] with
    | true => exact absurd (by rw [hval]) hnot
    | false => rfl
  have hfind : findUnused (o :: os) 0 = some (0, qs.length) :=
    findUnused_first hwf (fun k hk => (hused k (by omega)).mpr hk) hfree
  have havail := h.available
  rw [← hobjects] at hfind
  simp [acquire, hfind, construct, show p.available ≠ 0 by omega]

theorem Filling.acquire (h : Filling vs p qs) (hB : 1 ≤ B) (v : T) :
    ∃ q p', p.acquire (some v) = (.ok q, p') ∧ Filling (vs ++ [v]) p' (qs ++ [q]) := by
  obtain ⟨b, i, p', heq, hholding, hfresh, hobjects⟩ := h.holding.acquire hB v
  have hsucc : (qs ++ [Ptr.slot b i]).length = (vs ++ [v]).length := by simp [h.length]
  refine ⟨.slot b i, p', heq, hholding, hsucc, ?_, ?_, ?_, ?_⟩
  · refine Lists.forall_getElem?_concat.mpr ⟨fun j q hq => ?_, ?_⟩
    · have hne : q ≠ .slot b i := fun h => hfresh (h ▸ List.mem_of_getElem? hq)
      have hlt : j < vs.length := h.length ▸ (List.getElem?_eq_some_iff.mp hq).1
      rw [hobjects, if_neg hne, h.objects j q hq, List.getElem?_append_left hlt]
    · rw [hobjects, if_pos rfl, h.length, List.getElem?_concat_length]
  · refine Lists.forall_getElem?_concat.mpr ⟨h.first, fun hlt => ?_⟩
    have hfirst := h.acquire_first v hlt
    rw [heq] at hfirst
    simpa using hfirst
  · have havail := h.available
    have hpool : p'.available = p.available - 1 := by
      obtain ⟨_, _, _, -, -, hspec⟩ := acquire_spec v hB h.holding.inv.objects fun _ => h.holding.inv.free hB
      have := congrArg (fun r => r.2.available) (heq.symm.trans hspec)
      exact this
    simp only [List.length_append, List.length_singleton]
    omega
  · have hshaped : Shaped B p.objects := ⟨h.ne_nil, fun o ho => (h.holding.inv.objects o ho).length⟩
    have hnew : Shaped B (p.acquire (some v)).2.objects := hshaped.acquire
    rw [heq] at hnew
    exact hnew.ne_nil

theorem new_filling {defaultSize : Nat} (hB : 1 ≤ B) (hsize : 1 ≤ defaultSize) (h : defaultSize * B < 2 ^ 64) :
    Filling [] (Pool.new B defaultSize : Pool T B) [] := by
  refine ⟨new_holding B defaultSize, rfl, by simp, by simp, ?_, (new_shaped B defaultSize).ne_nil⟩
  have havail : (Pool.new B defaultSize : Pool T B).available = defaultSize * B := new_size hB h
  have := Nat.mul_le_mul_right B hsize
  simp only [havail, List.length_nil]
  omega

end Dwhbll.Memory.Pool
