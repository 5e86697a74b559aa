import Dwhbll.Lib.Lists
import Dwhbll.Pool.Basic
import Mathlib.Data.Bool.Count

/-!
# The invariant of the pool

The flags of the slots are what the other counters are measured by. `acquire` and `offer` both flip one flag; what
that does to the blocks is said once (`Flips`).
-/

namespace Dwhbll.Memory

variable {T : Type} {B : Nat}

/-- A block whose counter is the number of its unused slots. -/
structure Obj.WF (B : Nat) (o : Obj T) : Prop where
  length : o.used.length = B
  blockAvailable : o.blockAvailable = o.used.count false

namespace Pool

/-- The slot is in use. -/
def Used (os : List (Obj T)) (b i : Nat) : Prop := ∃ o, os[b]? = some o ∧ o.used[i]? = some true

/-- The number of slots with the given flag. -/
def flags (u : Bool) (os : List (Obj T)) : Nat := (os.map fun o => o.used.count u).sum

variable {os os' : List (Obj T)} {o : Obj T} {b i : Nat} {u : Bool}

theorem flags_add (hwf : ∀ o ∈ os, o.WF B) : flags false os + flags true os = os.length * B := by
  induction os with
  | nil => simp [flags]
  | cons o os ih =>
      have h1 := ih fun o ho => hwf o (List.mem_cons_of_mem _ ho)
      have h2 := List.count_not_add_count o.used true
      rw [(hwf o List.mem_cons_self).length] at h2
      simp only [flags, List.map_cons, List.sum_cons, List.length_cons, Nat.succ_mul, Bool.not_true] at h1 h2 ⊢
      omega

theorem flags_append (u : Bool) (os os' : List (Obj T)) : flags u (os ++ os') = flags u os + flags u os' := by
  simp [flags]

/-! ## One flag -/

/-- `os'` is `os` with the flag of one slot turned into `u`. -/
structure Flips (B : Nat) (os os' : List (Obj T)) (b i : Nat) (u : Bool) : Prop where
  length : os'.length = os.length
  wf : ∀ o ∈ os', o.WF B
  used : ∀ b' i', Used os' b' i' ↔ if b' = b ∧ i' = i then u = true else Used os b' i'
  flagged : flags u os' = flags u os + 1
  unflagged : flags (!u) os' + 1 = flags (!u) os

theorem getElem?_modify_of_some {g : Obj T → Obj T} (ho : os[b]? = some o) (b' : Nat) :
    (os.modify b g)[b']? = if b = b' then some (g o) else os[b']? := by
  by_cases hb : b = b'
  · subst hb
    rw [List.getElem?_modify_eq, ho, if_pos rfl]
    rfl
  · rw [List.getElem?_modify_ne _ _ hb, if_neg hb]

theorem used_modify {g : Obj T → Obj T} (ho : os[b]? = some o) (hlt : i < o.used.length)
    (hused : (g o).used = o.used.set i u) (b' i' : Nat) :
    Used (os.modify b g) b' i' ↔ if b' = b ∧ i' = i then u = true else Used os b' i' := by
  simp only [Used, getElem?_modify_of_some ho]
  by_cases hb : b = b'
  · subst hb
    have hused' : (g o).used[i']? = if i = i' then some u else o.used[i']? := by
      rw [hused, List.getElem?_set]
      by_cases hii : i = i'
      · subst hii
        simp [hlt]
      · simp [hii]
    by_cases hii : i = i'
    · simp [hused', hii]
    · simp [hused', hii, Ne.symm hii, ho]
  · simp [hb, Ne.symm hb]

theorem modify_flips {g : Obj T → Obj T} (hwf : ∀ o ∈ os, o.WF B) (ho : os[b]? = some o)
    (hi : o.used[i]? = some (!u)) (hused : (g o).used = o.used.set i u)
    (havail : (g o).blockAvailable = (g o).used.count false) : Flips B os (os.modify b g) b i u := by
  have hlt : i < o.used.length := (List.getElem?_eq_some_iff.mp hi).1
  have hval : o.used[i] = !u := (List.getElem?_eq_some_iff.mp hi).2
  have hpos : 0 < o.used.count (!u) := List.count_pos_iff.mpr (List.mem_of_getElem? hi)
  have hset : (g o).used.count u = o.used.count u + 1 := by
    rw [hused, List.count_set hlt, hval]
    cases u <;> simp
  have hunset : (g o).used.count (!u) + 1 = o.used.count (!u) := by
    have hne : (u == !u) = false := by cases u <;> rfl
    rw [hused, List.count_set hlt, hval, hne, beq_self_eq_true]
    simp only [if_true, Bool.false_eq_true, if_false]
    omega
  have hsum := fun v => Lists.sum_map_modify (fun o : Obj T => o.used.count v) g ho
  refine ⟨List.length_modify .., ?_, used_modify ho hlt hused, ?_, ?_⟩
  · intro o' ho'
    obtain ⟨k, hk⟩ := List.mem_iff_getElem?.mp ho'
    rw [getElem?_modify_of_some ho] at hk
    split at hk
    · cases hk
      refine ⟨?_, havail⟩
      rw [hused, List.length_set]
      exact (hwf o (List.mem_of_getElem? ho)).length
    · exact hwf o' (List.mem_of_getElem? hk)
  · have := hsum u
    simp only [flags]
    omega
  · have := hsum (!u)
    simp only [flags]
    omega

theorem Flips.used_of_false (h : Flips B os os' b i false) {b' i' : Nat} :
    Used os' b' i' ↔ ¬ (b' = b ∧ i' = i) ∧ Used os b' i' := by
  rw [h.used]
  split
  · rename_i hbi
    exact iff_of_false Bool.false_ne_true fun h => h.1 hbi
  · rename_i hbi
    exact (and_iff_right hbi).symm

theorem Flips.used_of_true (h : Flips B os os' b i true) {b' i' : Nat} :
    Used os' b' i' ↔ (b' = b ∧ i' = i) ∨ Used os b' i' := by
  rw [h.used]
  split
  · rename_i hbi
    exact iff_of_true rfl (.inl hbi)
  · rename_i hbi
    exact (or_iff_right hbi).symm

/-! ## Looking for a slot -/

theorem findUnused_some {k : Nat} (h : findUnused os k = some (b, i)) :
    ∃ c o, b = k + c ∧ os[c]? = some o ∧ o.used[i]? = some false := by
  induction os generalizing k with
  | nil => cases h
  | cons o os ih =>
      have hnext : findUnused os (k + 1) = some (b, i) →
          ∃ c o', b = k + c ∧ (o :: os)[c]? = some o' ∧ o'.used[i]? = some false := by
        intro h
        obtain ⟨c, o', hb, ho', hi⟩ := ih h
        exact ⟨c + 1, o', by omega, ho', hi⟩
      rw [findUnused] at h
      split at h
      · exact hnext h
      · split at h
        · rename_i index hidx
          cases h
          obtain ⟨hlt, hval, -⟩ := List.findIdx?_eq_some_iff_getElem.mp hidx
          refine ⟨0, o, rfl, rfl, ?_⟩
          rw [List.getElem?_eq_getElem hlt]
          simpa using hval
        · exact hnext h

/-- The slot that is found is in the first block with one that is not used. -/
theorem findUnused_le {k b' i' : Nat} (hwf : ∀ o ∈ os, o.WF B) (h : findUnused os k = some (b, i)) {o : Obj T}
    (ho : os[b']? = some o) (hi : o.used[i']? = some false) : b ≤ k + b' := by
  induction os generalizing k b' with
  | nil => cases h
  | cons o₁ os ih =>
      rw [findUnused] at h
      cases b' with
      | zero =>
          have hfirst : o₁ = o := Option.some.inj ho
          subst hfirst
          have hmem := List.mem_of_getElem? hi
          have hne : o₁.blockAvailable ≠ 0 := by
            rw [(hwf o₁ List.mem_cons_self).blockAvailable]
            exact Nat.ne_of_gt (List.count_pos_iff.mpr hmem)
          rw [if_neg hne] at h
          split at h
          · cases h
            exact Nat.le_refl _
          · rename_i hnone
            have := List.findIdx?_eq_none_iff.mp hnone false hmem
            cases this
      | succ b' =>
          have hnext : findUnused os (k + 1) = some (b, i) → b ≤ k + (b' + 1) := by
            intro h
            have := ih (fun o ho => hwf o (List.mem_cons_of_mem _ ho)) h ho
            omega
          split at h
          · exact hnext h
          · split at h
            · cases h
              exact Nat.le_add_right ..
            · exact hnext h

theorem findUnused_none {k : Nat} (hwf : ∀ o ∈ os, o.WF B) (h : findUnused os k = none) : flags false os = 0 := by
  induction os generalizing k with
  | nil => rfl
  | cons o os ih =>
      have hrest : findUnused os (k + 1) = none → o.used.count false = 0 → flags false (o :: os) = 0 := by
        intro h h0
        have hos := ih (fun o ho => hwf o (List.mem_cons_of_mem _ ho)) h
        simp only [flags] at hos
        simp only [flags, List.map_cons, List.sum_cons, h0, hos]
      rw [findUnused] at h
      split at h
      · rename_i h0
        exact hrest h ((hwf o List.mem_cons_self).blockAvailable ▸ h0)
      · split at h
        · cases h
        · rename_i hidx
          refine hrest h (List.count_eq_zero.mpr fun hmem => ?_)
          have := List.findIdx?_eq_none_iff.mp hidx false hmem
          cases this

/-! ## The invariant -/

structure Inv (w : World T B) : Prop where
  objects : ∀ o ∈ w.pool.objects, o.WF B
  returning : ∀ q b i, w.pool.returning q = some (b, i) ↔ q = .slot b i ∧ Used w.pool.objects b i
  outstanding : ∀ q, q ∈ w.outstanding ↔ ∃ b i, q = .slot b i ∧ Used w.pool.objects b i
  nodup : w.outstanding.Nodup
  count : flags true w.pool.objects = w.outstanding.length
  total : w.pool.objects.length * B = w.pool.size + B
  bound : w.pool.available + w.outstanding.length ≤ w.pool.size

variable {w : World T B}

/-- There are more unused slots than `available` says, by the block of the constructor at least. -/
theorem Inv.unused (h : Inv w) : w.pool.available + B ≤ flags false w.pool.objects := by
  have h1 := flags_add h.objects
  have h2 := h.total
  have h3 := h.count
  have h4 := h.bound
  omega

theorem Inv.not_mem (h : Inv w) {b i : Nat} (hu : ¬ Used w.pool.objects b i) : Ptr.slot b i ∉ w.outstanding := by
  intro hmem
  obtain ⟨b', i', heq, hu'⟩ := (h.outstanding _).mp hmem
  cases heq
  exact hu hu'

/-- After an `offer` of the slot `b`, `i`. -/
theorem Inv.offer (h : Inv w) {b i : Nat} {os' : List (Obj T)} (hu : Used w.pool.objects b i)
    (hf : Flips B w.pool.objects os' b i false) :
    Inv (B := B) ⟨{ w.pool with
        objects := os'
        returning := fun q => if q = .slot b i then none else w.pool.returning q
        available := w.pool.available + 1 },
      w.outstanding.erase (.slot b i)⟩ := by
  have hmem : Ptr.slot b i ∈ w.outstanding := (h.outstanding _).mpr ⟨b, i, rfl, hu⟩
  have hlen : (w.outstanding.erase (.slot b i)).length + 1 = w.outstanding.length := by
    have hpos := List.length_pos_of_mem hmem
    rw [List.length_erase_of_mem hmem]
    omega
  have hused : ∀ b' i', Used os' b' i' ↔ Ptr.slot b' i' ≠ .slot b i ∧ Used w.pool.objects b' i' := by
    intro b' i'
    rw [hf.used_of_false, ne_eq, Ptr.slot.injEq]
  refine ⟨hf.wf, ?_, ?_, h.nodup.erase _, ?_, ?_, ?_⟩
  · intro q b' i'
    simp only [hused]
    split
    · rename_i hq
      constructor
      · intro hnone
        cases hnone
      · rintro ⟨rfl, hne, -⟩
        exact absurd hq hne
    · rename_i hq
      rw [h.returning]
      constructor
      · rintro ⟨rfl, hu'⟩
        exact ⟨rfl, hq, hu'⟩
      · rintro ⟨rfl, -, hu'⟩
        exact ⟨rfl, hu'⟩
  · intro q
    simp only [h.nodup.mem_erase_iff, h.outstanding, hused]
    constructor
    · rintro ⟨hne, b', i', rfl, hu'⟩
      exact ⟨b', i', rfl, hne, hu'⟩
    · rintro ⟨b', i', rfl, hne, hu'⟩
      exact ⟨hne, b', i', rfl, hu'⟩
  · have hcount := hf.unflagged
    have hw := h.count
    simp only [Bool.not_false] at hcount
    show flags true os' = (w.outstanding.erase (.slot b i)).length
    omega
  · show os'.length * B = w.pool.size + B
    rw [hf.length]
    exact h.total
  · have hb := h.bound
    show w.pool.available + 1 + (w.outstanding.erase (.slot b i)).length ≤ w.pool.size
    omega

theorem Inv.of_perm {p : Pool T B} {qs qs' : List Ptr} (h : Inv (B := B) ⟨p, qs⟩) (hperm : qs.Perm qs') :
    Inv (B := B) ⟨p, qs'⟩ where
  objects := h.objects
  returning := h.returning
  outstanding q := hperm.mem_iff.symm.trans (h.outstanding q)
  nodup := hperm.nodup_iff.mp h.nodup
  count := h.count.trans hperm.length_eq
  total := h.total
  bound := by
    have hlen := hperm.length_eq
    have hbound := h.bound
    simp only at hbound ⊢
    omega

theorem Inv.free (h : Inv w) (hB : 1 ≤ B) : flags false w.pool.objects ≠ 0 := by
  have := h.unused
  omega

/-- What is not in the map is refused. -/
theorem offer_refused {p : Pool T B} {q : Ptr} (hq : q ≠ .null) (hret : p.returning q = none) :
    p.offer q = (.error (.runtimeError "Object was not allocated in the pool!"), p) := by
  simp only [offer, if_neg hq, hret]

theorem Inv.returning_none (h : Inv w) {q : Ptr} (hq : q ∉ w.outstanding) : w.pool.returning q = none := by
  cases hret : w.pool.returning q with
  | none => rfl
  | some bi =>
      obtain ⟨b, i⟩ := bi
      obtain ⟨rfl, hu⟩ := (h.returning q b i).mp hret
      exact absurd ((h.outstanding _).mpr ⟨b, i, rfl, hu⟩) hq

/-! ## The operations -/

/-- The flag and the counter as `acquire` sets them, whatever is done to the object. -/
theorem modify_reserves {g : Obj T → Obj T} (hwf : ∀ o ∈ os, o.WF B) (ho : os[b]? = some o) (hi : o.used[i]? = some false)
    (hused : (g o).used = o.used.set i true) (havail : (g o).blockAvailable = o.blockAvailable - 1) :
    Flips B os (os.modify b g) b i true := by
  have hcount := (hwf o (List.mem_of_getElem? ho)).blockAvailable
  have hlt : i < o.used.length := (List.getElem?_eq_some_iff.mp hi).1
  have hval : o.used[i] = false := (List.getElem?_eq_some_iff.mp hi).2
  refine modify_flips hwf ho hi hused ?_
  rw [havail, hused, hcount, List.count_set hlt, hval]
  simp

theorem construct_spec {p : Pool T B} (v : T) (hwf : ∀ o ∈ p.objects, o.WF B) (ho : p.objects[b]? = some o)
    (hi : o.used[i]? = some false) :
    ∃ os', Flips B p.objects os' b i true ∧ p.construct (some v) b i =
      (.ok (.slot b i), { p with
        objects := os'
        returning := fun q => if q = .slot b i then some (b, i) else p.returning q }) := by
  refine ⟨_, ?_, rfl⟩
  rw [List.modify_modify_eq]
  exact modify_reserves hwf ho hi rfl rfl

/-- The slot of an object that was not constructed stays reserved. -/
theorem construct_none {p : Pool T B} (hwf : ∀ o ∈ p.objects, o.WF B) (ho : p.objects[b]? = some o)
    (hi : o.used[i]? = some false) :
    ∃ os', Flips B p.objects os' b i true ∧ p.construct none b i = (.error .constructor, { p with objects := os' }) :=
  ⟨_, modify_reserves hwf ho hi rfl rfl, rfl⟩

theorem offer_spec {p : Pool T B} (hwf : ∀ o ∈ p.objects, o.WF B) (hret : p.returning (.slot b i) = some (b, i))
    (hused : Used p.objects b i) :
    ∃ os', Flips B p.objects os' b i false ∧ p.offer (.slot b i) =
      (.ok (), { p with
        objects := os'
        returning := fun q => if q = .slot b i then none else p.returning q
        available := p.available + 1 }) := by
  obtain ⟨o, ho, hi⟩ := hused
  have havail := (hwf o (List.mem_of_getElem? ho)).blockAvailable
  have hlt : i < o.used.length := (List.getElem?_eq_some_iff.mp hi).1
  have hval : o.used[i] = true := (List.getElem?_eq_some_iff.mp hi).2
  refine ⟨p.objects.modify b fun obj =>
    { obj with used := obj.used.set i false, blockAvailable := obj.blockAvailable + 1 }, ?_, ?_⟩
  · refine modify_flips hwf ho hi rfl ?_
    show o.blockAvailable + 1 = (o.used.set i false).count false
    rw [havail, List.count_set hlt, hval]
    simp
  · simp only [offer, hret, reduceCtorEq, if_false]

variable [Inhabited T]

theorem newObj_wf : (newObj B : Obj T).WF B := ⟨List.length_replicate, by simp [newObj]⟩

theorem append_newObj_wf {objects : List (Obj T)} (hwf : ∀ o ∈ objects, o.WF B) :
    ∀ o ∈ objects ++ [newObj B], o.WF B := by
  intro o ho
  rcases List.mem_append.mp ho with ho | ho
  · exact hwf o ho
  · rw [List.mem_singleton.mp ho]
    exact newObj_wf

theorem flags_newObj : flags true [(newObj B : Obj T)] = 0 := by
  simp [flags, newObj, List.count_replicate]

theorem used_append_newObj : Used (os ++ [newObj B]) b i ↔ Used os b i := by
  have hnew : (newObj B : Obj T).used[i]? ≠ some true := by
    simp only [newObj, List.getElem?_replicate]
    split <;> simp
  constructor
  · rintro ⟨o, ho, hi⟩
    rw [List.getElem?_append] at ho
    split at ho
    · exact ⟨o, ho, hi⟩
    · have hmem := List.mem_of_getElem? ho
      rw [List.mem_singleton.mp hmem] at hi
      exact absurd hi hnew
  · rintro ⟨o, ho, hi⟩
    refine ⟨o, ?_, hi⟩
    rw [List.getElem?_append_left (List.getElem?_eq_some_iff.mp ho).1]
    exact ho

/-- The slots among which `acquire` chooses one. -/
def slots (p : Pool T B) : List (Obj T) := if p.available = 0 then p.objects ++ [newObj B] else p.objects

/-- `acquire` constructs the object in a slot that is not in use, of the new block if it makes one. -/
theorem acquire_reserves {p : Pool T B} (hB : 1 ≤ B) (hwf : ∀ o ∈ p.objects, o.WF B)
    (hfree : p.available ≠ 0 → flags false p.objects ≠ 0) :
    ∃ b i o, (∀ o ∈ p.slots, o.WF B) ∧ p.slots[b]? = some o ∧ o.used[i]? = some false ∧ ¬ Used p.objects b i ∧
      ∀ value, p.acquire value = construct (B := B) value b i
        { objects := p.slots
          available := p.available - 1
          size := if p.available = 0 then p.size + B else p.size
          returning := p.returning } := by
  by_cases h0 : p.available = 0
  · have hslots : p.slots = p.objects ++ [newObj B] := if_pos h0
    have hwf' : ∀ o ∈ p.slots, o.WF B := by
      rw [hslots]
      exact append_newObj_wf hwf
    have hfirst : (newObj B : Obj T).used[0]? = some false := by
      simp only [newObj, List.getElem?_replicate]
      rw [if_pos (by omega)]
    refine ⟨p.objects.length, 0, newObj B, hwf', by simp [hslots], hfirst, ?_, fun value => ?_⟩
    · rintro ⟨o, ho, -⟩
      exact absurd (List.getElem?_eq_some_iff.mp ho).1 (Nat.lt_irrefl _)
    · simp [acquire, h0, makeNew, hslots]
  · have hslots : p.slots = p.objects := if_neg h0
    cases hfind : findUnused p.objects 0 with
    | none => exact absurd (findUnused_none hwf hfind) (hfree h0)
    | some bi =>
        obtain ⟨b, i⟩ := bi
        obtain ⟨c, o, hb, ho, hi⟩ := findUnused_some hfind
        rw [Nat.zero_add] at hb
        subst hb
        refine ⟨b, i, o, hslots ▸ hwf, hslots ▸ ho, hi, ?_, fun value => ?_⟩
        · rintro ⟨o', ho', hi'⟩
          cases ho.symm.trans ho'
          cases hi.symm.trans hi'
        · simp only [acquire, if_neg h0, hfind, hslots]

/-- `acquire` turns the flag of a slot that is not in use. -/
theorem acquire_spec {p : Pool T B} (v : T) (hB : 1 ≤ B) (hwf : ∀ o ∈ p.objects, o.WF B)
    (hfree : p.available ≠ 0 → flags false p.objects ≠ 0) :
    ∃ b i os', ¬ Used p.objects b i ∧ Flips B p.slots os' b i true ∧ p.acquire (some v) =
      (.ok (.slot b i), {
        objects := os'
        available := p.available - 1
        size := if p.available = 0 then p.size + B else p.size
        returning := fun q => if q = .slot b i then some (b, i) else p.returning q }) := by
  obtain ⟨b, i, o, hwf', ho, hi, hu, heq⟩ := acquire_reserves hB hwf hfree
  obtain ⟨os', hflips, hconstruct⟩ := construct_spec (B := B) (p := ⟨p.slots, _, _, p.returning⟩) v hwf' ho hi
  exact ⟨b, i, os', hu, hflips, by rw [heq, hconstruct]⟩

/-- And it stays turned where the constructor throws. -/
theorem acquire_throws {p : Pool T B} (hB : 1 ≤ B) (hwf : ∀ o ∈ p.objects, o.WF B)
    (hfree : p.available ≠ 0 → flags false p.objects ≠ 0) :
    ∃ b i os', ¬ Used p.objects b i ∧ Flips B p.slots os' b i true ∧ p.acquire none =
      (.error .constructor, {
        objects := os'
        available := p.available - 1
        size := if p.available = 0 then p.size + B else p.size
        returning := p.returning }) := by
  obtain ⟨b, i, o, hwf', ho, hi, hu, heq⟩ := acquire_reserves hB hwf hfree
  obtain ⟨os', hflips, hconstruct⟩ := construct_none (B := B) (p := ⟨p.slots, _, _, p.returning⟩) hwf' ho hi
  exact ⟨b, i, os', hu, hflips, by rw [heq, hconstruct]⟩

theorem slots_used (p : Pool T B) {b i : Nat} : Used p.slots b i ↔ Used p.objects b i := by
  rw [slots]
  split
  · exact used_append_newObj
  · rfl

theorem slots_flags (p : Pool T B) : flags true p.slots = flags true p.objects := by
  rw [slots]
  split
  · rw [flags_append, flags_newObj, Nat.add_zero]
  · rfl

theorem slots_length (p : Pool T B) : p.slots.length = p.objects.length + if p.available = 0 then 1 else 0 := by
  rw [slots]
  split
  · exact List.length_append
  · rfl

/-- After an `acquire` of the slot `b`, `i`. -/
theorem Inv.acquire (h : Inv w) (hB : 1 ≤ B) {b i : Nat} {os' : List (Obj T)} (hu : ¬ Used w.pool.objects b i)
    (hf : Flips B w.pool.slots os' b i true) :
    Inv (B := B) ⟨{ objects := os'
                    available := w.pool.available - 1
                    size := if w.pool.available = 0 then w.pool.size + B else w.pool.size
                    returning := fun q => if q = .slot b i then some (b, i) else w.pool.returning q },
      w.outstanding ++ [.slot b i]⟩ := by
  have hused : ∀ b' i', Used os' b' i' ↔ (b' = b ∧ i' = i) ∨ Used w.pool.objects b' i' := by
    intro b' i'
    rw [hf.used_of_true, slots_used]
  refine ⟨hf.wf, ?_, ?_, ?_, ?_, ?_, ?_⟩
  · intro q b' i'
    simp only [hused]
    split
    · rename_i hq
      subst hq
      simp only [Option.some.injEq, Prod.mk.injEq, Ptr.slot.injEq]
      constructor
      · rintro ⟨rfl, rfl⟩
        exact ⟨⟨rfl, rfl⟩, .inl ⟨rfl, rfl⟩⟩
      · rintro ⟨heq, -⟩
        exact heq
    · rename_i hq
      rw [h.returning]
      constructor
      · rintro ⟨hq', hu'⟩
        exact ⟨hq', .inr hu'⟩
      · rintro ⟨rfl, ⟨rfl, rfl⟩ | hu'⟩
        · exact absurd rfl hq
        · exact ⟨rfl, hu'⟩
  · intro q
    simp only [List.mem_append, List.mem_singleton, h.outstanding, hused]
    constructor
    · rintro (⟨b', i', rfl, hu'⟩ | rfl)
      · exact ⟨b', i', rfl, .inr hu'⟩
      · exact ⟨b, i, rfl, .inl ⟨rfl, rfl⟩⟩
    · rintro ⟨b', i', rfl, ⟨rfl, rfl⟩ | hu'⟩
      · exact .inr rfl
      · exact .inl ⟨b', i', rfl, hu'⟩
  · rw [List.nodup_append]
    refine ⟨h.nodup, by simp, ?_⟩
    intro q hq q' hq' heq
    rw [List.mem_singleton.mp hq'] at heq
    exact h.not_mem hu (heq ▸ hq)
  · show flags true os' = (w.outstanding ++ [Ptr.slot b i]).length
    rw [hf.flagged, slots_flags, h.count, List.length_append, List.length_singleton]
  · have ht := h.total
    show os'.length * B = (if w.pool.available = 0 then w.pool.size + B else w.pool.size) + B
    rw [hf.length, slots_length]
    split
    · rw [Nat.add_mul]
      omega
    · exact ht
  · have hb := h.bound
    show w.pool.available - 1 + (w.outstanding ++ [Ptr.slot b i]).length ≤
      if w.pool.available = 0 then w.pool.size + B else w.pool.size
    rw [List.length_append, List.length_singleton]
    split <;> omega

/-! ## Runs -/

theorem run_offer_pool (w : World T B) (q : Ptr) : (Op.run w (.offer q)).2.pool = (w.pool.offer q).2 := by
  rw [Op.run]
  split <;> (rename_i h; rw [h])

theorem run_acquire_pool (w : World T B) (value : Option T) :
    (Op.run w (.acquire value)).2.pool = (w.pool.acquire value).2 := by
  rw [Op.run]
  split <;> (rename_i h; rw [h])

theorem grow_spec (n fuel : Nat) {p : Pool T B} (hwf : ∀ o ∈ p.objects, o.WF B)
    (hused : ∀ b i, ¬ Used p.objects b i) (hflags : flags true p.objects = 0)
    (htotal : p.objects.length * B = p.size + B) :
    (∀ o ∈ (p.grow n fuel).objects, o.WF B) ∧ (∀ b i, ¬ Used (p.grow n fuel).objects b i) ∧
      flags true (p.grow n fuel).objects = 0 ∧
      (p.grow n fuel).objects.length * B = (p.grow n fuel).size + B ∧
      (p.grow n fuel).returning = p.returning := by
  induction fuel generalizing p with
  | zero => exact ⟨hwf, hused, hflags, htotal, rfl⟩
  | succ fuel ih =>
      rw [grow]
      split
      · refine ih (append_newObj_wf hwf) ?_ ?_ ?_
        · intro b i hu
          exact hused b i (used_append_newObj.mp hu)
        · show flags true (p.objects ++ [newObj B]) = 0
          rw [flags_append, hflags, flags_newObj]
        · show (p.objects ++ [newObj B]).length * B = p.size + B + B
          rw [List.length_append, List.length_singleton, Nat.add_mul]
          omega
      · exact ⟨hwf, hused, hflags, htotal, rfl⟩

theorem new_inv (B defaultSize : Nat) : Inv (World.new B defaultSize : World T B) := by
  have hnone : ∀ b i, ¬ Used [(newObj B : Obj T)] b i := by
    rintro b i hu
    have hu' : Used ([] ++ [(newObj B : Obj T)]) b i := hu
    obtain ⟨o, ho, -⟩ := used_append_newObj.mp hu'
    cases ho
  obtain ⟨hwf, hused, hflags, htotal, hret⟩ := grow_spec (T := T)
    (defaultSize * B % 2 ^ 64) (defaultSize * B % 2 ^ 64)
    (p := ⟨[newObj B], defaultSize * B % 2 ^ 64, 0, fun _ => none⟩)
    (fun o ho => by rw [List.mem_singleton.mp ho]; exact newObj_wf) hnone flags_newObj (by simp)
  refine ⟨hwf, ?_, ?_, List.nodup_nil, hflags, htotal, Nat.le_refl _⟩
  · intro q b i
    constructor
    · intro hq
      rw [show (World.new B defaultSize : World T B).pool.returning = fun _ => none from hret] at hq
      cases hq
    · rintro ⟨-, hu⟩
      exact absurd hu (hused b i)
  · intro q
    constructor
    · intro hq
      cases hq
    · rintro ⟨b, i, -, hu⟩
      exact absurd hu (hused b i)

end Pool

end Dwhbll.Memory
