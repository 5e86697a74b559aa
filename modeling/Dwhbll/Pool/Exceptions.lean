import Dwhbll.Pool.Lemmas
import Mathlib.Data.Finset.Card
import Mathlib.Data.Finset.Prod

/-!
# `acquire` with a constructor that throws

The slot is reserved before the constructor runs, and nothing takes that back. It is not in the map either, and so
it is in use for good.
-/

namespace Dwhbll.Memory.Pool

open Transition

variable {T : Type} {B : Nat} {os os' : List (Obj T)} {p p' : Pool T B} {b i : Nat}

def Free (os : List (Obj T)) (b i : Nat) : Prop := ∃ o, os[b]? = some o ∧ o.used[i]? = some false

theorem Free.not_used (h : Free os b i) : ¬ Used os b i := by
  rintro ⟨o', ho', hi'⟩
  obtain ⟨o, ho, hi⟩ := h
  cases ho.symm.trans ho'
  cases hi.symm.trans hi'

theorem free_iff (hwf : ∀ o ∈ os, o.WF B) : Free os b i ↔ b < os.length ∧ i < B ∧ ¬ Used os b i := by
  constructor
  · intro h
    obtain ⟨o, ho, hi⟩ := id h
    have hlt := (List.getElem?_eq_some_iff.mp hi).1
    rw [(hwf o (List.mem_of_getElem? ho)).length] at hlt
    exact ⟨(List.getElem?_eq_some_iff.mp ho).1, hlt, h.not_used⟩
  · rintro ⟨hb, hi, hu⟩
    rw [← (hwf _ (List.getElem_mem hb)).length] at hi
    refine ⟨_, List.getElem?_eq_getElem hb, ?_⟩
    rw [List.getElem?_eq_getElem hi, Option.some.injEq, ← Bool.not_eq_true]
    exact fun hval => hu ⟨_, List.getElem?_eq_getElem hb, by rw [List.getElem?_eq_getElem hi, hval]⟩

/-- Only the slot whose flag is turned is no longer free. -/
theorem free_of_flips (hf : Flips B os os' b i true) (hwf : ∀ o ∈ os, o.WF B) {b' i' : Nat} :
    Free os' b' i' ↔ ¬ (b' = b ∧ i' = i) ∧ Free os b' i' := by
  rw [free_iff hf.wf, free_iff hwf, hf.length, hf.used_of_true]
  tauto

/-- The flag that is turned is one of a free slot. -/
theorem Flips.free (hf : Flips B os os' b i true) (hwf : ∀ o ∈ os, o.WF B) (hu : ¬ Used os b i) : Free os b i := by
  obtain ⟨o, ho, hi⟩ := hf.used_of_true.mpr (.inl ⟨rfl, rfl⟩)
  have hlt := (List.getElem?_eq_some_iff.mp hi).1
  rw [(hf.wf o (List.mem_of_getElem? ho)).length] at hlt
  exact (free_iff hwf).mpr ⟨hf.length ▸ (List.getElem?_eq_some_iff.mp ho).1, hlt, hu⟩

/-- The slot is in use, but cannot be given back. -/
def Lost (p : Pool T B) (b i : Nat) : Prop := Used p.objects b i ∧ p.returning (.slot b i) = none

/-! ## What holds with lost slots too -/

structure Sane (p : Pool T B) : Prop where
  objects : ∀ o ∈ p.objects, o.WF B
  returning : ∀ q b i, p.returning q = some (b, i) → q = .slot b i ∧ Used p.objects b i
  unused : p.available + B ≤ flags false p.objects

theorem Inv.sane {w : World T B} (h : Inv w) : Sane w.pool :=
  ⟨h.objects, fun q b i hq => (h.returning q b i).mp hq, h.unused⟩

theorem Sane.free (h : Sane p) (hB : 1 ≤ B) : flags false p.objects ≠ 0 := by
  have := h.unused
  omega

/-- An `offer` turns the flag of a slot that is in the map, or changes nothing. -/
theorem Sane.offer_spec (h : Sane p) (q : Ptr) :
    (∃ b i os', q = .slot b i ∧ p.returning q = some (b, i) ∧ Flips B p.objects os' b i false ∧
      p.offer q = (.ok (), { p with
        objects := os'
        returning := fun q => if q = .slot b i then none else p.returning q
        available := p.available + 1 })) ∨
      (p.offer q).2 = p := by
  cases hret : p.returning q with
  | none =>
      by_cases hq : q = .null
      · exact .inr (by rw [offer, if_pos hq])
      · exact .inr (by rw [offer_refused hq hret])
  | some bi =>
      obtain ⟨b, i⟩ := bi
      obtain ⟨rfl, hu⟩ := h.returning q b i hret
      obtain ⟨os', hf, heq⟩ := Pool.offer_spec h.objects hret hu
      exact .inl ⟨b, i, os', rfl, rfl, hf, heq⟩

theorem Free.of_append {os' : List (Obj T)} (h : Free os b i) : Free (os ++ os') b i := by
  obtain ⟨o, ho, hi⟩ := h
  exact ⟨o, by rw [List.getElem?_append_left (List.getElem?_eq_some_iff.mp ho).1, ho], hi⟩

theorem Sane.offer (h : Sane p) (q : Ptr) : Sane (p.offer q).2 := by
  rcases h.offer_spec q with ⟨b, i, os', rfl, hret, hf, heq⟩ | heq
  · rw [heq]
    refine ⟨hf.wf, fun q b' i' hq => ?_, ?_⟩
    · simp only at hq
      split at hq
      · cases hq
      · rename_i hne
        obtain ⟨rfl, hu⟩ := h.returning q b' i' hq
        refine ⟨rfl, hf.used_of_false.mpr ⟨?_, hu⟩⟩
        rintro ⟨rfl, rfl⟩
        exact hne rfl
    · have hunused := h.unused
      have hflagged := hf.flagged
      show p.available + 1 + B ≤ flags false os'
      omega
  · rw [heq]
    exact h

theorem Lost.offer (hs : Sane p) (h : Lost p b i) (q : Ptr) : Lost (p.offer q).2 b i := by
  rcases hs.offer_spec q with ⟨b', i', os', rfl, hret, hf, heq⟩ | heq
  · have hne : ¬ (b = b' ∧ i = i') := by
      rintro ⟨rfl, rfl⟩
      rw [h.2] at hret
      cases hret
    rw [heq]
    refine ⟨hf.used_of_false.mpr ⟨hne, h.1⟩, ?_⟩
    show (if Ptr.slot b i = .slot b' i' then none else p.returning (.slot b i)) = none
    split
    · rfl
    · exact h.2
  · rw [heq]
    exact h

variable [Inhabited T]

/-- With a constructor that throws or not, the flag of a free slot is turned; only in the other case the slot comes
into the map. -/
theorem Sane.acquire_spec (hB : 1 ≤ B) (h : Sane p) (value : Option T) :
    ∃ b i os' returning, Free p.slots b i ∧ Flips B p.slots os' b i true ∧
      (∀ q, q ≠ .slot b i → returning q = p.returning q) ∧
      returning (.slot b i) = (value.map fun _ => (b, i)) ∧
      (p.acquire value).2 = {
        objects := os'
        available := p.available - 1
        size := if p.available = 0 then p.size + B else p.size
        returning } := by
  obtain ⟨b, i, o, hwf, ho, hi, hu, heq⟩ := acquire_reserves hB h.objects fun _ => h.free hB
  have hret : p.returning (.slot b i) = none := by
    cases hq : p.returning (.slot b i) with
    | none => rfl
    | some bi =>
        obtain ⟨heq, hused⟩ := h.returning _ bi.1 bi.2 hq
        cases heq
        exact absurd hused hu
  cases value with
  | none =>
      obtain ⟨os', hf, hc⟩ := construct_none (B := B) (p := ⟨p.slots, _, _, p.returning⟩) hwf ho hi
      exact ⟨b, i, os', p.returning, ⟨o, ho, hi⟩, hf, fun _ _ => rfl, hret, by rw [heq, hc]⟩
  | some v =>
      obtain ⟨os', hf, hc⟩ := construct_spec (B := B) (p := ⟨p.slots, _, _, p.returning⟩) v hwf ho hi
      exact ⟨b, i, os', fun q => if q = .slot b i then some (b, i) else p.returning q, ⟨o, ho, hi⟩, hf,
        fun _ hq => if_neg hq, if_pos rfl, by rw [heq, hc]⟩

theorem slots_unused (p : Pool T B) :
    flags false p.slots = flags false p.objects + if p.available = 0 then B else 0 := by
  have hnew : flags false [(newObj B : Obj T)] = B := by simp [flags, newObj]
  rw [slots]
  split
  · rw [flags_append, hnew]
  · rfl

theorem Sane.acquire (hB : 1 ≤ B) (h : Sane p) (value : Option T) : Sane (p.acquire value).2 := by
  obtain ⟨b, i, os', returning, hfree, hf, hother, hself, heq⟩ := h.acquire_spec hB value
  rw [heq]
  refine ⟨hf.wf, fun q b' i' hq => ?_, ?_⟩
  · by_cases hqbi : q = .slot b i
    · subst hqbi
      obtain ⟨_, -, hbi⟩ := Option.map_eq_some_iff.mp (hself.symm.trans hq)
      cases hbi
      exact ⟨rfl, hf.used_of_true.mpr (.inl ⟨rfl, rfl⟩)⟩
    · obtain ⟨rfl, hu⟩ := h.returning q b' i' ((hother q hqbi).symm.trans hq)
      exact ⟨rfl, hf.used_of_true.mpr (.inr (p.slots_used.mpr hu))⟩
  · have hunused := h.unused
    have hflagged := hf.unflagged
    have hslots := p.slots_unused
    show p.available - 1 + B ≤ flags false os'
    simp only [Bool.not_true] at hflagged
    split at hslots <;> omega

theorem Lost.acquire (hB : 1 ≤ B) (hs : Sane p) (h : Lost p b i) (value : Option T) : Lost (p.acquire value).2 b i := by
  obtain ⟨b', i', os', returning, hfree, hf, hother, -, heq⟩ := hs.acquire_spec hB value
  have hne : Ptr.slot b i ≠ .slot b' i' := by
    intro hbi
    cases hbi
    exact hfree.not_used (p.slots_used.mpr h.1)
  rw [heq]
  exact ⟨hf.used_of_true.mpr (.inr (p.slots_used.mpr h.1)), (hother _ hne).trans h.2⟩

/-! ## Runs -/

theorem Sane.run (hB : 1 ≤ B) {w : World T B} (h : Sane w.pool) (op : Op T) : Sane (op.run w).2.pool := by
  cases op with
  | acquire value =>
      rw [run_acquire_pool]
      exact h.acquire hB value
  | offer q =>
      rw [run_offer_pool]
      exact h.offer q

theorem Lost.run (hB : 1 ≤ B) {w : World T B} (hs : Sane w.pool) (h : Lost w.pool b i) (op : Op T) :
    Lost (op.run w).2.pool b i := by
  cases op with
  | acquire value =>
      rw [run_acquire_pool]
      exact h.acquire hB hs value
  | offer q =>
      rw [run_offer_pool]
      exact h.offer hs q

theorem sane_of_reachable (hB : 1 ≤ B) {defaultSize : Nat} {w : World T B} (h : (system B defaultSize).Reachable w) :
    Sane w.pool :=
  System.Invariant.reachable (P := fun w => Sane w.pool)
    (.ofFun (new_inv B defaultSize).sane fun _ op hw => hw.run hB op) h

/-- What is lost is lost for all that follows. -/
theorem Lost.runs (hB : 1 ≤ B) {w : World T B} (hs : Sane w.pool) (h : Lost w.pool b i) (ops : List (Op T)) :
    Lost (Transition.run Op.run w ops).2.pool b i := by
  induction ops generalizing w with
  | nil => exact h
  | cons op ops ih => exact ih (hs.run hB op) (h.run hB hs op)

/-! ## A free slot can be acquired -/

/-- Some calls, of which no constructor throws, lead to one that acquires the slot. -/
def Acquirable (w : World T B) (b i : Nat) : Prop :=
  ∃ ops : List (Op T), (∀ op ∈ ops, op.Constructs) ∧
    ∃ v, ((Transition.run Op.run w ops).2.pool.acquire (some v)).1 = .ok (.slot b i)

theorem Acquirable.of_run {w : World T B} (op : Op T) (hop : op.Constructs) (h : Acquirable (op.run w).2 b i) :
    Acquirable w b i := by
  obtain ⟨ops, hops, v, hv⟩ := h
  exact ⟨op :: ops, List.forall_mem_cons.mpr ⟨hop, hops⟩, v, hv⟩

theorem slots_wf (hwf : ∀ o ∈ p.objects, o.WF B) : ∀ o ∈ p.slots, o.WF B := by
  rw [Pool.slots]
  split
  · exact append_newObj_wf hwf
  · exact hwf

theorem free_slots {b' i' : Nat} (hlt : b' < p.objects.length) : Free p.slots b' i' ↔ Free p.objects b' i' := by
  rw [Pool.slots]
  split
  · rw [Free, Free, List.getElem?_append_left hlt]
  · rfl

/-- An object that is acquired and given back leaves a slot available, and the slots that were there are free as they
were. -/
theorem Sane.restock (hB : 1 ≤ B) {w : World T B} (h : Sane w.pool) :
    ∃ w' : World T B, Sane w'.pool ∧ w'.pool.available ≠ 0 ∧ (∀ b i, Acquirable w' b i → Acquirable w b i) ∧
      ∀ b i, b < w.pool.objects.length → (Free w'.pool.objects b i ↔ Free w.pool.objects b i) := by
  obtain ⟨b, i, os', hu, hf, hacquire⟩ := Pool.acquire_spec (default : T) hB h.objects fun _ => h.free hB
  have hs := h.run hB (.acquire (some default))
  have hs' := hs.run hB (.offer (.slot b i))
  rw [run_acquire_pool, hacquire] at hs
  obtain ⟨os'', hf', hoffer⟩ := Pool.offer_spec hs.objects (if_pos rfl) (hf.used_of_true.mpr (.inl ⟨rfl, rfl⟩))
  refine ⟨_, hs', ?_, fun b' i' hget => ?_, fun b' i' hlt => ?_⟩
  · rw [run_offer_pool, run_acquire_pool, hacquire, hoffer]
    exact Nat.succ_ne_zero _
  · have hafter := Acquirable.of_run (.offer (.slot b i)) trivial hget
    exact .of_run (.acquire (some default)) rfl hafter
  · rw [run_offer_pool, run_acquire_pool, hacquire, hoffer, ← free_slots hlt, free_iff hf'.wf,
      free_iff (slots_wf h.objects), hf'.length, hf'.used_of_false, hf.length, hf.used_of_true]
    have hu' := mt w.pool.slots_used.mp hu
    refine and_congr_right fun _ => and_congr_right fun _ => not_congr ⟨fun h => h.2.resolve_left h.1, ?_⟩
    intro hused
    refine ⟨?_, .inr hused⟩
    rintro ⟨rfl, rfl⟩
    exact hu' hused

/-- Where something is available, the next object comes from the block of a free slot or from one in front of it. -/
theorem acquire_le (hwf : ∀ o ∈ p.objects, o.WF B) (h0 : p.available ≠ 0) {v : T} {b' i' : Nat}
    (hok : (p.acquire (some v)).1 = .ok (.slot b i)) (h : Free p.objects b' i') : b ≤ b' := by
  obtain ⟨o, ho, hi⟩ := h
  rw [Pool.acquire, if_neg h0] at hok
  split at hok
  · cases hok
  · rename_i b₁ i₁ hfind
    cases hok
    exact Nat.zero_add b' ▸ findUnused_le hwf hfind ho hi

theorem Sane.acquirable_of_card (hB : 1 ≤ B) (n : Nat) {w : World T B} (h : Sane w.pool)
    (hfree : Free w.pool.objects b i) {free : Finset (Nat × Nat)} (hcard : free.card ≤ n)
    (hall : ∀ b' i', b' ≤ b → Free w.pool.objects b' i' → (b', i') ∈ free) : Acquirable w b i := by
  -- Each call that does not take this slot takes another one of the free ones up to its block.
  induction n generalizing w free with
  | zero =>
      have hmem := hall b i (Nat.le_refl b) hfree
      rw [Finset.card_eq_zero.mp (Nat.le_zero.mp hcard)] at hmem
      cases hmem
  | succ n ih =>
      obtain ⟨w', h', h0, hget, hsame⟩ := h.restock hB
      have hlt := ((free_iff h.objects).mp hfree).1
      have hfree' := (hsame b i hlt).mpr hfree
      refine hget b i ?_
      obtain ⟨b₁, i₁, os', hu, hf, hacquire⟩ := Pool.acquire_spec (default : T) hB h'.objects fun _ => h'.free hB
      have hok : (w'.pool.acquire (some default)).1 = .ok (.slot b₁ i₁) := by rw [hacquire]
      rw [Pool.slots, if_neg h0] at hf
      by_cases hslot : b = b₁ ∧ i = i₁
      · obtain ⟨rfl, rfl⟩ := hslot
        exact ⟨[], List.forall_mem_nil _, default, hok⟩
      · have hle := acquire_le h'.objects h0 hok hfree'
        have hmem : (b₁, i₁) ∈ free :=
          hall b₁ i₁ hle ((hsame b₁ i₁ (Nat.lt_of_le_of_lt hle hlt)).mp (hf.free h'.objects hu))
        have hcard' : (free.erase (b₁, i₁)).card ≤ n := by
          rw [Finset.card_erase_of_mem hmem]
          exact Nat.sub_le_of_le_add hcard
        refine .of_run (.acquire (some default)) rfl (ih (h'.run hB _) ?_ hcard' fun b' i' hle' hfree₁ => ?_)
        · rw [run_acquire_pool, hacquire]
          exact (free_of_flips hf h'.objects).mpr ⟨hslot, hfree'⟩
        · rw [run_acquire_pool, hacquire] at hfree₁
          obtain ⟨hne, hfree₁⟩ := (free_of_flips hf h'.objects).mp hfree₁
          have hold := (hsame b' i' (Nat.lt_of_le_of_lt hle' hlt)).mp hfree₁
          exact Finset.mem_erase.mpr ⟨fun heq => hne (Prod.mk.inj heq), hall b' i' hle' hold⟩

theorem Sane.acquirable (hB : 1 ≤ B) {w : World T B} (h : Sane w.pool) (hfree : Free w.pool.objects b i) :
    Acquirable w b i := by
  have hall : ∀ b' i', b' ≤ b → Free w.pool.objects b' i' → (b', i') ∈ Finset.range (b + 1) ×ˢ Finset.range B := by
    intro b' i' hle hfree'
    have hlt := ((free_iff h.objects).mp hfree').2.1
    exact Finset.mem_product.mpr ⟨Finset.mem_range.mpr (Nat.lt_succ_of_le hle), Finset.mem_range.mpr hlt⟩
  exact h.acquirable_of_card hB _ hfree (Nat.le_refl _) hall

/-! ## The error path -/

/-- The slots that were free are free, as they were in all records, and can be acquired. -/
structure Restored (w w' : World T B) : Prop where
  free : ∀ b i, Free w.pool.objects b i → Free w'.pool.objects b i
  again : ∀ b i, Free w.pool.objects b i → Acquirable w' b i
  blockAvailable : ∀ (b : Nat) (o : Obj T), w.pool.objects[b]? = some o →
    ∃ o' : Obj T, w'.pool.objects[b]? = some o' ∧ o'.blockAvailable = o.blockAvailable
  available : w'.pool.available = w.pool.available
  returning : w'.pool.returning = w.pool.returning

/-- With nothing available, the slot that is reserved is one of the new block, and nothing else is changed. -/
theorem acquire_throws_grows (h0 : p.available = 0) :
    ∃ o : Obj T, (p.acquire none).2 = { p with objects := p.objects ++ [o], size := p.size + B } := by
  refine ⟨{ newObj B with blockAvailable := B - 1, used := (List.replicate B false).set 0 true }, ?_⟩
  simp [acquire, h0, construct, makeNew, newObj, List.modify_eq_take_drop]

theorem restored_of_unavailable (hB : 1 ≤ B) {w : World T B} (h : Sane w.pool) (h0 : w.pool.available = 0) :
    Restored w (Op.run w (.acquire none)).2 := by
  have hs' := h.run hB (.acquire none)
  obtain ⟨o, ho⟩ := acquire_throws_grows h0
  have hfree : ∀ b i, Free w.pool.objects b i → Free (Op.run w (.acquire none)).2.pool.objects b i := by
    intro b i hfree
    rw [run_acquire_pool, ho]
    exact hfree.of_append
  refine ⟨hfree, fun b i hi => hs'.acquirable hB (hfree b i hi), fun b o' ho' => ⟨o', ?_, rfl⟩, ?_, ?_⟩
  · rw [run_acquire_pool, ho, List.getElem?_append_left (List.getElem?_eq_some_iff.mp ho').1, ho']
  · rw [run_acquire_pool, ho]
  · rw [run_acquire_pool, ho]

/-- In every pool that the operations lead to, an exception comes from the constructor alone. What was free is then as
before if and only if nothing was available, so that a new block was made; in any case a slot, of that block or one that
was there before, is lost for all that follows. -/
theorem acquire_throws_restored_iff (hB : 1 ≤ B) {defaultSize : Nat} {w : World T B}
    (h : (system B defaultSize).Reachable w) :
    (∀ value e, (w.pool.acquire value).1 = .error e ↔ e = .constructor ∧ value = none) ∧
      (Restored w (Op.run w (.acquire none)).2 ↔ w.pool.available = 0) ∧
      ∃ b i, Free w.pool.slots b i ∧
        ∀ ops, Lost (Transition.run Op.run (Op.run w (.acquire none)).2 ops).2.pool b i := by
  have hs := sane_of_reachable hB h
  obtain ⟨b, i, os', returning, hfree, hf, -, hself, heq⟩ := hs.acquire_spec hB none
  have hlost : Lost (Op.run w (.acquire none)).2.pool b i := by
    rw [run_acquire_pool, heq]
    exact ⟨hf.used_of_true.mpr (.inl ⟨rfl, rfl⟩), hself⟩
  refine ⟨fun value e => ?_, ⟨fun hr => ?_, restored_of_unavailable hB hs⟩, b, i, hfree, fun ops => ?_⟩
  · cases value with
    | none =>
        obtain ⟨_, _, _, -, -, hthrows⟩ := Pool.acquire_throws hB hs.objects fun _ => hs.free hB
        rw [hthrows]
        constructor
        · rintro ⟨⟩
          exact ⟨rfl, rfl⟩
        · rintro ⟨rfl, -⟩
          rfl
    | some v =>
        obtain ⟨_, _, _, -, -, hok⟩ := Pool.acquire_spec v hB hs.objects fun _ => hs.free hB
        rw [hok]
        constructor
        · rintro ⟨⟩
        · rintro ⟨-, ⟨⟩⟩
  · refine Decidable.byContradiction fun h0 => ?_
    rw [Pool.slots, if_neg h0] at hfree
    exact (hr.free b i hfree).not_used hlost.1
  · exact hlost.runs hB (hs.run hB _) ops

/-- Two blocks of two slots of which one is acquired, and a block of two slots of which none is available. -/
theorem acquire_throws_restored_iff_both :
    ¬ Restored (Op.run (World.new 2 2 : World Nat 2) (.acquire (some 5))).2
        (Op.run (Op.run (World.new 2 2 : World Nat 2) (.acquire (some 5))).2 (.acquire none)).2 ∧
      Restored (World.new 2 0 : World Nat 2) (Op.run (World.new 2 0 : World Nat 2) (.acquire none)).2 := by
  have h : (system 2 2).Reachable (Op.run (World.new 2 2 : World Nat 2) (.acquire (some 5))).2 :=
    .step (i := Op.acquire (some 5)) (.init rfl) rfl
  have h' : (system 2 0).Reachable (World.new 2 0 : World Nat 2) := .init rfl
  refine ⟨fun hr => ?_, ?_⟩
  · exact absurd ((acquire_throws_restored_iff (by decide) h).2.1.mp hr) (by decide)
  · exact (acquire_throws_restored_iff (by decide) h').2.1.mpr (by decide)

/-- One of two slots, the construction of which throws: its flag and its counter stay, and it is not in the map. With
nothing available, it is a slot of the new block. -/
theorem throws_keeps_slot :
    ((Pool.new 1 1 : Pool Nat 1).acquire none).2.objects = [⟨0, [true], [0]⟩, ⟨1, [false], [0]⟩] ∧
      ((Pool.new 1 1 : Pool Nat 1).acquire none).2.available = 0 ∧
      ((Pool.new 1 1 : Pool Nat 1).acquire none).2.returning (.slot 0 0) = none ∧
      (((Pool.new 1 1 : Pool Nat 1).acquire none).2.acquire none).2.objects =
        [⟨0, [true], [0]⟩, ⟨1, [false], [0]⟩, ⟨0, [true], [0]⟩] ∧
      ¬ ∀ w : World Nat 1, (system 1 1).Reachable w → ∀ b i, Free w.pool.objects b i →
        Free (w.pool.acquire none).2.objects b i := by
  refine ⟨by decide, by decide, rfl, by decide, fun h => ?_⟩
  have hfree : Free (Pool.new 1 1 : Pool Nat 1).objects 0 0 := ⟨_, rfl, rfl⟩
  exact (h (World.new 1 1) (.init rfl) 0 0 hfree).not_used ⟨_, rfl, rfl⟩

end Dwhbll.Memory.Pool
