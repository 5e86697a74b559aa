import Dwhbll.Lib.Holders
import Dwhbll.Pool.Theorems

/-!
# `ObjectWrapper`

The wrappers of one pool. A wrapper that is destroyed offers its object; one that is assigned to does not offer the
object that it had.
-/

namespace Dwhbll.Memory.Pool

open Transition Holders

variable {T : Type} [Inhabited T] {B : Nat}

/-- `parent` tells whether the pointer is to the pool or a null pointer. A wrapper has an object only of a pool. -/
structure ObjectWrapper where
  object : Ptr
  parent : Bool
  parent_of_object : object ≠ .null → parent = true

namespace ObjectWrapper

def moved : ObjectWrapper := ⟨.null, false, fun h => absurd rfl h⟩

/-- The move constructor: the new wrapper, and what is left of `other`. -/
def moveConstruct (other : ObjectWrapper) : ObjectWrapper × ObjectWrapper :=
  (⟨other.object, other.parent, other.parent_of_object⟩, moved)

/-- The move assignment to another wrapper than `other`, whatever that one has. -/
def moveAssign (_self other : ObjectWrapper) : ObjectWrapper × ObjectWrapper :=
  (⟨other.object, other.parent, other.parent_of_object⟩, moved)

def disown (self : ObjectWrapper) : Ptr × ObjectWrapper :=
  (self.object, ⟨.null, self.parent, fun h => absurd rfl h⟩)

/-- The destructor. -/
def destroy (self : ObjectWrapper) (p : Pool T B) : Except Exn Unit × Pool T B :=
  if self.object ≠ .null then p.offer self.object else (.ok (), p)

end ObjectWrapper

/-! ## Runs -/

/-- A pool with its wrappers, each in its place for good, and the objects that were disowned and not yet offered back. -/
structure Owners (T : Type) (B : Nat) where
  pool : Pool T B
  wrappers : List (Option ObjectWrapper)
  disowned : List Ptr

namespace Owners

inductive Op (T : Type) where
  | acquire (value : Option T)
  | moveConstruct (other : Nat)
  | moveAssign (self other : Nat)
  | disown (self : Nat)
  | destroy (self : Nat)
  | offer (object : Ptr)
  deriving DecidableEq, Repr

def new (B defaultSize : Nat) : Owners T B := ⟨Pool.new B defaultSize, [], []⟩

/-- The wrapper in a place, as long as it lives. -/
def wrapper (w : Owners T B) (i : Nat) : Option ObjectWrapper := w.wrappers[i]?.join

def run (w : Owners T B) : Op T → Except Exn Unit × Owners T B
  | .acquire value =>
      match w.pool.acquire value with
      | (.error e, pool) => (.error e, { w with pool })
      | (.ok object, pool) => (.ok (), { w with pool, wrappers := w.wrappers ++ [some ⟨object, true, fun _ => rfl⟩] })
  | .moveConstruct other =>
      match w.wrapper other with
      | none => (.ok (), w)
      | some o =>
          let (this, o) := o.moveConstruct
          (.ok (), { w with wrappers := w.wrappers.set other (some o) ++ [some this] })
  | .moveAssign self other =>
      if self = other then (.ok (), w)
      else
        match w.wrapper self, w.wrapper other with
        | some s, some o =>
            let (s, o) := s.moveAssign o
            (.ok (), { w with wrappers := (w.wrappers.set self (some s)).set other (some o) })
        | _, _ => (.ok (), w)
  | .disown self =>
      match w.wrapper self with
      | none => (.ok (), w)
      | some s =>
          let (object, s) := s.disown
          (.ok (), { w with
            wrappers := w.wrappers.set self (some s)
            disowned := if object = .null then w.disowned else object :: w.disowned })
  | .destroy self =>
      match w.wrapper self with
      | none => (.ok (), w)
      | some s =>
          let (res, pool) := s.destroy w.pool
          (res, { w with pool, wrappers := w.wrappers.set self none })
  | .offer object =>
      let (res, pool) := w.pool.offer object
      (res, { w with pool, disowned := w.disowned.erase object })

/-- The wrappers are there, and what is offered by hand was disowned, unless it is a null pointer. -/
def Possible (w : Owners T B) : Op T → Prop
  | .acquire _ => True
  | .moveConstruct other => (w.wrapper other).isSome
  | .moveAssign self other => (w.wrapper self).isSome ∧ (w.wrapper other).isSome
  | .disown self => (w.wrapper self).isSome
  | .destroy self => (w.wrapper self).isSome
  | .offer object => object ≠ .null → object ∈ w.disowned

def objects : Option ObjectWrapper → List Ptr
  | none => []
  | some s => if s.object = .null then [] else [s.object]

/-- The slots in use are those that a wrapper holds and those that were disowned. -/
def Owned (w : Owners T B) : Prop :=
  ∀ b i, Used w.pool.objects b i ↔ .slot b i ∈ held objects w.wrappers ∨ .slot b i ∈ w.disowned

def offered (w : Owners T B) : Op T → Ptr
  | .destroy self => ((w.wrapper self).map (·.object)).getD .null
  | .offer object => object
  | _ => .null

def Right (w : Owners T B) (op : Op T) : Prop :=
  Owned (w.run op).2 ∧ (w.offered op ≠ .null → (w.run op).1 = .ok ())

/-- No object is lost: its constructor does not throw, and a wrapper that is assigned to has none. -/
def Keeps (w : Owners T B) : Op T → Prop
  | .acquire value => value.isSome
  | .moveAssign self other => self = other ∨ objects (w.wrapper self) = []
  | _ => True

instance (w : Owners T B) : (op : Op T) → Decidable (Possible w op)
  | .acquire _ => isTrue trivial
  | .moveConstruct other => inferInstanceAs (Decidable ((w.wrapper other).isSome = true))
  | .moveAssign self other =>
      inferInstanceAs (Decidable ((w.wrapper self).isSome = true ∧ (w.wrapper other).isSome = true))
  | .disown self => inferInstanceAs (Decidable ((w.wrapper self).isSome = true))
  | .destroy self => inferInstanceAs (Decidable ((w.wrapper self).isSome = true))
  | .offer object => inferInstanceAs (Decidable (object ≠ .null → object ∈ w.disowned))

instance (w : Owners T B) : (op : Op T) → Decidable (Keeps w op)
  | .acquire value => inferInstanceAs (Decidable (value.isSome = true))
  | .moveAssign self other => inferInstanceAs (Decidable (self = other ∨ objects (w.wrapper self) = []))
  | .moveConstruct _ | .disown _ | .destroy _ | .offer _ => isTrue trivial

/-! ## One operation -/

variable {w : Owners T B} {op : Op T} {i : Nat} {s : ObjectWrapper}

/-- What is owned is what the pool takes as outstanding. -/
def Accounted (w : Owners T B) : Prop := Inv (B := B) ⟨w.pool, held objects w.wrappers ++ w.disowned⟩

omit [Inhabited T] in
theorem Accounted.mem_iff (h : Accounted w) {q : Ptr} :
    q ∈ held objects w.wrappers ++ w.disowned ↔ ∃ b i, q = .slot b i ∧ Used w.pool.objects b i := h.outstanding q

omit [Inhabited T] in
theorem Accounted.owned (h : Accounted w) : Owned w := by
  intro b i
  rw [← List.mem_append, h.mem_iff]
  constructor
  · exact fun hu => ⟨b, i, rfl, hu⟩
  · rintro ⟨b', i', heq, hu⟩
    cases heq
    exact hu

omit [Inhabited T] in
theorem getElem?_of_wrapper (h : w.wrapper i = some s) : w.wrappers[i]? = some (some s) := Option.join_eq_some_iff.mp h

theorem objects_of_null (h : s.object = .null) : objects (some s) = [] := if_pos h

theorem objects_of_ne (h : s.object ≠ .null) : objects (some s) = [s.object] := if_neg h

theorem objects_moved : objects (some .moved) = [] := rfl

omit [Inhabited T] in
/-- What was owned and is no longer can be offered. -/
theorem Accounted.offers {q : Ptr} {ws : List (Option ObjectWrapper)} {qs : List Ptr} (h : Accounted w)
    (hperm : (q :: (held objects ws ++ qs)).Perm (held objects w.wrappers ++ w.disowned)) :
    (w.pool.offer q).1 = .ok () ∧ Accounted ⟨(w.pool.offer q).2, ws, qs⟩ := by
  obtain ⟨b, i, rfl, hu⟩ := h.mem_iff.mp (hperm.subset List.mem_cons_self)
  obtain ⟨os', hf, heq⟩ := offer_spec h.objects ((h.returning _ b i).mpr ⟨rfl, hu⟩) hu
  rw [heq]
  refine ⟨rfl, (Inv.offer h hu hf).of_perm ?_⟩
  exact (hperm.symm.erase (.slot b i)).trans (by rw [List.erase_cons_head])

theorem Accounted.acquire (hB : 1 ≤ B) (h : Accounted w) (v : T) :
    Accounted (w.run (.acquire (some v))).2 := by
  obtain ⟨b, i, os', hu, hf, heq⟩ := acquire_spec v hB h.objects fun _ => Inv.free h hB
  simp only [run, heq]
  refine (Inv.acquire h hB hu hf).of_perm ?_
  have hobject : objects (some ⟨.slot b i, true, fun _ => rfl⟩) = [.slot b i] := rfl
  rw [held_concat, hobject, List.append_assoc, List.append_assoc]
  exact List.perm_append_comm.append_left _

theorem Accounted.moveConstruct (h : Accounted w) (hs : w.wrapper i = some s) :
    Accounted (w.run (.moveConstruct i)).2 := by
  have hset := held_set (f := objects) (getElem?_of_wrapper hs) (some .moved)
  simp only [run, hs, ObjectWrapper.moveConstruct]
  refine Inv.of_perm h (List.Perm.append_right _ ?_)
  rw [held_concat]
  exact hset.symm.trans List.perm_append_comm

/-- A wrapper takes the object of another one, and what it had itself is nobody's. -/
theorem moveAssign_held {j : Nat} {o : ObjectWrapper} (hs : w.wrapper i = some s) (ho : w.wrapper j = some o)
    (hij : i ≠ j) :
    (w.run (.moveAssign i j)).2.pool = w.pool ∧ (w.run (.moveAssign i j)).2.disowned = w.disowned ∧
      (objects (some s) ++ held objects (w.run (.moveAssign i j)).2.wrappers).Perm (held objects w.wrappers) := by
  have hmove := held_move (f := objects) (getElem?_of_wrapper ho) (getElem?_of_wrapper hs) hij objects_moved
    (show objects (some (s.moveAssign o).1) = objects (some o) from rfl)
  simp only [run, if_neg hij, hs, ho, true_and]
  exact hmove

theorem Accounted.disown (h : Accounted w) (hs : w.wrapper i = some s) : Accounted (w.run (.disown i)).2 := by
  have hset := held_set (f := objects) (getElem?_of_wrapper hs) (some s.disown.2)
  rw [show objects (some s.disown.2) = [] from rfl, List.nil_append] at hset
  simp only [run, hs]
  refine Inv.of_perm h ?_
  by_cases hnull : s.object = .null
  · rw [objects_of_null hnull] at hset
    simp only [ObjectWrapper.disown, hnull, if_true]
    exact hset.symm.append_right _
  · rw [objects_of_ne hnull] at hset
    simp only [ObjectWrapper.disown, hnull, if_false]
    exact (hset.symm.append_right _).trans List.perm_middle.symm

theorem Accounted.destroy (h : Accounted w) (hs : w.wrapper i = some s) :
    (s.object ≠ .null → (w.run (.destroy i)).1 = .ok ()) ∧ Accounted (w.run (.destroy i)).2 := by
  have hset := held_set (f := objects) (getElem?_of_wrapper hs) none
  rw [show objects none = [] from rfl, List.nil_append] at hset
  simp only [run, hs, ObjectWrapper.destroy]
  by_cases hnull : s.object = .null
  · rw [objects_of_null hnull] at hset
    rw [if_neg (not_not.mpr hnull)]
    exact ⟨fun hne => absurd hnull hne, Inv.of_perm h (hset.symm.append_right _)⟩
  · rw [objects_of_ne hnull] at hset
    rw [if_pos hnull]
    obtain ⟨hok, hinv⟩ := h.offers (hset.append_right w.disowned)
    exact ⟨fun _ => hok, hinv⟩

theorem Accounted.offer {q : Ptr} (h : Accounted w) (hq : q ≠ .null → q ∈ w.disowned) :
    (q ≠ .null → (w.run (.offer q)).1 = .ok ()) ∧ Accounted (w.run (.offer q)).2 := by
  by_cases hnull : q = .null
  · subst hnull
    refine ⟨fun hne => absurd rfl hne, ?_⟩
    have hmem : Ptr.null ∉ w.disowned := by
      intro hmem
      obtain ⟨b, i, heq, -⟩ := h.mem_iff.mp (List.mem_append_right _ hmem)
      cases heq
    simp only [run, Pool.offer, if_true, List.erase_of_not_mem hmem]
    exact h
  · have hperm : (q :: (held objects w.wrappers ++ w.disowned.erase q)).Perm
        (held objects w.wrappers ++ w.disowned) :=
      List.perm_middle.symm.trans ((List.perm_cons_erase (hq hnull)).symm.append_left _)
    obtain ⟨hok, hinv⟩ := h.offers hperm
    exact ⟨fun _ => hok, hinv⟩

theorem Accounted.step (hB : 1 ≤ B) (h : Accounted w) (hp : Possible w op) (hk : Keeps w op) :
    Accounted (w.run op).2 ∧ (w.offered op ≠ .null → (w.run op).1 = .ok ()) := by
  cases op with
  | acquire value =>
      obtain ⟨v, rfl⟩ := Option.isSome_iff_exists.mp hk
      exact ⟨h.acquire hB v, fun hne => absurd rfl hne⟩
  | moveConstruct other =>
      obtain ⟨o, ho⟩ := Option.isSome_iff_exists.mp hp
      exact ⟨h.moveConstruct ho, fun hne => absurd rfl hne⟩
  | moveAssign self other =>
      refine ⟨?_, fun hne => absurd rfl hne⟩
      obtain ⟨s, hs⟩ := Option.isSome_iff_exists.mp hp.1
      obtain ⟨o, ho⟩ := Option.isSome_iff_exists.mp hp.2
      by_cases heq : self = other
      · simp only [run, if_pos heq]
        exact h
      · obtain ⟨hpool, hdisowned, hheld⟩ := moveAssign_held hs ho heq
        rw [← hs, hk.resolve_left heq, List.nil_append] at hheld
        rw [Accounted, hpool, hdisowned]
        exact Inv.of_perm h (hheld.symm.append_right _)
  | disown self =>
      obtain ⟨s, hs⟩ := Option.isSome_iff_exists.mp hp
      exact ⟨h.disown hs, fun hne => absurd rfl hne⟩
  | destroy self =>
      obtain ⟨s, hs⟩ := Option.isSome_iff_exists.mp hp
      obtain ⟨hok, hinv⟩ := h.destroy hs
      refine ⟨hinv, fun hne => hok ?_⟩
      simpa only [offered, hs, Option.map_some, Option.getD_some] using hne
  | offer q => exact (h.offer hp).symm

/-- An object that is lost is in a slot that is in use and that nobody owns. -/
theorem Accounted.keeps_of_owned (hB : 1 ≤ B) (h : Accounted w) (hp : Possible w op) (ho : Owned (w.run op).2) :
    Keeps w op := by
  cases op with
  | acquire value =>
      cases value with
      | some v => rfl
      | none =>
          obtain ⟨b, i, os', hu, hf, heq⟩ := acquire_throws hB h.objects fun _ => Inv.free h hB
          have hused : Used os' b i := (hf.used b i).mpr (by simp)
          simp only [Owned, run, heq] at ho
          have hmem := List.mem_append.mpr ((ho b i).mp hused)
          exact absurd hmem (Inv.not_mem h hu)
  | moveAssign self other =>
      by_cases heq : self = other
      · exact .inl heq
      · obtain ⟨s, hs⟩ := Option.isSome_iff_exists.mp hp.1
        obtain ⟨o, hother⟩ := Option.isSome_iff_exists.mp hp.2
        obtain ⟨hpool, hdisowned, hheld⟩ := moveAssign_held hs hother heq
        refine .inr ?_
        rw [hs]
        by_contra hne
        have hnull : s.object ≠ .null := fun hnull => hne (objects_of_null hnull)
        rw [objects_of_ne hnull] at hheld
        -- the slot is as it was in the pool, and there was no other owner
        have hperm := hheld.append_right w.disowned
        have hnot := (List.nodup_cons.mp (hperm.nodup_iff.mpr h.nodup)).1
        obtain ⟨b, i, hslot, hu⟩ := h.mem_iff.mp (hperm.subset List.mem_cons_self)
        rw [Owned, hpool, hdisowned] at ho
        rw [hslot] at hnot
        exact hnot (List.mem_append.mpr ((ho b i).mp hu))
  | moveConstruct other => trivial
  | disown self => trivial
  | destroy self => trivial
  | offer q => trivial

/-! ## Runs -/

theorem new_accounted (B defaultSize : Nat) : Accounted (new B defaultSize : Owners T B) := new_inv B defaultSize

/-- In a run the slots in use are always those that are owned, and nothing is offered that the pool does not take, if and
only if no object is lost. -/
theorem run_owned_iff (hB : 1 ≤ B) (defaultSize : Nat) (ops : List (Op T))
    (hpossible : Along run Possible (new B defaultSize) ops) :
    (Owned (new B defaultSize : Owners T B) ∧ Along run Right (new B defaultSize) ops) ↔
      Along run Keeps (new B defaultSize : Owners T B) ops := by
  have hnew := new_accounted (T := T) B defaultSize
  rw [and_iff_right hnew.owned]
  refine Along.iff_of_invariant_along (fun w op (h : Accounted w) hp => ?_) (fun w op h hp hr => ?_) hnew hpossible
  · constructor
    · exact fun hr => h.keeps_of_owned hB hp hr.1
    · intro hk
      obtain ⟨hinv, hok⟩ := h.step hB hp hk
      exact ⟨hinv.owned, hok⟩
  · exact (h.step hB hp (h.keeps_of_owned hB hp hr.1)).1

/-- Two wrappers, the first of which goes to a third place and back before both are destroyed. -/
theorem run_owned_iff_two :
    Along run Right (new 2 1 : Owners Nat 2) [.acquire (some 5), .acquire (some 6), .moveConstruct 0,
      .moveAssign 0 2, .disown 1, .destroy 0, .destroy 1, .offer (.slot 0 1)] :=
  ((run_owned_iff (T := Nat) (B := 2) (by decide) 1
    [.acquire (some 5), .acquire (some 6), .moveConstruct 0, .moveAssign 0 2, .disown 1, .destroy 0, .destroy 1,
      .offer (.slot 0 1)]
    (by decide)).mpr (by decide)).2

/-- Two objects, and the wrapper of the second one is assigned to that of the first one: both slots stay in use, and with
both wrappers destroyed the first one still is. -/
theorem assigned_is_lost :
    Along run Possible (new 2 1 : Owners Nat 2)
      [.acquire (some 5), .acquire (some 6), .moveAssign 0 1, .destroy 0, .destroy 1] ∧
    (Transition.run run (new 2 1 : Owners Nat 2)
        [.acquire (some 5), .acquire (some 6), .moveAssign 0 1]).2.pool.objects.map Obj.used =
      [[true, true], [false, false]] ∧
    (Transition.run run (new 2 1 : Owners Nat 2)
        [.acquire (some 5), .acquire (some 6), .moveAssign 0 1, .destroy 0, .destroy 1]).2.pool.objects.map Obj.used =
      [[true, false], [false, false]] ∧
    ¬ Owned (Transition.run run (new 2 1 : Owners Nat 2)
        [.acquire (some 5), .acquire (some 6), .moveAssign 0 1]).2 := by
  refine ⟨by decide, by decide, by decide, fun h => ?_⟩
  rcases (h 0 0).mp ⟨_, rfl, rfl⟩ with hmem | hmem
  · revert hmem
    decide
  · cases hmem

end Owners

end Dwhbll.Memory.Pool
