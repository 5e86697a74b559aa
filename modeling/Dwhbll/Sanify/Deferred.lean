import Dwhbll.Lib.Holders
import Dwhbll.Lib.Transition

/-!
# `deferred`

Objects that call a function when they are destroyed. The function goes from object to object by moves and swaps; one
that is assigned to does not call the function that it had.
-/

namespace Dwhbll.Sanify

open Transition Holders

variable {F : Type}

/-- A `std::function` is missing where it is empty. -/
structure Deferred (F : Type) where
  deferredFunction : Option F
  deriving DecidableEq, Repr

namespace Deferred

def destroy (self : Deferred F) : List F := self.deferredFunction.toList

/-- The move constructor: the new object, and what is left of `other`. -/
def moveConstruct (other : Deferred F) : Deferred F × Deferred F := (⟨other.deferredFunction⟩, ⟨none⟩)

/-- The move assignment to another object than `other`, whatever function that one has. -/
def moveAssign (_self other : Deferred F) : Deferred F × Deferred F := (⟨other.deferredFunction⟩, ⟨none⟩)

def swap (lhs rhs : Deferred F) : Deferred F × Deferred F := (⟨rhs.deferredFunction⟩, ⟨lhs.deferredFunction⟩)

end Deferred

/-! ## Runs -/

/-- The objects, each in its place for good. -/
structure Scope (F : Type) where
  objects : List (Option (Deferred F))

namespace Scope

inductive Op (F : Type) where
  | construct (deferredFunction : Option F)
  | moveConstruct (other : Nat)
  | moveAssign (self other : Nat)
  | swap (lhs rhs : Nat)
  | destroy (self : Nat)
  deriving DecidableEq, Repr

def new : Scope F := ⟨[]⟩

/-- The object in a place, as long as it lives. -/
def object (s : Scope F) (i : Nat) : Option (Deferred F) := s.objects[i]?.join

/-- The functions that the operation calls, and the objects after it. -/
def run (s : Scope F) : Op F → List F × Scope F
  | .construct deferredFunction => ([], ⟨s.objects ++ [some ⟨deferredFunction⟩]⟩)
  | .moveConstruct other =>
      match s.object other with
      | none => ([], s)
      | some o =>
          let (this, o) := o.moveConstruct
          ([], ⟨s.objects.set other (some o) ++ [some this]⟩)
  | .moveAssign self other =>
      if self = other then ([], s)
      else
        match s.object self, s.object other with
        | some d, some o =>
            let (d, o) := d.moveAssign o
            ([], ⟨(s.objects.set self (some d)).set other (some o)⟩)
        | _, _ => ([], s)
  | .swap lhs rhs =>
      if lhs = rhs then ([], s)
      else
        match s.object lhs, s.object rhs with
        | some l, some r =>
            let (l, r) := l.swap r
            ([], ⟨(s.objects.set lhs (some l)).set rhs (some r)⟩)
        | _, _ => ([], s)
  | .destroy self =>
      match s.object self with
      | none => ([], s)
      | some d => (d.destroy, ⟨s.objects.set self none⟩)

def Possible (s : Scope F) : Op F → Prop
  | .construct _ => True
  | .moveConstruct other => (s.object other).isSome
  | .moveAssign self other => (s.object self).isSome ∧ (s.object other).isSome
  | .swap lhs rhs => (s.object lhs).isSome ∧ (s.object rhs).isSome
  | .destroy self => (s.object self).isSome

def functions : Option (Deferred F) → List F
  | none => []
  | some d => d.deferredFunction.toList

/-- The operation destroys the object or writes another one over it. -/
def Op.Ends (i : Nat) : Op F → Prop
  | .moveAssign self other => self = i ∧ self ≠ other
  | .destroy self => self = i
  | _ => False

/-- A function is called only with the end of the object that holds it. -/
def Timely (s : Scope F) (op : Op F) : Prop := ∀ f ∈ (s.run op).1, ∃ i, op.Ends i ∧ f ∈ functions (s.object i)

/-- An object that another one is assigned to holds no function. -/
def Keeps (s : Scope F) : Op F → Prop
  | .moveAssign self other => self = other ∨ functions (s.object self) = []
  | _ => True

instance (s : Scope F) : (op : Op F) → Decidable (Possible s op)
  | .construct _ => isTrue trivial
  | .moveConstruct other => inferInstanceAs (Decidable ((s.object other).isSome = true))
  | .moveAssign self other =>
      inferInstanceAs (Decidable ((s.object self).isSome = true ∧ (s.object other).isSome = true))
  | .swap lhs rhs => inferInstanceAs (Decidable ((s.object lhs).isSome = true ∧ (s.object rhs).isSome = true))
  | .destroy self => inferInstanceAs (Decidable ((s.object self).isSome = true))

instance [DecidableEq F] (s : Scope F) : (op : Op F) → Decidable (Keeps s op)
  | .moveAssign self other => inferInstanceAs (Decidable (self = other ∨ functions (s.object self) = []))
  | .construct _ | .moveConstruct _ | .swap _ _ | .destroy _ => isTrue trivial

def Op.given : Op F → List F
  | .construct deferredFunction => deferredFunction.toList
  | _ => []

/-- The function that nobody holds after the operation, and that was not called. -/
def lost (s : Scope F) : Op F → List F
  | .moveAssign self other => if self = other then [] else functions (s.object self)
  | _ => []

def given (ops : List (Op F)) : List F := ops.flatMap Op.given

def called (s : Scope F) (ops : List (Op F)) : List F := (Transition.run run s ops).1.flatten

def losses (s : Scope F) : List (Op F) → List F
  | [] => []
  | op :: ops => s.lost op ++ losses (s.run op).2 ops

/-! ## One operation -/

variable {s : Scope F} {op : Op F} {i j : Nat} {d o : Deferred F}

theorem getElem?_of_object (h : s.object i = some d) : s.objects[i]? = some (some d) := Option.join_eq_some_iff.mp h

theorem functions_empty : functions (some (⟨none⟩ : Deferred F)) = [] := rfl

theorem moveAssign_held (hd : s.object i = some d) (ho : s.object j = some o) (hij : i ≠ j) :
    (s.run (.moveAssign i j)).1 = [] ∧
      (functions (some d) ++ held functions (s.run (.moveAssign i j)).2.objects).Perm (held functions s.objects) := by
  have hmove := held_move (f := functions) (getElem?_of_object ho) (getElem?_of_object hd) hij functions_empty
    (show functions (some (d.moveAssign o).1) = functions (some o) from rfl)
  simp only [run, if_neg hij, hd, ho, true_and]
  exact hmove

theorem swap_held (hd : s.object i = some d) (ho : s.object j = some o) (hij : i ≠ j) :
    (s.run (.swap i j)).1 = [] ∧
      (held functions (s.run (.swap i j)).2.objects).Perm (held functions s.objects) := by
  have hswap := held_swap (f := functions) (getElem?_of_object ho) (getElem?_of_object hd) hij
    (show functions (some (d.swap o).2) = functions (some d) from rfl)
    (show functions (some (d.swap o).1) = functions (some o) from rfl)
  simp only [run, if_neg hij, hd, ho, true_and]
  exact hswap

/-- What was held and what is given is called, lost or held. -/
theorem step_held (hp : Possible s op) :
    (op.given ++ held functions s.objects).Perm
      ((s.run op).1 ++ (s.lost op ++ held functions (s.run op).2.objects)) := by
  cases op with
  | construct deferredFunction =>
      simp only [run, lost, List.nil_append, held_concat]
      exact List.perm_append_comm
  | moveConstruct other =>
      obtain ⟨o, ho⟩ := Option.isSome_iff_exists.mp hp
      have hset := held_set (f := functions) (getElem?_of_object ho) (some ⟨none⟩)
      simp only [run, ho, lost, Op.given, List.nil_append, held_concat]
      exact hset.symm.trans List.perm_append_comm
  | moveAssign self other =>
      by_cases heq : self = other
      · simp only [run, lost, if_pos heq, Op.given, List.nil_append]
        exact .refl _
      · obtain ⟨d, hd⟩ := Option.isSome_iff_exists.mp hp.1
        obtain ⟨o, ho⟩ := Option.isSome_iff_exists.mp hp.2
        obtain ⟨hcalled, hheld⟩ := moveAssign_held hd ho heq
        simp only [hcalled, lost, if_neg heq, hd, Op.given, List.nil_append]
        exact hheld.symm
  | swap lhs rhs =>
      by_cases heq : lhs = rhs
      · simp only [run, lost, if_pos heq, Op.given, List.nil_append]
        exact .refl _
      · obtain ⟨l, hl⟩ := Option.isSome_iff_exists.mp hp.1
        obtain ⟨r, hr⟩ := Option.isSome_iff_exists.mp hp.2
        obtain ⟨hcalled, hheld⟩ := swap_held hl hr heq
        simp only [hcalled, lost, Op.given, List.nil_append]
        exact hheld.symm
  | destroy self =>
      obtain ⟨d, hd⟩ := Option.isSome_iff_exists.mp hp
      have hset := held_set (f := functions) (getElem?_of_object hd) none
      simp only [run, hd, lost, Op.given, List.nil_append]
      exact hset.symm

theorem timely (hp : Possible s op) : Timely s op := by
  intro f hf
  cases op with
  | destroy self =>
      obtain ⟨d, hd⟩ := Option.isSome_iff_exists.mp hp
      simp only [run, hd] at hf
      exact ⟨self, rfl, by rwa [hd]⟩
  | construct deferredFunction => cases hf
  | moveConstruct other =>
      obtain ⟨o, ho⟩ := Option.isSome_iff_exists.mp hp
      simp only [run, ho] at hf
      cases hf
  | moveAssign self other =>
      by_cases heq : self = other
      · simp only [run, if_pos heq] at hf
        cases hf
      · obtain ⟨d, hd⟩ := Option.isSome_iff_exists.mp hp.1
        obtain ⟨o, ho⟩ := Option.isSome_iff_exists.mp hp.2
        rw [(moveAssign_held hd ho heq).1] at hf
        cases hf
  | swap lhs rhs =>
      by_cases heq : lhs = rhs
      · simp only [run, if_pos heq] at hf
        cases hf
      · obtain ⟨l, hl⟩ := Option.isSome_iff_exists.mp hp.1
        obtain ⟨r, hr⟩ := Option.isSome_iff_exists.mp hp.2
        rw [(swap_held hl hr heq).1] at hf
        cases hf

theorem lost_eq_nil_iff : s.lost op = [] ↔ Keeps s op := by
  cases op with
  | moveAssign self other =>
      by_cases heq : self = other
      · exact iff_of_true (if_pos heq) (.inl heq)
      · rw [lost, if_neg heq, Keeps, or_iff_right heq]
  | _ => exact iff_of_true rfl trivial

/-! ## Whole runs -/

/-- What a run is given is called, lost, or held in the end. -/
theorem run_held {ops : List (Op F)} (hp : Along run Possible s ops) :
    (given ops ++ held functions s.objects).Perm
      (called s ops ++ (losses s ops ++ held functions (Transition.run run s ops).2.objects)) := by
  induction ops generalizing s with
  | nil => exact .refl _
  | cons op ops ih =>
      classical
      refine List.perm_iff_count.mpr fun f => ?_
      have hstep := (step_held hp.1).count_eq f
      have hrest := (ih hp.2).count_eq f
      simp only [given, called, Transition.run, losses, List.flatMap_cons, List.flatten_cons, List.count_append]
        at hstep hrest ⊢
      omega

theorem losses_eq_nil_iff {ops : List (Op F)} : losses s ops = [] ↔ Along run Keeps s ops := by
  induction ops generalizing s with
  | nil => exact iff_of_true rfl trivial
  | cons op ops ih => rw [losses, List.append_eq_nil_iff, lost_eq_nil_iff, ih, Along]

theorem held_eq_nil (h : ∀ o ∈ s.objects, o = none) : held functions s.objects = [] := by
  refine List.flatMap_eq_nil_iff.mpr fun o ho => ?_
  rw [h o ho]
  rfl

theorem given_perm {ops : List (Op F)} (hp : Along run Possible new ops)
    (hend : ∀ o ∈ (Transition.run run (new : Scope F) ops).2.objects, o = none) :
    (given ops).Perm (called new ops ++ losses new ops) := by
  have hheld := run_held hp
  rw [held_eq_nil hend, List.append_nil] at hheld
  simpa only [new, held, List.flatMap_nil, List.append_nil] using hheld

/-- In a run that destroys all its objects each function is called once for each time that it is given to a constructor,
with the end of the object that holds it, if and only if no object is assigned to while it holds one. -/
theorem called_once_iff {ops : List (Op F)} (hp : Along run Possible new ops)
    (hend : ∀ o ∈ (Transition.run run (new : Scope F) ops).2.objects, o = none) :
    ((called new ops).Perm (given ops) ∧ Along run Timely new ops) ↔ Along run Keeps new ops := by
  have hgiven := given_perm hp hend
  rw [and_iff_left (hp.imp fun _ _ => timely), ← losses_eq_nil_iff]
  constructor
  · intro hcalled
    have hlen := (hcalled.trans hgiven).length_eq
    rw [List.length_append] at hlen
    exact List.eq_nil_of_length_eq_zero (by omega)
  · intro hnil
    rw [hnil, List.append_nil] at hgiven
    exact hgiven.symm

/-- Two functions that are swapped, one of which goes to a third object first. -/
theorem called_once_iff_two :
    (called new [.construct (some 1), .construct (some 2), .moveConstruct 0, .swap 1 2, .moveAssign 0 2, .destroy 2,
      .destroy 1, .destroy 0] : List Nat).Perm [1, 2] :=
  ((@called_once_iff Nat
    [.construct (some 1), .construct (some 2), .moveConstruct 0, .swap 1 2, .moveAssign 0 2, .destroy 2, .destroy 1,
      .destroy 0] (by decide) (by decide)).mpr (by decide)).1

/-- Two functions, and the object with the second one is assigned to that with the first one, which is never called. -/
theorem assigned_is_not_called :
    Along run Possible (new : Scope Nat)
      [.construct (some 1), .construct (some 2), .moveAssign 0 1, .destroy 1, .destroy 0] ∧
    (Transition.run run (new : Scope Nat)
      [.construct (some 1), .construct (some 2), .moveAssign 0 1, .destroy 1, .destroy 0]).2.objects = [none, none] ∧
    called (new : Scope Nat) [.construct (some 1), .construct (some 2), .moveAssign 0 1, .destroy 1, .destroy 0] = [2] ∧
    ¬ (called (new : Scope Nat)
      [.construct (some 1), .construct (some 2), .moveAssign 0 1, .destroy 1, .destroy 0]).Perm
        (given [.construct (some 1), .construct (some 2), .moveAssign 0 1, .destroy 1, .destroy 0]) := by
  decide

end Scope

end Dwhbll.Sanify
