import Dwhbll.Lib.Lists
import Dwhbll.Lib.Shared
import Dwhbll.Lib.Transition

/-!
# `cow` of `stl_ext/cow.h`

The handles are those that are there, in the order in which they were made. A step has no answer where the program
has no meaning: where there is no such handle, and where `mut` is called on a null handle.
-/

namespace Dwhbll.StlExt

open Shared Transition

/-- Handles on one heap; each of them is its member `object`. -/
structure Cow (T : Type) where
  heap : Heap T
  handles : List Ptr

namespace Cow

variable {T : Type}

inductive Op (T : Type) where
  | construct (v : T)
  | null
  | copyConstruct (other : Nat)
  | moveConstruct (other : Nat)
  | copyAssign (this other : Nat)
  | moveAssign (this other : Nat)
  | assign (this : Nat) (v : T)
  | clone (this : Nat)
  /-- `f(h.mut())`. -/
  | update (this : Nat) (f : T → T)
  | destroy (this : Nat)

def init : Cow T := ⟨.empty, []⟩

/-- `copy()` on a handle with the member `p`. -/
def copy (p : Ptr) (H : Heap T) : Option (Ptr × Heap T) :=
  match p with
  | none => some (none, H)
  | some a =>
      if H.useCount a = 1 then some (p, H)
      else
        match H.objects a with
        | none => none
        | some (v, _) => let (b, H) := H.make v; some (some b, H.release p)

/-- `object = q`, where `q` is a temporary pointer. -/
def replace (this : Nat) (p q : Ptr) (H : Heap T) (s : Cow T) : Cow T := ⟨H.release p, s.handles.set this q⟩

def step (s : Cow T) : Op T → Option (Cow T)
  | .construct v => let (a, H) := s.heap.make v; some ⟨H, s.handles ++ [some a]⟩
  | .null => some { s with handles := s.handles ++ [none] }
  | .copyConstruct other => do
      let q ← s.handles[other]?
      some ⟨s.heap.acquire q, s.handles ++ [q]⟩
  | .moveConstruct other => do
      let q ← s.handles[other]?
      some { s with handles := s.handles.set other none ++ [q] }
  | .copyAssign this other => do
      let p ← s.handles[this]?
      let q ← s.handles[other]?
      if this = other then some s else some (s.replace this p q (s.heap.acquire q))
  | .moveAssign this other => do
      let p ← s.handles[this]?
      let q ← s.handles[other]?
      if this = other then some s
      else some ({ s with handles := s.handles.set other none }.replace this p q s.heap)
  | .assign this v => do
      let p ← s.handles[this]?
      let (a, H) := s.heap.make v
      some (s.replace this p (some a) H)
  | .clone this => do
      let p ← s.handles[this]?
      let (q, H) ← copy p (s.heap.acquire p)
      some ⟨H, s.handles ++ [q]⟩
  | .update this f => do
      let p ← s.handles[this]?
      let (q, H) ← copy p s.heap
      let a ← q
      some ⟨H.write a f, s.handles.set this q⟩
  | .destroy this => do
      let p ← s.handles[this]?
      some ⟨s.heap.release p, s.handles.eraseIdx this⟩

def values (s : Cow T) : List (Option (Option T)) := s.handles.map s.heap.deref

/-! ## Handles with an object of their own -/

/-- What an operation does to handles that store a `T`, or are null. -/
def ownStep (vs : List (Option T)) : Op T → Option (List (Option T))
  | .construct v => some (vs ++ [some v])
  | .null => some (vs ++ [none])
  | .copyConstruct other => do
      let v ← vs[other]?
      some (vs ++ [v])
  | .moveConstruct other => do
      let v ← vs[other]?
      some (vs.set other none ++ [v])
  | .copyAssign this other => do
      let _ ← vs[this]?
      let v ← vs[other]?
      some (vs.set this v)
  | .moveAssign this other => do
      let _ ← vs[this]?
      let v ← vs[other]?
      if this = other then some vs else some ((vs.set other none).set this v)
  | .assign this v => do
      let _ ← vs[this]?
      some (vs.set this (some v))
  | .clone this => do
      let v ← vs[this]?
      some (vs ++ [v])
  | .update this f => do
      let v ← vs[this]?
      let v ← v
      some (vs.set this (some (f v)))
  | .destroy this => do
      let _ ← vs[this]?
      some (vs.eraseIdx this)

/-- The handles on the heap stand for handles with the objects `vs` of their own. -/
structure Stands (s : Cow T) (vs : List (Option T)) : Prop where
  counts : s.heap.Counts s.handles
  values : s.values = vs.map some

variable {s : Cow T} {vs : List (Option T)} {p q : Ptr} {H : Heap T} {this other : Nat}

/-- One that reads a handle, and one that reads the object of its own that it stands for. -/
theorem Stands.rel_bind (h : Stands s vs) {i : Nat} {f : Ptr → Option (Cow T)}
    {g : Option T → Option (List (Option T))}
    (hfg : ∀ p v, s.handles[i]? = some p → vs[i]? = some v → s.heap.deref p = some v → Option.Rel Stands (f p) (g v)) :
    Option.Rel Stands (s.handles[i]?.bind f) (vs[i]?.bind g) := by
  have hi : s.values[i]? = (vs.map some)[i]? := by rw [h.values]
  rw [Cow.values, List.getElem?_map, List.getElem?_map] at hi
  cases hp : s.handles[i]? with
  | none =>
      cases hv : vs[i]? with
      | none => exact .none
      | some v => simp [hp, hv] at hi
  | some p =>
      cases hv : vs[i]? with
      | none => simp [hp, hv] at hi
      | some v =>
          rw [hp, hv] at hi
          exact hfg p v hp hv (Option.some.inj hi)

theorem perm_cons_eraseIdx (hp : s.handles[this]? = some p) : s.handles.Perm (p :: s.handles.eraseIdx this) := by
  obtain ⟨hlt, rfl⟩ := List.getElem?_eq_some_iff.mp hp
  exact (List.getElem_cons_eraseIdx_perm hlt).symm

theorem stands_push (h : s.values = vs.map some) {v : Option T} (hcounts : H.Counts (q :: s.handles))
    (hframe : ∀ r ∈ s.handles, H.deref r = s.heap.deref r) (hq : H.deref q = some v) :
    Stands ⟨H, s.handles ++ [q]⟩ (vs ++ [v]) where
  counts := hcounts.perm (List.perm_append_singleton q s.handles).symm
  values := by
    rw [Cow.values] at h ⊢
    rw [List.map_append, List.map_append, List.map_congr_left hframe, h, List.map_singleton, hq,
      List.map_singleton]

theorem stands_set (h : s.values = vs.map some) {v : Option T} (hthis : s.handles[this]? = some p)
    (hcounts : H.Counts (q :: s.handles.eraseIdx this))
    (hframe : ∀ r ∈ s.handles.eraseIdx this, H.deref r = s.heap.deref r) (hq : H.deref q = some v) :
    Stands ⟨H, s.handles.set this q⟩ (vs.set this v) where
  counts := hcounts.perm (List.set_perm_cons_eraseIdx (List.getElem?_eq_some_iff.mp hthis).1 q).symm
  values := by
    rw [Cow.values] at h ⊢
    rw [List.map_set, List.map_set, hq, Lists.map_set_of_eraseIdx hframe, h]

theorem stands_replace (h : s.values = vs.map some) {v : Option T} (hthis : s.handles[this]? = some p)
    (hcounts : H.Counts (q :: s.handles)) (hframe : ∀ r ∈ s.handles, H.deref r = s.heap.deref r)
    (hq : H.deref q = some v) : Stands (s.replace this p q H) (vs.set this v) := by
  have hp : H.Counts (p :: q :: s.handles.eraseIdx this) :=
    hcounts.perm (((perm_cons_eraseIdx hthis).cons q).trans (.swap p q _))
  refine stands_set h hthis hp.release (fun r hr => ?_) ((hp.release_deref_of_mem List.mem_cons_self).trans hq)
  rw [hp.release_deref_of_mem (List.mem_cons_of_mem _ hr), hframe r (List.mem_of_mem_eraseIdx hr)]

/-- The handle that is moved from; its pointer is now a temporary one. -/
theorem Stands.moveOut (h : Stands s vs) (hother : s.handles[other]? = some q) :
    s.heap.Counts (q :: s.handles.set other none) ∧
      ({ s with handles := s.handles.set other none } : Cow T).values = (vs.set other none).map some := by
  have hlt := (List.getElem?_eq_some_iff.mp hother).1
  have hq := h.counts.perm (perm_cons_eraseIdx hother)
  constructor
  · have hnull := (Heap.counts_null.mpr hq).perm (.swap q none _)
    exact hnull.perm ((List.set_perm_cons_eraseIdx hlt none).symm.cons q)
  · have hvalues := h.values
    rw [Cow.values] at hvalues ⊢
    rw [List.map_set, List.map_set, hvalues]
    rfl

theorem copy_spec {ps : List Ptr} (h : H.Counts (p :: ps)) :
    ∃ q H', copy p H = some (q, H') ∧ H'.Counts (q :: ps) ∧ H'.deref q = H.deref p ∧
      (∀ r ∈ ps, H'.deref r = H.deref r) ∧ ∀ a, q = some a → H'.useCount a = 1 := by
  cases p with
  | none => exact ⟨none, H, rfl, h, rfl, fun _ _ => rfl, fun _ h => nomatch h⟩
  | some a =>
      by_cases h1 : H.useCount a = 1
      · refine ⟨some a, H, by simp [copy, h1], h, rfl, fun _ _ => rfl, ?_⟩
        rintro b ⟨⟩
        exact h1
      · obtain ⟨v, n, hv⟩ := h.live List.mem_cons_self
        have hmake := (h.make v).perm (.swap _ _ _)
        refine ⟨some (H.make v).1, (H.make v).2.release (some a), by simp [copy, h1, hv], hmake.release, ?_, ?_, ?_⟩
        · rw [hmake.release_deref_of_mem List.mem_cons_self, Heap.make_deref]
          simp [Heap.deref, hv]
        · intro r hr
          rw [hmake.release_deref_of_mem (List.mem_cons_of_mem _ hr),
            h.make_deref_of_mem v (List.mem_cons_of_mem _ hr)]
        · rintro b ⟨⟩
          have hne : some a ≠ some (H.make v).1 := h.ne_next List.mem_cons_self
          rw [Heap.release_useCount_of_ne hne, Heap.make_useCount]

/-- Every operation does to the handles what it would do to handles with an object of their own. -/
theorem Stands.step (h : Stands s vs) (op : Op T) : Option.Rel Stands (s.step op) (ownStep vs op) := by
  cases op with
  | construct v =>
      refine .some (stands_push h.values (h.counts.make v) (fun r hr => h.counts.make_deref_of_mem v hr) ?_)
      exact Heap.make_deref ..
  | null => exact .some (stands_push h.values (Heap.counts_null.mpr h.counts) (fun _ _ => rfl) rfl)
  | copyConstruct other =>
      refine h.rel_bind fun q v hq _ hv => .some ?_
      have hcounts := h.counts.acquire (List.mem_of_getElem? hq)
      exact stands_push h.values hcounts (fun r _ => Heap.acquire_deref ..) ((Heap.acquire_deref ..).trans hv)
  | moveConstruct other =>
      refine h.rel_bind fun q v hq _ hv => .some ?_
      obtain ⟨hcounts, hvalues⟩ := h.moveOut hq
      exact stands_push hvalues hcounts (fun _ _ => rfl) hv
  | copyAssign this other =>
      refine h.rel_bind fun p u hp hu _ => h.rel_bind fun q v hq hv hderef => ?_
      by_cases heq : this = other
      · subst heq
        obtain ⟨hlt, rfl⟩ := List.getElem?_eq_some_iff.mp hv
        rw [if_pos rfl, List.set_getElem_self]
        exact .some h
      · rw [if_neg heq]
        have hcounts := h.counts.acquire (List.mem_of_getElem? hq)
        exact .some (stands_replace h.values hp hcounts (fun r _ => Heap.acquire_deref ..)
          ((Heap.acquire_deref ..).trans hderef))
  | moveAssign this other =>
      refine h.rel_bind fun p u hp _ _ => h.rel_bind fun q v hq _ hderef => ?_
      by_cases heq : this = other
      · rw [if_pos heq, if_pos heq]
        exact .some h
      · rw [if_neg heq, if_neg heq]
        obtain ⟨hcounts, hvalues⟩ := h.moveOut hq
        have hthis : (s.handles.set other none)[this]? = some p := by
          rw [List.getElem?_set_ne (Ne.symm heq), hp]
        exact .some (stands_replace hvalues hthis hcounts (fun _ _ => rfl) hderef)
  | assign this v =>
      refine h.rel_bind fun p u hp _ _ => .some ?_
      exact stands_replace h.values hp (h.counts.make v) (fun r hr => h.counts.make_deref_of_mem v hr)
        (Heap.make_deref ..)
  | clone this =>
      refine h.rel_bind fun p v hp _ hv => ?_
      have hacquire := h.counts.acquire (List.mem_of_getElem? hp)
      obtain ⟨q, H, hcopy, hcounts, hq, hframe, -⟩ := copy_spec hacquire
      rw [hcopy]
      refine .some (stands_push h.values hcounts (fun r hr => ?_) ?_)
      · rw [hframe r hr, Heap.acquire_deref]
      · rw [hq, Heap.acquire_deref, hv]
  | update this f =>
      refine h.rel_bind fun p v hp _ hv => ?_
      have hcons := h.counts.perm (perm_cons_eraseIdx hp)
      obtain ⟨q, H, hcopy, hcounts, hq, hframe, hone⟩ := copy_spec hcons
      rw [hv] at hq
      rw [hcopy]
      cases q with
      | none =>
          cases hq
          exact .none
      | some a =>
          cases v with
          | none => simp [Heap.deref] at hq
          | some v =>
              refine .some (stands_set h.values hp (hcounts.write a f) (fun r hr => ?_) (Heap.write_deref f hq))
              rw [hcounts.write_deref_of_mem (hone a rfl) f hr, hframe r hr]
  | destroy this =>
      refine h.rel_bind fun p v hp _ _ => .some ?_
      have hcons := h.counts.perm (perm_cons_eraseIdx hp)
      refine ⟨hcons.release, ?_⟩
      have hvalues := h.values
      rw [Cow.values] at hvalues ⊢
      rw [List.map_congr_left fun r hr => hcons.release_deref_of_mem hr, ← List.eraseIdx_map, hvalues,
        List.eraseIdx_map]

theorem stands_init : Stands (init : Cow T) [] := ⟨Heap.counts_empty, rfl⟩

theorem stands_run (ops : List (Op T)) : Option.Rel Stands (ops.foldlM step init) (ops.foldlM ownStep []) :=
  System.foldlM_rel (fun _ _ op h => h.step op) stands_init ops

theorem Stands.update_other (h : Stands s vs) {f : T → T} {s' : Cow T} (hs : s.step (.update this f) = some s')
    (hne : other ≠ this) : s'.values[other]? = s.values[other]? := by
  have hrel := h.step (.update this f)
  rw [hs] at hrel
  simp only [ownStep] at hrel
  cases hv : vs[this]? with
  | none => rw [hv] at hrel; cases hrel
  | some v =>
      rw [hv] at hrel
      cases v with
      | none => cases hrel
      | some v =>
          cases hrel with
          | some h' =>
              rw [h'.values, h.values, List.getElem?_map, List.getElem?_map, List.getElem?_set_ne (Ne.symm hne)]

/-- After any operations the handles dereference to the same values as handles that store an object of their own, and
no update through one handle is seen through another. -/
theorem values_eq_own (ops : List (Op T)) :
    (ops.foldlM step init).map values = (ops.foldlM ownStep []).map (·.map some) ∧
      ∀ s, ops.foldlM step init = some s → ∀ this f s', s.step (.update this f) = some s' →
        ∀ other, other ≠ this → s'.values[other]? = s.values[other]? := by
  have hrun := stands_run ops
  generalize ops.foldlM step init = x, ops.foldlM ownStep [] = y at hrun
  cases hrun with
  | none => exact ⟨rfl, fun _ h => nomatch h⟩
  | some h =>
      constructor
      · exact congrArg some h.values
      · rintro s ⟨⟩ this f s' hs other hne
        exact h.update_other hs hne

end Cow

end Dwhbll.StlExt
