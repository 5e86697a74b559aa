import Dwhbll.Lib.Transition
import Mathlib.Logic.Function.Basic

/-!
# Operations under a lock

An object whose operations take several steps, and threads that call them. A thread is alone with the object between
the step that takes the lock and the one that gives it back. Every run is then one of whole operations, one after the
other, in the order in which they took the lock.
-/

namespace Locks

open Transition

/-- The operations of an object: where each one starts, and a step, after which it goes on or has an answer. -/
structure Sections (σ ι ℓ ο : Type) where
  start : ι → ℓ
  work : ℓ → σ → (ℓ ⊕ ο) × σ

variable {τ σ ι ℓ ο : Type}

/-! ## One operation without interruption -/

namespace Sections

variable {M : Sections σ ι ℓ ο} {l l₁ l₂ : ℓ} {s s₁ s₂ s' : σ} {op : ι} {o o' : ο}

inductive Steps (M : Sections σ ι ℓ ο) (l : ℓ) (s : σ) : ℓ → σ → Prop where
  | refl : Steps M l s l s
  | concat {l₁ l₂ : ℓ} {s₁ s₂ : σ} : Steps M l s l₁ s₁ → M.work l₁ s₁ = (.inl l₂, s₂) → Steps M l s l₂ s₂

theorem Steps.trans (h : M.Steps l s l₁ s₁) (h' : M.Steps l₁ s₁ l₂ s₂) : M.Steps l s l₂ s₂ := by
  induction h' with
  | refl => exact h
  | concat _ hw ih => exact .concat ih hw

theorem Steps.cons (hw : M.work l s = (.inl l₁, s₁)) (h : M.Steps l₁ s₁ l₂ s₂) : M.Steps l s l₂ s₂ :=
  .trans (.concat .refl hw) h

/-- From a place inside an operation it comes to an end with this answer. -/
def EndsFrom (M : Sections σ ι ℓ ο) (l : ℓ) (s : σ) (o : ο) (s' : σ) : Prop :=
  ∃ l₁ s₁, M.Steps l s l₁ s₁ ∧ M.work l₁ s₁ = (.inr o, s')

def Ends (M : Sections σ ι ℓ ο) (op : ι) (s : σ) (o : ο) (s' : σ) : Prop := M.EndsFrom (M.start op) s o s'

theorem EndsFrom.done (hw : M.work l s = (.inr o, s')) : M.EndsFrom l s o s' := ⟨l, s, .refl, hw⟩

theorem EndsFrom.step (hw : M.work l s = (.inl l₁, s₁)) (h : M.EndsFrom l₁ s₁ o s') : M.EndsFrom l s o s' := by
  obtain ⟨l₂, s₂, hsteps, hdone⟩ := h
  exact ⟨l₂, s₂, .cons hw hsteps, hdone⟩

theorem EndsFrom.of_steps (h : M.Steps l s l₁ s₁) (h' : M.EndsFrom l₁ s₁ o s') : M.EndsFrom l s o s' := by
  obtain ⟨l₂, s₂, hsteps, hdone⟩ := h'
  exact ⟨l₂, s₂, h.trans hsteps, hdone⟩

/-- The first step on the way to the end. -/
theorem EndsFrom.cases (h : M.EndsFrom l s o s') :
    M.work l s = (.inr o, s') ∨ ∃ l₁ s₁, M.work l s = (.inl l₁, s₁) ∧ M.EndsFrom l₁ s₁ o s' := by
  obtain ⟨l₂, s₂, hsteps, hdone⟩ := h
  have hfirst : ∀ {l₂ s₂}, M.Steps l s l₂ s₂ →
      (l₂ = l ∧ s₂ = s) ∨ ∃ l₁ s₁, M.work l s = (.inl l₁, s₁) ∧ M.Steps l₁ s₁ l₂ s₂ := by
    intro l₂ s₂ hsteps
    induction hsteps with
    | refl => exact .inl ⟨rfl, rfl⟩
    | concat _ hw ih =>
        rcases ih with ⟨rfl, rfl⟩ | ⟨l₁, s₁, hw₁, hrest⟩
        · exact .inr ⟨_, _, hw, .refl⟩
        · exact .inr ⟨l₁, s₁, hw₁, .concat hrest hw⟩
  rcases hfirst hsteps with ⟨rfl, rfl⟩ | ⟨l₁, s₁, hw, hrest⟩
  · exact .inl hdone
  · exact .inr ⟨l₁, s₁, hw, l₂, s₂, hrest, hdone⟩

/-- What has been done of an operation leaves the end where it was. -/
theorem EndsFrom.after (hsteps : M.Steps l s l₁ s₁) (h : M.EndsFrom l s o s') : M.EndsFrom l₁ s₁ o s' := by
  induction hsteps with
  | refl => exact h
  | concat _ hw ih =>
      rcases ih.cases with hdone | ⟨l₂, s₂, hw', hrest⟩
      · cases hw.symm.trans hdone
      · cases hw.symm.trans hw'
        exact hrest

theorem EndsFrom.unique {s'' : σ} (h : M.EndsFrom l s o s') (h' : M.EndsFrom l s o' s'') : o = o' ∧ s' = s'' := by
  obtain ⟨l₁, s₁, hsteps, hdone⟩ := h
  rcases (h'.after hsteps).cases with hdone' | ⟨l₂, s₂, hw, -⟩
  · cases hdone.symm.trans hdone'
    exact ⟨rfl, rfl⟩
  · cases hdone.symm.trans hw

/-- An operation that stays at places which it does not end from never ends. -/
theorem not_endsFrom {P : ℓ → σ → Prop} (hP : ∀ l s, P l s → ∃ l₁ s₁, M.work l s = (.inl l₁, s₁) ∧ P l₁ s₁)
    (h : P l s) : ¬ M.EndsFrom l s o s' := by
  have hstays : ∀ {l₂ s₂}, M.Steps l s l₂ s₂ → P l₂ s₂ := by
    intro l₂ s₂ hsteps
    induction hsteps with
    | refl => exact h
    | concat _ hw ih =>
        obtain ⟨l₁, s₁, hw', h'⟩ := hP _ _ ih
        cases hw.symm.trans hw'
        exact h'
  rintro ⟨l₂, s₂, hsteps, hdone⟩
  obtain ⟨l₁, s₁, hw, -⟩ := hP _ _ (hstays hsteps)
  cases hw.symm.trans hdone

end Sections

/-- Whole operations one after the other, each with the thread that called it and its answer. -/
inductive Serial (M : Sections σ ι ℓ ο) (start : σ) : List (τ × ι × ο) → σ → Prop where
  | nil : Serial M start [] start
  | concat {log : List (τ × ι × ο)} {s s' : σ} {t : τ} {op : ι} {o : ο} :
      Serial M start log s → M.Ends op s o s' → Serial M start (log ++ [(t, op, o)]) s'

/-! ## Threads -/

/-- Where a thread is: an operation that it has called waits for the lock, has it, or is about to give it back. -/
inductive Place (ι ℓ ο : Type) where
  | outside
  | waiting (op : ι)
  | inside (op : ι) (l : ℓ)
  | leaving (op : ι) (o : ο)
  deriving DecidableEq, Repr

def Place.Holds : Place ι ℓ ο → Prop
  | .inside _ _ | .leaving _ _ => True
  | .outside | .waiting _ => False

inductive Event (τ ι ο : Type) where
  | call (t : τ) (op : ι)
  | enter (t : τ) (op : ι)
  | ret (t : τ) (op : ι) (o : ο)
  deriving DecidableEq, Repr

structure State (τ σ ι ℓ ο : Type) where
  object : σ
  place : τ → Place ι ℓ ο
  /-- What has happened so far. No step reads it. -/
  events : List (Event τ ι ο)

def State.init (start : σ) : State τ σ ι ℓ ο := ⟨start, fun _ => .outside, []⟩

inductive Act (τ ι : Type) where
  | call (t : τ) (op : ι)
  | enter (t : τ)
  | work (t : τ)
  | leave (t : τ)
  deriving DecidableEq, Repr

/-! ## What has happened -/

def entered (es : List (Event τ ι ο)) : List (τ × ι) :=
  es.filterMap fun
    | .enter t op => some (t, op)
    | _ => none

def returned (es : List (Event τ ι ο)) : List (τ × ι × ο) :=
  es.filterMap fun
    | .ret t op o => some (t, op, o)
    | _ => none

def Event.thread : Event τ ι ο → τ
  | .call t _ | .enter t _ | .ret t _ _ => t

/-- A thread calls an operation, takes the lock for it and returns from it, before it calls the next one. -/
inductive Turns (t : τ) : List (Event τ ι ο) → Place ι ℓ ο → Prop where
  | nil : Turns t [] .outside
  | call {es : List (Event τ ι ο)} (op : ι) : Turns t es .outside → Turns t (es ++ [.call t op]) (.waiting op)
  | enter {es : List (Event τ ι ο)} {op : ι} (l : ℓ) :
      Turns t es (.waiting op) → Turns t (es ++ [.enter t op]) (.inside op l)
  | work {es : List (Event τ ι ο)} {op : ι} {l : ℓ} (l' : ℓ) : Turns t es (.inside op l) → Turns t es (.inside op l')
  | done {es : List (Event τ ι ο)} {op : ι} {l : ℓ} (o : ο) : Turns t es (.inside op l) → Turns t es (.leaving op o)
  | leave {es : List (Event τ ι ο)} {op : ι} {o : ο} :
      Turns t es (.leaving op o) → Turns t (es ++ [.ret t op o]) .outside

variable {M : Sections σ ι ℓ ο} {start : σ} {s s' : State τ σ ι ℓ ο} {t t' : τ} {p : Place ι ℓ ο}
  {e : Event τ ι ο} {es : List (Event τ ι ο)}

@[simp] theorem entered_concat_call {op : ι} : entered (es ++ [.call t op]) = entered es := by simp [entered]

@[simp] theorem entered_concat_enter {op : ι} : entered (es ++ [.enter t op]) = entered es ++ [(t, op)] := by
  simp [entered]

@[simp] theorem entered_concat_ret {op : ι} {o : ο} : entered (es ++ [.ret t op o]) = entered es := by simp [entered]

@[simp] theorem returned_concat_call {op : ι} : returned (es ++ [.call t op]) = returned es := by simp [returned]

@[simp] theorem returned_concat_enter {op : ι} : returned (es ++ [.enter t op]) = returned es := by simp [returned]

@[simp] theorem returned_concat_ret {op : ι} {o : ο} : returned (es ++ [.ret t op o]) = returned es ++ [(t, op, o)] := by
  simp [returned]

/-! ## One thread at a time -/

def Exclusive (s : State τ σ ι ℓ ο) : Prop := ∀ t t', (s.place t).Holds → (s.place t').Holds → t = t'

/-- What the thread that has the lock has done since the last operation left the object. -/
inductive Under (M : Sections σ ι ℓ ο) (s : State τ σ ι ℓ ο) (object : σ) : Prop where
  | free : (∀ t, ¬ (s.place t).Holds) → entered s.events = (returned s.events).map (fun r => (r.1, r.2.1)) →
      s.object = object → Under M s object
  | inside (t : τ) (op : ι) (l : ℓ) : s.place t = .inside op l →
      entered s.events = (returned s.events).map (fun r => (r.1, r.2.1)) ++ [(t, op)] →
      M.Steps (M.start op) object l s.object → Under M s object
  | leaving (t : τ) (op : ι) (o : ο) : s.place t = .leaving op o →
      entered s.events = (returned s.events).map (fun r => (r.1, r.2.1)) ++ [(t, op)] →
      M.Ends op object o s.object → Under M s object

theorem holds_of_place {q : Place ι ℓ ο} (h : s.place t = q) (hq : q.Holds) : (s.place t).Holds := h ▸ hq

theorem Under.of_inside {object : σ} {op : ι} {l : ℓ} (h : Under M s object) (hx : Exclusive s)
    (ht : s.place t = .inside op l) :
    entered s.events = (returned s.events).map (fun r => (r.1, r.2.1)) ++ [(t, op)] ∧
      M.Steps (M.start op) object l s.object := by
  have hholds := holds_of_place ht trivial
  cases h with
  | free hnone => exact absurd hholds (hnone t)
  | inside t₁ op₁ l₁ hp he hsteps =>
      obtain rfl := hx t t₁ hholds (holds_of_place hp trivial)
      cases ht.symm.trans hp
      exact ⟨he, hsteps⟩
  | leaving t₁ op₁ o₁ hp =>
      obtain rfl := hx t t₁ hholds (holds_of_place hp trivial)
      cases ht.symm.trans hp

theorem Under.of_leaving {object : σ} {op : ι} {o : ο} (h : Under M s object) (hx : Exclusive s)
    (ht : s.place t = .leaving op o) :
    entered s.events = (returned s.events).map (fun r => (r.1, r.2.1)) ++ [(t, op)] ∧ M.Ends op object o s.object := by
  have hholds := holds_of_place ht trivial
  cases h with
  | free hnone => exact absurd hholds (hnone t)
  | inside t₁ op₁ l₁ hp =>
      obtain rfl := hx t t₁ hholds (holds_of_place hp trivial)
      cases ht.symm.trans hp
  | leaving t₁ op₁ o₁ hp he hends =>
      obtain rfl := hx t t₁ hholds (holds_of_place hp trivial)
      cases ht.symm.trans hp
      exact ⟨he, hends⟩

theorem Under.of_free {object : σ} (h : Under M s object) (hnone : ∀ t, ¬ (s.place t).Holds) :
    entered s.events = (returned s.events).map (fun r => (r.1, r.2.1)) ∧ s.object = object := by
  cases h with
  | free _ he hobject => exact ⟨he, hobject⟩
  | inside t op l hp => exact absurd (holds_of_place hp trivial) (hnone t)
  | leaving t op o hp => exact absurd (holds_of_place hp trivial) (hnone t)

/-! ## Runs -/

variable [DecidableEq τ]

def own (t : τ) (es : List (Event τ ι ο)) : List (Event τ ι ο) := es.filter fun e => e.thread = t

def State.set (s : State τ σ ι ℓ ο) (t : τ) (p : Place ι ℓ ο) : State τ σ ι ℓ ο :=
  { s with place := Function.update s.place t p }

def State.log (s : State τ σ ι ℓ ο) (e : Event τ ι ο) : State τ σ ι ℓ ο := { s with events := s.events ++ [e] }

/-- A thread takes the lock where no other one has it. -/
inductive Step (M : Sections σ ι ℓ ο) (s : State τ σ ι ℓ ο) : Act τ ι → State τ σ ι ℓ ο → Prop where
  | call {t : τ} (op : ι) : s.place t = .outside → Step M s (.call t op) ((s.set t (.waiting op)).log (.call t op))
  | enter {t : τ} {op : ι} : s.place t = .waiting op → (∀ t', ¬ (s.place t').Holds) →
      Step M s (.enter t) ((s.set t (.inside op (M.start op))).log (.enter t op))
  | work {t : τ} {op : ι} {l l' : ℓ} {object : σ} : s.place t = .inside op l →
      M.work l s.object = (.inl l', object) → Step M s (.work t) { s.set t (.inside op l') with object := object }
  | done {t : τ} {op : ι} {l : ℓ} {o : ο} {object : σ} : s.place t = .inside op l →
      M.work l s.object = (.inr o, object) → Step M s (.work t) { s.set t (.leaving op o) with object := object }
  | leave {t : τ} {op : ι} {o : ο} : s.place t = .leaving op o →
      Step M s (.leave t) ((s.set t .outside).log (.ret t op o))

def system (M : Sections σ ι ℓ ο) (start : σ) : System (State τ σ ι ℓ ο) (Act τ ι) where
  init s := s = .init start
  step := Step M

theorem own_concat (h : e.thread = t) : own t (es ++ [e]) = own t es ++ [e] := by simp [own, h]

theorem own_concat_of_ne (h : e.thread ≠ t) : own t (es ++ [e]) = own t es := by simp [own, h]

theorem set_place : (s.set t p).place t = p := Function.update_self ..

theorem set_place_of_ne (h : t' ≠ t) : (s.set t p).place t' = s.place t' := Function.update_of_ne h ..

theorem not_holds_set (hp : ¬ p.Holds) (h : ∀ t', t' ≠ t → ¬ (s.place t').Holds) (t' : τ) :
    ¬ ((s.set t p).place t').Holds := by
  by_cases heq : t' = t
  · rw [heq, set_place]
    exact hp
  · rw [set_place_of_ne heq]
    exact h t' heq

/-- No two threads have the lock, each operation takes effect between its call and its return, and what has been
returned are the answers of whole operations, one after the other. -/
structure Serialised (M : Sections σ ι ℓ ο) (start : σ) (s : State τ σ ι ℓ ο) : Prop where
  exclusive : Exclusive s
  turns : ∀ t, Turns t (own t s.events) (s.place t)
  serial : ∃ object, Serial M start (returned s.events) object ∧ Under M s object

theorem Serialised.init : Serialised (τ := τ) M start (.init start) where
  exclusive := by intro t t' h; cases h
  turns t := .nil
  serial := ⟨start, .nil, .free (fun t h => h) rfl rfl⟩

/-- A thread that goes to a place where it has the lock only if it had it before, or if nobody else has. -/
theorem Exclusive.set (h : Exclusive s) (hp : p.Holds → (s.place t).Holds ∨ ∀ t', ¬ (s.place t').Holds) :
    Exclusive (s.set t p) := by
  have halone : p.Holds → ∀ t', t' ≠ t → ¬ (s.place t').Holds := by
    intro hh t' hne ht'
    rcases hp hh with ht | hnone
    · exact hne (h t' t ht' ht)
    · exact hnone t' ht'
  intro t₁ t₂ h₁ h₂
  by_cases e₁ : t₁ = t
  · by_cases e₂ : t₂ = t
    · rw [e₁, e₂]
    · rw [e₁, set_place] at h₁
      rw [set_place_of_ne e₂] at h₂
      exact absurd h₂ (halone h₁ t₂ e₂)
  · rw [set_place_of_ne e₁] at h₁
    by_cases e₂ : t₂ = t
    · rw [e₂, set_place] at h₂
      exact absurd h₁ (halone h₂ t₁ e₁)
    · rw [set_place_of_ne e₂] at h₂
      exact h t₁ t₂ h₁ h₂

/-- The turns of all threads where one of them goes on with an event of its own. -/
theorem turns_log (h : ∀ t, Turns t (own t s.events) (s.place t)) (he : e.thread = t)
    (ht : Turns t (own t s.events ++ [e]) p) (t' : τ) :
    Turns t' (own t' ((s.set t p).log e).events) (((s.set t p).log e).place t') := by
  simp only [State.log, State.set]
  by_cases hne : t' = t
  · rw [hne, own_concat he, Function.update_self]
    exact ht
  · rw [own_concat_of_ne (fun h' => hne (h'.symm.trans he)), Function.update_of_ne hne]
    exact h t'

/-- The same without an event. -/
theorem turns_set (h : ∀ t, Turns t (own t s.events) (s.place t)) (ht : Turns t (own t s.events) p) (t' : τ) :
    Turns t' (own t' s.events) ((s.set t p).place t') := by
  by_cases hne : t' = t
  · rw [hne, set_place]
    exact ht
  · rw [set_place_of_ne hne]
    exact h t'

/-- A thread that starts to wait is not the one that has the lock. -/
theorem Under.call {object : σ} {op : ι} (h : Under M s object) (ht : s.place t = .outside) :
    Under M ((s.set t (.waiting op)).log (.call t op)) object := by
  have hne : ∀ {t' q}, s.place t' = q → q.Holds → (s.set t (.waiting op)).place t' = q := by
    intro t' q hp hq
    rw [set_place_of_ne, hp]
    rintro rfl
    cases ht.symm.trans hp
    exact hq
  cases h with
  | free hnone he hobject =>
      exact .free (not_holds_set id fun t' _ => hnone t') (by simpa [State.log, State.set] using he) hobject
  | inside t₁ op₁ l₁ hp he hsteps =>
      exact .inside t₁ op₁ l₁ (hne hp trivial) (by simpa [State.log, State.set] using he) hsteps
  | leaving t₁ op₁ o₁ hp he hends =>
      exact .leaving t₁ op₁ o₁ (hne hp trivial) (by simpa [State.log, State.set] using he) hends

theorem Serialised.step {a : Act τ ι} (h : Serialised M start s) (hstep : Step M s a s') : Serialised M start s' := by
  obtain ⟨object, hserial, hunder⟩ := h.serial
  cases hstep with
  | @call t op ht =>
      exact ⟨h.exclusive.set (fun h => h.elim), turns_log h.turns rfl (.call op (ht ▸ h.turns t)),
        object, by simpa [State.log, State.set] using hserial, hunder.call ht⟩
  | @enter t op ht hnone =>
      obtain ⟨he, hobject⟩ := hunder.of_free hnone
      refine ⟨h.exclusive.set fun _ => .inr hnone, turns_log h.turns rfl (.enter _ (ht ▸ h.turns t)),
        object, by simpa [State.log, State.set] using hserial, .inside t op (M.start op) set_place ?_ ?_⟩
      · simp [State.log, State.set, he]
      · exact hobject ▸ .refl
  | @work t op l l' object' ht hw =>
      obtain ⟨he, hsteps⟩ := hunder.of_inside h.exclusive ht
      exact ⟨h.exclusive.set fun _ => .inl (holds_of_place ht trivial), turns_set h.turns (.work l' (ht ▸ h.turns t)),
        object, hserial, .inside t op l' set_place he (.concat hsteps hw)⟩
  | @done t op l o object' ht hw =>
      obtain ⟨he, hsteps⟩ := hunder.of_inside h.exclusive ht
      exact ⟨h.exclusive.set fun _ => .inl (holds_of_place ht trivial), turns_set h.turns (.done o (ht ▸ h.turns t)),
        object, hserial, .leaving t op o set_place he ⟨l, s.object, hsteps, hw⟩⟩
  | @leave t op o ht =>
      obtain ⟨he, hends⟩ := hunder.of_leaving h.exclusive ht
      refine ⟨h.exclusive.set fun h => h.elim, turns_log h.turns rfl (.leave (ht ▸ h.turns t)), s.object, ?_, ?_⟩
      · simpa [State.log, State.set] using hserial.concat hends
      · refine .free (not_holds_set id fun t' hne h' => ?_) (by simp [State.log, State.set, he]) rfl
        exact hne (h.exclusive t' t h' (holds_of_place ht trivial))

theorem serialised_of_reachable (h : (system M start).Reachable s) : Serialised M start s := by
  have hinv : (system (τ := τ) M start).Invariant (Serialised M start) := by
    refine ⟨?_, fun s a s' hs hstep => hs.step hstep⟩
    rintro s rfl
    exact .init
  exact hinv.reachable h

/-- While no thread has the lock, the object is what the operations leave that have returned, and the order of these
is that in which they took the lock. -/
theorem Serialised.free (h : Serialised M start s) (hnone : ∀ t, ¬ (s.place t).Holds) :
    Serial M start (returned s.events) s.object ∧
      entered s.events = (returned s.events).map fun r => (r.1, r.2.1) := by
  obtain ⟨object, hserial, hunder⟩ := h.serial
  obtain ⟨he, rfl⟩ := hunder.of_free hnone
  exact ⟨hserial, he⟩

end Locks
