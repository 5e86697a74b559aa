/-!
# Transition systems

Labelled transition systems, the states they reach, and the rule that a property which holds at
the start and is kept by every step holds of every reachable state.
-/

namespace Transition

universe u v

/-- A transition system: where a run may start, and which labelled steps it may take. -/
structure System (σ : Type u) (ι : Type v) where
  init : σ → Prop
  step : σ → ι → σ → Prop

variable {σ : Type u} {ι : Type v}

namespace System

/-- The states that some finite run ends in. -/
inductive Reachable (S : System σ ι) : σ → Prop where
  | init {s : σ} : S.init s → Reachable S s
  | step {s s' : σ} {i : ι} : Reachable S s → S.step s i s' → Reachable S s'

/-- `P` holds at the start and every step keeps it. -/
structure Invariant (S : System σ ι) (P : σ → Prop) : Prop where
  init : ∀ s, S.init s → P s
  step : ∀ s i s', P s → S.step s i s' → P s'

theorem Invariant.reachable {S : System σ ι} {P : σ → Prop} (h : S.Invariant P) {s : σ}
    (hs : S.Reachable s) : P s := by
  induction hs with
  | init h0 => exact h.init _ h0
  | step _ hst ih => exact h.step _ _ _ ih hst

/-- The system that takes only those steps whose state and label meet `C`. -/
def restrict (S : System σ ι) (C : σ → ι → Prop) : System σ ι where
  init := S.init
  step s i s' := C s i ∧ S.step s i s'

theorem Reachable.of_restrict {S : System σ ι} {C : σ → ι → Prop} {s : σ}
    (h : (S.restrict C).Reachable s) : S.Reachable s := by
  induction h with
  | init h0 => exact .init h0
  | step _ hst ih => exact .step ih hst.2

/-- The system of a function that computes the next state. -/
def ofFun (start : σ) (f : σ → ι → σ) : System σ ι where
  init s := s = start
  step s i s' := s' = f s i

theorem Invariant.ofFun {start : σ} {f : σ → ι → σ} {P : σ → Prop} (h0 : P start)
    (hs : ∀ s i, P s → P (f s i)) : (System.ofFun start f).Invariant P where
  init := by rintro s rfl; exact h0
  step := by rintro s i s' hp rfl; exact hs s i hp

/-- A run of a computed system that starts in a reachable state ends in one. -/
theorem Reachable.foldl {start : σ} {f : σ → ι → σ} {s : σ} (hs : (System.ofFun start f).Reachable s)
    (is : List ι) : (System.ofFun start f).Reachable (is.foldl f s) := by
  induction is generalizing s with
  | nil => exact hs
  | cons i is ih => exact ih (.step hs rfl)

/-- The system of a function that does not take every label in every state. -/
def ofOption (start : σ) (f : σ → ι → Option σ) : System σ ι where
  init s := s = start
  step s i s' := f s i = some s'

theorem Invariant.ofOption {start : σ} {f : σ → ι → Option σ} {P : σ → Prop} (h0 : P start)
    (hs : ∀ s i s', P s → f s i = some s' → P s') : (System.ofOption start f).Invariant P where
  init := by rintro s rfl; exact h0
  step := hs

theorem Reachable.foldlM {start : σ} {f : σ → ι → Option σ} {s s' : σ}
    (hs : (System.ofOption start f).Reachable s) {is : List ι} (h : is.foldlM f s = some s') :
    (System.ofOption start f).Reachable s' := by
  induction is generalizing s with
  | nil => cases h; exact hs
  | cons i is ih =>
      rw [List.foldlM_cons] at h
      obtain ⟨t, ht, h'⟩ := Option.bind_eq_some_iff.mp h
      exact ih (.step hs ht) h'

/-- A run from the start. -/
theorem Reachable.of_run {start : σ} {f : σ → ι → Option σ} {s : σ} (is : List ι) (h : is.foldlM f start = some s) :
    (System.ofOption start f).Reachable s := .foldlM (.init rfl) h

/-- Some run of a partial function goes from one state to the other. -/
def Leads (f : σ → ι → Option σ) (s s' : σ) : Prop := ∃ is : List ι, is.foldlM f s = some s'

theorem Leads.refl {f : σ → ι → Option σ} (s : σ) : Leads f s s := ⟨[], rfl⟩

theorem Leads.step {f : σ → ι → Option σ} {s s₁ s' : σ} {i : ι} (h : f s i = some s₁) (h' : Leads f s₁ s') :
    Leads f s s' := by
  obtain ⟨is, hrun⟩ := h'
  exact ⟨i :: is, by rwa [List.foldlM_cons, h]⟩

theorem Leads.trans {f : σ → ι → Option σ} {s s₁ s' : σ} (h : Leads f s s₁) (h' : Leads f s₁ s') : Leads f s s' := by
  obtain ⟨is, hrun⟩ := h
  obtain ⟨js, hrun'⟩ := h'
  exact ⟨is ++ js, by rwa [List.foldlM_append, hrun]⟩

/-- If each state short of a goal has a step that keeps `P` and makes a measure smaller, a run gets to the goal. -/
theorem exists_leads_of_measure {f : σ → ι → Option σ} {P Goal : σ → Prop} (measure : σ → Nat)
    (hstep : ∀ s, P s → ¬ Goal s → ∃ i s', f s i = some s' ∧ P s' ∧ measure s' < measure s) {s : σ} (hs : P s) :
    ∃ s', Leads f s s' ∧ Goal s' := by
  by_cases hgoal : Goal s
  · exact ⟨s, .refl s, hgoal⟩
  · obtain ⟨i, s₁, hf, hs₁, hlt⟩ := hstep s hs hgoal
    obtain ⟨s', hrun, hgoal'⟩ := exists_leads_of_measure measure hstep hs₁
    exact ⟨s', .step hf hrun, hgoal'⟩
termination_by measure s

/-- Two partial functions that keep a relation, and have an answer in the same cases, in a whole run. -/
theorem foldlM_rel {τ : Type} {f : σ → ι → Option σ} {g : τ → ι → Option τ} {R : σ → τ → Prop}
    (hfg : ∀ s t i, R s t → Option.Rel R (f s i) (g t i)) {s : σ} {t : τ} (h : R s t) (is : List ι) :
    Option.Rel R (is.foldlM f s) (is.foldlM g t) := by
  induction is generalizing s t with
  | nil => exact .some h
  | cons i is ih =>
      rw [List.foldlM_cons, List.foldlM_cons]
      have hi := hfg s t i h
      generalize f s i = x, g t i = y at hi
      cases hi with
      | none => exact .none
      | some h' => exact ih h'

/-- The system of a partial function: a step is a label the function answers, with what it lets be
seen. -/
def ofPartial {ε : Type} (start : σ → Prop) (f : σ → ι → Option (σ × Option ε)) : System σ ι where
  init := start
  step s i s' := ∃ e, f s i = some (s', e)

end System

/-- The steps of a partial function one after the other, with all that they let be seen. -/
def exec {ε : Type} (f : σ → ι → Option (σ × Option ε)) (s : σ) : List ι → Option (σ × List ε)
  | [] => some (s, [])
  | i :: is =>
      match f s i with
      | none => none
      | some (s', e) => (exec f s' is).map fun (s'', es) => (s'', e.toList ++ es)

/-- A run of a partial function whose answers are steps of the system. -/
theorem System.Reachable.exec_of {ε : Type} {S : System σ ι} {f : σ → ι → Option (σ × Option ε)}
    (hf : ∀ s i s' e, f s i = some (s', e) → S.step s i s') {s s' : σ} (hs : S.Reachable s) (is : List ι)
    {es : List ε} (h : Transition.exec f s is = some (s', es)) : S.Reachable s' := by
  induction is generalizing s es with
  | nil => cases h; exact hs
  | cons i is ih =>
      simp only [Transition.exec] at h
      split at h
      · cases h
      · rename_i t e ht
        obtain ⟨⟨t', es'⟩, hx, heq⟩ := Option.map_eq_some_iff.mp h
        cases heq
        exact ih (.step hs (hf _ _ _ _ ht)) hx

theorem System.Reachable.exec {ε : Type} {start : σ → Prop} {f : σ → ι → Option (σ × Option ε)}
    {s s' : σ} (hs : (System.ofPartial start f).Reachable s) (is : List ι) {es : List ε}
    (h : Transition.exec f s is = some (s', es)) : (System.ofPartial start f).Reachable s' :=
  exec_of (S := .ofPartial start f) (fun _ _ _ e he => ⟨e, he⟩) hs is h

/-- The same where every step has to meet a condition. -/
theorem System.Reachable.exec_restrict {ε : Type} {start : σ → Prop} {f : σ → ι → Option (σ × Option ε)}
    {C : σ → ι → Prop} [∀ s i, Decidable (C s i)] {s s' : σ}
    (hs : ((System.ofPartial start f).restrict C).Reachable s) (is : List ι) {es : List ε}
    (h : Transition.exec (fun s i => if C s i then f s i else none) s is = some (s', es)) :
    ((System.ofPartial start f).restrict C).Reachable s' := by
  refine exec_of (S := (System.ofPartial start f).restrict C) (fun s i s' e he => ?_) hs is h
  split at he
  · exact ⟨‹_›, e, he⟩
  · cases he

/-! ## Machines that answer -/

variable {τ ο κ : Type}

/-- What a machine answers to each of the inputs, and what can be seen of its state after it. -/
def trace (f : σ → ι → ο × σ) (view : σ → κ) (s : σ) : List ι → List (ο × κ)
  | [] => []
  | i :: is => ((f s i).1, view (f s i).2) :: trace f view (f s i).2 is

/-- The answers of a machine to all the inputs, and the state it is in after them. -/
def run (f : σ → ι → ο × σ) (s : σ) : List ι → List ο × σ
  | [] => ([], s)
  | i :: is => ((f s i).1 :: (run f (f s i).2 is).1, (run f (f s i).2 is).2)

/-- Every input of the run is given in a state in which it meets `ok`. -/
def Along (f : σ → ι → ο × σ) (ok : σ → ι → Prop) (s : σ) : List ι → Prop
  | [] => True
  | i :: is => ok s i ∧ Along f ok (f s i).2 is

instance Along.decidable (f : σ → ι → ο × σ) (ok : σ → ι → Prop) [∀ s i, Decidable (ok s i)] :
    (s : σ) → (is : List ι) → Decidable (Along f ok s is)
  | _, [] => isTrue trivial
  | s, i :: is => @instDecidableAnd (ok s i) _ _ (Along.decidable f ok (f s i).2 is)

theorem Along.of_isPrefix {f : σ → ι → ο × σ} {ok : σ → ι → Prop} {s : σ} {is js : List ι}
    (h : Along f ok s js) (hp : is <+: js) : Along f ok s is := by
  induction is generalizing s js with
  | nil => trivial
  | cons i is ih =>
      obtain ⟨ks, rfl⟩ := hp
      exact ⟨h.1, ih h.2 ⟨ks, rfl⟩⟩

theorem Along.of_forall {f : σ → ι → ο × σ} {ok : σ → ι → Prop} (h : ∀ s i, ok s i) (s : σ) (is : List ι) :
    Along f ok s is := by
  induction is generalizing s with
  | nil => trivial
  | cons i is ih => exact ⟨h s i, ih _⟩

theorem Along.imp {f : σ → ι → ο × σ} {P Q : σ → ι → Prop} (hPQ : ∀ s i, P s i → Q s i) {s : σ} {is : List ι}
    (h : Along f P s is) : Along f Q s is := by
  induction is generalizing s with
  | nil => trivial
  | cons i is ih => exact ⟨hPQ s i h.1, ih h.2⟩

/-- Two conditions that are the same in the states of an invariant, of which one keeps the invariant, for inputs that
meet a third one. -/
theorem Along.iff_of_invariant_along {f : σ → ι → ο × σ} {ok P Q : σ → ι → Prop} {Inv : σ → Prop}
    (hPQ : ∀ s i, Inv s → ok s i → (P s i ↔ Q s i)) (hkeep : ∀ s i, Inv s → ok s i → P s i → Inv (f s i).2) {s : σ}
    (hs : Inv s) {is : List ι} (hok : Along f ok s is) : Along f P s is ↔ Along f Q s is := by
  induction is generalizing s with
  | nil => exact Iff.rfl
  | cons i is ih =>
      rw [Along, Along, ← hPQ s i hs hok.1]
      exact and_congr_right fun hp => ih (hkeep s i hs hok.1 hp) hok.2

/-- Two conditions that are the same in the states of an invariant, of which one keeps the invariant. -/
theorem Along.iff_of_invariant {f : σ → ι → ο × σ} {P Q : σ → ι → Prop} {Inv : σ → Prop}
    (hPQ : ∀ s i, Inv s → (P s i ↔ Q s i)) (hkeep : ∀ s i, Inv s → P s i → Inv (f s i).2) {s : σ} (hs : Inv s)
    (is : List ι) : Along f P s is ↔ Along f Q s is :=
  iff_of_invariant_along (fun s i h _ => hPQ s i h) (fun s i h _ => hkeep s i h) hs
    (of_forall (fun _ _ => trivial) s is)

/-- Two machines in related states give the same answer to an input that meets `ok`, and stay related. -/
structure Simulation (f : σ → ι → ο × σ) (g : τ → ι → ο × τ) (ok : σ → ι → Prop) (R : σ → τ → Prop) :
    Prop where
  answer : ∀ s t i, R s t → ok s i → (f s i).1 = (g t i).1
  related : ∀ s t i, R s t → ok s i → R (f s i).2 (g t i).2

theorem Simulation.trace_eq {f : σ → ι → ο × σ} {g : τ → ι → ο × τ} {ok : σ → ι → Prop}
    {R : σ → τ → Prop} {view : σ → κ} {view' : τ → κ} (h : Simulation f g ok R)
    (hview : ∀ s t, R s t → view s = view' t) {s : σ} {t : τ} {is : List ι} (hR : R s t)
    (hok : Along f ok s is) : trace f view s is = trace g view' t is := by
  induction is generalizing s t with
  | nil => rfl
  | cons i is ih =>
      have hR' := h.related s t i hR hok.1
      rw [trace, trace, h.answer s t i hR hok.1, hview _ _ hR', ih hR' hok.2]

theorem Simulation.run_eq {f : σ → ι → ο × σ} {g : τ → ι → ο × τ} {ok : σ → ι → Prop} {R : σ → τ → Prop}
    (h : Simulation f g ok R) {s : σ} {t : τ} {is : List ι} (hR : R s t) (hok : Along f ok s is) :
    (run f s is).1 = (run g t is).1 := by
  induction is generalizing s t with
  | nil => rfl
  | cons i is ih => rw [run, run, h.answer s t i hR hok.1, ih (h.related s t i hR hok.1) hok.2]

end Transition
