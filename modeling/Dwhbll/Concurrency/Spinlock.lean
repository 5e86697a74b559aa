import Dwhbll.Lib.Locks
import Dwhbll.Sanify.Deferred

/-!
# `spinlock` and `owning_spinlock` of `concurrency/`

Threads take turns at their atomic steps. `lock()` sets the flag until it finds it clear and returns a `deferred` that
clears it; the caller keeps that while it works on the object and destroys it when it returns, by an exception or not.
What a caller does to the object is any operation that takes several steps.

`events` records the run and is never read by a step.
-/

namespace Dwhbll.Concurrency.Spinlock

open Transition Locks
open Sanify (Deferred)

variable {τ σ ι ℓ ο : Type}

/-- Where a thread is; `cleanup` is what `lock()` returned. -/
inductive Caller (ι ℓ ο : Type) where
  | outside
  | spinning (op : ι)
  | inside (op : ι) (l : ℓ) (cleanup : Deferred Unit)
  | leaving (op : ι) (o : ο) (cleanup : Deferred Unit)
  deriving DecidableEq, Repr

structure State (τ σ ι ℓ ο : Type) where
  lock : Bool
  object : σ
  caller : τ → Caller ι ℓ ο
  events : List (Event τ ι ο)

def State.init (start : σ) : State τ σ ι ℓ ο := ⟨false, start, fun _ => .outside, []⟩

inductive Act (τ ι : Type) where
  | call (t : τ) (op : ι)
  | testAndSet (t : τ)
  | work (t : τ)
  | destroy (t : τ)
  deriving DecidableEq, Repr

variable [DecidableEq τ]

/-- One atomic step; `none` if the thread is not at that place. -/
def step (M : Sections σ ι ℓ ο) (s : State τ σ ι ℓ ο) : Act τ ι → Option (State τ σ ι ℓ ο)
  | .call t op =>
      match s.caller t with
      | .outside =>
          some { s with caller := Function.update s.caller t (.spinning op), events := s.events ++ [.call t op] }
      | _ => none
  | .testAndSet t =>
      match s.caller t with
      | .spinning op =>
          if s.lock then some { s with lock := true }
          else
            some { s with
              lock := true
              caller := Function.update s.caller t (.inside op (M.start op) ⟨some ()⟩)
              events := s.events ++ [.enter t op] }
      | _ => none
  | .work t =>
      match s.caller t with
      | .inside op l cleanup =>
          match M.work l s.object with
          | (.inl l', object) =>
              some { s with object := object, caller := Function.update s.caller t (.inside op l' cleanup) }
          | (.inr o, object) =>
              some { s with object := object, caller := Function.update s.caller t (.leaving op o cleanup) }
      | _ => none
  | .destroy t =>
      match s.caller t with
      | .leaving op o cleanup =>
          -- The function of the object clears the flag.
          some { s with
            lock := if cleanup.destroy = [] then s.lock else false
            caller := Function.update s.caller t .outside
            events := s.events ++ [.ret t op o] }
      | _ => none

def system (M : Sections σ ι ℓ ο) (start : σ) : System (State τ σ ι ℓ ο) (Act τ ι) := .ofOption (.init start) (step M)

/-! ## The lock that the flag stands for -/

def Caller.place : Caller ι ℓ ο → Place ι ℓ ο
  | .outside => .outside
  | .spinning op => .waiting op
  | .inside op l _ => .inside op l
  | .leaving op o _ => .leaving op o

def Caller.cleanup : Caller ι ℓ ο → Option (Deferred Unit)
  | .outside | .spinning _ => none
  | .inside _ _ cleanup | .leaving _ _ cleanup => some cleanup

def State.locked (s : State τ σ ι ℓ ο) : Locks.State τ σ ι ℓ ο := ⟨s.object, fun t => (s.caller t).place, s.events⟩

/-- The flag is set while a thread has the lock, which then has the object that clears it. -/
structure Guarded (s : State τ σ ι ℓ ο) : Prop where
  lock_iff : s.lock = true ↔ ∃ t, (s.caller t).place.Holds
  cleanup : ∀ t, ∀ d ∈ (s.caller t).cleanup, d = ⟨some ()⟩

variable {M : Sections σ ι ℓ ο} {start : σ} {s s' : State τ σ ι ℓ ο} {t t' : τ} {c : Caller ι ℓ ο}

/-- What one step does, and that it is one of the lock or leaves the threads where they are. -/
theorem step_cases {a : Act τ ι} (h : step M s a = some s') :
    (∃ t op, a = .call t op ∧ s.caller t = .outside ∧
      s' = { s with caller := Function.update s.caller t (.spinning op), events := s.events ++ [.call t op] }) ∨
    (∃ t op, a = .testAndSet t ∧ s.caller t = .spinning op ∧ s.lock = true ∧ s' = s) ∨
    (∃ t op, a = .testAndSet t ∧ s.caller t = .spinning op ∧ s.lock = false ∧
      s' = { s with
        lock := true
        caller := Function.update s.caller t (.inside op (M.start op) ⟨some ()⟩)
        events := s.events ++ [.enter t op] }) ∨
    (∃ t op l l' cleanup object, a = .work t ∧ s.caller t = .inside op l cleanup ∧
      M.work l s.object = (.inl l', object) ∧
      s' = { s with object := object, caller := Function.update s.caller t (.inside op l' cleanup) }) ∨
    (∃ t op l o cleanup object, a = .work t ∧ s.caller t = .inside op l cleanup ∧
      M.work l s.object = (.inr o, object) ∧
      s' = { s with object := object, caller := Function.update s.caller t (.leaving op o cleanup) }) ∨
    ∃ t op o cleanup, a = .destroy t ∧ s.caller t = .leaving op o cleanup ∧
      s' = { s with
        lock := if cleanup.destroy = [] then s.lock else false
        caller := Function.update s.caller t .outside
        events := s.events ++ [.ret t op o] } := by
  cases a with
  | call t op =>
      simp only [step] at h
      split at h
      · exact .inl ⟨t, op, rfl, ‹_›, (Option.some.inj h).symm⟩
      · cases h
  | testAndSet t =>
      simp only [step] at h
      split at h
      · rename_i op hc
        split at h
        · rename_i hlock
          refine .inr (.inl ⟨t, op, rfl, hc, hlock, ?_⟩)
          rw [← Option.some.inj h, ← hlock]
        · rename_i hlock
          exact .inr (.inr (.inl ⟨t, op, rfl, hc, Bool.eq_false_iff.mpr hlock, (Option.some.inj h).symm⟩))
      · cases h
  | work t =>
      simp only [step] at h
      split at h
      · rename_i op l cleanup hc
        split at h
        · rename_i l' object hw
          exact .inr (.inr (.inr (.inl ⟨t, op, l, l', cleanup, object, rfl, hc, hw, (Option.some.inj h).symm⟩)))
        · rename_i o object hw
          exact .inr (.inr (.inr (.inr (.inl
            ⟨t, op, l, o, cleanup, object, rfl, hc, hw, (Option.some.inj h).symm⟩))))
      · cases h
  | destroy t =>
      simp only [step] at h
      split at h
      · rename_i op o cleanup hc
        exact .inr (.inr (.inr (.inr (.inr ⟨t, op, o, cleanup, rfl, hc, (Option.some.inj h).symm⟩))))
      · cases h

/-! ## The flag as a lock -/

omit [DecidableEq τ] in
theorem Guarded.init : Guarded (.init start : State τ σ ι ℓ ο) where
  lock_iff := iff_of_false Bool.false_ne_true fun ⟨_, h⟩ => h
  cleanup := by intro t d hd; cases hd

omit [DecidableEq τ] in
theorem Guarded.of_false (h : Guarded s) (hlock : s.lock = false) (t : τ) : ¬ (s.caller t).place.Holds := fun ht =>
  Bool.false_ne_true (hlock.symm.trans (h.lock_iff.mpr ⟨t, ht⟩))

omit [DecidableEq τ] in
theorem Guarded.of_holds (h : Guarded s) (ht : (s.caller t).place.Holds) : s.lock = true := h.lock_iff.mpr ⟨t, ht⟩

theorem locked_update (lock : Bool) (object : σ) (events : List (Event τ ι ο)) :
    State.locked ⟨lock, object, Function.update s.caller t c, events⟩ =
      ⟨object, Function.update s.locked.place t c.place, events⟩ := by
  refine congrArg (Locks.State.mk object · events) (funext fun t' => ?_)
  show (Function.update s.caller t c t').place = Function.update s.locked.place t c.place t'
  by_cases hne : t' = t
  · rw [hne, Function.update_self, Function.update_self]
  · rw [Function.update_of_ne hne, Function.update_of_ne hne]
    rfl

/-- Who has the lock after a thread went to another place. -/
theorem exists_holds_update (caller : τ → Caller ι ℓ ο) (t : τ) (c : Caller ι ℓ ο) :
    (∃ t', (Function.update caller t c t').place.Holds) ↔
      c.place.Holds ∨ ∃ t', t' ≠ t ∧ (caller t').place.Holds := by
  constructor
  · rintro ⟨t', h⟩
    by_cases hne : t' = t
    · rw [hne, Function.update_self] at h
      exact .inl h
    · rw [Function.update_of_ne hne] at h
      exact .inr ⟨t', hne, h⟩
  · rintro (h | ⟨t', hne, h⟩)
    · exact ⟨t, by rwa [Function.update_self]⟩
    · exact ⟨t', by rwa [Function.update_of_ne hne]⟩

/-- A thread that goes to another place with the object that clears the flag, or with none. -/
theorem Guarded.update {lock : Bool} {object : σ} {events : List (Event τ ι ο)} (h : Guarded s)
    (hlock : lock = true ↔ c.place.Holds ∨ ∃ t', t' ≠ t ∧ (s.caller t').place.Holds)
    (hcleanup : ∀ d ∈ c.cleanup, d = ⟨some ()⟩) :
    Guarded (⟨lock, object, Function.update s.caller t c, events⟩ : State τ σ ι ℓ ο) where
  lock_iff := hlock.trans (exists_holds_update s.caller t c).symm
  cleanup t' d (hd : d ∈ (Function.update s.caller t c t').cleanup) := by
    by_cases hne : t' = t
    · rw [hne, Function.update_self] at hd
      exact hcleanup d hd
    · rw [Function.update_of_ne hne] at hd
      exact h.cleanup t' d hd

omit [DecidableEq τ] in
theorem holds_of_caller (hc : s.caller t = c) (h : c.place.Holds) : (s.caller t).place.Holds := hc ▸ h

/-- A step of the threads on the flag is a step of the lock, or the flag was set and nothing changes. -/
theorem step_locked {a : Act τ ι} (hs : Guarded s) (hx : Exclusive s.locked) (h : step M s a = some s') :
    Guarded s' ∧ (s' = s ∨ ∃ a', Locks.Step M s.locked a' s'.locked) := by
  rcases step_cases h with ⟨t, op, rfl, hc, rfl⟩ | ⟨t, op, rfl, hc, hlock, rfl⟩ | ⟨t, op, rfl, hc, hlock, rfl⟩ |
    ⟨t, op, l, l', cleanup, object, rfl, hc, hw, rfl⟩ | ⟨t, op, l, o, cleanup, object, rfl, hc, hw, rfl⟩ |
    ⟨t, op, o, cleanup, rfl, hc, rfl⟩
  · refine ⟨hs.update ?_ (by simp [Caller.cleanup]), .inr ⟨.call t op, ?_⟩⟩
    · rw [hs.lock_iff, or_iff_right (a := (Caller.spinning op : Caller ι ℓ ο).place.Holds) id]
      refine exists_congr fun t' => ⟨fun ht' => ⟨?_, ht'⟩, And.right⟩
      rintro rfl
      rwa [hc] at ht'
    · rw [locked_update]
      exact Locks.Step.call (M := M) (s := s.locked) op (congrArg Caller.place hc)
  · exact ⟨hs, .inl rfl⟩
  · refine ⟨hs.update (iff_of_true rfl (.inl trivial)) (by simp [Caller.cleanup]), .inr ⟨.enter t, ?_⟩⟩
    rw [locked_update]
    exact Locks.Step.enter (M := M) (s := s.locked) (congrArg Caller.place hc) (hs.of_false hlock)
  · have hholds := holds_of_caller hc trivial
    refine ⟨hs.update (iff_of_true (hs.of_holds hholds) (.inl trivial)) ?_, .inr ⟨.work t, ?_⟩⟩
    · exact fun d hd => hs.cleanup t d (hc ▸ hd)
    · rw [locked_update]
      exact Locks.Step.work (s := s.locked) (congrArg Caller.place hc) hw
  · have hholds := holds_of_caller hc trivial
    refine ⟨hs.update (iff_of_true (hs.of_holds hholds) (.inl trivial)) ?_, .inr ⟨.work t, ?_⟩⟩
    · exact fun d hd => hs.cleanup t d (hc ▸ hd)
    · rw [locked_update]
      exact Locks.Step.done (s := s.locked) (congrArg Caller.place hc) hw
  · have hclear : cleanup = ⟨some ()⟩ := hs.cleanup t cleanup (hc ▸ rfl)
    refine ⟨hs.update (iff_of_false (by simp [hclear, Deferred.destroy]) ?_) (by simp [Caller.cleanup]),
      .inr ⟨.leave t, ?_⟩⟩
    · rintro (h | ⟨t', hne, ht'⟩)
      · exact h
      · exact hne (hx t' t ht' (holds_of_caller hc trivial))
    · rw [locked_update]
      exact Locks.Step.leave (M := M) (s := s.locked) (congrArg Caller.place hc)

/-- No two threads are past `lock()`; each operation takes effect between its call and its return; and while the flag is
clear the object is what whole operations leave, one after the other in the order in which they took the lock, with the
answers that they have returned. -/
structure Synchronised (M : Sections σ ι ℓ ο) (start : σ) (s : State τ σ ι ℓ ο) : Prop where
  alone : ∀ t t', (s.caller t).place.Holds → (s.caller t').place.Holds → t = t'
  lock_iff : s.lock = true ↔ ∃ t, (s.caller t).place.Holds
  turns : ∀ t, Turns t (own t s.events) (s.caller t).place
  serial : s.lock = false → Serial M start (returned s.events) s.object ∧
    entered s.events = (returned s.events).map fun r => (r.1, r.2.1)

theorem guarded_of_reachable (h : (system M start).Reachable s) :
    Guarded s ∧ (Locks.system M start).Reachable s.locked := by
  have hinv : (system (τ := τ) M start).Invariant fun s => Guarded s ∧ (Locks.system M start).Reachable s.locked := by
    refine .ofOption ⟨.init, .init rfl⟩ fun s a s' hs hstep => ?_
    obtain ⟨hs', rfl | ⟨a', hlock⟩⟩ := step_locked hs.1 (serialised_of_reachable hs.2).exclusive hstep
    · exact ⟨hs', hs.2⟩
    · exact ⟨hs', .step hs.2 hlock⟩
  exact hinv.reachable h

/-- In every interleaving of any number of threads. -/
theorem reachable_synchronised (h : (system M start).Reachable s) : Synchronised M start s := by
  obtain ⟨hs, hlocked⟩ := guarded_of_reachable h
  have hserial := serialised_of_reachable hlocked
  exact ⟨hserial.exclusive, hs.lock_iff, hserial.turns, fun hlock => hserial.free (hs.of_false hlock)⟩

/-- A counter that is read in one step and written in another one. -/
def counter : Sections Nat Unit (Option Nat) Nat where
  start _ := none
  work
    | none, n => (.inl (some n), n)
    | some n, _ => (.inr n, n + 1)

/-- Two threads that count at the same time: the second one finds the flag set until the first one has returned. -/
theorem reachable_synchronised_counter :
    ∃ s : State Bool Nat Unit (Option Nat) Nat, s.lock = false ∧
      s.events = [.call false (), .call true (), .enter false (), .ret false () 0, .enter true (), .ret true () 1] ∧
      Synchronised counter 0 s :=
  ⟨_, rfl, rfl, reachable_synchronised (.of_run [.call false (), .call true (), .testAndSet false, .work false,
    .testAndSet true, .work false, .testAndSet true, .destroy false, .testAndSet true, .work true, .work true,
    .destroy true] rfl)⟩

/-! ## A thread that waits gets the lock -/

/-- An operation that comes to an end brings its thread to where it gives the lock back. -/
theorem leads_leaving {op : ι} {l : ℓ} {o : ο} {object : σ} {d : Deferred Unit} (hc : s.caller t = .inside op l d)
    (h : M.EndsFrom l s.object o object) :
    System.Leads (step M) s { s with object := object, caller := Function.update s.caller t (.leaving op o d) } := by
  obtain ⟨l₁, object₁, hsteps, hdone⟩ := h
  have hinside : System.Leads (step M) s
      { s with object := object₁, caller := Function.update s.caller t (.inside op l₁ d) } := by
    clear hdone
    induction hsteps with
    | refl => exact ⟨[], by rw [List.foldlM_nil, ← hc, Function.update_eq_self]; rfl⟩
    | concat _ hw ih =>
        refine ih.trans (.step (i := .work t) ?_ (.refl _))
        simp only [step, Function.update_self, hw, Function.update_idem]
  refine hinside.trans (.step (i := .work t) ?_ (.refl _))
  simp only [step, Function.update_self, hdone, Function.update_idem]

/-- The lock is given back. -/
theorem step_destroy {op : ι} {o : ο} {d : Deferred Unit} (hs : Guarded s) (hc : s.caller t = .leaving op o d) :
    step M s (.destroy t) = some { s with
      lock := false
      caller := Function.update s.caller t .outside
      events := s.events ++ [.ret t op o] } := by
  have hclear : d = ⟨some ()⟩ := hs.cleanup t d (hc ▸ rfl)
  simp only [step, hc, hclear, Deferred.destroy, Option.toList_some, List.cons_ne_nil, if_false]

/-- An operation that comes to an end returns. -/
theorem leads_returned (hs : (system M start).Reachable s) {op : ι} {l : ℓ} {o : ο} {object : σ} {d : Deferred Unit}
    (hc : s.caller t = .inside op l d) (h : M.EndsFrom l s.object o object) :
    System.Leads (step M) s
      ⟨false, object, Function.update s.caller t .outside, s.events ++ [.ret t op o]⟩ := by
  have hleaving := leads_leaving hc h
  obtain ⟨is, hrun⟩ := hleaving
  have hguarded := (guarded_of_reachable (hs.foldlM hrun)).1
  refine .trans ⟨is, hrun⟩ (.step (i := .destroy t) ?_ (.refl _))
  rw [step_destroy hguarded (Function.update_self ..)]
  simp only [Function.update_idem]

/-- A thread that has the lock can return if its operation comes to an end. -/
theorem exists_unlocked (h : (system M start).Reachable s) (hlock : s.lock = true)
    (hends : ∀ t op l d, s.caller t = .inside op l d → ∃ o object, M.EndsFrom l s.object o object) :
    ∃ t op o object, (s.caller t).place.Holds ∧ System.Leads (step M) s
      ⟨false, object, Function.update s.caller t .outside, s.events ++ [.ret t op o]⟩ := by
  obtain ⟨hs, -⟩ := guarded_of_reachable h
  obtain ⟨t, ht⟩ := hs.lock_iff.mp hlock
  cases hc : s.caller t with
  | outside => rw [hc] at ht; exact ht.elim
  | spinning op => rw [hc] at ht; exact ht.elim
  | leaving op o d => exact ⟨t, op, o, s.object, hc ▸ trivial, .step (step_destroy hs hc) (.refl _)⟩
  | inside op l d =>
      obtain ⟨o, object, hend⟩ := hends t op l d hc
      exact ⟨t, op, o, object, hc ▸ trivial, leads_returned h hc hend⟩

/-- A thread that finds the flag clear takes the lock and returns. -/
theorem leads_returns (h : (system M start).Reachable s) {op : ι} {o : ο} {object : σ} (hc : s.caller t = .spinning op)
    (hlock : s.lock = false) (hend : M.Ends op s.object o object) :
    ∃ s', System.Leads (step M) s s' ∧ s'.caller t = .outside ∧
      returned s'.events = returned s.events ++ [(t, op, o)] := by
  have henter : step M s (.testAndSet t) = some ⟨true, s.object,
      Function.update s.caller t (.inside op (M.start op) ⟨some ()⟩), s.events ++ [.enter t op]⟩ := by
    simp only [step, hc, hlock, Bool.false_eq_true, if_false]
  have hreturned := leads_returned (h.step henter) (Function.update_self ..) hend
  exact ⟨_, .step henter hreturned, Function.update_self .., returned_concat_ret.trans (by rw [returned_concat_enter])⟩

/-- What the operations have left that are over, and how far the thread has come that has the lock. -/
theorem steps_of_inside (h : (system M start).Reachable s) {op : ι} {l : ℓ} {d : Deferred Unit}
    (hc : s.caller t = .inside op l d) :
    ∃ object, Serial M start (returned s.events) object ∧ M.Steps (M.start op) object l s.object := by
  have hserialised := serialised_of_reachable (guarded_of_reachable h).2
  obtain ⟨object, hserial, hunder⟩ := hserialised.serial
  exact ⟨object, hserial, (hunder.of_inside hserialised.exclusive (congrArg Caller.place hc)).2⟩

theorem serial_of_unlocked (h : (system M start).Reachable s) (hlock : s.lock = false) :
    Serial M start (returned s.events) s.object := by
  obtain ⟨hs, hlocked⟩ := guarded_of_reachable h
  exact ((serialised_of_reachable hlocked).free (hs.of_false hlock)).1

/-- Where every operation ends that is left alone, no thread waits in vain: from every state that is reached some run
lets it take the lock and return. -/
theorem exists_returns (hends : ∀ log : List (τ × ι × ο), ∀ object, Serial M start log object →
      ∀ op, ∃ o object', M.Ends op object o object') (h : (system M start).Reachable s) {op : ι}
    (hc : s.caller t = .spinning op) :
    ∃ s' log o, System.Leads (step M) s s' ∧ s'.caller t = .outside ∧
      returned s'.events = returned s.events ++ log ++ [(t, op, o)] := by
  cases hlock : s.lock with
  | false =>
      obtain ⟨o, object, hend⟩ := hends _ _ (serial_of_unlocked h hlock) op
      obtain ⟨s', hleads, hout, hret⟩ := leads_returns h hc hlock hend
      exact ⟨s', [], o, hleads, hout, by rw [hret, List.append_nil]⟩
  | true =>
      have hinside : ∀ t op l d, s.caller t = .inside op l d → ∃ o object, M.EndsFrom l s.object o object := by
        intro t₁ op₁ l d hc₁
        obtain ⟨object, hserial, hsteps⟩ := steps_of_inside h hc₁
        obtain ⟨o, object', hend⟩ := hends _ _ hserial op₁
        exact ⟨o, object', hend.after hsteps⟩
      obtain ⟨t₁, op₁, o₁, object, ht₁, is, hrun⟩ := exists_unlocked h hlock hinside
      have hne : t ≠ t₁ := by
        rintro rfl
        rw [hc] at ht₁
        exact ht₁
      have h₁ := h.foldlM hrun
      obtain ⟨o, object', hend⟩ := hends _ _ (serial_of_unlocked h₁ rfl) op
      obtain ⟨s', hleads, hout, hret⟩ := leads_returns h₁ ((Function.update_of_ne hne ..).trans hc) rfl hend
      refine ⟨s', [(t₁, op₁, o₁)], o, .trans ⟨is, hrun⟩ hleads, hout, ?_⟩
      rw [hret, returned_concat_ret]

theorem counter_ends (n : Nat) : counter.Ends () n n (n + 1) := .step rfl (.done rfl)

/-- The second thread, after the first one has read the counter. -/
theorem exists_returns_counter :
    ∃ s s' : State Bool Nat Unit (Option Nat) Nat, ∃ log o, s.lock = true ∧ System.Leads (step counter) s s' ∧
      s'.caller true = .outside ∧ returned s'.events = log ++ [(true, (), o)] := by
  have h : (system counter 0).Reachable _ :=
    .of_run [.call false (), .call true (), .testAndSet false, .work false] rfl
  obtain ⟨s', log, o, hleads, hout, hret⟩ := exists_returns (t := true)
    (fun _ object _ op => ⟨object, object + 1, counter_ends object⟩) h rfl
  exact ⟨_, s', log, o, rfl, hleads, hout, hret⟩

/-! ## An operation that does not end -/

/-- The thread is at one of the places that it does not leave. -/
structure Stuck (P : ℓ → σ → Prop) (t : τ) (op : ι) (s : State τ σ ι ℓ ο) : Prop where
  inside : ∃ l d, s.caller t = .inside op l d ∧ P l s.object
  lock : s.lock = true

theorem Stuck.step {P : ℓ → σ → Prop} {op : ι} {a : Act τ ι}
    (hP : ∀ l object, P l object → ∃ l' object', M.work l object = (.inl l', object') ∧ P l' object')
    (h : (system M start).Reachable s) (hstuck : Stuck P t op s) (hstep : step M s a = some s') :
    Stuck P t op s' ∧ returned s'.events = returned s.events ∧
      ∀ t' op', s.caller t' = .spinning op' → s'.caller t' = .spinning op' := by
  obtain ⟨⟨l, d, hc, hl⟩, hlock⟩ := hstuck
  have hexclusive := (serialised_of_reachable (guarded_of_reachable h).2).exclusive
  have hholds := holds_of_caller hc trivial
  have hframe : ∀ {t₁ c₁ c₂}, s.caller t₁ = c₁ → (∀ op', c₁ ≠ .spinning op') → ∀ t' op',
      s.caller t' = .spinning op' → Function.update s.caller t₁ c₂ t' = .spinning op' := by
    rintro t₁ c₁ c₂ hc₁ hne t' op' ht'
    rw [Function.update_of_ne, ht']
    rintro rfl
    exact hne op' (hc₁.symm.trans ht')
  rcases step_cases hstep with ⟨t₁, op₁, rfl, hc₁, rfl⟩ | ⟨t₁, op₁, rfl, hc₁, -, rfl⟩ |
    ⟨t₁, op₁, rfl, hc₁, hclear, rfl⟩ | ⟨t₁, op₁, l₁, l₂, d₁, object, rfl, hc₁, hw, rfl⟩ |
    ⟨t₁, op₁, l₁, o, d₁, object, rfl, hc₁, hw, rfl⟩ | ⟨t₁, op₁, o, d₁, rfl, hc₁, rfl⟩
  · have hne : t ≠ t₁ := by
      rintro rfl
      cases hc.symm.trans hc₁
    exact ⟨⟨⟨l, d, (Function.update_of_ne hne ..).trans hc, hl⟩, hlock⟩, returned_concat_call,
      hframe hc₁ fun op' => by simp⟩
  · exact ⟨⟨⟨l, d, hc, hl⟩, hlock⟩, rfl, fun _ _ => id⟩
  · exact absurd hlock (hclear ▸ Bool.false_ne_true)
  · obtain rfl := hexclusive t t₁ hholds (holds_of_caller hc₁ trivial)
    cases hc.symm.trans hc₁
    obtain ⟨l', object', hw', hl'⟩ := hP _ _ hl
    cases hw.symm.trans hw'
    exact ⟨⟨⟨l₂, d, Function.update_self .., hl'⟩, hlock⟩, rfl, hframe hc fun op' => by simp⟩
  · obtain rfl := hexclusive t t₁ hholds (holds_of_caller hc₁ trivial)
    cases hc.symm.trans hc₁
    obtain ⟨l', object', hw', -⟩ := hP _ _ hl
    cases hw.symm.trans hw'
  · obtain rfl := hexclusive t t₁ hholds (holds_of_caller hc₁ trivial)
    cases hc.symm.trans hc₁

/-- A thread with an operation that does not end keeps the lock for ever: nothing returns any more, and who waits goes on
waiting. -/
theorem Stuck.leads {P : ℓ → σ → Prop} {op : ι}
    (hP : ∀ l object, P l object → ∃ l' object', M.work l object = (.inl l', object') ∧ P l' object')
    (h : (system M start).Reachable s) (hstuck : Stuck P t op s) (hleads : System.Leads (Spinlock.step M) s s') :
    Stuck P t op s' ∧ returned s'.events = returned s.events ∧
      ∀ t' op', s.caller t' = .spinning op' → s'.caller t' = .spinning op' := by
  obtain ⟨is, hrun⟩ := hleads
  induction is generalizing s with
  | nil =>
      cases hrun
      exact ⟨hstuck, rfl, fun _ _ => id⟩
  | cons a is ih =>
      rw [List.foldlM_cons] at hrun
      obtain ⟨s₁, hstep, hrun⟩ := Option.bind_eq_some_iff.mp hrun
      obtain ⟨hstuck₁, hret₁, hwait₁⟩ := hstuck.step hP h hstep
      obtain ⟨hstuck', hret, hwait⟩ := ih (h.step hstep) hstuck₁ hrun
      exact ⟨hstuck', hret.trans hret₁, fun t' op' ht' => hwait t' op' (hwait₁ t' op' ht')⟩

end Dwhbll.Concurrency.Spinlock
