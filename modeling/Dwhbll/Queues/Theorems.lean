import Dwhbll.Queues.Lemmas.MpscGet
import Dwhbll.Queues.Lemmas.SpscInvariant
import Mathlib.Data.List.Perm.Subperm

/-!
# Theorems about the bounded queues

All statements are about every state that some interleaving of the parties' atomic steps reaches.
-/

namespace Dwhbll.Concurrency

def two : Capacity := ⟨1, by decide, by decide⟩

def four : Capacity := ⟨2, by decide, by decide⟩

/-! ## One producer, one consumer -/

namespace Spsc

variable {T : Type} {c : Capacity} {failOnFull : Bool} {s : State T}

/-- What the gets returned is a prefix of what the puts sent, never more than `N - 1` values are
queued, a load of `head` ends a put or makes it wait only on a full queue, a load of `tail` does so to
a get only on an empty one, and slots are constructed into only when they hold nothing and read only
when they hold a value. -/
theorem reachable_fifo (h : (system c failOnFull).Reachable s) :
    s.received <+: s.sent ∧ s.queued ≤ c.N - 1 ∧
      (∀ s' e, step c failOnFull s .putLoadHead = some (s', some e) →
        (e = .putReturns false ∨ e = .putWaits) ∧ s.queued = c.N - 1) ∧
      (∀ s' e, step c failOnFull s .getLoadTail = some (s', some e) →
        (e = .getReturns none ∨ e = .getWaits) ∧ s.queued = 0) ∧
      (∀ v t, s.put = .construct v t → s.live t = false) ∧
      (∀ h, s.get = .move h → s.live h = true) := by
  have hi := Inv.reachable h
  have h1 := hi.le
  have h2 := hi.room
  have hp := hi.put_ok
  have hg := hi.get_ok
  refine ⟨hi.isPrefix, by simp only [State.queued]; omega, ?_, ?_, ?_, ?_⟩
  · intro s' e hst
    cases hs : s.put with
    | loadHead v t =>
        rw [hs] at hp
        obtain rfl := hp
        simp only [step, hs] at hst
        split at hst
        · have hfull := hi.full_iff.mp ‹_›
          refine ⟨?_, by simp only [State.queued]; omega⟩
          split at hst <;> cases hst
          · exact .inl rfl
          · exact .inr rfl
        · cases hst
    | _ => simp [step, hs] at hst
  · intro s' e hst
    cases hs : s.get with
    | loadTail b x =>
        rw [hs] at hg
        obtain rfl := hg
        simp only [step, hs] at hst
        split at hst
        · have hempty := hi.empty_iff.mp ‹_›
          refine ⟨?_, by simp only [State.queued]; omega⟩
          split at hst <;> cases hst
          · exact .inr rfl
          · exact .inl rfl
        · cases hst
    | _ => simp [step, hs] at hst
  · intro v t hs
    rw [hs] at hp
    obtain ⟨rfl, hroom⟩ := hp
    have hl := hi.live_iff s.sent.length h1 h2
    rw [← hi.tail_eq, hs] at hl
    simpa [Put.built] using hl
  · intro x hs
    rw [hs] at hg
    obtain ⟨rfl, hlt⟩ := hg
    have hl := hi.live_iff s.received.length (Nat.le_refl _) (by have := c.two_le_N; omega)
    rw [← hi.head_eq, hs] at hl
    rw [hl]
    simp only [Get.taken]; omega

/-- Two values are in a queue of four slots when the get returns the first of them. -/
theorem reachable_fifo_two :
    ∃ s : State Nat, (system four true).Reachable s ∧ s.sent = [5, 6] ∧ s.received = [5] ∧
      s.received <+: s.sent ∧ s.queued = 1 ∧ s.queued ≤ 3 := by
  have hr := Transition.System.Reachable.exec (f := step four true)
    (.init ⟨fun _ => 0, rfl⟩ : (system four true).Reachable (State.init fun _ => 0))
    [.putLoadTail 5, .getLoadHead true, .putLoadHead, .getLoadTail, .putConstruct, .putStoreTail, .putLoadTail 6,
      .putLoadHead, .putConstruct, .putStoreTail, .getLoadTail, .getMove, .getStoreHead] rfl
  exact ⟨_, hr, rfl, rfl, (reachable_fifo hr).1, rfl, (reachable_fifo hr).2.1⟩

end Spsc

/-! ## Many producers, one consumer -/

namespace Mpsc

variable {P T : Type} {c : Capacity} {s : State P T}

/-- What the gets returned is, in the order of the tickets, a prefix of what the puts brought; a put
constructs only into a cell whose value was taken, and the consumer takes only from a published one. -/
theorem reachable_ticketOrder [DecidableEq P] (h : (system c false).Reachable s) (hK : s.tickets.length < 2 ^ 63) :
    s.received <+: s.tickets ∧
      (∀ p v pos, s.put p = .construct v pos → s.live (pos &&& c.MASK) = false) ∧
      (s.get = .move → s.live (s.head &&& c.MASK) = true ∧ s.head ∈ s.accepted ∧
        s.seq (s.head &&& c.MASK) = s.head + 1) := by
  have hi := Inv.reachable h hK
  refine ⟨hi.isPrefix, ?_, ?_⟩
  · intro p v pos hs
    have hpend : (s.put p).pending = some (v, pos) := by rw [hs]; rfl
    have hna := (hi.pending p v pos hpend).2.1
    have hl := hi.live_iff pos (hi.freed_le hna) (hi.owner_lt p pos (by rw [hs]; rfl))
    rw [c.and_MASK]
    cases hlive : s.live (pos % c.N) with
    | false => rfl
    | true =>
        rcases hl.mp hlive with ⟨ha, _⟩ | ⟨q, w, hq⟩
        · exact absurd ha hna
        · have := hi.unique p q v w pos hpend (by rw [hq]; rfl)
          subst q
          rw [hs] at hq; cases hq
  · intro hs
    have hg : s.received.length ∈ s.accepted := by
      have := hi.get_ok
      rwa [hs] at this
    have hf : s.freed = s.received.length := by simp [State.freed, hs, Get.released]
    have hlt : s.received.length < s.freed + c.N := by have := c.two_le_N; omega
    rw [c.and_MASK, hi.head_eq]
    refine ⟨?_, hg, ?_⟩
    · rw [hi.live_iff _ (Nat.le_of_eq hf) hlt]
      exact .inl ⟨hg, by simp [hs, Get.taken]⟩
    · rw [hi.seq_eq _ (Nat.le_of_eq hf) hlt, if_pos hg]

/-- Two producers, of which the one with the later ticket publishes first. -/
theorem reachable_ticketOrder_two :
    ∃ s : State Bool Nat, (system two false).Reachable s ∧ s.tickets = [5, 6] ∧ s.received = [5] ∧
      s.received <+: s.tickets := by
  have hr := Transition.System.Reachable.exec (f := step two false)
    (.init ⟨fun _ => 0, rfl⟩ : (system two false).Reachable (State.init fun _ => 0))
    [.putFetchAdd true 5, .putFetchAdd false 6, .putLoad false, .putConstruct false, .putStoreSeq false,
      .getCall true, .getLoad, .putLoad true, .putConstruct true, .putStoreSeq true, .getLoad, .getMove,
      .getStoreSeq, .getAdvance] rfl
  exact ⟨_, hr, rfl, rfl, (reachable_ticketOrder hr (by decide)).1⟩

/-! ### Puts that fail on a full queue -/

/-- No put is in progress, and the consumer is not inside a get. -/
def State.Quiet (s : State P T) : Prop := (∀ p, s.put p = .idle) ∧ s.get = .idle

/-- More puts have returned true than values were returned. -/
def State.Undelivered (s : State P T) : Prop := s.received.length < s.accepted.length

instance (s : State P T) : Decidable s.Undelivered := inferInstanceAs (Decidable (_ < _))

/-- The ticket of the earliest successful put whose value was not returned: the values returned are
those of the first `received.length` tickets. -/
def State.Earliest (s : State P T) (k : Nat) : Prop :=
  k ∈ s.accepted ∧ s.received.length ≤ k ∧ ∀ j ∈ s.accepted, s.received.length ≤ j → k ≤ j

/-- With a value undelivered and no put in progress, either the put with ticket `head` succeeded, or it
was one that returned false. -/
theorem accepted_or_rejected (h : Inv c s) (hq : s.Quiet) (hu : s.Undelivered) :
    s.received.length ∈ s.accepted ∨ s.received.length ∈ s.rejected := by
  have hlt : s.received.length < s.tickets.length := by
    by_contra hge
    have hsub : s.accepted ⊆ List.range s.received.length := by
      intro k hk
      have := (h.accepted_lt k hk).1
      exact List.mem_range.mpr (by omega)
    have := (h.accepted_nodup.subperm hsub).length_le
    rw [List.length_range] at this
    exact absurd hu (by simp only [State.Undelivered]; omega)
  rcases h.settled _ hlt with ha | hr | ⟨p, v, hp⟩
  · exact .inl ha
  · exact .inr hr
  · rw [hq.1 p] at hp; cases hp

variable [DecidableEq P]

/-- A `get()` that runs alone returns `v`. -/
def NextGet (c : Capacity) (s : State P T) (v : T) : Prop :=
  ∃ s', Transition.exec (step c true) s
    [.getCall false, .getLoad, .getMove, .getStoreSeq, .getAdvance] = some (s', [.getReturns (some v)])

/-- The next get returns the value of the earliest undelivered successful put. -/
def Delivers (c : Capacity) (s : State P T) : Prop :=
  ∃ k v, s.Earliest k ∧ s.tickets[k]? = some v ∧ NextGet c s v

theorem nextGet_iff (h : Inv c s) (hK : s.tickets.length < 2 ^ 63) (hq : s.get = .idle) (v : T) :
    NextGet c s v ↔ s.received.length ∈ s.accepted ∧ s.tickets[s.received.length]? = some v := by
  have hf : s.freed = s.received.length := by simp [State.freed, hq, Get.released]
  have hd := h.diff_get hK (by rw [hq]; rfl)
  by_cases ha : s.received.length ∈ s.accepted
  · have hcell := h.cells _ ha (Nat.le_of_eq hf)
    have hnd : ¬ diff (s.seq (s.head % c.N)) ((s.head + 1) % 2 ^ 64) < 0 := fun hlt => hd.mp hlt ha
    simp only [NextGet, Transition.exec, step, hq, c.and_MASK, hnd, if_false]
    rw [h.head_eq, hcell]
    simp [ha]
  · have hlt := hd.mpr ha
    simp only [NextGet, Transition.exec, step, hq, c.and_MASK, hlt, if_true]
    simp [ha]

theorem delivers_iff (h : Inv c s) (hK : s.tickets.length < 2 ^ 63) (hq : s.Quiet)
    (hu : s.Undelivered) : Delivers c s ↔ s.received.length ∉ s.rejected := by
  constructor
  · rintro ⟨k, v, _, _, hn⟩ hr
    exact (h.rejected_lt _ hr).2 ((nextGet_iff h hK hq.2 v).mp hn).1
  · intro hr
    have ha := (accepted_or_rejected h hq hu).resolve_right hr
    obtain ⟨v, hv⟩ : ∃ v, s.tickets[s.received.length]? = some v :=
      ⟨_, List.getElem?_eq_getElem (h.accepted_lt _ ha).1⟩
    exact ⟨s.received.length, v, ⟨ha, Nat.le_refl _, fun j _ hj => hj⟩, hv,
      (nextGet_iff h hK hq.2 v).mpr ⟨ha, hv⟩⟩

/-- The step is not the load of a put that finds the queue full, which would return false. -/
def NotFull (c : Capacity) (s : State P T) (a : Act P T) : Prop :=
  ∀ p v pos, a = .putLoad p → s.put p = .load v pos → ¬ diff (s.seq (pos &&& c.MASK)) pos < 0

theorem rejected_nil (h : ((system c true).restrict (NotFull c)).Reachable s) : s.rejected = [] := by
  refine Transition.System.Invariant.reachable (P := fun s => s.rejected = []) ⟨?_, ?_⟩ h
  · rintro s ⟨data, rfl⟩
    rfl
  · rintro s a s' hr ⟨hnf, e, hst⟩
    cases a with
    | putLoad p =>
        cases hs : s.put p with
        | load v pos =>
            simp only [step, hs] at hst
            split at hst
            · cases hst; exact hr
            · rw [if_neg fun hd => hnf p v pos rfl hs hd.2] at hst
              cases hst; exact hr
        | _ => simp [step, hs] at hst
    | _ =>
        simp only [step] at hst
        repeat' split at hst
        all_goals cases hst
        all_goals exact hr

/-- With `FailOnFull`, the next get delivers the earliest undelivered put exactly when the put that took
the ticket `head` did not return false; so it does in every run in which no put finds the queue full. -/
theorem failOnFull_delivers_iff (c : Capacity) :
    (∀ s : State P T, (system c true).Reachable s → s.tickets.length < 2 ^ 63 → s.Quiet →
      s.Undelivered → (Delivers c s ↔ s.received.length ∉ s.rejected)) ∧
    ∀ s : State P T, ((system c true).restrict (NotFull c)).Reachable s →
      s.tickets.length < 2 ^ 63 → s.Quiet → s.Undelivered → Delivers c s := by
  refine ⟨fun s hs hK hq hu => delivers_iff (Inv.reachable hs hK) hK hq hu, ?_⟩
  intro s hs hK hq hu
  rw [delivers_iff (Inv.reachable hs.of_restrict hK) hK hq hu, rejected_nil hs]
  exact List.not_mem_nil

def putAlone (v : Nat) : List (Act Unit Nat) :=
  [.putFetchAdd () v, .putLoad (), .putConstruct (), .putStoreSeq ()]

def getAlone : List (Act Unit Nat) := [.getCall false, .getLoad, .getMove, .getStoreSeq, .getAdvance]

theorem failOnFull_delivers_iff_one :
    ∃ s : State Unit Nat, (system two true).Reachable s ∧ s.Quiet ∧ s.Undelivered ∧ Delivers two s := by
  have hr := Transition.System.Reachable.exec (f := step two true)
    (.init ⟨fun _ => 0, rfl⟩ : (system two true).Reachable (State.init fun _ => 0)) (putAlone 5) rfl
  refine ⟨_, hr, ⟨fun _ => rfl, rfl⟩, by decide, ?_⟩
  exact ((failOnFull_delivers_iff two).1 _ hr (by decide) ⟨fun _ => rfl, rfl⟩ (by decide)).mpr (by decide)

/-- Two puts fill a queue of two cells, a third returns false, two gets empty the queue, and a fourth
put returns true. The ticket of the third stays at `head` for good: the next get returns nothing. -/
theorem failOnFull_hole :
    ∃ s : State Unit Nat, (system two true).Reachable s ∧ s.tickets.length < 2 ^ 63 ∧ s.Quiet ∧
      s.Undelivered ∧ s.accepted = [0, 1, 3] ∧ s.tickets = [1, 2, 3, 4] ∧ s.received = [1, 2] ∧
      (∃ s', Transition.exec (step two true) s [.getCall false, .getLoad] =
        some (s', [.getReturns none])) ∧
      ¬ Delivers two s := by
  have hr := Transition.System.Reachable.exec (f := step two true)
    (.init ⟨fun _ => 0, rfl⟩ : (system two true).Reachable (State.init fun _ => 0))
    (putAlone 1 ++ putAlone 2 ++ [.putFetchAdd () 3, .putLoad ()] ++ getAlone ++ getAlone ++ putAlone 4)
    rfl
  refine ⟨_, hr, by decide, ⟨fun _ => rfl, rfl⟩, by decide, rfl, rfl, rfl, ⟨_, rfl⟩, ?_⟩
  intro hd
  exact (delivers_iff (Inv.reachable hr (by decide)) (by decide) ⟨fun _ => rfl, rfl⟩ (by decide)).mp hd
    (by decide)

end Mpsc

end Dwhbll.Concurrency
