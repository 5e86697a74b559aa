import Dwhbll.Ring.Lemmas.Invariant
import Mathlib.Algebra.Group.Int.Defs
import Mathlib.Algebra.Group.Nat.Defs

/-!
# `async_semaphore` of `concurrency/coroutine/async_semaphore.cpp`

The semaphore on one reactor. A `co_await` of `acquire()` asks `await_ready`; if that says no, the coroutine
is suspended and `await_suspend` runs. Nothing else runs between the two. Each `co_await` has an awaitable of
its own, which is named here by a number, its ticket.
-/

namespace Dwhbll.Concurrency.Coroutine

open Collections

/-- What `waiting` keeps of a suspended acquirer: its awaitable, with the handle of its coroutine. -/
abbrev Ticket := Nat

structure AsyncSemaphore where
  permits : Int
  waiting : Collections.Ring Ticket := Collections.Ring.new 16
  deriving DecidableEq, Repr

namespace AsyncSemaphore

def awaitReady (s : AsyncSemaphore) : Bool := s.permits > 0

/-- The semaphore, and what is given to `reactor::enqueue`. -/
def awaitSuspend (mem : Nat → Ticket) (h : Ticket) (s : AsyncSemaphore) : AsyncSemaphore × List Ticket :=
  let (s, enqueued) := if s.permits > 0 then ({ s with permits := s.permits - 1 }, [h]) else (s, [])
  ({ s with waiting := s.waiting.pushBack mem h }, enqueued)

/-- `release()`, which has no meaning where `permits_++` overflows. -/
def release (s : AsyncSemaphore) : Option (AsyncSemaphore × List Ticket) :=
  if s.permits + 1 < 2 ^ 31 then
    let s := { s with permits := s.permits + 1 }
    if s.waiting.sz = 0 then some (s, [])
    else
      match s.waiting.data[s.waiting.head]? with
      | none => none
      | some front => some ({ s with waiting := s.waiting.popFront.2 }, [front])
  else none

/-! ## Coroutines on one reactor -/

/-- The semaphore, the acquirers that the reactor is to resume (with whether they were cancelled), and what
has happened: the acquirers that are past `acquire` and have not released, all that were ever enqueued, and the
number of those that have called `acquire`. -/
structure World where
  sem : AsyncSemaphore
  ready : List (Ticket × Bool) := []
  holders : List Ticket := []
  enqueued : List Ticket := []
  calls : Nat := 0
  deriving DecidableEq, Repr

/-- What a coroutine does next. `cancelled` is that of the job it belongs to, `mem` what stands behind the
storage of `waiting`. -/
inductive Action where
  | acquire (mem : Nat → Ticket) (cancelled : Bool)
  | resume (t : Ticket) (cancelled : Bool)
  | release (t : Ticket) (cancelled : Bool)

def Action.isAcquire : Action → Bool
  | .acquire .. => true
  | .resume .. => false
  | .release .. => false

/-- `reactor::enqueue` of each. -/
def World.enqueue (cancelled : Bool) (ts : List Ticket) (w : World) : World :=
  { w with ready := w.ready ++ ts.map (·, cancelled), enqueued := w.enqueued ++ ts }

def step (w : World) : Action → Option World
  | .acquire mem cancelled =>
      if w.sem.awaitReady then
        -- A new awaitable is not cancelled: `await_resume` returns.
        some { w with holders := w.holders ++ [w.calls], calls := w.calls + 1 }
      else
        let (sem, enqueued) := w.sem.awaitSuspend mem w.calls
        some (({ w with sem := sem, calls := w.calls + 1 }).enqueue cancelled enqueued)
  | .resume t cancelled =>
      if (t, cancelled) ∈ w.ready then
        -- `await_resume` throws if the awaitable was cancelled.
        some { w with ready := w.ready.erase (t, cancelled)
                      holders := if cancelled then w.holders else w.holders ++ [t] }
      else none
  | .release t cancelled =>
      if t ∈ w.holders then
        match w.sem.release with
        | none => none
        | some (sem, enqueued) =>
            some (({ w with sem := sem, holders := w.holders.erase t }).enqueue cancelled enqueued)
      else none

def World.init (p : Nat) : World := { sem := { permits := p } }

def system (p : Nat) : Transition.System World Action := .ofOption (World.init p) step

/-! ## What a semaphore is for -/

/-- With `p` permits: no more than `p` acquirers are past `acquire`, the permits that are left are the others
while nobody waits, and nobody is enqueued twice. -/
structure Fair (p : Nat) (w : World) : Prop where
  bounded : w.holders.length ≤ p
  balanced : w.sem.waiting.sz = 0 → w.ready = [] → w.sem.permits + w.holders.length = p
  once : w.enqueued.Nodup

/-! ## What it does -/

variable {p : Nat} {w w' : World} {a : Action}

theorem enqueue_nil (cancelled : Bool) (w : World) : w.enqueue cancelled [] = w := by
  simp [World.enqueue]

/-- While nobody waits, `release` only counts. -/
theorem release_of_none_waiting {s s' : AsyncSemaphore} {ts : List Ticket} (h0 : s.waiting.sz = 0)
    (h : s.release = some (s', ts)) : s' = { s with permits := s.permits + 1 } ∧ ts = [] := by
  unfold release at h
  split at h
  · simp only [h0, if_true] at h
    cases h
    exact ⟨rfl, rfl⟩
  · cases h

theorem awaitSuspend_of_no_permit {s : AsyncSemaphore} (h : s.awaitReady = false) (mem : Nat → Ticket)
    (t : Ticket) : s.awaitSuspend mem t = ({ s with waiting := s.waiting.pushBack mem t }, []) := by
  have hle : ¬ s.permits > 0 := by simpa [awaitReady] using h
  simp only [awaitSuspend, if_neg hle]

/-- With a permit at the start, nobody ever waits, and what is counted is what was released. -/
structure Unlimited (p : Nat) (w : World) : Prop where
  no_waiting : w.sem.waiting.sz = 0
  no_ready : w.ready = []
  no_enqueued : w.enqueued = []
  counted : w.sem.permits + w.holders.length = p + w.calls
  enough : p ≤ w.sem.permits

theorem Unlimited.step (hp : p ≠ 0) (h : Unlimited p w) (hs : step w a = some w') : Unlimited p w' := by
  have hc := h.counted
  have he := h.enough
  cases a with
  | acquire mem cancelled =>
      have hready : w.sem.awaitReady = true := by
        simp only [awaitReady, decide_eq_true_eq]
        omega
      simp only [AsyncSemaphore.step, hready, if_true] at hs
      cases hs
      refine { h with counted := ?_ }
      simp only [List.length_append, List.length_singleton]
      omega
  | resume t cancelled =>
      simp only [AsyncSemaphore.step, h.no_ready, List.not_mem_nil, if_false] at hs
      cases hs
  | release t cancelled =>
      simp only [AsyncSemaphore.step] at hs
      split at hs
      · rename_i hmem
        split at hs
        · cases hs
        · rename_i sem ts hrel
          obtain ⟨rfl, rfl⟩ := release_of_none_waiting h.no_waiting hrel
          rw [enqueue_nil] at hs
          cases hs
          have hlen := List.length_erase_of_mem hmem
          have hpos := List.length_pos_of_mem hmem
          refine { h with counted := ?_, enough := ?_ }
          · simp only [hlen]
            omega
          · simp only
            omega
      · cases hs

theorem reachable_unlimited (hp : p ≠ 0) (h : (system p).Reachable w) : Unlimited p w := by
  have h0 : Unlimited p (World.init p) := ⟨rfl, rfl, rfl, by simp [World.init], by simp [World.init]⟩
  exact (Transition.System.Invariant.ofOption h0 fun _ _ _ hw hs => hw.step hp hs).reachable h

/-- Without a permit at the start nobody is ever past `acquire`. -/
structure Blocked (w : World) : Prop where
  no_permit : w.sem.permits = 0
  no_ready : w.ready = []
  no_holders : w.holders = []
  no_enqueued : w.enqueued = []

theorem Blocked.step (h : Blocked w) (hs : step w a = some w') : Blocked w' := by
  cases a with
  | acquire mem cancelled =>
      have hready : w.sem.awaitReady = false := by simp [awaitReady, h.no_permit]
      simp only [AsyncSemaphore.step, hready, awaitSuspend_of_no_permit hready, enqueue_nil] at hs
      cases hs
      exact { h with }
  | resume t cancelled =>
      simp only [AsyncSemaphore.step, h.no_ready, List.not_mem_nil, if_false] at hs
      cases hs
  | release t cancelled =>
      simp only [AsyncSemaphore.step, h.no_holders, List.not_mem_nil, if_false] at hs
      cases hs

theorem reachable_blocked (h : (system 0).Reachable w) : Blocked w :=
  (Transition.System.Invariant.ofOption ⟨rfl, rfl, rfl, rfl⟩ fun _ _ _ hw hs => hw.step hs).reachable h

theorem step_calls (hs : step w a = some w') : w'.calls = w.calls + if a.isAcquire then 1 else 0 := by
  cases a with
  | acquire mem cancelled =>
      simp only [step] at hs
      split at hs
      · cases hs; rfl
      · cases hs; rfl
  | resume t cancelled =>
      simp only [step] at hs
      split at hs
      · cases hs; rfl
      · cases hs
  | release t cancelled =>
      simp only [step] at hs
      split at hs
      · split at hs
        · cases hs
        · cases hs; rfl
      · cases hs

theorem run_calls {as : List Action} (h : as.foldlM step w = some w') :
    w'.calls = w.calls + as.countP (·.isAcquire) := by
  induction as generalizing w with
  | nil => cases h; rfl
  | cons a as ih =>
      rw [List.foldlM_cons] at h
      obtain ⟨t, ht, h'⟩ := Option.bind_eq_some_iff.mp h
      rw [ih h', step_calls ht, List.countP_cons]
      omega

/-- In a run the semaphore does what it is for if and only if it has no permit to give or is not asked for
one. -/
theorem run_fair_iff (p : Nat) (as : List Action) (hrun : (as.foldlM step (World.init p)).isSome) :
    (∀ bs w, bs <+: as → bs.foldlM step (World.init p) = some w → Fair p w) ↔
      p = 0 ∨ ∀ a ∈ as, a.isAcquire = false := by
  have hstart : (system p).Reachable (World.init p) := .init rfl
  constructor
  · intro hall
    by_cases hp : p = 0
    · exact .inl hp
    right
    obtain ⟨w, hw⟩ := Option.isSome_iff_exists.mp hrun
    have hu := reachable_unlimited hp (hstart.foldlM hw)
    have hbal := (hall as w (List.prefix_refl _) hw).balanced hu.no_waiting hu.no_ready
    have hcounted := hu.counted
    have hcalls := run_calls hw
    have hzero : as.countP (·.isAcquire) = 0 := by
      have : (World.init p).calls = 0 := rfl
      omega
    simpa using List.countP_eq_zero.mp hzero
  · rintro (rfl | hno) bs w hbs hw
    · have hb := reachable_blocked (hstart.foldlM hw)
      exact ⟨by simp [hb.no_holders], fun _ _ => by simp [hb.no_permit, hb.no_holders], by simp [hb.no_enqueued]⟩
    · -- Nothing but an `acquire` can be the first step of a run.
      cases bs with
      | nil =>
          cases hw
          exact ⟨Nat.zero_le _, fun _ _ => by simp [World.init], List.nodup_nil⟩
      | cons b bs =>
          have hb := hno b (hbs.subset List.mem_cons_self)
          rw [List.foldlM_cons] at hw
          obtain ⟨t, ht, -⟩ := Option.bind_eq_some_iff.mp hw
          cases b with
          | acquire => cases hb
          | resume => cases ht
          | release => cases ht

/-- One waits for a permit that nobody has. -/
theorem run_fair_iff_blocked : ∃ w, [Action.acquire (fun _ => 0) false].foldlM step (World.init 0) = some w ∧
    Fair 0 w :=
  ⟨_, rfl, (run_fair_iff 0 [.acquire (fun _ => 0) false] rfl).mpr (.inl rfl) _ _ (List.prefix_refl _) rfl⟩

/-- With one permit, two are past `acquire` and the permit is still there. -/
theorem two_holders :
    ∃ w, [Action.acquire (fun _ => 0) false, .acquire (fun _ => 0) false].foldlM step (World.init 1) = some w ∧
      w.holders = [0, 1] ∧ w.sem.permits = 1 ∧ w.sem.waiting.sz = 0 ∧ ¬ Fair 1 w := by
  refine ⟨_, rfl, rfl, rfl, rfl, fun h => ?_⟩
  exact absurd h.bounded (by decide)

end AsyncSemaphore

end Dwhbll.Concurrency.Coroutine
