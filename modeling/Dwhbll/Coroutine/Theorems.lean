import Dwhbll.Coroutine.Lemmas.Reactor

/-!
# The reactor loses no job and returns none twice
-/

namespace Dwhbll.Concurrency.Coroutine.Reactor

open Transition

variable {r r' : Reactor} {a : Action} {i j d : Nat}

/-- What holds between any two things the reactor does. -/
structure Inv (r : Reactor) : Prop where
  forest : Forest ∅ ∅ r
  busy : Busy ∅ r
  spawning : ∀ j ∈ r.spawning, j ∈ r.jobs
  resumed : ∀ d, r.resumed = some d → d ∈ r.pending

theorem Inv.init : Inv {} where
  forest :=
    { ending := by simp
      parent := by simp
      child := by simp
      pending := by simp
      completion := by simp
      inflight := rfl
      balance := by simp
      offered := by simp
      ranked := ⟨id, by simp⟩ }
  busy := by simp [Busy]
  spawning := by simp
  resumed := by simp

/-- `Forest` says nothing of what the reactor is at. -/
theorem Forest.reframe {Z D : Finset Nat} {spawning : List Nat} {resumed : Option Nat} (h : Forest Z D r) :
    Forest Z D { r with spawning := spawning, resumed := resumed } :=
  ⟨h.ending, h.parent, h.child, h.pending, h.completion, h.inflight, h.balance, h.offered, h.ranked⟩

theorem Inv.currentJob (h : Inv r) (hj : r.currentJob = some j) : j ∈ r.jobs := by
  unfold Reactor.currentJob at hj
  split at hj
  · next k rest heq =>
      cases hj
      exact h.spawning j (by rw [heq]; exact List.mem_cons_self)
  · obtain ⟨d, hd, rfl⟩ := Option.map_eq_some_iff.mp hj
    exact (h.forest.pending d (h.resumed d hd) (Finset.notMem_empty d)).1

theorem Inv.parentOfNew (h : Inv r) (atRoot : Bool) (p : Nat)
    (hp : (if atRoot then none else r.currentJob) = some p) : p ∈ r.jobs := by
  cases atRoot with
  | true => cases hp
  | false => exact h.currentJob hp

theorem Inv.resume (h : Inv r) (hd : d ∈ r.pending) : Inv { r with resumed := some d } where
  forest := h.forest.reframe
  busy := h.busy
  spawning := h.spawning
  resumed := by
    intro e he
    cases he
    exact hd

theorem Inv.spawn {cur : Option Nat} (h : Inv r) (hcur : ∀ p, cur = some p → p ∈ r.jobs) (hj : j ∉ r.jobs)
    (hb : Begun cur j r r') : Inv { r' with spawning := j :: r'.spawning } where
  forest := (h.forest.begun hcur hj hb).reframe
  busy := by
    rw [hb.spawning]
    exact h.busy.begun hb
  spawning := by
    intro i hi
    rw [hb.spawning] at hi
    show i ∈ r'.jobs
    rw [hb.jobs]
    rcases List.mem_cons.mp hi with rfl | hi
    · exact Finset.mem_insert_self i r.jobs
    · exact Finset.mem_insert_of_mem (h.spawning i hi)
  resumed := by
    intro e he
    show e ∈ r'.pending
    rw [hb.pending]
    exact h.resumed e (hb.resumed ▸ he)

theorem Inv.beginData (h : Inv r) (hj : j ∈ r.jobs) (hd : d ∉ r.pending) :
    Inv ((r.acquireData j d).insertCompletion j d) where
  forest := h.forest.beginData hj hd
  busy := h.busy.beginData
  spawning := h.spawning
  resumed e he := Finset.mem_insert_of_mem (h.resumed e he)

theorem Inv.endSpawn {rest : List Nat} (h : Inv r) (hsp : r.spawning = j :: rest)
    (hc : (r.job j).completions ≠ ∅) : Inv { r with spawning := rest } where
  forest := h.forest.reframe
  busy := by
    intro i hi hZ hrest
    by_cases hij : i = j
    · rw [Bool.eq_false_iff]
      intro hdone
      exact hc (hij ▸ (Job.isDone_iff.mp hdone).1)
    · refine h.busy i hi hZ ?_
      rw [hsp, List.mem_cons, not_or]
      exact ⟨hij, hrest⟩
  spawning i hi := h.spawning i (by rw [hsp]; exact List.mem_cons_of_mem j hi)
  resumed := h.resumed

/-- The completion that was resumed can always be ended. -/
theorem Inv.endResume (h : Inv r) (hd : r.resumed = some d) (hsp : r.spawning = []) :
    ∃ r', r.step .endResume = some r' ∧ Inv r' := by
  have hforest : Forest ∅ ∅ { r with resumed := none } := h.forest.reframe
  have hbusy : Busy ∅ { r with resumed := none } := h.busy
  obtain ⟨r', hrun, hforest', hbusy', hsp', hres'⟩ := userDataLifetimeEnd_spec hforest hbusy (h.resumed d hd)
  refine ⟨r', ?_, hforest', hbusy', ?_, ?_⟩
  · simp only [step, hd, hsp]
    rw [← hrun, hsp]
  · intro i hi
    rw [hsp', hsp] at hi
    cases hi
  · intro e he
    rw [hres'] at he
    cases he

theorem Inv.step (h : Inv r) (hs : r.step a = some r') : Inv r' := by
  cases a with
  | resume d =>
      simp only [Reactor.step] at hs
      split at hs
      · next hguard =>
          cases hs
          exact h.resume hguard.2.2
      · cases hs
  | spawn atRoot j =>
      simp only [Reactor.step] at hs
      split at hs
      · cases hs
      · next hj =>
          have hcur := h.parentOfNew atRoot
          obtain ⟨t, hrun, hb⟩ := jobLifetimeBegin_spec hcur hj
          rw [hrun] at hs
          cases hs
          exact h.spawn hcur hj hb
  | begin d =>
      simp only [Reactor.step] at hs
      split at hs
      · cases hs
      · next hd =>
          unfold userDataLifetimeBegin at hs
          split at hs
          · cases hs
          · split at hs
            · next j _ hj =>
                cases hs
                exact h.beginData hj hd
            · cases hs
  | endSpawn =>
      simp only [Reactor.step] at hs
      split at hs
      · cases hs
      · next j rest hsp =>
          split at hs
          · cases hs
          · next hc =>
              cases hs
              exact h.endSpawn hsp hc
  | endResume =>
      cases hd : r.resumed with
      | none => simp only [Reactor.step, hd, reduceCtorEq] at hs
      | some d =>
          cases hsp : r.spawning with
          | cons j rest => simp only [Reactor.step, hd, hsp, reduceCtorEq] at hs
          | nil =>
              obtain ⟨t, hrun, hinv⟩ := h.endResume hd hsp
              rw [hrun] at hs
              cases hs
              exact hinv

theorem inv_of_reachable (h : system.Reachable r) : Inv r :=
  (System.Invariant.ofOption Inv.init fun _ _ _ hinv hs => hinv.step hs).reachable h

/-! ## What the bookkeeping is for -/

/-- Every job that is out is held by what it waits for and by its parent, every job goes back once and when it
waits for nothing, and the counter counts the jobs. Between the begin of a job and that of its first completion
`spawning` is not empty. -/
structure Accounted (r : Reactor) : Prop where
  parent : ∀ j ∈ r.jobs, ∀ p, (r.job j).parent = some p → p ∈ r.jobs ∧ j ∈ (r.job p).children
  pending : ∀ d ∈ r.pending, r.parent d ∈ r.jobs ∧ d ∈ (r.job (r.parent d)).completions
  once : ∀ j, r.acquired.count j = (r.offered.map Prod.fst).count j + if j ∈ r.jobs then 1 else 0
  done : ∀ o ∈ r.offered, o.2.completions = ∅ ∧ o.2.children = ∅
  inflight : r.inflightJobs = r.jobs.card
  quiet : r.spawning = [] → r.pending = ∅ → r.jobs = ∅ ∧ r.inflightJobs = 0

/-- The youngest job that is out has no child, so it waits for a completion. -/
theorem Inv.exists_pending (h : Inv r) (hsp : r.spawning = []) (hjobs : r.jobs.Nonempty) : r.pending.Nonempty := by
  obtain ⟨rank, hrank⟩ := h.forest.ranked
  obtain ⟨j, hj, hmax⟩ := Finset.exists_max_image r.jobs rank hjobs
  have hchildren : (r.job j).children = ∅ := by
    refine Finset.eq_empty_of_forall_notMem fun k hk => ?_
    obtain ⟨hlive, -, hpar⟩ := h.forest.child j hj k hk
    exact absurd (hrank k hlive j hpar) (Nat.not_lt.mpr (hmax k hlive))
  have hbusy := h.busy j hj (Finset.notMem_empty j) (by rw [hsp]; exact List.not_mem_nil)
  rcases Finset.eq_empty_or_nonempty (r.job j).completions with hc | ⟨d, hd⟩
  · rw [Job.isDone_iff.mpr ⟨hc, hchildren⟩] at hbusy
    cases hbusy
  · exact ⟨d, (h.forest.completion j hj d hd).1⟩

theorem Inv.accounted (h : Inv r) : Accounted r where
  parent j hj := h.forest.parent j hj (Finset.notMem_empty j)
  pending d hd := h.forest.pending d hd (Finset.notMem_empty d)
  once := h.forest.balance
  done := h.forest.offered
  inflight := h.forest.inflight
  quiet := by
    intro hsp hpending
    have hjobs : r.jobs = ∅ := by
      rcases Finset.eq_empty_or_nonempty r.jobs with hempty | hne
      · exact hempty
      · obtain ⟨d, hd⟩ := h.exists_pending hsp hne
        rw [hpending] at hd
        cases hd
    refine ⟨hjobs, ?_⟩
    rw [h.forest.inflight, hjobs]
    rfl

/-- Nothing that can happen touches a job that `job_pool` has back, and `job_lifetime_end` comes to an end. -/
theorem Inv.exists_step (h : Inv r) (ha : r.Enabled a) : ∃ r', r.step a = some r' := by
  cases a with
  | resume d => exact ⟨_, if_pos ha⟩
  | spawn atRoot j =>
      obtain ⟨t, hrun, -⟩ := jobLifetimeBegin_spec (h.parentOfNew atRoot) ha
      refine ⟨{ t with spawning := j :: t.spawning }, ?_⟩
      simp only [Reactor.step, if_neg ha, hrun]
  | begin d =>
      obtain ⟨hd, hcur⟩ := ha
      obtain ⟨j, hj⟩ := Option.ne_none_iff_exists'.mp hcur
      refine ⟨(r.acquireData j d).insertCompletion j d, ?_⟩
      simp only [Reactor.step, if_neg hd, userDataLifetimeBegin, hj, if_pos (h.currentJob hj)]
  | endSpawn =>
      obtain ⟨j, rest, hsp, hc⟩ := ha
      refine ⟨{ r with spawning := rest }, ?_⟩
      simp only [Reactor.step, hsp, if_neg hc]
  | endResume =>
      obtain ⟨hres, hsp⟩ := ha
      obtain ⟨d, hd⟩ := Option.ne_none_iff_exists'.mp hres
      obtain ⟨r', hrun, -⟩ := h.endResume hd hsp
      exact ⟨r', hrun⟩

/-- In every run the jobs are accounted for, and what can happen next can be done. -/
theorem accounted_of_reachable (h : system.Reachable r) :
    Accounted r ∧ ∀ a, r.Enabled a → ∃ r', r.step a = some r' := by
  have hinv := inv_of_reachable h
  exact ⟨hinv.accounted, fun a ha => hinv.exists_step ha⟩

/-- Job 1 spawns job 2 and ends its own completion first, so both jobs end with the completion of the child. -/
theorem accounted_of_spawned_child : ∃ r, List.foldlM Reactor.step {}
    [.spawn false 1, .begin 10, .spawn false 2, .begin 20, .endSpawn, .endSpawn, .resume 10, .endResume,
      .resume 20, .endResume] = some r ∧ r.offered.map Prod.fst = [1, 2] ∧ r.jobs = ∅ ∧ Accounted r := by
  have hrun : (List.foldlM Reactor.step {}
      [.spawn false 1, .begin 10, .spawn false 2, .begin 20, .endSpawn, .endSpawn, .resume 10, .endResume,
        .resume 20, .endResume]).map (fun r => (r.offered.map Prod.fst, r.jobs)) = some ([1, 2], ∅) := rfl
  obtain ⟨r, hr, heq⟩ := Option.map_eq_some_iff.mp hrun
  obtain ⟨hoffered, hjobs⟩ := Prod.mk.inj heq
  exact ⟨r, hr, hoffered, hjobs, (accounted_of_reachable (.foldlM (.init rfl) hr)).1⟩

end Dwhbll.Concurrency.Coroutine.Reactor
