import Dwhbll.Coroutine.Lemmas.Steps

/-!
# What becomes of the tasks that a reactor runs

Each task comes to what its body comes to in direct style, and no frame is lost or used after its end.
-/

namespace Dwhbll.Concurrency.Coroutine.Tasks

open Bodies Transition

variable {β ω ε κ : Type} {P : Program β ω ε κ} {s s' : State β ω ε κ} {d : Data} {env : Env ω} {job : Nat}
  {point : Point β ω ε κ} {value : Option (Except ε ω)} {continuation : Option Nat} {a : Act β ω}

/-- The program has ended: by an exception that a job's root has let out, or by one that left an `await_resume` that is
noexcept in a cancelled job. -/
def Failed (P : Program β ω ε κ) (s : State β ω ε κ) : Prop :=
  s.running = none ∧
    ((s.fault = some .terminate ∧ ∃ j, s.cancelled j = true) ∨
      ∃ j root e, s.fault = some (.uncaught e) ∧ s.roots[j]? = some root ∧ e ≠ P.cancellation ∧
        Evaluates P.toLanguage (s.cancelled j = true) root (trace j s.answers) (.error e))

/-- The rest of a body. -/
theorem body_core (hs : Core P s) (hrun : s.running = some d) {b : β}
    (hd : s.heap d.handle = some (.task job (.body b) value continuation))
    (h : runTask P env d job value continuation s (.body b) = some s') : s'.fault = s.fault ∧ Core P s' := by
  obtain ⟨promise, T, fs, root, hr⟩ := hs.running d hrun
  obtain ⟨rfl, rfl, q, ks, fs₁, rfl, rfl, rfl, hcallers⟩ := hr.stands.of_body hd
  simp only [runTask] at h
  cases hnext : P.next b with
  | ret o =>
      simp only [hnext, Option.some.injEq] at h
      subst h
      exact ⟨by rw [enqueue_finalize (s := s.set ..) (Function.update_self ..)]; rfl,
        hs.ret hrun hr hcallers (by simpa using hr.way.step (.ret hnext))⟩
  | call c k =>
      simp only [hnext] at h
      split at h
      · rename_i hfree
        cases h
        have hne : env.first ≠ d.handle := List.ne_of_not_mem_cons (hr.ne_of_free hfree)
        exact ⟨by rw [enqueue_awaiting hne],
          hs.call hrun hr hcallers hfree (by simpa using hr.way.step (.call hnext))⟩
      · cases h
  | ask x k =>
      have hasking := hr.way.step (.ask hnext)
      rw [List.append_nil] at hasking
      simp only [hnext] at h
      split at h
      · rename_i v hreply
        cases h
        refine ⟨rfl, hs.body _ hrun hr hcallers ?_ fun i hi => trace_concat_of_ne hi.symm⟩
        rw [trace_concat]
        exact hasking.step (.answer (.inl rfl))
      · rename_i soon checked hreply
        have hflag : (checked && s.cancelled d.parent) = true → s.cancelled d.parent = true := fun h =>
          (Bool.and_eq_true_iff.mp h).2
        split at h
        · cases h
          refine ⟨rfl, hs.asking hrun hr hcallers hflag hasking ?_⟩
          exact (List.perm_append_comm.append_right _).trans (List.Perm.refl _)
        · cases h
          refine ⟨rfl, hs.asking hrun hr hcallers hflag hasking ?_⟩
          exact (List.append_assoc ..).symm ▸ List.perm_append_comm
  | spawn c k =>
      simp only [hnext] at h
      split at h
      · rename_i hfree
        cases h
        have hs₁ := hs.spawn (c := c) hfree.1 hfree.2.1 hfree.2.2
        have hd₁ : (s.spawn c env.first env.second).heap d.handle = some (.task d.parent (.body b) none (some q)) := by
          rw [spawn_eq]
          have hfirst : d.handle ≠ env.first := (List.ne_of_not_mem_cons (hr.ne_of_free hfree.1)).symm
          have hsecond : d.handle ≠ env.second := (List.ne_of_not_mem_cons (hr.ne_of_free hfree.2.1)).symm
          exact (Function.update_of_ne hsecond ..).trans ((Function.update_of_ne hfirst ..).trans hd)
        have hrun₁ : (s.spawn c env.first env.second).running = some d := by
          rw [spawn_eq]
          exact hrun
        obtain ⟨promise₁, T₁, fs₂, root₁, hr₁⟩ := hs₁.running d hrun₁
        obtain ⟨-, -, q₁, ks₁, fs₃, hq, rfl, rfl, hcallers₁⟩ := hr₁.stands.of_body hd₁
        cases hq
        refine ⟨by rw [spawn_eq]; rfl, ?_⟩
        have hbody := hs₁.body (s.spawn c env.first env.second).answers hrun₁ hr₁ hcallers₁
          (by simpa using hr₁.way.step (.spawn hnext)) fun _ _ => rfl
        exact hbody
      · cases h

/-- The answer to a question, or an exception in its place. -/
theorem asking_core (hs : Core P s) (hrun : s.running = some d) {x : κ} {flag : Bool} {k : Except ε ω → β}
    (hd : s.heap d.handle = some (.task job (.asking x flag k) value continuation))
    (h : runTask P env d job value continuation s (.asking x flag k) = some s') :
    s'.fault = s.fault ∧ Core P s' ∨ Failed P s' := by
  obtain ⟨promise, T, fs, root, hr⟩ := hs.running d hrun
  obtain ⟨rfl, rfl, hflag, q, ks, fs₁, rfl, rfl, rfl, hcallers⟩ := hr.stands.of_asking hd
  have hgoes : ∀ r, P.Seen (s.cancelled d.parent = true) (.ok env.value) r →
      Core P ((s.set d.handle (.task d.parent (.body (k r)) none (some q))).answer d.parent x r) := by
    intro r hr'
    refine hs.body _ hrun hr hcallers ?_ fun i hi => trace_concat_of_ne hi.symm
    rw [trace_concat]
    exact hr.way.step (.answer hr')
  simp only [runTask] at h
  cases flag with
  | false =>
      simp only [Bool.false_eq_true, if_false] at h
      cases h
      exact .inl ⟨rfl, hgoes _ (.inl rfl)⟩
  | true =>
      simp only [if_true] at h
      split at h
      · cases h
        exact .inr ⟨rfl, .inl ⟨rfl, d.parent, hflag rfl⟩⟩
      · cases h
        exact .inl ⟨rfl, hgoes _ (.inr ⟨hflag rfl, rfl⟩)⟩

/-- The outcome of a task that was awaited. -/
theorem awaiting_core (hs : Core P s) (hrun : s.running = some d) {child : Nat} {flag : Bool} {k : Except ε ω → β}
    (hd : s.heap d.handle = some (.task job (.awaiting child flag k) value continuation))
    (h : runTask P env d job value continuation s (.awaiting child flag k) = some s') :
    s'.fault = s.fault ∧ Core P s' := by
  obtain ⟨promise, T, fs, root, hr⟩ := hs.running d hrun
  obtain ⟨rfl, rfl, hflag, o, q, ks, fs₁, rfl, hchild, rfl, rfl, hcallers⟩ := hr.stands.of_awaiting hd
  have hgoes : ∀ r, P.Seen (s.cancelled d.parent = true) o r →
      Core P ((s.destroy child).set d.handle (.task d.parent (.body (k r)) none (some q))) := by
    intro r hr'
    exact hs.resumed hrun hr hcallers (by simpa using hr.way.step (.resume hr'))
  simp only [runTask, hchild] at h
  cases flag with
  | false =>
      simp only [Bool.false_eq_true, if_false] at h
      cases h
      exact ⟨rfl, hgoes o (.inl rfl)⟩
  | true =>
      simp only [if_true] at h
      cases h
      exact ⟨rfl, hgoes _ (.inr ⟨hflag rfl, rfl⟩)⟩

theorem Core.init : Core P ({} : State β ω ε κ) where
  parents := List.nodup_nil
  running _ hd := by cases hd
  queued _ hd := by cases hd
  owned _ _ hf := by cases hf
  ended _ _ hr := by cases hr
  once := List.nodup_nil
  settled _ hr := by cases hr
  fresh _ _ := rfl

/-- What the reactor does with its queues. -/
theorem Core.queues {running : Option Data} {ready waiting : List Data} (hs : Core P s)
    (hperm : (running.toList ++ ready ++ waiting).Perm s.pending)
    (hnew : ∀ d ∈ running.toList ++ ready ++ waiting, d ∈ s.ready ++ s.waiting) :
    Core P { s with running := running, ready := ready, waiting := waiting } := by
  have halive : ∀ {j h promise}, Alive P s j h promise →
      Alive P { s with running := running, ready := ready, waiting := waiting } j h promise :=
    fun h => h.other (fun _ _ _ => Iff.rfl) id (fun _ => id) rfl
  have hmove : ∀ {i}, (∃ d ∈ s.pending, d.parent = i) →
      ∃ d ∈ running.toList ++ ready ++ waiting, d.parent = i := fun ⟨d, hd, hi⟩ => ⟨d, hperm.mem_iff.mpr hd, hi⟩
  refine ⟨(hperm.map _).nodup_iff.mpr hs.parents, fun d hd => ⟨d.promise, ?_⟩, fun d hd => ?_, fun a f hf => ?_,
    fun i root hroot => ?_, hs.once, fun r hr => ?_, hs.fresh⟩
  · refine halive (hs.queued d (hnew d ?_))
    rw [List.append_assoc]
    exact List.mem_append_left _ (Option.mem_toList.mpr hd)
  · refine halive (hs.queued d (hnew d ?_))
    rw [List.append_assoc]
    exact List.mem_append_right _ hd
  · exact hmove (hs.owned a f hf)
  · exact (hs.ended i root hroot).imp hmove fun h => h.other (fun _ => id) id rfl
  · exact ⟨(hs.settled r hr).1, fun d hd => (hs.settled r hr).2 d (hperm.mem_iff.mp hd)⟩

variable [DecidableEq ε]

/-- The end of a job. -/
theorem wake_core (hs : Core P s) (hrun : s.running = some d) {child : Nat} {flag : Bool}
    (hd : s.heap d.handle = some (.detached job child flag)) :
    (wake P d.handle child flag job s).fault = s.fault ∧ Core P (wake P d.handle child flag job s) ∨
      Failed P (wake P d.handle child flag job s) := by
  obtain ⟨promise, T, fs, root, hr⟩ := hs.running d hrun
  obtain ⟨rfl, hflag, o, hchild, rfl, rfl⟩ := hr.stands.of_detached hd
  have hended := hr.way.finish
  simp only [wake, hchild]
  cases flag with
  | true =>
      simp only [if_true]
      exact .inl ⟨rfl, hs.wake hrun hr ⟨o, hended, .inr ⟨hflag rfl, rfl⟩⟩⟩
  | false =>
      simp only [Bool.false_eq_true, if_false]
      cases o with
      | ok v => exact .inl ⟨rfl, hs.wake hrun hr ⟨.ok v, hended, .inl rfl⟩⟩
      | error e =>
          by_cases he : e = P.cancellation
          · simp only [if_pos he]
            exact .inl ⟨rfl, hs.wake hrun hr ⟨.error e, hended, .inl rfl⟩⟩
          · simp only [if_neg he]
            exact .inr ⟨rfl, .inr ⟨d.parent, root, e, rfl, hr.spawned, he, hended⟩⟩

/-! ## Every run -/

def Inv (P : Program β ω ε κ) (s : State β ω ε κ) : Prop := s.fault = none ∧ Core P s ∨ Failed P s

theorem Inv.run (hs : Core P s) (hfault : s.fault = none) (h : Tasks.step P s (.run env) = some s') : Inv P s' := by
  have hok : s'.fault = s.fault ∧ Core P s' → Inv P s' := fun h => .inl ⟨h.1.trans hfault, h.2⟩
  simp only [Tasks.step] at h
  split at h
  · cases h
  · rename_i d hrun
    obtain ⟨promise, T, fs, root, hr⟩ := hs.running d hrun
    obtain ⟨f, hf, hfinal⟩ := hr.stands.resumable
    rw [hf] at h
    cases f with
    | detached job child flag =>
        cases h
        exact (wake_core hs hrun hf).imp_left fun h => ⟨h.1.trans hfault, h.2⟩
    | task job point value continuation =>
        cases point with
        | body b => exact hok (body_core hs hrun hf h)
        | awaiting child flag k => exact hok (awaiting_core hs hrun hf h)
        | asking q flag k => exact (asking_core hs hrun hf h).imp_left fun h => ⟨h.1.trans hfault, h.2⟩
        | final => exact absurd rfl (hfinal job value continuation)

theorem Inv.step (hs : Inv P s) (h : Tasks.step P s a = some s') : Inv P s' := by
  rcases hs with ⟨hfault, hs⟩ | ⟨hrun, hfault⟩
  · cases a with
    | run env => exact Inv.run hs hfault h
    | spawn c child p =>
        simp only [Tasks.step] at h
        split at h
        · rename_i hfree
          cases h
          refine .inl ⟨?_, hs.spawn hfree.2.2.1 hfree.2.2.2.1 hfree.2.2.2.2⟩
          rw [spawn_eq]
          exact hfault
        · cases h
    | front =>
        simp only [Tasks.step] at h
        split at h
        · rename_i d rest hrun hready
          rw [if_pos hfault] at h
          cases h
          refine .inl ⟨hfault, hs.queues ?_ fun d' hd' => ?_⟩
          · rw [State.pending, hrun, hready]
            exact .refl _
          · rw [hready]
            exact hd'
        · cases h
    | resume d =>
        simp only [Tasks.step] at h
        split at h
        · rename_i hd
          cases h
          have hperm : (d :: (s.ready ++ s.waiting.erase d)).Perm (s.ready ++ s.waiting) :=
            List.perm_middle.symm.trans ((List.perm_cons_erase hd.2.2).symm.append_left _)
          refine .inl ⟨hfault, hs.queues ?_ fun d' hd' => ?_⟩
          · rw [State.pending, hd.2.1, List.append_assoc, List.append_assoc]
            exact hperm
          · rw [List.append_assoc] at hd'
            exact hperm.mem_iff.mp hd'
        · cases h
    | expire d =>
        simp only [Tasks.step] at h
        split at h
        · rename_i hd
          cases h
          have hperm : (s.ready ++ [d] ++ s.waiting.erase d).Perm (s.ready ++ s.waiting) := by
            rw [List.append_assoc]
            exact (List.perm_cons_erase hd.2.2).symm.append_left _
          refine .inl ⟨hfault, hs.queues ?_ fun d' hd' => ?_⟩
          · rw [State.pending, hd.2.1, Option.toList_none, List.append_assoc, List.append_assoc, List.nil_append,
              List.nil_append, ← List.append_assoc]
            exact hperm
          · rw [hd.2.1] at hd'
            exact hperm.mem_iff.mp hd'
        · cases h
    | cancel job =>
        simp only [Tasks.step] at h
        split at h
        · cases h
          obtain ⟨hsame, hs'⟩ := hs.cancelJob job
          exact .inl ⟨hsame.trans hfault, hs'⟩
        · cases h
  · have hne : s.fault ≠ none := by
      rcases hfault with ⟨hf, -⟩ | ⟨_, _, _, hf, -⟩
      · exact hf ▸ Option.some_ne_none _
      · exact hf ▸ Option.some_ne_none _
    cases a with
    | front =>
        rw [Tasks.step, hrun] at h
        split at h
        · rw [if_neg hne] at h
          cases h
        · cases h
    | _ => simp [Tasks.step, hrun, hne] at h

theorem inv_of_reachable (hs : (system P).Reachable s) : Inv P s :=
  System.Invariant.reachable (.ofOption (.inl ⟨rfl, .init⟩) fun _ _ _ hi => hi.step) hs

end Dwhbll.Concurrency.Coroutine.Tasks
