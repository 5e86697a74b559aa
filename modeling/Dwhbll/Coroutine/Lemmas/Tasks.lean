import Dwhbll.Coroutine.Tasks

/-!
# The frames of a job

The frames of a job are linked by their continuations, up to the detached coroutine at the root. What they stand for is a
thread with its callers on a stack.
-/

namespace Dwhbll.Concurrency.Coroutine.Tasks

open Bodies

variable {β ω ε κ : Type} {heap heap' : Heap β ω ε κ} {C C' : Prop} {j j' a p h child : Nat} {f : Frame β ω ε κ}
  {ks : List (Except ε ω → β)} {fs : List Nat} {T : Thread β ω ε κ} {promise : Awaiter}

/-- The frames that wait for `child`, from its continuation `p` on, with what each one does then. A flag that is set is
that of a cancelled job. -/
inductive Callers (heap : Heap β ω ε κ) (C : Prop) (j : Nat) : Nat → Nat → List (Except ε ω → β) → List Nat → Prop where
  | root {child p : Nat} {flag : Bool} : heap p = some (.detached j child flag) → (flag = true → C) →
      Callers heap C j child p [] [p]
  | call {child p q : Nat} {flag : Bool} {k : Except ε ω → β} {ks : List (Except ε ω → β)} {fs : List Nat} :
      heap p = some (.task j (.awaiting child flag k) none (some q)) → (flag = true → C) →
      Callers heap C j p q ks fs → Callers heap C j child p (k :: ks) (p :: fs)

/-- The thread of a job, where the coroutine `h` is to be resumed next, and the awaiter that is in question until then. -/
inductive Stands (heap : Heap β ω ε κ) (C : Prop) (j : Nat) : Nat → Awaiter → Thread β ω ε κ → List Nat → Prop where
  | body {h q : Nat} {b : β} {ks : List (Except ε ω → β)} {fs : List Nat} :
      heap h = some (.task j (.body b) none (some q)) → Callers heap C j h q ks fs →
      Stands heap C j h (.continuation q) ⟨.body b, ks⟩ (h :: fs)
  | asking {h p : Nat} {q : κ} {flag : Bool} {k : Except ε ω → β} {ks : List (Except ε ω → β)} {fs : List Nat} :
      heap h = some (.task j (.asking q flag k) none (some p)) → (flag = true → C) → Callers heap C j h p ks fs →
      Stands heap C j h (.question h) ⟨.asking q k, ks⟩ (h :: fs)
  | returning {c p : Nat} {o : Except ε ω} {ks : List (Except ε ω → β)} {fs : List Nat} :
      heap c = some (.task j .final (some o) (some p)) → Callers heap C j c p ks fs →
      Stands heap C j p (.finalize c) ⟨.returning o, ks⟩ (c :: fs)

/-- A caller waits for something. -/
theorem Callers.waits (h : Callers heap C j child p ks fs) (ha : a ∈ fs) :
    (∃ c flag, heap a = some (.detached j c flag)) ∨
      ∃ c flag k q, heap a = some (.task j (.awaiting c flag k) none (some q)) := by
  induction h with
  | root hp =>
      rw [List.mem_singleton.mp ha]
      exact .inl ⟨_, _, hp⟩
  | call hp _ _ ih =>
      rcases List.mem_cons.mp ha with rfl | ha
      · exact .inr ⟨_, _, _, _, hp⟩
      · exact ih ha

theorem Callers.job (h : Callers heap C j child p ks fs) (ha : a ∈ fs) : ∃ f, heap a = some f ∧ f.job = j := by
  rcases h.waits ha with ⟨c, flag, hf⟩ | ⟨c, flag, k, q, hf⟩
  · exact ⟨_, hf, rfl⟩
  · exact ⟨_, hf, rfl⟩

theorem Callers.congr (h : Callers heap C j child p ks fs) (hC : C → C') (heq : ∀ a ∈ fs, heap' a = heap a) :
    Callers heap' C' j child p ks fs := by
  induction h with
  | root hp hflag => exact .root ((heq _ List.mem_cons_self).trans hp) fun hf => hC (hflag hf)
  | call hp hflag _ ih =>
      exact .call ((heq _ List.mem_cons_self).trans hp) (fun hf => hC (hflag hf))
        (ih fun a ha => heq a (List.mem_cons_of_mem _ ha))

theorem Stands.job (h : Stands heap C j a promise T fs) (hp : p ∈ fs) : ∃ f, heap p = some f ∧ f.job = j := by
  cases h with
  | body hb hcallers =>
      rcases List.mem_cons.mp hp with rfl | hp
      · exact ⟨_, hb, rfl⟩
      · exact hcallers.job hp
  | asking hb _ hcallers =>
      rcases List.mem_cons.mp hp with rfl | hp
      · exact ⟨_, hb, rfl⟩
      · exact hcallers.job hp
  | returning hb hcallers =>
      rcases List.mem_cons.mp hp with rfl | hp
      · exact ⟨_, hb, rfl⟩
      · exact hcallers.job hp

theorem Stands.congr (h : Stands heap C j a promise T fs) (hC : C → C') (heq : ∀ a ∈ fs, heap' a = heap a) :
    Stands heap' C' j a promise T fs := by
  cases h with
  | body hb hcallers =>
      exact .body ((heq _ List.mem_cons_self).trans hb)
        (hcallers.congr hC fun a ha => heq a (List.mem_cons_of_mem _ ha))
  | asking hb hflag hcallers =>
      exact .asking ((heq _ List.mem_cons_self).trans hb) (fun hf => hC (hflag hf))
        (hcallers.congr hC fun a ha => heq a (List.mem_cons_of_mem _ ha))
  | returning hb hcallers =>
      exact .returning ((heq _ List.mem_cons_self).trans hb)
        (hcallers.congr hC fun a ha => heq a (List.mem_cons_of_mem _ ha))

/-- The callers where another frame is written. -/
theorem Callers.update {o : Option (Frame β ω ε κ)} (h : Callers heap C j child p ks fs) (ha : a ∉ fs) :
    Callers (Function.update heap a o) C j child p ks fs :=
  h.congr id fun b hb => Function.update_of_ne (by rintro rfl; exact ha hb) ..

/-- Where the coroutine that is to be resumed is. -/
theorem Stands.of_body {i : Nat} {b : β} {v : Option (Except ε ω)} {c : Option Nat}
    (h : Stands heap C j a promise T fs) (ha : heap a = some (.task i (.body b) v c)) :
    i = j ∧ v = none ∧ ∃ q ks fs₁, c = some q ∧ T = ⟨.body b, ks⟩ ∧ fs = a :: fs₁ ∧ Callers heap C j a q ks fs₁ := by
  cases h with
  | body hb hcallers =>
      cases ha.symm.trans hb
      exact ⟨rfl, rfl, _, _, _, rfl, rfl, rfl, hcallers⟩
  | asking hb => cases ha.symm.trans hb
  | returning _ hcallers =>
      cases hcallers with
      | root hp => cases ha.symm.trans hp
      | call hp => cases ha.symm.trans hp

theorem Stands.of_asking {i : Nat} {q : κ} {flag : Bool} {k : Except ε ω → β} {v : Option (Except ε ω)} {c : Option Nat}
    (h : Stands heap C j a promise T fs) (ha : heap a = some (.task i (.asking q flag k) v c)) :
    i = j ∧ v = none ∧ (flag = true → C) ∧ ∃ p ks fs₁, c = some p ∧ T = ⟨.asking q k, ks⟩ ∧ fs = a :: fs₁ ∧
      Callers heap C j a p ks fs₁ := by
  cases h with
  | body hb => cases ha.symm.trans hb
  | asking hb hflag hcallers =>
      cases ha.symm.trans hb
      exact ⟨rfl, rfl, hflag, _, _, _, rfl, rfl, rfl, hcallers⟩
  | returning _ hcallers =>
      cases hcallers with
      | root hp => cases ha.symm.trans hp
      | call hp => cases ha.symm.trans hp

theorem Stands.of_awaiting {i : Nat} {flag : Bool} {k : Except ε ω → β} {v : Option (Except ε ω)} {c : Option Nat}
    (h : Stands heap C j a promise T fs) (ha : heap a = some (.task i (.awaiting child flag k) v c)) :
    i = j ∧ v = none ∧ (flag = true → C) ∧ ∃ o q ks fs₁, c = some q ∧ heap child = some (.task j .final (some o) (some a)) ∧
      T = ⟨.returning o, k :: ks⟩ ∧ fs = child :: a :: fs₁ ∧ Callers heap C j a q ks fs₁ := by
  cases h with
  | body hb => cases ha.symm.trans hb
  | asking hb => cases ha.symm.trans hb
  | returning hc hcallers =>
      cases hcallers with
      | root hp => cases ha.symm.trans hp
      | call hp hflag hrest =>
          cases ha.symm.trans hp
          exact ⟨rfl, rfl, hflag, _, _, _, _, rfl, hc, rfl, rfl, hrest⟩

theorem Stands.of_detached {i : Nat} {flag : Bool} (h : Stands heap C j a promise T fs)
    (ha : heap a = some (.detached i child flag)) :
    i = j ∧ (flag = true → C) ∧ ∃ o, heap child = some (.task j .final (some o) (some a)) ∧ T = ⟨.returning o, []⟩ ∧
      fs = [child, a] := by
  cases h with
  | body hb => cases ha.symm.trans hb
  | asking hb => cases ha.symm.trans hb
  | returning hc hcallers =>
      cases hcallers with
      | root hp hflag =>
          cases ha.symm.trans hp
          exact ⟨rfl, hflag, _, hc, rfl, rfl⟩
      | call hp => cases ha.symm.trans hp

/-- It is there, and not at its end. -/
theorem Stands.resumable (h : Stands heap C j a promise T fs) :
    ∃ f, heap a = some f ∧ ∀ i v c, f ≠ .task i .final v c := by
  cases h with
  | body hb => exact ⟨_, hb, fun _ _ _ => by simp⟩
  | asking hb => exact ⟨_, hb, fun _ _ _ => by simp⟩
  | returning _ hcallers =>
      cases hcallers with
      | root hp => exact ⟨_, hp, fun _ _ _ => by simp⟩
      | call hp => exact ⟨_, hp, fun _ _ _ => by simp⟩

/-! ## The jobs of a reactor -/

/-- What was asked in a job, with what was seen of the answers. -/
def trace (j : Nat) (answers : List (Nat × κ × Except ε ω)) : List (κ × Except ε ω) :=
  answers.filterMap fun x => if x.1 = j then some x.2 else none

theorem trace_concat {answers : List (Nat × κ × Except ε ω)} {x : κ × Except ε ω} :
    trace j (answers ++ [(j, x)]) = trace j answers ++ [x] := by
  simp [trace]

theorem trace_concat_of_ne {answers : List (Nat × κ × Except ε ω)} {x : κ × Except ε ω} (h : j' ≠ j) :
    trace j (answers ++ [(j', x)]) = trace j answers := by
  simp [trace, h]

variable {P : Program β ω ε κ} {s s' : State β ω ε κ} {d d' : Data} {root : β}

/-- The job `j` has come to where the thread `T` is, and its frames are `fs`. -/
structure Represents (P : Program β ω ε κ) (s : State β ω ε κ) (j h : Nat) (promise : Awaiter) (T : Thread β ω ε κ)
    (fs : List Nat) (root : β) : Prop where
  stands : Stands s.heap (s.cancelled j = true) j h promise T fs
  nodup : fs.Nodup
  all : ∀ a f, s.heap a = some f → f.job = j → a ∈ fs
  spawned : s.roots[j]? = some root
  way : Open P.toLanguage (s.cancelled j = true) root (trace j s.answers) T

def Alive (P : Program β ω ε κ) (s : State β ω ε κ) (j h : Nat) (promise : Awaiter) : Prop :=
  ∃ T fs root, Represents P s j h promise T fs root

theorem Alive.lt (h : Alive P s j a promise) : j < s.roots.length := by
  obtain ⟨_, _, root, hr⟩ := h
  exact (List.getElem?_eq_some_iff.mp hr.spawned).1

/-- A job that the others do not touch. -/
theorem Alive.other (h : Alive P s j a promise) (hheap : ∀ b f, f.job = j → (s'.heap b = some f ↔ s.heap b = some f))
    (hC : s.cancelled j = true → s'.cancelled j = true) (hroots : ∀ root, s.roots[j]? = some root → s'.roots[j]? = some root)
    (htrace : trace j s'.answers = trace j s.answers) : Alive P s' j a promise := by
  obtain ⟨T, fs, root, hr⟩ := h
  refine ⟨T, fs, root, hr.stands.congr hC fun b hb => ?_, hr.nodup, fun b f hb hf => ?_, hroots root hr.spawned, ?_⟩
  · obtain ⟨f, hf, hj⟩ := hr.stands.job hb
    rw [hf]
    exact (hheap b f hj).mpr hf
  · exact hr.all b f ((hheap b f hf).mp hb) hf
  · rw [htrace]
    exact hr.way.cancel hC

/-- The job has come to an end, as its root does, or as a cancelled job does. -/
def Ended (P : Program β ω ε κ) (s : State β ω ε κ) (j : Nat) (root : β) : Prop :=
  ∃ o r, (j, r) ∈ s.finished ∧ Evaluates P.toLanguage (s.cancelled j = true) root (trace j s.answers) o ∧
    (r = o.map (fun _ => ()) ∨ s.cancelled j = true ∧ r = .error P.cancellation)

theorem Ended.other (h : Ended P s j root) (hfinished : ∀ r, r ∈ s.finished → r ∈ s'.finished)
    (hC : s.cancelled j = true → s'.cancelled j = true) (htrace : trace j s'.answers = trace j s.answers) :
    Ended P s' j root := by
  obtain ⟨o, r, hr, heval, hor⟩ := h
  exact ⟨o, r, hfinished _ hr, htrace ▸ heval.mono hC, hor.imp_right fun hc => ⟨hC hc.1, hc.2⟩⟩

/-- Each job that has not ended has one `user_data`, which stands for all its frames. -/
structure Core (P : Program β ω ε κ) (s : State β ω ε κ) : Prop where
  parents : (s.pending.map Data.parent).Nodup
  running : ∀ d, s.running = some d → ∃ promise, Alive P s d.parent d.handle promise
  queued : ∀ d ∈ s.ready ++ s.waiting, Alive P s d.parent d.handle d.promise
  owned : ∀ a f, s.heap a = some f → ∃ d ∈ s.pending, d.parent = f.job
  ended : ∀ j root, s.roots[j]? = some root → (∃ d ∈ s.pending, d.parent = j) ∨ Ended P s j root
  once : (s.finished.map Prod.fst).Nodup
  settled : ∀ r ∈ s.finished, r.1 < s.roots.length ∧ ∀ d ∈ s.pending, d.parent ≠ r.1
  fresh : ∀ i, s.roots.length ≤ i → trace i s.answers = []

/-! ## A step of one job -/

/-- Only the job `j` has changed. -/
structure Apart (s s' : State β ω ε κ) (j : Nat) : Prop where
  heap : ∀ b f, f.job ≠ j → (s'.heap b = some f ↔ s.heap b = some f)
  cancelled : s'.cancelled = s.cancelled
  roots : s'.roots = s.roots
  trace : ∀ i, i ≠ j → trace i s'.answers = trace i s.answers

theorem Apart.alive (h : Apart s s' j) (hne : j' ≠ j) (ha : Alive P s j' a promise) : Alive P s' j' a promise :=
  ha.other (fun b f hf => h.heap b f (hf ▸ hne)) (fun hc => h.cancelled ▸ hc) (fun _ hr => h.roots ▸ hr) (h.trace j' hne)

theorem mem_pending_running (hrun : s.running = some d) : d ∈ s.pending := by
  simp [State.pending, hrun]

theorem mem_pending_queued (h : d ∈ s.ready ++ s.waiting) : d ∈ s.pending := by
  rw [State.pending, List.append_assoc]
  exact List.mem_append_right _ h

theorem Core.ne_parent (hs : Core P s) (hrun : s.running = some d) (hd' : d' ∈ s.ready ++ s.waiting) :
    d'.parent ≠ d.parent := by
  have hparents := hs.parents
  rw [State.pending, hrun, Option.toList_some, List.append_assoc, List.map_append, List.nodup_append] at hparents
  exact (hparents.2.2 _ (List.mem_map_of_mem List.mem_cons_self) _ (List.mem_map_of_mem hd')).symm

theorem Core.parent_lt (hs : Core P s) (hd : d ∈ s.pending) : d.parent < s.roots.length := by
  have halive : ∃ promise, Alive P s d.parent d.handle promise := by
    rw [State.pending, List.append_assoc] at hd
    rcases List.mem_append.mp hd with hd | hd
    · exact hs.running d (Option.mem_toList.mp hd)
    · exact ⟨d.promise, hs.queued d hd⟩
  exact halive.choose_spec.lt

theorem exists_parent_of_perm (hperm : (s'.pending.map Data.parent).Perm (s.pending.map Data.parent))
    (h : ∃ d ∈ s.pending, d.parent = j) : ∃ d ∈ s'.pending, d.parent = j := by
  obtain ⟨d, hd, rfl⟩ := h
  obtain ⟨d', hd', heq⟩ := List.mem_map.mp (hperm.mem_iff.mpr (List.mem_map_of_mem hd))
  exact ⟨d', hd', heq⟩

/-- A job that goes on, whatever it waits for next. -/
theorem Core.keep (hs : Core P s) (hapart : Apart s s' j) (hj : ∃ d ∈ s.pending, d.parent = j)
    (hperm : (s'.pending.map Data.parent).Perm (s.pending.map Data.parent)) (hfinished : s'.finished = s.finished)
    (hrunning : ∀ d, s'.running = some d → ∃ promise, Alive P s' d.parent d.handle promise)
    (hqueued : ∀ d ∈ s'.ready ++ s'.waiting, Alive P s' d.parent d.handle d.promise) : Core P s' where
  parents := hperm.nodup_iff.mpr hs.parents
  running := hrunning
  queued := hqueued
  owned a f hf := by
    refine exists_parent_of_perm hperm ?_
    by_cases hjob : f.job = j
    · rwa [hjob]
    · exact hs.owned a f ((hapart.heap a f hjob).mp hf)
  ended i root hroot := by
    by_cases hi : i = j
    · exact .inl (exists_parent_of_perm hperm (hi ▸ hj))
    · rw [hapart.roots] at hroot
      refine (hs.ended i root hroot).imp (exists_parent_of_perm hperm) fun hended => ?_
      exact hended.other (fun r hr => hfinished ▸ hr) (fun hc => hapart.cancelled ▸ hc) (hapart.trace i hi)
  once := hfinished ▸ hs.once
  settled r hr := by
    rw [hfinished] at hr
    refine ⟨hapart.roots ▸ (hs.settled r hr).1, fun d hd heq => ?_⟩
    obtain ⟨d', hd', heq'⟩ := List.mem_map.mp (hperm.mem_iff.mp (List.mem_map_of_mem hd))
    exact (hs.settled r hr).2 d' hd' (heq'.trans heq)
  fresh i hi := by
    obtain ⟨d, hd, rfl⟩ := hj
    rw [hapart.roots] at hi
    rw [hapart.trace i (Nat.ne_of_gt (Nat.lt_of_lt_of_le (hs.parent_lt hd) hi))]
    exact hs.fresh i hi

/-- The running coroutine goes on. -/
theorem Core.goOn (promise : Awaiter) (hs : Core P s) (hrun : s.running = some d) (hapart : Apart s s' d.parent)
    (hrun' : s'.running = s.running) (hready : s'.ready = s.ready) (hwaiting : s'.waiting = s.waiting)
    (hfinished : s'.finished = s.finished) (halive : Alive P s' d.parent d.handle promise) : Core P s' := by
  refine hs.keep hapart ⟨d, mem_pending_running hrun, rfl⟩ ?_ hfinished ?_ ?_
  · rw [State.pending, State.pending, hrun', hready, hwaiting]
  · intro d' hd'
    rw [hrun', hrun] at hd'
    cases hd'
    exact ⟨promise, halive⟩
  · intro d' hd'
    rw [hready, hwaiting] at hd'
    exact hapart.alive (hs.ne_parent hrun hd') (hs.queued d' hd')

/-- The running coroutine is suspended, and something of its job is to be resumed next. -/
theorem Core.suspend (d' : Data) (hs : Core P s) (hrun : s.running = some d) (hapart : Apart s s' d.parent)
    (hd' : d'.parent = d.parent) (hrun' : s'.running = none) (hperm : (s'.ready ++ s'.waiting).Perm (d' :: (s.ready ++ s.waiting)))
    (hfinished : s'.finished = s.finished) (halive : Alive P s' d'.parent d'.handle d'.promise) : Core P s' := by
  refine hs.keep hapart ⟨d, mem_pending_running hrun, rfl⟩ ?_ hfinished ?_ ?_
  · rw [State.pending, State.pending, hrun', hrun, List.append_assoc, List.append_assoc]
    exact (hperm.map _).trans (by simp [hd'])
  · intro e he
    cases hrun'.symm.trans he
  · intro e he
    rcases List.mem_cons.mp (hperm.mem_iff.mp he) with rfl | he
    · exact halive
    · exact hapart.alive (hs.ne_parent hrun he) (hs.queued e he)

/-- The job of the running coroutine has come to an end. -/
theorem Core.finish {r : Except ε Unit} (hs : Core P s) (hrun : s.running = some d)
    (hheap : ∀ b f, s'.heap b = some f ↔ s.heap b = some f ∧ f.job ≠ d.parent) (hC : s'.cancelled = s.cancelled)
    (hroots : s'.roots = s.roots) (hanswers : s'.answers = s.answers) (hrun' : s'.running = none)
    (hready : s'.ready = s.ready) (hwaiting : s'.waiting = s.waiting) (hfinished : s'.finished = s.finished ++ [(d.parent, r)])
    (hended : ∀ root, s.roots[d.parent]? = some root → Ended P s' d.parent root) : Core P s' := by
  have hapart : Apart s s' d.parent :=
    ⟨fun b f hf => by rw [hheap, and_iff_left hf], hC, hroots, fun i _ => congrArg (Tasks.trace i) hanswers⟩
  have hpending : s'.pending = s.ready ++ s.waiting := by
    rw [State.pending, hrun', hready, hwaiting, Option.toList_none, List.nil_append]
  have hsplit : s.pending = d :: (s.ready ++ s.waiting) := by
    rw [State.pending, hrun, Option.toList_some, List.append_assoc, List.singleton_append]
  have hparents := hs.parents
  rw [hsplit, List.map_cons, List.nodup_cons] at hparents
  have hrest : ∀ {i}, i ≠ d.parent → (∃ e ∈ s.pending, e.parent = i) → ∃ e ∈ s'.pending, e.parent = i := by
    rintro i hi ⟨e, he, rfl⟩
    rw [hsplit] at he
    rcases List.mem_cons.mp he with rfl | he
    · exact absurd rfl hi
    · exact ⟨e, hpending ▸ he, rfl⟩
  have hnew : d.parent ∉ s.finished.map Prod.fst := by
    intro hmem
    obtain ⟨x, hx, heq⟩ := List.mem_map.mp hmem
    exact (hs.settled x hx).2 d (mem_pending_running hrun) heq.symm
  refine ⟨?_, ?_, ?_, ?_, ?_, ?_, ?_, fun i hi => ?_⟩
  · rw [hpending]
    exact hparents.2
  · intro e he
    cases hrun'.symm.trans he
  · intro e he
    rw [hready, hwaiting] at he
    exact hapart.alive (hs.ne_parent hrun he) (hs.queued e he)
  · intro a f hf
    obtain ⟨hf, hjob⟩ := (hheap a f).mp hf
    exact hrest hjob (hs.owned a f hf)
  · intro i root hroot
    rw [hroots] at hroot
    by_cases hi : i = d.parent
    · exact .inr (hi ▸ hended root (hi ▸ hroot))
    · refine (hs.ended i root hroot).imp (hrest hi) fun h => ?_
      exact h.other (fun x hx => hfinished ▸ List.mem_append_left _ hx) (fun hc => hC ▸ hc) (hapart.trace i hi)
  · rw [hfinished, List.map_append, List.nodup_append]
    refine ⟨hs.once, by simp, fun x hx y hy heq => ?_⟩
    rw [List.map_singleton, List.mem_singleton] at hy
    rw [heq, hy] at hx
    exact hnew hx
  · intro x hx
    rw [hfinished] at hx
    rw [hroots, hpending]
    rcases List.mem_append.mp hx with hx | hx
    · exact ⟨(hs.settled x hx).1, fun e he => (hs.settled x hx).2 e (mem_pending_queued he)⟩
    · rw [List.mem_singleton.mp hx]
      exact ⟨hs.parent_lt (mem_pending_running hrun), fun e he => hs.ne_parent hrun he⟩
  · rw [hroots] at hi
    rw [hanswers]
    exact hs.fresh i hi

end Dwhbll.Concurrency.Coroutine.Tasks
