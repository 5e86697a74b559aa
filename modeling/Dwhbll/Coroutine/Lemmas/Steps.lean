import Dwhbll.Coroutine.Lemmas.Tasks
import Mathlib.Data.List.Nodup

/-!
# What the steps of a coroutine do to the frames of its job
-/

namespace Dwhbll.Concurrency.Coroutine.Tasks

open Bodies

variable {β ω ε κ : Type} {P : Program β ω ε κ} {s s' : State β ω ε κ} {d d' : Data} {heap : Heap β ω ε κ}
  {j a b p q h child : Nat} {f : Frame β ω ε κ} {fs fs' : List Nat} {o : Option (Frame β ω ε κ)} {T : Thread β ω ε κ}
  {promise : Awaiter} {root : β}

/-! ## One frame -/

/-- A frame of the job `j`, or free memory, becomes a frame of that job, or free. -/
theorem update_apart (hold : ∀ f, heap a = some f → f.job = j) (hnew : ∀ f, o = some f → f.job = j) (hf : f.job ≠ j) :
    Function.update heap a o b = some f ↔ heap b = some f := by
  by_cases hb : b = a
  · rw [hb, Function.update_self]
    exact iff_of_false (fun h => hf (hnew f h)) fun h => hf (hold f h)
  · rw [Function.update_of_ne hb]

theorem update_all (fs' : List Nat) (hall : ∀ b f, heap b = some f → f.job = j → b ∈ fs) (hsub : ∀ b ∈ fs, b ≠ a → b ∈ fs')
    (ha : o ≠ none → a ∈ fs') (b : Nat) (f : Frame β ω ε κ) (hb : Function.update heap a o b = some f) (hf : f.job = j) :
    b ∈ fs' := by
  by_cases heq : b = a
  · rw [heq, Function.update_self] at hb
    exact heq ▸ ha (hb ▸ Option.some_ne_none f)
  · rw [Function.update_of_ne heq] at hb
    exact hsub b (hall b f hb hf) heq

theorem enqueue_finalize (hp : s.heap p = some f) :
    s.enqueue ⟨j, h, .finalize p⟩ = { s with ready := s.ready ++ [⟨j, h, .finalize p⟩] } := by
  rw [State.enqueue, cancelPromise, hp, Option.map_some, ite_self]

/-- A task is awaited: the flag of the awaiter is that of the job. -/
theorem enqueue_continuation {i : Nat} {k : Except ε ω → β} {v : Option (Except ε ω)} {c : Option Nat}
    (hp : s.heap p = some (.task i (.awaiting child false k) v c)) :
    s.enqueue ⟨j, h, .continuation p⟩ = { s with
      heap := Function.update s.heap p (some (.task i (.awaiting child (s.cancelled j) k) v c))
      ready := s.ready ++ [⟨j, h, .continuation p⟩] } := by
  rw [State.enqueue]
  cases hc : s.cancelled j with
  | false => rw [if_neg Bool.false_ne_true, ← hp, Function.update_eq_self]
  | true => simp only [if_true, cancelPromise, hp]

theorem enqueue_detached {i : Nat} (hp : s.heap p = some (.detached i child false)) :
    s.enqueue ⟨j, h, .continuation p⟩ = { s with
      heap := Function.update s.heap p (some (.detached i child (s.cancelled j)))
      ready := s.ready ++ [⟨j, h, .continuation p⟩] } := by
  rw [State.enqueue]
  cases hc : s.cancelled j with
  | false => rw [if_neg Bool.false_ne_true, ← hp, Function.update_eq_self]
  | true => simp only [if_true, cancelPromise, hp]

/-! ## The running coroutine -/

variable {b' : β} {k : Except ε ω → β} {ks : List (Except ε ω → β)} {r : Except ε ω} {fs₁ : List Nat}
  {t : Point β ω ε κ} {v : Option (Except ε ω)}

theorem Represents.apart_set (hr : Represents P s j h promise T (a :: fs₁) root) :
    Apart s { s with heap := Function.update s.heap a (some (.task j t v (some q))) } j where
  heap b f hf := by
    obtain ⟨f₀, hf₀, hj⟩ := hr.stands.job List.mem_cons_self
    refine update_apart (fun f h => ?_) (fun f h => ?_) hf
    · cases hf₀.symm.trans h
      exact hj
    · cases h
      rfl
  cancelled := rfl
  roots := rfl
  trace _ _ := rfl

/-- The frame that runs is written, and is not among its callers. -/
theorem Represents.set (hr : Represents P s j h promise T (a :: fs₁) root)
    (hcallers : Callers s.heap (s.cancelled j = true) j a q ks fs₁) :
    Callers (Function.update s.heap a (some f)) (s.cancelled j = true) j a q ks fs₁ ∧
      ∀ b f', Function.update s.heap a (some f) b = some f' → f'.job = j → b ∈ a :: fs₁ :=
  ⟨hcallers.update (List.nodup_cons.mp hr.nodup).1,
    update_all _ hr.all (fun _ hb _ => hb) fun _ => List.mem_cons_self⟩

/-- The coroutine goes on with another body. -/
theorem Core.body (answers : List (Nat × κ × Except ε ω)) (hs : Core P s) (hrun : s.running = some d)
    (hr : Represents P s d.parent h promise T (d.handle :: fs₁) root)
    (hcallers : Callers s.heap (s.cancelled d.parent = true) d.parent d.handle q ks fs₁)
    (hway : Open P.toLanguage (s.cancelled d.parent = true) root (trace d.parent answers) ⟨.body b', ks⟩)
    (hanswers : ∀ i, i ≠ d.parent → trace i answers = trace i s.answers) :
    Core P { s.set d.handle (.task d.parent (.body b') none (some q)) with answers := answers } := by
  obtain ⟨hcallers', hall⟩ := hr.set (f := .task d.parent (.body b') none (some q)) hcallers
  have hapart := hr.apart_set (t := .body b') (v := none) (q := q)
  refine hs.goOn (.continuation q) hrun ⟨hapart.heap, rfl, rfl, hanswers⟩ rfl rfl rfl rfl ?_
  exact ⟨⟨.body b', ks⟩, d.handle :: fs₁, root, .body (Function.update_self ..) hcallers', hr.nodup, hall, hr.spawned, hway⟩

/-- It waits for the answer to a question. -/
theorem Core.asking {x : κ} {flag : Bool} {ready waiting : List Data} (hs : Core P s) (hrun : s.running = some d)
    (hr : Represents P s d.parent h promise T (d.handle :: fs₁) root)
    (hcallers : Callers s.heap (s.cancelled d.parent = true) d.parent d.handle q ks fs₁)
    (hflag : flag = true → s.cancelled d.parent = true)
    (hway : Open P.toLanguage (s.cancelled d.parent = true) root (trace d.parent s.answers) ⟨.asking x k, ks⟩)
    (hperm : (ready ++ waiting).Perm (⟨d.parent, d.handle, .question d.handle⟩ :: (s.ready ++ s.waiting))) :
    Core P { s.set d.handle (.task d.parent (.asking x flag k) none (some q)) with
      ready := ready, waiting := waiting, running := none } := by
  obtain ⟨hcallers', hall⟩ := hr.set (f := .task d.parent (.asking x flag k) none (some q)) hcallers
  have hapart := hr.apart_set (t := .asking x flag k) (v := none) (q := q)
  refine hs.suspend ⟨d.parent, d.handle, .question d.handle⟩ hrun ⟨hapart.heap, rfl, rfl, hapart.trace⟩ rfl rfl hperm
    rfl ?_
  exact ⟨⟨.asking x k, ks⟩, d.handle :: fs₁, root, .asking (Function.update_self ..) hflag hcallers', hr.nodup, hall,
    hr.spawned, hway⟩

/-- It has come to its end, and its continuation is resumed next. -/
theorem Core.ret {o : Except ε ω} (hs : Core P s) (hrun : s.running = some d)
    (hr : Represents P s d.parent h promise T (d.handle :: fs₁) root)
    (hcallers : Callers s.heap (s.cancelled d.parent = true) d.parent d.handle q ks fs₁)
    (hway : Open P.toLanguage (s.cancelled d.parent = true) root (trace d.parent s.answers) ⟨.returning o, ks⟩) :
    Core P { (s.set d.handle (.task d.parent .final (some o) (some q))).enqueue ⟨d.parent, q, .finalize d.handle⟩ with
      running := none } := by
  obtain ⟨hcallers', hall⟩ := hr.set (f := .task d.parent .final (some o) (some q)) hcallers
  have hapart := hr.apart_set (t := .final) (v := some o) (q := q)
  rw [enqueue_finalize (s := s.set ..) (Function.update_self ..)]
  refine hs.suspend ⟨d.parent, q, .finalize d.handle⟩ hrun ⟨hapart.heap, rfl, rfl, hapart.trace⟩ rfl rfl ?_ rfl ?_
  · exact (List.perm_append_comm.append_right _).trans (List.Perm.refl _)
  · exact ⟨⟨.returning o, ks⟩, d.handle :: fs₁, root, .returning (Function.update_self ..) hcallers', hr.nodup, hall,
      hr.spawned, hway⟩

theorem Represents.ne_of_free (hr : Represents P s j h promise T fs root) (ha : s.heap a = none) : a ∉ fs := by
  intro hmem
  obtain ⟨f, hf, -⟩ := hr.stands.job hmem
  cases ha.symm.trans hf

/-- The frames of a task and of the coroutine that awaits it, each as it is in the end. -/
theorem enqueue_awaiting {v : Option (Except ε ω)} {c : Option Nat} (hne : a ≠ h) :
    ((s.set h (.task j (.awaiting a false k) v c)).set a f).enqueue ⟨j, a, .continuation h⟩ = { s with
      heap := Function.update
        (Function.update s.heap h (some (.task j (.awaiting a (s.cancelled j) k) v c))) a (some f)
      ready := s.ready ++ [⟨j, a, .continuation h⟩] } := by
  rw [enqueue_continuation ((Function.update_of_ne hne.symm ..).trans (Function.update_self ..))]
  simp only [State.set]
  rw [Function.update_comm hne, Function.update_idem, Function.update_comm hne.symm]

/-- It awaits a task of its own, which is resumed next. -/
theorem Core.call {c : β} (hs : Core P s) (hrun : s.running = some d)
    (hr : Represents P s d.parent h promise T (d.handle :: fs₁) root)
    (hcallers : Callers s.heap (s.cancelled d.parent = true) d.parent d.handle q ks fs₁) (ha : s.heap a = none)
    (hway : Open P.toLanguage (s.cancelled d.parent = true) root (trace d.parent s.answers) ⟨.body c, k :: ks⟩) :
    Core P { ((s.set d.handle (.task d.parent (.awaiting a false k) none (some q))).set a
        (.task d.parent (.body c) none (some d.handle))).enqueue ⟨d.parent, a, .continuation d.handle⟩ with
      running := none } := by
  have hfree := hr.ne_of_free ha
  have hne : a ≠ d.handle := List.ne_of_not_mem_cons hfree
  rw [enqueue_awaiting hne]
  have hapart := hr.apart_set (t := .awaiting a (s.cancelled d.parent) k) (v := none) (q := q)
  obtain ⟨hcallers', hall⟩ := hr.set (f := .task d.parent (.awaiting a (s.cancelled d.parent) k) none (some q)) hcallers
  refine hs.suspend ⟨d.parent, a, .continuation d.handle⟩ hrun ⟨fun b f hf => ?_, rfl, rfl, fun _ _ => rfl⟩ rfl rfl ?_
    rfl ?_
  · refine (update_apart (fun f h => ?_) (fun f h => ?_) hf).trans (hapart.heap b f hf)
    · rw [Function.update_of_ne hne, ha] at h
      cases h
    · cases h
      rfl
  · exact (List.perm_append_comm.append_right _).trans (List.Perm.refl _)
  · refine ⟨⟨.body c, k :: ks⟩, a :: d.handle :: fs₁, root, ?_, List.nodup_cons.mpr ⟨hfree, hr.nodup⟩, ?_, hr.spawned, hway⟩
    · refine .body (Function.update_self ..) (.call ?_ id (hcallers'.update fun h => hfree (List.mem_cons_of_mem _ h)))
      exact (Function.update_of_ne hne.symm ..).trans (Function.update_self ..)
    · exact update_all _ hall (fun _ hb _ => List.mem_cons_of_mem _ hb) fun _ => List.mem_cons_self

/-- The task that it has awaited is over. Its frame is destroyed, and the coroutine goes on. -/
theorem Core.resumed (hs : Core P s) (hrun : s.running = some d)
    (hr : Represents P s d.parent h promise T (a :: d.handle :: fs₁) root)
    (hcallers : Callers s.heap (s.cancelled d.parent = true) d.parent d.handle q ks fs₁)
    (hway : Open P.toLanguage (s.cancelled d.parent = true) root (trace d.parent s.answers) ⟨.body b', ks⟩) :
    Core P ((s.destroy a).set d.handle (.task d.parent (.body b') none (some q))) := by
  have hnodup := List.nodup_cons.mp hr.nodup
  obtain ⟨hnotin, hnodup₁⟩ := hnodup
  have hold : ∀ b ∈ a :: d.handle :: fs₁, ∀ f, s.heap b = some f → f.job = d.parent := by
    intro b hb f hf
    obtain ⟨f₀, hf₀, hj⟩ := hr.stands.job hb
    cases hf₀.symm.trans hf
    exact hj
  have hold' : ∀ f, Function.update s.heap a none d.handle = some f → f.job = d.parent := by
    intro f hf
    rw [Function.update_of_ne (List.ne_of_not_mem_cons hnotin).symm] at hf
    exact hold d.handle (List.mem_cons_of_mem _ List.mem_cons_self) f hf
  refine hs.goOn (.continuation q) hrun ⟨fun b f hf => ?_, rfl, rfl, fun _ _ => rfl⟩ rfl rfl rfl rfl ?_
  · exact (update_apart hold' (fun f h => by cases h; rfl) hf).trans
      (update_apart (hold a List.mem_cons_self) (fun f h => by cases h) hf)
  · refine ⟨⟨.body b', ks⟩, d.handle :: fs₁, root, ?_, hnodup₁, ?_, hr.spawned, hway⟩
    · refine .body (Function.update_self ..) ((hcallers.update ?_).update (List.nodup_cons.mp hnodup₁).1)
      exact fun h => hnotin (List.mem_cons_of_mem _ h)
    · refine update_all _ (update_all (d.handle :: fs₁) hr.all (fun b hb hne => ?_) fun h => absurd rfl h)
        (fun _ hb _ => hb) fun _ => List.mem_cons_self
      exact (List.mem_cons.mp hb).resolve_left hne

/-- The task of a detached coroutine is over, and the job with it. -/
theorem Core.wake {r : Except ε Unit} (hs : Core P s) (hrun : s.running = some d)
    (hr : Represents P s d.parent h promise T [a, d.handle] root)
    (hended : ∃ o, Evaluates P.toLanguage (s.cancelled d.parent = true) root (trace d.parent s.answers) o ∧
      (r = o.map (fun _ => ()) ∨ s.cancelled d.parent = true ∧ r = .error P.cancellation)) :
    Core P { (s.destroy a).destroy d.handle with finished := s.finished ++ [(d.parent, r)], running := none } := by
  have hold : ∀ b ∈ [a, d.handle], ∀ f, s.heap b = some f → f.job = d.parent := by
    intro b hb f hf
    obtain ⟨f₀, hf₀, hj⟩ := hr.stands.job hb
    cases hf₀.symm.trans hf
    exact hj
  refine hs.finish hrun (fun b f => ?_) rfl rfl rfl rfl rfl rfl rfl fun root' hroot => ?_
  · show Function.update (Function.update s.heap a none) d.handle none b = some f ↔ _
    by_cases hb : b ∈ [a, d.handle]
    · refine iff_of_false (fun h => ?_) fun h => h.2 (hold b hb f h.1)
      rw [Function.update_apply, Function.update_apply] at h
      split at h
      · cases h
      · rename_i hne
        rw [if_pos ((List.mem_cons.mp hb).resolve_right fun h' => hne (List.mem_singleton.mp h'))] at h
        cases h
    · have hb₁ : b ≠ d.handle := List.ne_of_not_mem_cons (List.not_mem_of_not_mem_cons hb)
      have hb₂ : b ≠ a := List.ne_of_not_mem_cons hb
      rw [Function.update_of_ne hb₁, Function.update_of_ne hb₂]
      exact ⟨fun h => ⟨h, fun hj => hb (hr.all b f h hj)⟩, And.left⟩
  · cases hr.spawned.symm.trans hroot
    obtain ⟨o, heval, hor⟩ := hended
    exact ⟨o, r, List.mem_append_right _ List.mem_cons_self, heval, hor⟩

/-! ## A new job -/

variable {c : β}

theorem spawn_eq : s.spawn c a h = { s with
    roots := s.roots ++ [c]
    parents := s.parents ++ [s.running.map Data.parent]
    heap := Function.update (Function.update s.heap a (some (.task s.roots.length (.body c) none (some h)))) h
      (some (.detached s.roots.length a (s.cancelled s.roots.length)))
    ready := s.ready ++ [⟨s.roots.length, a, .continuation h⟩] } := by
  rw [State.spawn]
  rw [enqueue_detached (Function.update_self ..)]
  simp only [State.set, Function.update_idem]

theorem Core.spawn (hs : Core P s) (ha : s.heap a = none) (hh : s.heap h = none) (hne : a ≠ h) :
    Core P (s.spawn c a h) := by
  rw [spawn_eq]
  generalize hs' : ({ s with
    roots := s.roots ++ [c]
    parents := s.parents ++ [s.running.map Data.parent]
    heap := Function.update (Function.update s.heap a (some (.task s.roots.length (.body c) none (some h)))) h
      (some (.detached s.roots.length a (s.cancelled s.roots.length)))
    ready := s.ready ++ [⟨s.roots.length, a, .continuation h⟩] } : State β ω ε κ) = s'
  have hheap : ∀ b f, f.job ≠ s.roots.length → (s'.heap b = some f ↔ s.heap b = some f) := by
    intro b f hf
    rw [← hs']
    refine (update_apart (fun f h => ?_) (fun f h => by cases h; rfl) hf).trans
      (update_apart (fun f h => by cases ha.symm.trans h) (fun f h => by cases h; rfl) hf)
    rw [Function.update_of_ne hne.symm, hh] at h
    cases h
  have hroots : ∀ {i : Nat} {root : β}, s.roots[i]? = some root → s'.roots[i]? = some root := by
    intro i root hroot
    rw [← hs', List.getElem?_append_left (List.getElem?_eq_some_iff.mp hroot).1]
    exact hroot
  have hother : ∀ {i p promise}, Alive P s i p promise → Alive P s' i p promise := by
    intro i p promise halive
    have hlt := halive.lt
    exact halive.other (fun b f hf => hheap b f (hf ▸ Nat.ne_of_lt hlt)) (fun hc => hs' ▸ hc) (fun _ => hroots)
      (by rw [← hs'])
  have hpending : s'.pending.Perm (⟨s.roots.length, a, .continuation h⟩ :: s.pending) := by
    rw [← hs']
    simp only [State.pending, ← List.append_assoc]
    exact (List.perm_append_comm.append_right _).trans (List.Perm.refl _)
  have hold : ∀ {d}, d ∈ s.pending → d ∈ s'.pending := fun hd => hpending.mem_iff.mpr (List.mem_cons_of_mem _ hd)
  have hnew : Alive P s' s.roots.length a (.continuation h) := by
    refine ⟨⟨.body c, []⟩, [a, h], c, ?_, by simpa using hne, fun b f hb hf => ?_, ?_, ?_⟩
    · rw [← hs']
      exact .body ((Function.update_of_ne hne ..).trans (Function.update_self ..)) (.root (Function.update_self ..) id)
    · by_contra hmem
      rw [← hs'] at hb
      have hb' : Function.update (Function.update s.heap a _) h _ b = some f := hb
      rw [Function.update_of_ne (List.ne_of_not_mem_cons (List.not_mem_of_not_mem_cons hmem)),
        Function.update_of_ne (List.ne_of_not_mem_cons hmem)] at hb'
      obtain ⟨d, hd, hparent⟩ := hs.owned b f hb'
      exact absurd (hparent.trans hf) (Nat.ne_of_lt (hs.parent_lt hd))
    · rw [← hs']
      exact List.getElem?_concat_length
    · rw [← hs', hs.fresh _ (Nat.le_refl _)]
      exact .start
  refine ⟨?_, fun d hd => ?_, fun d hd => ?_, fun b f hb => ?_, fun i root hroot => ?_, ?_, fun r hr => ?_, fun i hi => ?_⟩
  · refine (hpending.map Data.parent).nodup_iff.mpr (List.nodup_cons.mpr ⟨fun hmem => ?_, hs.parents⟩)
    obtain ⟨d, hd, heq⟩ := List.mem_map.mp hmem
    exact absurd heq (Nat.ne_of_lt (hs.parent_lt hd))
  · rw [← hs'] at hd
    obtain ⟨promise, halive⟩ := hs.running d hd
    exact ⟨promise, hother halive⟩
  · have hperm : (s'.ready ++ s'.waiting).Perm (⟨s.roots.length, a, .continuation h⟩ :: (s.ready ++ s.waiting)) := by
      rw [← hs']
      exact (List.perm_append_comm.append_right _).trans (List.Perm.refl _)
    rcases List.mem_cons.mp (hperm.mem_iff.mp hd) with rfl | hd
    · exact hnew
    · exact hother (hs.queued d hd)
  · by_cases hf : f.job = s.roots.length
    · exact ⟨_, hpending.mem_iff.mpr List.mem_cons_self, hf.symm⟩
    · obtain ⟨d, hd, hparent⟩ := hs.owned b f ((hheap b f hf).mp hb)
      exact ⟨d, hold hd, hparent⟩
  · by_cases hi : i = s.roots.length
    · exact .inl ⟨_, hpending.mem_iff.mpr List.mem_cons_self, hi.symm⟩
    · have hlt : i < s.roots.length := by
        have := (List.getElem?_eq_some_iff.mp hroot).1
        rw [← hs', List.length_append, List.length_singleton] at this
        omega
      rw [← hs', List.getElem?_append_left hlt] at hroot
      refine (hs.ended i root hroot).imp (Exists.imp fun _ => And.imp_left hold) fun h => ?_
      exact h.other (fun r hr => hs' ▸ hr) (fun hc => hs' ▸ hc) (by rw [← hs'])
  · rw [← hs']
    exact hs.once
  · rw [← hs'] at hr
    obtain ⟨hlt, hover⟩ := hs.settled r hr
    refine ⟨by rw [← hs', List.length_append]; exact Nat.lt_add_right _ hlt, fun d hd => ?_⟩
    rcases List.mem_cons.mp (hpending.mem_iff.mp hd) with rfl | hd
    · exact Nat.ne_of_gt hlt
    · exact hover d hd
  · rw [← hs', List.length_append] at hi
    rw [← hs']
    exact hs.fresh i (Nat.le_of_add_right_le hi)

/-! ## Cancellation -/

/-- The awaiter that stands in a `user_data` is there to be cancelled. -/
theorem Stands.cancel {C : Prop} (h : Stands s.heap C j a promise T fs) (hnodup : fs.Nodup) (hC : C) :
    ∃ heap, cancelPromise s.heap promise = some heap ∧ Stands heap C j a promise T fs ∧
      (∀ b f, f.job ≠ j → (heap b = some f ↔ s.heap b = some f)) ∧
      ∀ b, (∃ f, heap b = some f ∧ f.job = j) → ∃ f, s.heap b = some f ∧ f.job = j := by
  have hwrite : ∀ {p f g}, s.heap p = some f → f.job = j → g.job = j →
      (∀ b f₁, f₁.job ≠ j → (Function.update s.heap p (some g) b = some f₁ ↔ s.heap b = some f₁)) ∧
      ∀ b, (∃ f₁, Function.update s.heap p (some g) b = some f₁ ∧ f₁.job = j) → ∃ f₁, s.heap b = some f₁ ∧ f₁.job = j := by
    intro p f g hp hf hg
    refine ⟨fun b f₁ hne => update_apart (fun f₂ h₂ => ?_) (fun f₂ h₂ => ?_) hne, ?_⟩
    · cases hp.symm.trans h₂
      exact hf
    · cases h₂
      exact hg
    · rintro b ⟨f₁, hb, hf₁⟩
      by_cases heq : b = p
      · exact ⟨f, heq ▸ hp, hf⟩
      · rw [Function.update_of_ne heq] at hb
        exact ⟨f₁, hb, hf₁⟩
  cases h with
  | @body _ q b ks fs hb hcallers =>
      have hnotin := (List.nodup_cons.mp hnodup).1
      cases hcallers with
      | root hp =>
          obtain ⟨hapart, hall⟩ := hwrite (g := .detached j a true) hp rfl rfl
          have hne : a ≠ q := List.ne_of_not_mem_cons hnotin
          refine ⟨_, by simp only [cancelPromise, hp], ?_, hapart, hall⟩
          exact .body ((Function.update_of_ne hne ..).trans hb) (.root (Function.update_self ..) fun _ => hC)
      | @call _ _ q' flag k ks fs hp hflag hrest =>
          obtain ⟨hapart, hall⟩ := hwrite (g := .task j (.awaiting a true k) none (some q')) hp rfl rfl
          have hne : a ≠ q := List.ne_of_not_mem_cons hnotin
          have hnotin' := (List.nodup_cons.mp (List.nodup_cons.mp hnodup).2).1
          refine ⟨_, by simp only [cancelPromise, hp], ?_, hapart, hall⟩
          exact .body ((Function.update_of_ne hne ..).trans hb)
            (.call (Function.update_self ..) (fun _ => hC) (hrest.update hnotin'))
  | @asking _ p q flag k ks fs hb hflag hcallers =>
      obtain ⟨hapart, hall⟩ := hwrite (g := .task j (.asking q true k) none (some p)) hb rfl rfl
      refine ⟨_, by simp only [cancelPromise, hb], ?_, hapart, hall⟩
      exact .asking (Function.update_self ..) (fun _ => hC) (hcallers.update (List.nodup_cons.mp hnodup).1)
  | returning hc hcallers =>
      exact ⟨s.heap, by simp only [cancelPromise, hc, Option.map_some], .returning hc hcallers, fun _ _ _ => Iff.rfl,
        fun _ h => h⟩

theorem Core.cancelCompletion (hs : Core P s) (hd : d ∈ s.ready ++ s.waiting)
    (hcancelled : s.cancelled d.parent = true) :
    ∃ heap, s.cancelCompletion d = { s with heap := heap } ∧ Core P { s with heap := heap } := by
  obtain ⟨T, fs, root, hr⟩ := hs.queued d hd
  obtain ⟨heap, hcancel, hstands, hapart, hall⟩ := hr.stands.cancel hr.nodup hcancelled
  refine ⟨heap, by rw [State.cancelCompletion, hcancel], ?_⟩
  have hapart : Apart s { s with heap := heap } d.parent := ⟨hapart, rfl, rfl, fun _ _ => rfl⟩
  refine hs.keep hapart ⟨d, mem_pending_queued hd, rfl⟩ (List.Perm.refl _) rfl (fun e he => ?_) fun e he => ?_
  · obtain ⟨promise, halive⟩ := hs.running e he
    exact ⟨promise, hapart.alive (hs.ne_parent he hd).symm halive⟩
  · by_cases heq : e.parent = d.parent
    · obtain rfl := List.inj_on_of_nodup_map hs.parents (mem_pending_queued he) (mem_pending_queued hd) heq
      refine ⟨T, fs, root, hstands, hr.nodup, fun b f hb hf => ?_, hr.spawned, hr.way⟩
      obtain ⟨f', hb', hf'⟩ := hall b ⟨f, hb, hf⟩
      exact hr.all b f' hb' hf'
    · exact hapart.alive heq (hs.queued e he)

/-- The loop over the completions of a job that is cancelled. -/
theorem Core.cancelCompletions (hs : Core P s) {ds : List Data} (hds : ∀ d ∈ ds, d ∈ s.ready ++ s.waiting)
    (hcancelled : ∀ d ∈ ds, s.cancelled d.parent = true) :
    (ds.foldl State.cancelCompletion s).fault = s.fault ∧ Core P (ds.foldl State.cancelCompletion s) := by
  induction ds generalizing s with
  | nil => exact ⟨rfl, hs⟩
  | cons d ds ih =>
      obtain ⟨heap, heq, hs'⟩ := hs.cancelCompletion (hds d List.mem_cons_self) (hcancelled d List.mem_cons_self)
      rw [List.foldl_cons, heq]
      exact ih hs' (fun e he => hds e (List.mem_cons_of_mem _ he)) fun e he => hcancelled e (List.mem_cons_of_mem _ he)

theorem Core.cancel (hs : Core P s) : Core P { s with cancelled := Function.update s.cancelled j true } := by
  have hC : ∀ i, s.cancelled i = true → Function.update s.cancelled j true i = true := by
    intro i hi
    rw [Function.update_apply, hi, ite_self]
  have halive : ∀ {i p promise}, Alive P s i p promise →
      Alive P { s with cancelled := Function.update s.cancelled j true } i p promise :=
    fun h => h.other (fun _ _ _ => Iff.rfl) (hC _) (fun _ => id) rfl
  refine ⟨hs.parents, fun d hd => ?_, fun d hd => halive (hs.queued d hd), hs.owned, fun i root hroot => ?_, hs.once,
    hs.settled, hs.fresh⟩
  · obtain ⟨promise, h⟩ := hs.running d hd
    exact ⟨promise, halive h⟩
  · exact (hs.ended i root hroot).imp_right fun h => h.other (fun _ => id) (hC i) rfl

theorem Core.cancelJob (hs : Core P s) (job : Nat) : (s.cancelJob job).fault = s.fault ∧ Core P (s.cancelJob job) := by
  refine (hs.cancel (j := job)).cancelCompletions (fun d hd => (List.mem_filter.mp hd).1) fun d hd => ?_
  rw [of_decide_eq_true (List.mem_filter.mp hd).2]
  exact Function.update_self ..

end Dwhbll.Concurrency.Coroutine.Tasks
