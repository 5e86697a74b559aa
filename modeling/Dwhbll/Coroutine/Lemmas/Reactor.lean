import Dwhbll.Coroutine.Reactor

/-!
# The forest of jobs

What every run keeps of the jobs and their completions. While `job_lifetime_end` goes up the parents there are
jobs that their parents have forgotten and that are not offered yet; the invariant says which.
-/

namespace Dwhbll.Concurrency.Coroutine

theorem Job.isDone_iff {job : Job} : job.isDone = true ↔ job.completions = ∅ ∧ job.children = ∅ := by
  rw [Job.isDone, decide_eq_true_iff]

namespace Reactor

variable {r r' : Reactor} {i j k p d : Nat}

/-! ## What the operations do to a job -/

theorem modifyJob_job (j : Nat) (f : Job → Job) (r : Reactor) (i : Nat) :
    (r.modifyJob j f).job i = if i = j then f (r.job j) else r.job i := by
  exact Function.update_apply r.job j (f (r.job j)) i

/-- A change that leaves a field of the job alone. -/
theorem modifyJob_field {α : Type} {f : Job → Job} (field : Job → α) (h : ∀ job, field (f job) = field job)
    (j : Nat) (r : Reactor) (i : Nat) : field ((r.modifyJob j f).job i) = field (r.job i) := by
  rw [modifyJob_job]
  split
  · next heq => rw [h, heq]
  · rfl

@[simp]
theorem insertChild_parent (p j : Nat) (r : Reactor) (i : Nat) :
    ((r.insertChild p j).job i).parent = (r.job i).parent :=
  modifyJob_field Job.parent (by intro; rfl) p r i

@[simp]
theorem insertChild_completions (p j : Nat) (r : Reactor) (i : Nat) :
    ((r.insertChild p j).job i).completions = (r.job i).completions :=
  modifyJob_field Job.completions (by intro; rfl) p r i

theorem mem_insertChild_children : k ∈ ((r.insertChild p j).job i).children ↔
    k ∈ (r.job i).children ∨ i = p ∧ k = j := by
  rw [insertChild, modifyJob_job]
  split
  · next h =>
      rw [h, Finset.mem_insert]
      simp only [true_and]
      exact Or.comm
  · next h => simp only [h, false_and, or_false]

@[simp]
theorem eraseChild_parent (p j : Nat) (r : Reactor) (i : Nat) :
    ((r.eraseChild p j).job i).parent = (r.job i).parent :=
  modifyJob_field Job.parent (by intro; rfl) p r i

@[simp]
theorem eraseChild_completions (p j : Nat) (r : Reactor) (i : Nat) :
    ((r.eraseChild p j).job i).completions = (r.job i).completions :=
  modifyJob_field Job.completions (by intro; rfl) p r i

theorem mem_eraseChild_children : k ∈ ((r.eraseChild p j).job i).children ↔
    k ∈ (r.job i).children ∧ ¬ (i = p ∧ k = j) := by
  rw [eraseChild, modifyJob_job]
  split
  · next h =>
      rw [h, Finset.mem_erase]
      simp only [true_and]
      exact And.comm
  · next h => simp only [h, false_and, not_false_eq_true, and_true]

@[simp]
theorem insertCompletion_parent (j d : Nat) (r : Reactor) (i : Nat) :
    ((r.insertCompletion j d).job i).parent = (r.job i).parent :=
  modifyJob_field Job.parent (by intro; rfl) j r i

@[simp]
theorem insertCompletion_children (j d : Nat) (r : Reactor) (i : Nat) :
    ((r.insertCompletion j d).job i).children = (r.job i).children :=
  modifyJob_field Job.children (by intro; rfl) j r i

theorem mem_insertCompletion_completions : k ∈ ((r.insertCompletion j d).job i).completions ↔
    k ∈ (r.job i).completions ∨ i = j ∧ k = d := by
  rw [insertCompletion, modifyJob_job]
  split
  · next h =>
      rw [h, Finset.mem_insert]
      simp only [true_and]
      exact Or.comm
  · next h => simp only [h, false_and, or_false]

@[simp]
theorem eraseCompletion_parent (j d : Nat) (r : Reactor) (i : Nat) :
    ((r.eraseCompletion j d).job i).parent = (r.job i).parent :=
  modifyJob_field Job.parent (by intro; rfl) j r i

@[simp]
theorem eraseCompletion_children (j d : Nat) (r : Reactor) (i : Nat) :
    ((r.eraseCompletion j d).job i).children = (r.job i).children :=
  modifyJob_field Job.children (by intro; rfl) j r i

theorem mem_eraseCompletion_completions : k ∈ ((r.eraseCompletion j d).job i).completions ↔
    k ∈ (r.job i).completions ∧ ¬ (i = j ∧ k = d) := by
  rw [eraseCompletion, modifyJob_job]
  split
  · next h =>
      rw [h, Finset.mem_erase]
      simp only [true_and]
      exact And.comm
  · next h => simp only [h, false_and, not_false_eq_true, and_true]

/-! ## The invariant -/

/-- The jobs, their children and their completions agree with each other and with what the pools gave out.
`Z` are jobs on which `job_lifetime_end` is at work, which no parent has any more, and `D` the completions on which
`user_data_lifetime_end` is. -/
structure Forest (Z D : Finset Nat) (r : Reactor) : Prop where
  ending : ∀ j ∈ Z, j ∈ r.jobs ∧ (r.job j).completions = ∅ ∧ (r.job j).children = ∅
  parent : ∀ j ∈ r.jobs, j ∉ Z → ∀ p, (r.job j).parent = some p → p ∈ r.jobs ∧ j ∈ (r.job p).children
  child : ∀ p ∈ r.jobs, ∀ j ∈ (r.job p).children, j ∈ r.jobs ∧ j ∉ Z ∧ (r.job j).parent = some p
  pending : ∀ d ∈ r.pending, d ∉ D → r.parent d ∈ r.jobs ∧ d ∈ (r.job (r.parent d)).completions
  completion : ∀ j ∈ r.jobs, ∀ d ∈ (r.job j).completions, d ∈ r.pending ∧ d ∉ D ∧ r.parent d = j
  inflight : r.inflightJobs = r.jobs.card
  balance : ∀ j, r.acquired.count j = (r.offered.map Prod.fst).count j + if j ∈ r.jobs then 1 else 0
  offered : ∀ o ∈ r.offered, o.2.completions = ∅ ∧ o.2.children = ∅
  ranked : ∃ rank : Nat → Nat, ∀ j ∈ r.jobs, ∀ p, (r.job j).parent = some p → rank p < rank j

/-- A job that is out and is none of `except` has something to wait for, or is still being spawned. -/
def Busy (except : Finset Nat) (r : Reactor) : Prop :=
  ∀ j ∈ r.jobs, j ∉ except → j ∉ r.spawning → (r.job j).isDone = false

/-- What `job_lifetime_end` leaves alone. -/
structure Same (r r' : Reactor) : Prop where
  pending : r'.pending = r.pending
  spawning : r'.spawning = r.spawning
  resumed : r'.resumed = r.resumed

variable {Z D : Finset Nat}

/-- The ranks stay where the parents do. -/
theorem Forest.ranked_of_parent (h : Forest Z D r) (hjobs : r'.jobs ⊆ r.jobs)
    (hpar : ∀ i, (r'.job i).parent = (r.job i).parent) :
    ∃ rank : Nat → Nat, ∀ j ∈ r'.jobs, ∀ p, (r'.job j).parent = some p → rank p < rank j := by
  obtain ⟨rank, hrank⟩ := h.ranked
  refine ⟨rank, fun i hi q hq => ?_⟩
  rw [hpar] at hq
  exact hrank i (hjobs hi) q hq

/-! ## The end of a job -/

theorem Forest.parent_ne (h : Forest Z D r) (hj : j ∈ r.jobs) (hZ : j ∉ Z)
    (hdone : (r.job j).isDone = true) (hp : (r.job j).parent = some p) : p ∉ insert j Z := by
  obtain ⟨-, hmem⟩ := h.parent j hj hZ p hp
  intro hin
  rcases Finset.mem_insert.mp hin with rfl | hin
  · rw [(Job.isDone_iff.mp hdone).2] at hmem
    cases hmem
  · rw [(h.ending p hin).2.2] at hmem
    cases hmem

/-- A root that is done. -/
theorem Forest.detachRoot (h : Forest Z D r) (hj : j ∈ r.jobs) (hdone : (r.job j).isDone = true)
    (hp : (r.job j).parent = none) : Forest (insert j Z) D r where
  ending := by
    intro i hi
    rcases Finset.mem_insert.mp hi with rfl | hi
    · exact ⟨hj, Job.isDone_iff.mp hdone⟩
    · exact h.ending i hi
  parent i hi hiZ := h.parent i hi fun hin => hiZ (Finset.mem_insert_of_mem hin)
  child := by
    intro q hq i hi
    obtain ⟨hlive, hiZ, hpar⟩ := h.child q hq i hi
    refine ⟨hlive, fun hin => ?_, hpar⟩
    rcases Finset.mem_insert.mp hin with rfl | hin
    · rw [hp] at hpar
      cases hpar
    · exact hiZ hin
  pending := h.pending
  completion := h.completion
  inflight := h.inflight
  balance := h.balance
  offered := h.offered
  ranked := h.ranked

/-- A job that is done is forgotten by its parent. -/
theorem Forest.detach (h : Forest Z D r) (hj : j ∈ r.jobs) (hdone : (r.job j).isDone = true)
    (hp : (r.job j).parent = some p) : Forest (insert j Z) D (r.eraseChild p j) where
  ending := by
    have hempty : ∀ i, (r.job i).children = ∅ → ((r.eraseChild p j).job i).children = ∅ := by
      intro i hi
      refine Finset.eq_empty_of_forall_notMem fun k hk => ?_
      rw [mem_eraseChild_children, hi] at hk
      cases hk.1
    intro i hi
    rw [eraseChild_completions]
    rcases Finset.mem_insert.mp hi with rfl | hi
    · obtain ⟨hc, hch⟩ := Job.isDone_iff.mp hdone
      exact ⟨hj, hc, hempty i hch⟩
    · obtain ⟨hlive, hc, hch⟩ := h.ending i hi
      exact ⟨hlive, hc, hempty i hch⟩
  parent := by
    intro i hi hiZ q hq
    rw [eraseChild_parent] at hq
    rw [Finset.mem_insert, not_or] at hiZ
    obtain ⟨hlive, hmem⟩ := h.parent i hi hiZ.2 q hq
    exact ⟨hlive, mem_eraseChild_children.mpr ⟨hmem, fun heq => hiZ.1 heq.2⟩⟩
  child := by
    intro q hq i hi
    obtain ⟨hmem, hne⟩ := mem_eraseChild_children.mp hi
    obtain ⟨hlive, hiZ, hpar⟩ := h.child q hq i hmem
    rw [eraseChild_parent]
    refine ⟨hlive, fun hin => ?_, hpar⟩
    rcases Finset.mem_insert.mp hin with rfl | hin
    · -- Only its parent had it as a child.
      rw [hp] at hpar
      cases hpar
      exact hne ⟨rfl, rfl⟩
    · exact hiZ hin
  pending := by
    intro d hd hD
    rw [eraseChild_completions]
    exact h.pending d hd hD
  completion := by
    intro i hi d hd
    rw [eraseChild_completions] at hd
    exact h.completion i hi d hd
  inflight := h.inflight
  balance := h.balance
  offered := h.offered
  ranked := h.ranked_of_parent (Finset.Subset.refl _) fun i => eraseChild_parent ..

theorem Forest.balance_offerJob (h : Forest Z D r) (hj : j ∈ r.jobs) (i : Nat) :
    (r.offerJob j).acquired.count i =
      ((r.offerJob j).offered.map Prod.fst).count i + if i ∈ (r.offerJob j).jobs then 1 else 0 := by
  show r.acquired.count i =
    ((r.offered ++ [(j, r.job j)]).map Prod.fst).count i + if i ∈ r.jobs.erase j then 1 else 0
  rw [List.map_append, List.count_append, List.map_singleton, List.count_singleton, h.balance i]
  by_cases hij : i = j
  · subst hij
    simp [hj]
  · have hji : (j == i) = false := beq_false_of_ne fun heq => hij heq.symm
    simp [hji, hij]

theorem Forest.offerJob (h : Forest (insert j Z) D r) (hZ : j ∉ Z) : Forest Z D (r.offerJob j) where
  ending := by
    intro i hi
    obtain ⟨hlive, hempty⟩ := h.ending i (Finset.mem_insert_of_mem hi)
    have hne : i ≠ j := ne_of_mem_of_not_mem hi hZ
    exact ⟨Finset.mem_erase.mpr ⟨hne, hlive⟩, hempty⟩
  parent := by
    intro i hi hiZ q hq
    obtain ⟨hne, hlive⟩ := Finset.mem_erase.mp hi
    have hnotin : i ∉ insert j Z := by simp [hne, hiZ]
    obtain ⟨hqlive, hmem⟩ := h.parent i hlive hnotin q hq
    refine ⟨Finset.mem_erase.mpr ⟨?_, hqlive⟩, hmem⟩
    rintro rfl
    rw [(h.ending q (Finset.mem_insert_self q Z)).2.2] at hmem
    cases hmem
  child := by
    intro q hq i hi
    obtain ⟨hlive, hiZ, hpar⟩ := h.child q (Finset.mem_of_mem_erase hq) i hi
    rw [Finset.mem_insert, not_or] at hiZ
    exact ⟨Finset.mem_erase.mpr ⟨hiZ.1, hlive⟩, hiZ.2, hpar⟩
  pending := by
    intro d hd hD
    obtain ⟨hlive, hmem⟩ := h.pending d hd hD
    have hne : r.parent d ≠ j := by
      intro heq
      rw [heq, (h.ending j (Finset.mem_insert_self j Z)).2.1] at hmem
      cases hmem
    exact ⟨Finset.mem_erase.mpr ⟨hne, hlive⟩, hmem⟩
  completion i hi := h.completion i (Finset.mem_of_mem_erase hi)
  inflight := by
    have hlive := (h.ending j (Finset.mem_insert_self j Z)).1
    have hcard := Finset.card_erase_add_one hlive
    have hinflight := h.inflight
    show r.inflightJobs - 1 = ((r.jobs.erase j).card : Int)
    omega
  balance := h.balance_offerJob (h.ending j (Finset.mem_insert_self j Z)).1
  offered := by
    intro o ho
    rcases List.mem_append.mp ho with ho | ho
    · exact h.offered o ho
    · rw [List.mem_singleton.mp ho]
      exact (h.ending j (Finset.mem_insert_self j Z)).2
  ranked := h.ranked_of_parent (Finset.erase_subset j r.jobs) fun _ => rfl

theorem Busy.offerJob (h : Busy (insert j Z) r) : Busy Z (r.offerJob j) := by
  intro i hi hiZ
  obtain ⟨hne, hlive⟩ := Finset.mem_erase.mp hi
  exact h i hlive (by simp [hne, hiZ])

theorem Busy.eraseChild (h : Busy (insert j Z) r) :
    Busy (insert p (insert j Z)) (r.eraseChild p j) := by
  intro i hi hiZ hsp
  rw [Finset.mem_insert, not_or] at hiZ
  rw [Reactor.eraseChild, modifyJob_job, if_neg hiZ.1]
  exact h i hi hiZ.2 hsp

theorem Busy.of_insert (h : Busy (insert p Z) r) (hp : (r.job p).isDone = false) : Busy Z r := by
  intro i hi hiZ hsp
  by_cases heq : i = p
  · rw [heq]
    exact hp
  · exact h i hi (by simp [heq, hiZ]) hsp

/-- A job that is done can be ended, with all of its parents that have nothing left then. Those that are left
have something to wait for. -/
theorem jobLifetimeEnd_spec {fuel : Nat} (h : Forest Z D r) (hbusy : Busy (insert j Z) r) (hj : j ∈ r.jobs)
    (hZ : j ∉ Z) (hdone : (r.job j).isDone = true) (hfuel : r.jobs.card ≤ fuel + Z.card) :
    ∃ r', r.jobLifetimeEnd fuel j = some r' ∧ Forest Z D r' ∧ Busy Z r' ∧ Same r r' := by
  induction fuel generalizing r j Z with
  | zero =>
      -- The jobs that are being ended are all different.
      have hsub : insert j Z ⊆ r.jobs := by
        intro i hi
        rcases Finset.mem_insert.mp hi with rfl | hi
        · exact hj
        · exact (h.ending i hi).1
      have hcard := Finset.card_le_card hsub
      rw [Finset.card_insert_of_notMem hZ] at hcard
      omega
  | succ fuel ih =>
      cases hp : (r.job j).parent with
      | none =>
          refine ⟨r.offerJob j, ?_, (h.detachRoot hj hdone hp).offerJob hZ, hbusy.offerJob, ⟨rfl, rfl, rfl⟩⟩
          simp only [jobLifetimeEnd, if_pos hj, hp]
      | some p =>
          have hplive := (h.parent j hj hZ p hp).1
          have hpZ := h.parent_ne hj hZ hdone hp
          have hdetached := h.detach hj hdone hp
          obtain ⟨r', hrun, hforest, hbusy', hsame⟩ : ∃ r',
              (if ((r.eraseChild p j).job p).isDone then (r.eraseChild p j).jobLifetimeEnd fuel p
                else some (r.eraseChild p j)) = some r' ∧
              Forest (insert j Z) D r' ∧ Busy (insert j Z) r' ∧ Same (r.eraseChild p j) r' := by
            by_cases hpdone : ((r.eraseChild p j).job p).isDone = true
            · rw [if_pos hpdone]
              refine ih hdetached hbusy.eraseChild hplive hpZ hpdone ?_
              rw [Finset.card_insert_of_notMem hZ]
              show r.jobs.card ≤ _
              omega
            · rw [if_neg hpdone]
              exact ⟨_, rfl, hdetached, hbusy.eraseChild.of_insert (Bool.eq_false_iff.mpr hpdone), ⟨rfl, rfl, rfl⟩⟩
          have hlive := (hforest.ending j (Finset.mem_insert_self j Z)).1
          refine ⟨r'.offerJob j, ?_, hforest.offerJob hZ, hbusy'.offerJob, ?_⟩
          · simp only [jobLifetimeEnd, if_pos hj, hp, if_pos hplive, hrun, if_pos hlive]
          · exact ⟨hsame.pending, hsame.spawning, hsame.resumed⟩

/-! ## The end of a completion -/

theorem Forest.eraseCompletion (h : Forest ∅ ∅ r) (d : Nat) :
    Forest ∅ {d} (r.eraseCompletion (r.parent d) d) where
  ending := by
    intro i hi
    cases hi
  parent := by
    intro i hi hiZ q hq
    rw [eraseCompletion_parent] at hq
    rw [eraseCompletion_children]
    exact h.parent i hi hiZ q hq
  child := by
    intro q hq i hi
    rw [eraseCompletion_children] at hi
    rw [eraseCompletion_parent]
    exact h.child q hq i hi
  pending := by
    intro e he hed
    obtain ⟨hlive, hmem⟩ := h.pending e he (Finset.notMem_empty e)
    exact ⟨hlive, mem_eraseCompletion_completions.mpr ⟨hmem, fun heq => hed (Finset.mem_singleton.mpr heq.2)⟩⟩
  completion := by
    intro i hi e he
    obtain ⟨hmem, hne⟩ := mem_eraseCompletion_completions.mp he
    obtain ⟨hpending, -, hpar⟩ := h.completion i hi e hmem
    refine ⟨hpending, fun hed => ?_, hpar⟩
    -- Only its own job lists a completion.
    rw [Finset.mem_singleton.mp hed] at hpar hne
    exact hne ⟨hpar.symm, rfl⟩
  inflight := h.inflight
  balance := h.balance
  offered := h.offered
  ranked := h.ranked_of_parent (Finset.Subset.refl _) fun i => eraseCompletion_parent ..

theorem Busy.eraseCompletion (h : Busy ∅ r) : Busy {j} (r.eraseCompletion j d) := by
  intro i hi hne hsp
  rw [Reactor.eraseCompletion, modifyJob_job, if_neg (Finset.notMem_singleton.mp hne)]
  exact h i hi (Finset.notMem_empty i) hsp

theorem Forest.offerData (h : Forest ∅ {d} r) : Forest ∅ ∅ (r.offerData d) where
  ending := h.ending
  parent := h.parent
  child := h.child
  pending := by
    intro e he _
    obtain ⟨hne, hpending⟩ := Finset.mem_erase.mp he
    exact h.pending e hpending (Finset.notMem_singleton.mpr hne)
  completion := by
    intro i hi e he
    obtain ⟨hpending, hne, hpar⟩ := h.completion i hi e he
    exact ⟨Finset.mem_erase.mpr ⟨Finset.notMem_singleton.mp hne, hpending⟩, Finset.notMem_empty e, hpar⟩
  inflight := h.inflight
  balance := h.balance
  offered := h.offered
  ranked := h.ranked

/-- A completion that is pending can be ended, and nothing that has been given back is touched on the way. -/
theorem userDataLifetimeEnd_spec (h : Forest ∅ ∅ r) (hbusy : Busy ∅ r) (hd : d ∈ r.pending) :
    ∃ r', r.userDataLifetimeEnd d = some r' ∧ Forest ∅ ∅ r' ∧ Busy ∅ r' ∧
      r'.spawning = r.spawning ∧ r'.resumed = r.resumed := by
  obtain ⟨hlive, -⟩ := h.pending d hd (Finset.notMem_empty d)
  have herased := h.eraseCompletion d
  obtain ⟨r', hrun, hforest, hbusy', hsame⟩ : ∃ r',
      (if ((r.eraseCompletion (r.parent d) d).job (r.parent d)).isDone then
          (r.eraseCompletion (r.parent d) d).jobLifetimeEnd r.jobs.card (r.parent d)
        else some (r.eraseCompletion (r.parent d) d)) = some r' ∧
      Forest ∅ {d} r' ∧ Busy ∅ r' ∧ Same (r.eraseCompletion (r.parent d) d) r' := by
    by_cases hdone : ((r.eraseCompletion (r.parent d) d).job (r.parent d)).isDone = true
    · rw [if_pos hdone]
      exact jobLifetimeEnd_spec herased hbusy.eraseCompletion hlive (Finset.notMem_empty _) hdone (Nat.le_refl _)
    · rw [if_neg hdone]
      exact ⟨_, rfl, herased, hbusy.eraseCompletion.of_insert (Bool.eq_false_iff.mpr hdone), ⟨rfl, rfl, rfl⟩⟩
  refine ⟨r'.offerData d, ?_, hforest.offerData, hbusy', hsame.spawning, hsame.resumed⟩
  have hcard : (r.eraseCompletion (r.parent d) d).jobs = r.jobs := rfl
  simp only [userDataLifetimeEnd, if_pos hlive, hcard, hrun]

/-! ## The begin of a job -/

/-- What `job_lifetime_begin` has done. -/
structure Begun (cur : Option Nat) (j : Nat) (r r' : Reactor) : Prop where
  jobs : r'.jobs = insert j r.jobs
  new : r'.job j = { parent := cur }
  parent : ∀ i, i ≠ j → (r'.job i).parent = (r.job i).parent
  completions : ∀ i, i ≠ j → (r'.job i).completions = (r.job i).completions
  children : ∀ i, i ≠ j → ∀ k, k ∈ (r'.job i).children ↔ k ∈ (r.job i).children ∨ cur = some i ∧ k = j
  pending : r'.pending = r.pending
  owner : r'.parent = r.parent
  inflight : r'.inflightJobs = r.inflightJobs + 1
  acquired : r'.acquired = r.acquired ++ [j]
  offered : r'.offered = r.offered
  spawning : r'.spawning = r.spawning
  resumed : r'.resumed = r.resumed

theorem acquireJob_job_ne {cur : Option Nat} (h : i ≠ j) : (r.acquireJob cur j).job i = r.job i :=
  Function.update_of_ne h _ _

theorem jobLifetimeBegin_spec {cur : Option Nat} (hcur : ∀ p, cur = some p → p ∈ r.jobs) (hj : j ∉ r.jobs) :
    ∃ r', r.jobLifetimeBegin cur j = some r' ∧ Begun cur j r r' := by
  have hnew : (r.acquireJob cur j).job j = { parent := cur } := Function.update_self _ _ _
  cases cur with
  | none =>
      refine ⟨_, rfl, ?_⟩
      constructor <;> first | rfl | exact hnew | dsimp only
      · intro i hi
        rw [acquireJob_job_ne hi]
      · intro i hi
        rw [acquireJob_job_ne hi]
      · intro i hi k
        simp only [acquireJob_job_ne hi, reduceCtorEq, false_and, or_false]
  | some p =>
      have hlive := hcur p rfl
      have hpj : j ≠ p := (ne_of_mem_of_not_mem hlive hj).symm
      have hin : p ∈ (r.acquireJob (some p) j).jobs := Finset.mem_insert_of_mem hlive
      refine ⟨_, by rw [jobLifetimeBegin]; exact if_pos hin, ?_⟩
      constructor <;> first | rfl | dsimp only
      · rw [insertChild, modifyJob_job, if_neg hpj, hnew]
      · intro i hi
        rw [insertChild_parent, acquireJob_job_ne hi]
      · intro i hi
        rw [insertChild_completions, acquireJob_job_ne hi]
      · intro i hi k
        rw [mem_insertChild_children, acquireJob_job_ne hi, Option.some.injEq, eq_comm (a := i)]

/-- The new job comes after all that are there. -/
theorem Forest.ranked_begun {cur : Option Nat} (h : Forest ∅ ∅ r) (hcur : ∀ p, cur = some p → p ∈ r.jobs)
    (hj : j ∉ r.jobs) (hb : Begun cur j r r') :
    ∃ rank : Nat → Nat, ∀ i ∈ r'.jobs, ∀ p, (r'.job i).parent = some p → rank p < rank i := by
  obtain ⟨rank, hrank⟩ := h.ranked
  refine ⟨Function.update rank j (r.jobs.sup rank + 1), fun i hi q hq => ?_⟩
  rw [hb.jobs] at hi
  by_cases hij : i = j
  · rw [hij, hb.new] at hq
    have hlive := hcur q hq
    have hqj : q ≠ j := ne_of_mem_of_not_mem hlive hj
    rw [hij, Function.update_self, Function.update_of_ne hqj]
    exact Nat.lt_succ_of_le (Finset.le_sup hlive)
  · rw [hb.parent i hij] at hq
    have hi' := Finset.mem_of_mem_insert_of_ne hi hij
    obtain ⟨hlive, -⟩ := h.parent i hi' (Finset.notMem_empty i) q hq
    have hqj : q ≠ j := ne_of_mem_of_not_mem hlive hj
    rw [Function.update_of_ne hij, Function.update_of_ne hqj]
    exact hrank i hi' q hq

theorem Forest.balance_begun {cur : Option Nat} (h : Forest ∅ ∅ r) (hj : j ∉ r.jobs) (hb : Begun cur j r r')
    (i : Nat) : r'.acquired.count i = (r'.offered.map Prod.fst).count i + if i ∈ r'.jobs then 1 else 0 := by
  rw [hb.acquired, hb.offered, hb.jobs, List.count_append, List.count_singleton, h.balance i]
  by_cases hij : i = j
  · subst hij
    simp [hj]
  · have hji : (j == i) = false := beq_false_of_ne fun heq => hij heq.symm
    simp [hji, hij]

theorem Forest.begun {cur : Option Nat} (h : Forest ∅ ∅ r) (hcur : ∀ p, cur = some p → p ∈ r.jobs)
    (hj : j ∉ r.jobs) (hb : Begun cur j r r') : Forest ∅ ∅ r' where
  ending := by
    intro i hi
    cases hi
  parent := by
    intro i hi hiZ q hq
    rw [hb.jobs]
    rw [hb.jobs] at hi
    by_cases hij : i = j
    · rw [hij, hb.new] at hq
      have hlive := hcur q hq
      have hqj : q ≠ j := ne_of_mem_of_not_mem hlive hj
      exact ⟨Finset.mem_insert_of_mem hlive, (hb.children q hqj i).mpr (.inr ⟨hq, hij⟩)⟩
    · rw [hb.parent i hij] at hq
      obtain ⟨hlive, hmem⟩ := h.parent i (Finset.mem_of_mem_insert_of_ne hi hij) hiZ q hq
      have hqj : q ≠ j := ne_of_mem_of_not_mem hlive hj
      exact ⟨Finset.mem_insert_of_mem hlive, (hb.children q hqj i).mpr (.inl hmem)⟩
  child := by
    intro q hq i hi
    rw [hb.jobs]
    rw [hb.jobs] at hq
    by_cases hqj : q = j
    · rw [hqj, hb.new] at hi
      cases hi
    · rcases (hb.children q hqj i).mp hi with hmem | ⟨hcq, rfl⟩
      · obtain ⟨hlive, hiZ, hpar⟩ := h.child q (Finset.mem_of_mem_insert_of_ne hq hqj) i hmem
        have hij : i ≠ j := ne_of_mem_of_not_mem hlive hj
        rw [hb.parent i hij]
        exact ⟨Finset.mem_insert_of_mem hlive, hiZ, hpar⟩
      · refine ⟨Finset.mem_insert_self i r.jobs, Finset.notMem_empty i, ?_⟩
        rw [hb.new, hcq]
  pending := by
    intro d hd hD
    rw [hb.pending] at hd
    rw [hb.owner, hb.jobs]
    obtain ⟨hlive, hmem⟩ := h.pending d hd hD
    have hne : r.parent d ≠ j := ne_of_mem_of_not_mem hlive hj
    rw [hb.completions _ hne]
    exact ⟨Finset.mem_insert_of_mem hlive, hmem⟩
  completion := by
    intro i hi d hd
    rw [hb.pending, hb.owner]
    rw [hb.jobs] at hi
    by_cases hij : i = j
    · rw [hij, hb.new] at hd
      cases hd
    · rw [hb.completions i hij] at hd
      exact h.completion i (Finset.mem_of_mem_insert_of_ne hi hij) d hd
  inflight := by
    rw [hb.inflight, hb.jobs, h.inflight, Finset.card_insert_of_notMem hj]
    rfl
  balance := h.balance_begun hj hb
  offered := by
    rw [hb.offered]
    exact h.offered
  ranked := h.ranked_begun hcur hj hb

theorem Busy.begun {cur : Option Nat} (h : Busy ∅ r) (hb : Begun cur j r r') :
    Busy ∅ { r' with spawning := j :: r.spawning } := by
  intro i hi hZ hsp
  rw [List.mem_cons, not_or] at hsp
  have hlive : i ∈ r.jobs := Finset.mem_of_mem_insert_of_ne (hb.jobs ▸ hi) hsp.1
  have hbusy := h i hlive hZ hsp.2
  rw [Bool.eq_false_iff] at hbusy ⊢
  intro hdone
  obtain ⟨hc, hch⟩ := Job.isDone_iff.mp hdone
  refine hbusy (Job.isDone_iff.mpr ⟨(hb.completions i hsp.1).symm.trans hc, ?_⟩)
  refine Finset.eq_empty_of_forall_notMem fun k hk => ?_
  have hmem := (hb.children i hsp.1 k).mpr (.inl hk)
  rw [hch] at hmem
  cases hmem

/-! ## The begin of a completion -/

theorem Forest.beginData (h : Forest ∅ ∅ r) (hj : j ∈ r.jobs) (hd : d ∉ r.pending) :
    Forest ∅ ∅ ((r.acquireData j d).insertCompletion j d) where
  ending := by
    intro i hi
    cases hi
  parent := by
    intro i hi hiZ q hq
    rw [insertCompletion_parent] at hq
    rw [insertCompletion_children]
    exact h.parent i hi hiZ q hq
  child := by
    intro q hq i hi
    rw [insertCompletion_children] at hi
    rw [insertCompletion_parent]
    exact h.child q hq i hi
  pending := by
    intro e he hD
    show Function.update r.parent d j e ∈ r.jobs ∧
      e ∈ (((r.acquireData j d).insertCompletion j d).job (Function.update r.parent d j e)).completions
    rw [mem_insertCompletion_completions]
    by_cases hed : e = d
    · rw [hed, Function.update_self]
      exact ⟨hj, .inr ⟨rfl, rfl⟩⟩
    · rw [Function.update_of_ne hed]
      obtain ⟨hlive, hmem⟩ := h.pending e (Finset.mem_of_mem_insert_of_ne he hed) hD
      exact ⟨hlive, .inl hmem⟩
  completion := by
    intro i hi e he
    show e ∈ insert d r.pending ∧ e ∉ (∅ : Finset Nat) ∧ Function.update r.parent d j e = i
    rcases mem_insertCompletion_completions.mp he with hmem | ⟨rfl, rfl⟩
    · obtain ⟨hpending, hD, hpar⟩ := h.completion i hi e hmem
      have hed : e ≠ d := ne_of_mem_of_not_mem hpending hd
      rw [Function.update_of_ne hed]
      exact ⟨Finset.mem_insert_of_mem hpending, hD, hpar⟩
    · exact ⟨Finset.mem_insert_self e r.pending, Finset.notMem_empty e, Function.update_self _ _ _⟩
  inflight := h.inflight
  balance := h.balance
  offered := h.offered
  ranked := h.ranked_of_parent (Finset.Subset.refl _) fun i => insertCompletion_parent ..

theorem Busy.beginData (h : Busy ∅ r) : Busy ∅ ((r.acquireData j d).insertCompletion j d) := by
  intro i hi hZ hsp
  have hbusy := h i hi hZ hsp
  rw [Bool.eq_false_iff] at hbusy ⊢
  intro hdone
  obtain ⟨hc, hch⟩ := Job.isDone_iff.mp hdone
  rw [insertCompletion_children] at hch
  refine hbusy (Job.isDone_iff.mpr ⟨Finset.eq_empty_of_forall_notMem fun e he => ?_, hch⟩)
  have hmem : e ∈ (((r.acquireData j d).insertCompletion j d).job i).completions :=
    mem_insertCompletion_completions.mpr (.inl he)
  rw [hc] at hmem
  cases hmem

end Reactor

end Dwhbll.Concurrency.Coroutine
