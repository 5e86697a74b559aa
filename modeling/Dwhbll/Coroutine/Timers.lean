import Dwhbll.Lib.Search
import Dwhbll.Ring.Lemmas.Flat

/-!
# The timers of `concurrency/coroutine/reactor.cpp`

`add_sleep_task` and `update_timer_tasks`, with the jobs' flags. A time point is a count of ticks of the steady clock;
`user_data`, jobs and awaitables are named by their addresses. The clock may show anything at each call.
-/

namespace Dwhbll.Concurrency.Coroutine

open Collections

/-- `timer_task`; tasks are ordered by their times. -/
structure TimerTask where
  time : Int
  data : Nat
  deriving DecidableEq, Repr

/-- `user_data`, but for `is_uring`. -/
structure UserData where
  parent : Nat := 0
  promise : Nat := 0
  handle : Nat := 0
  deriving DecidableEq, Repr

/-- The part of the reactor that the timers use. `cancelled` are the flags of the jobs and of the awaitables, and
`added` the tasks of all calls of `add_sleep_task`. -/
structure Timers where
  timeTasks : List TimerTask := []
  readyQueue : Collections.Ring Nat := Collections.Ring.new 16
  userData : Nat → UserData := fun _ => {}
  jobCancelled : Nat → Bool := fun _ => false
  promiseCancelled : Nat → Bool := fun _ => false
  added : List TimerTask := []

namespace Timers

/-- `ready_queue.push_back(data)`. What stands behind the storage may be different each time. -/
def push (mem : Nat → Nat → Nat) (d : Nat) (s : Timers) : Timers :=
  { s with readyQueue := s.readyQueue.pushBack (mem s.readyQueue.sz) d }

/-- `cancellable_base::cancel`. -/
def cancelPromise (promise : Nat) (s : Timers) : Timers :=
  { s with promiseCancelled := fun q => if q = promise then true else s.promiseCancelled q }

/-- `b->data->parent->cancelled`. -/
def isCancelled (s : Timers) (t : TimerTask) : Bool := s.jobCancelled (s.userData t.data).parent

/-- `SortedLinkedList::insert`. -/
def insertTask (t : TimerTask) (tasks : List TimerTask) : List TimerTask :=
  Search.insertAt (Search.lowerBound (·.time < t.time) tasks) t tasks

/-- The beginning of `add_sleep_task`: the pool gives out `d` for a coroutine of `job`. -/
def addData (job d : Nat) (resume : Int) (cancellable h : Nat) (s : Timers) : Timers :=
  let data : UserData := { parent := job, promise := cancellable, handle := h }
  let s :=
    { s with
      userData := fun e => if e = d then data else s.userData e
      added := s.added ++ [TimerTask.mk resume d] }
  if s.jobCancelled job then s.cancelPromise cancellable else s

/-- `add_sleep_task`, when the clock shows `now`. -/
def addSleepTask (mem : Nat → Nat → Nat) (now : Int) (job d : Nat) (resume : Int) (cancellable h : Nat)
    (s : Timers) : Timers :=
  let s := s.addData job d resume cancellable h
  if resume < now then s.push mem d
  else { s with timeTasks := insertTask { time := resume, data := d } s.timeTasks }

/-- The loop over the expired tasks. -/
def pushAll (mem : Nat → Nat → Nat) (tasks : List TimerTask) (s : Timers) : Timers :=
  tasks.foldl (fun s t => s.push mem t.data) s

/-- The loop that handles cancellations, at the first task of `todo`; it has kept those before it. -/
def handleCancellations (mem : Nat → Nat → Nat) : (kept todo : List TimerTask) → Timers → Timers
  | kept, [], s => { s with timeTasks := kept }
  | kept, t :: todo, s =>
      if s.isCancelled t then
        handleCancellations mem kept todo ((s.cancelPromise (s.userData t.data).promise).push mem t.data)
      else handleCancellations mem (kept ++ [t]) todo s

/-- `update_timer_tasks`, when the clock shows `now`. -/
def updateTimerTasks (mem : Nat → Nat → Nat) (now : Int) (s : Timers) : Timers :=
  let it := Search.lowerBound (·.time < now) s.timeTasks
  let s := s.pushAll mem (s.timeTasks.take it)
  let s := { s with timeTasks := s.timeTasks.drop it }
  handleCancellations mem [] s.timeTasks s

/-- `get_first_time_expire`. -/
def getFirstTimeExpire (s : Timers) : Option Int := s.timeTasks.head?.map (·.time)

/-! ## Runs -/

inductive Action where
  | add (mem : Nat → Nat → Nat) (now : Int) (job d : Nat) (resume : Int) (cancellable h : Nat)
  | update (mem : Nat → Nat → Nat) (now : Int)
  /-- `cancel_job` sets the flag of a job. -/
  | cancel (job : Nat)

/-- The pool only gives out what is not out. -/
def step (s : Timers) : Action → Option Timers
  | .add mem now job d resume cancellable h =>
      if d ∈ s.added.map (·.data) then none else some (s.addSleepTask mem now job d resume cancellable h)
  | .update mem now => some (s.updateTimerTasks mem now)
  | .cancel job => some { s with jobCancelled := fun j => if j = job then true else s.jobCancelled j }

def system : Transition.System Timers Action := .ofOption {} step

/-- What the clock shows in a call. -/
def Action.now : Action → Option Int
  | .add _ now .. => some now
  | .update _ now => some now
  | .cancel _ => none

/-! ## What the timers are for -/

def Sorted (tasks : List TimerTask) : Prop := tasks.Pairwise fun t u => t.time ≤ u.time

/-- Between calls: the tasks are sorted, and each task that was added is in one of the two places, once. -/
structure Kept (s : Timers) : Prop where
  sorted : Sorted s.timeTasks
  distinct : (s.added.map (·.data)).Nodup
  accounted : ∃ appended : List TimerTask, s.readyQueue.toList = appended.map (·.data) ∧
    (appended ++ s.timeTasks).Perm s.added

/-- What a call that appends these tasks may do. -/
structure Timely (s : Timers) (a : Action) (s' : Timers) (appended : List TimerTask) : Prop where
  queue : s'.readyQueue.toList = s.readyQueue.toList ++ appended.map (·.data)
  known : ∀ t ∈ appended, t ∈ s'.added
  due : ∀ t ∈ appended, s'.isCancelled t = false → ∃ now, a.now = some now ∧ t.time < now
  ordered : ∀ now, a.now = some now → Sorted (appended.filter (·.time < now))
  updated : ∀ mem now, a = .update mem now → ∀ t ∈ s'.timeTasks, ¬ t.time < now ∧ s'.isCancelled t = false

/-! ## Pushing -/

variable {s s' t' : Timers} {ds es : List Nat} {mem : Nat → Nat → Nat} {now : Int} {t : TimerTask}
variable {tasks kept todo : List TimerTask}

/-- `s'` has these in its queue in addition to `s`, and differs from it in the tasks and the awaitables' flags only. -/
structure Pushes (ds : List Nat) (s s' : Timers) : Prop where
  flat : s'.readyQueue.Flat
  queue : s'.readyQueue.toList = s.readyQueue.toList ++ ds
  userData : s'.userData = s.userData
  jobCancelled : s'.jobCancelled = s.jobCancelled
  added : s'.added = s.added

theorem Pushes.refl (h : s.readyQueue.Flat) : Pushes [] s s := ⟨h, (List.append_nil _).symm, rfl, rfl, rfl⟩

theorem Pushes.trans (h : Pushes ds s s') (h' : Pushes es s' t') : Pushes (ds ++ es) s t' where
  flat := h'.flat
  queue := by rw [h'.queue, h.queue, List.append_assoc]
  userData := h'.userData.trans h.userData
  jobCancelled := h'.jobCancelled.trans h.jobCancelled
  added := h'.added.trans h.added

theorem Pushes.isCancelled (h : Pushes ds s s') (t : TimerTask) : s'.isCancelled t = s.isCancelled t := by
  rw [Timers.isCancelled, Timers.isCancelled, h.userData, h.jobCancelled]

theorem Pushes.withTasks (h : Pushes ds s s') (tasks : List TimerTask) :
    Pushes ds s { s' with timeTasks := tasks } :=
  ⟨h.flat, h.queue, h.userData, h.jobCancelled, h.added⟩

theorem push_pushes (mem : Nat → Nat → Nat) (d : Nat) (h : s.readyQueue.Flat) : Pushes [d] s (s.push mem d) := by
  obtain ⟨hflat, hlist⟩ := h.pushBack (mem s.readyQueue.sz) d
  exact ⟨hflat, hlist, rfl, rfl, rfl⟩

theorem pushAll_pushes (mem : Nat → Nat → Nat) (tasks : List TimerTask) (h : s.readyQueue.Flat) :
    Pushes (tasks.map (·.data)) s (s.pushAll mem tasks) ∧ (s.pushAll mem tasks).timeTasks = s.timeTasks := by
  induction tasks generalizing s with
  | nil => exact ⟨.refl h, rfl⟩
  | cons t tasks ih =>
      have hpush := push_pushes mem t.data h
      obtain ⟨hpushes, htasks⟩ := ih hpush.flat
      exact ⟨hpush.trans hpushes, htasks⟩

/-- The loop appends the tasks of the cancelled jobs and keeps the others. -/
theorem handleCancellations_pushes (mem : Nat → Nat → Nat) (kept todo : List TimerTask) (h : s.readyQueue.Flat) :
    Pushes ((todo.filter s.isCancelled).map (·.data)) s (handleCancellations mem kept todo s) ∧
      (handleCancellations mem kept todo s).timeTasks = kept ++ todo.filter fun t => !s.isCancelled t := by
  induction todo generalizing s kept with
  | nil => exact ⟨⟨h, (List.append_nil _).symm, rfl, rfl, rfl⟩, (List.append_nil _).symm⟩
  | cons t todo ih =>
      rw [handleCancellations]
      split
      · rename_i hc
        obtain ⟨hflat, hqueue⟩ := h.pushBack (mem s.readyQueue.sz) t.data
        have hpush : Pushes [t.data] s ((s.cancelPromise (s.userData t.data).promise).push mem t.data) :=
          ⟨hflat, hqueue, rfl, rfl, rfl⟩
        obtain ⟨hpushes, htasks⟩ := ih kept hpush.flat
        have hcancelled := funext hpush.isCancelled
        rw [hcancelled] at hpushes
        simp only [hpush.isCancelled] at htasks
        rw [List.filter_cons_of_pos hc, List.filter_cons_of_neg (by simp [hc])]
        exact ⟨hpush.trans hpushes, htasks⟩
      · rename_i hc
        obtain ⟨hpushes, htasks⟩ := ih (kept ++ [t]) h
        rw [List.filter_cons_of_neg hc, List.filter_cons_of_pos (by simp [hc])]
        exact ⟨hpushes, htasks.trans (by simp)⟩

/-! ## The tasks -/

theorem Sorted.partitioned (h : Sorted tasks) (now : Int) : Search.Partitioned (fun t => t.time < now) tasks := by
  refine List.Pairwise.imp ?_ h
  intro t u hle hu
  simp only [decide_eq_true_eq] at hu ⊢
  omega

theorem insertTask_perm (t : TimerTask) (tasks : List TimerTask) : (insertTask t tasks).Perm (t :: tasks) :=
  Search.insertAt_perm _ t tasks

theorem Sorted.insertTask (h : Sorted tasks) (t : TimerTask) : Sorted (insertTask t tasks) := by
  have hpart := h.partitioned t.time
  refine Search.insertAt_pairwise h (fun u hu => ?_) (fun u hu => ?_)
  · have := hpart.of_mem_take hu
    simp only [decide_eq_true_eq] at this
    omega
  · have := hpart.of_mem_drop hu
    simp only [decide_eq_false_iff_not] at this
    omega

/-- The tasks that have expired come first and are appended, and of the others those of the cancelled jobs. -/
theorem updateTimerTasks_spec (mem : Nat → Nat → Nat) (now : Int) (hflat : s.readyQueue.Flat)
    (hsorted : Sorted s.timeTasks) : ∃ expired rest, s.timeTasks = expired ++ rest ∧ (∀ t ∈ expired, t.time < now) ∧
      (∀ t ∈ rest, ¬ t.time < now) ∧
      Pushes ((expired ++ rest.filter s.isCancelled).map (·.data)) s (s.updateTimerTasks mem now) ∧
      (s.updateTimerTasks mem now).timeTasks = rest.filter fun t => !s.isCancelled t := by
  have hpart := hsorted.partitioned now
  refine ⟨s.timeTasks.take (Search.lowerBound (·.time < now) s.timeTasks), s.timeTasks.drop _,
    (List.take_append_drop ..).symm, fun t ht => by simpa using hpart.of_mem_take ht,
    fun t ht => by simpa using hpart.of_mem_drop ht, ?_⟩
  simp only [updateTimerTasks]
  generalize s.timeTasks.take (Search.lowerBound (·.time < now) s.timeTasks) = expired
  obtain ⟨hexpired, htasks⟩ := pushAll_pushes mem expired hflat
  simp only [htasks]
  generalize s.timeTasks.drop (Search.lowerBound (·.time < now) s.timeTasks) = rest
  have hpushes := hexpired.withTasks rest
  obtain ⟨hcancelled, htasks⟩ := handleCancellations_pushes mem [] rest hpushes.flat
  rw [funext hpushes.isCancelled] at hcancelled
  simp only [hpushes.isCancelled, List.nil_append] at htasks
  rw [List.map_append]
  exact ⟨hpushes.trans hcancelled, htasks⟩

/-! ## Steps -/

/-- What holds between the calls. -/
structure Inv (s : Timers) : Prop where
  flat : s.readyQueue.Flat
  kept : Kept s

/-- A call that adds no task but appends some that are there. -/
theorem Inv.of_pushes {appended : List TimerTask} (h : Inv s) (hp : Pushes (appended.map (·.data)) s s')
    (hsorted : Sorted s'.timeTasks) (hperm : (appended ++ s'.timeTasks).Perm s.timeTasks) :
    Inv s' ∧ ∀ t ∈ appended, t ∈ s'.added := by
  obtain ⟨before, hqueue, hbefore⟩ := h.kept.accounted
  have hall := (hperm.append_left before).trans hbefore
  refine ⟨⟨hp.flat, hsorted, by rw [hp.added]; exact h.kept.distinct, before ++ appended, ?_, ?_⟩, fun t ht => ?_⟩
  · rw [hp.queue, hqueue, List.map_append]
  · rwa [hp.added, List.append_assoc]
  · rw [hp.added]
    exact hall.mem_iff.mp (List.mem_append_right _ (List.mem_append_left _ ht))

theorem Inv.update (h : Inv s) (mem : Nat → Nat → Nat) (now : Int) : Inv (s.updateTimerTasks mem now) ∧
    ∃ appended, Timely s (.update mem now) (s.updateTimerTasks mem now) appended := by
  obtain ⟨expired, rest, htasks, hbefore, hbehind, hpushes, hrest⟩ := updateTimerTasks_spec mem now h.flat h.kept.sorted
  have hsorted := h.kept.sorted
  rw [htasks, Sorted, List.pairwise_append] at hsorted
  have hperm : ((expired ++ rest.filter s.isCancelled) ++ (s.updateTimerTasks mem now).timeTasks).Perm s.timeTasks := by
    rw [hrest, htasks, List.append_assoc]
    exact (List.filter_append_perm s.isCancelled rest).append_left expired
  obtain ⟨hinv, hknown⟩ := h.of_pushes hpushes (hrest ▸ hsorted.2.1.filter _) hperm
  refine ⟨hinv, expired ++ rest.filter s.isCancelled, hpushes.queue, hknown, ?_, ?_, ?_⟩
  · intro t ht hc
    rcases List.mem_append.mp ht with ht | ht
    · exact ⟨now, rfl, hbefore t ht⟩
    · rw [hpushes.isCancelled, List.of_mem_filter ht] at hc
      cases hc
  · intro now' hnow
    cases hnow
    have hnone : (rest.filter s.isCancelled).filter (·.time < now) = [] := by
      rw [List.filter_eq_nil_iff]
      intro t ht
      simpa using hbehind t (List.mem_of_mem_filter ht)
    rw [List.filter_append, hnone, List.append_nil]
    exact hsorted.1.filter _
  · intro mem' now' heq t ht
    cases heq
    rw [hrest] at ht
    refine ⟨hbehind t (List.mem_of_mem_filter ht), ?_⟩
    rw [hpushes.isCancelled]
    simpa using List.of_mem_filter ht

theorem addData_fields (job d : Nat) (resume : Int) (cancellable handle : Nat) (s : Timers) :
    (s.addData job d resume cancellable handle).readyQueue = s.readyQueue ∧
      (s.addData job d resume cancellable handle).timeTasks = s.timeTasks ∧
      (s.addData job d resume cancellable handle).added = s.added ++ [{ time := resume, data := d }] := by
  unfold addData
  simp only
  split
  · exact ⟨rfl, rfl, rfl⟩
  · exact ⟨rfl, rfl, rfl⟩

theorem Inv.add (h : Inv s) {job d : Nat} (hd : d ∉ s.added.map (·.data)) (mem : Nat → Nat → Nat) (now resume : Int)
    (cancellable handle : Nat) : Inv (s.addSleepTask mem now job d resume cancellable handle) ∧
      ∃ appended, Timely s (.add mem now job d resume cancellable handle)
        (s.addSleepTask mem now job d resume cancellable handle) appended := by
  obtain ⟨before, hqueue, hbefore⟩ := h.kept.accounted
  obtain ⟨hready, htasks, hadded⟩ := addData_fields job d resume cancellable handle s
  unfold addSleepTask
  generalize s.addData job d resume cancellable handle = u at hready htasks hadded
  have hdistinct : (u.added.map (·.data)).Nodup := by
    rw [hadded, List.map_append, List.map_singleton, List.nodup_append]
    refine ⟨h.kept.distinct, by simp, fun a ha b hb heq => ?_⟩
    rw [List.mem_singleton.mp hb] at heq
    subst heq
    exact hd ha
  have hperm : (before ++ TimerTask.mk resume d :: s.timeTasks).Perm u.added := by
    rw [hadded]
    exact List.perm_middle.trans ((hbefore.cons _).trans (List.perm_append_singleton ..).symm)
  simp only
  split
  · rename_i hlt
    have hflat : u.readyQueue.Flat := hready ▸ h.flat
    have hpush := push_pushes mem d hflat
    have hlist : (u.push mem d).readyQueue.toList = s.readyQueue.toList ++ [d] := by rw [hpush.queue, hready]
    refine ⟨⟨hpush.flat, ?_, hdistinct, before ++ [⟨resume, d⟩], ?_, ?_⟩, [⟨resume, d⟩], hlist, ?_, ?_, ?_, nofun⟩
    · exact htasks ▸ h.kept.sorted
    · rw [hlist, hqueue, List.map_append, List.map_singleton]
    · rw [hpush.added, List.append_assoc, List.singleton_append]
      exact htasks ▸ hperm
    · intro t ht
      rw [hpush.added, hadded]
      exact List.mem_append_right _ ht
    · intro t ht _
      rw [List.mem_singleton.mp ht]
      exact ⟨now, rfl, hlt⟩
    · intro now' _
      exact (List.pairwise_singleton ..).filter _
  · refine ⟨⟨hready ▸ h.flat, ?_, hdistinct, before, ?_, ?_⟩, [], ?_, nofun, nofun, ?_, nofun⟩
    · exact htasks ▸ h.kept.sorted.insertTask _
    · exact hready ▸ hqueue
    · exact ((insertTask_perm ..).append_left before).trans (htasks ▸ hperm)
    · exact hready ▸ (List.append_nil _).symm
    · exact fun _ _ => .nil

theorem Inv.step {a : Action} (h : Inv s) (hs : step s a = some s') :
    Inv s' ∧ ∃ appended, Timely s a s' appended := by
  cases a with
  | add mem now job d resume cancellable handle =>
      simp only [Timers.step] at hs
      split at hs
      · cases hs
      · rename_i hd
        cases hs
        exact h.add hd mem now resume cancellable handle
  | update mem now =>
      cases hs
      exact h.update mem now
  | cancel job =>
      cases hs
      exact ⟨⟨h.flat, h.kept.sorted, h.kept.distinct, h.kept.accounted⟩, [], (List.append_nil _).symm, nofun, nofun,
        fun _ _ => .nil, nofun⟩

theorem inv_of_reachable (h : system.Reachable s) : Inv s := by
  have h0 : Inv {} := ⟨Collections.Ring.new_flat (by decide), .nil, .nil, [], rfl, .nil⟩
  exact (Transition.System.Invariant.ofOption h0 fun _ _ _ h hs => (h.step hs).1).reachable h

/-- `get_first_time_expire` is the least of the times. -/
theorem Kept.getFirstTimeExpire {m : Int} (h : Kept s) (hm : s.getFirstTimeExpire = some m) :
    (∃ t ∈ s.timeTasks, t.time = m) ∧ ∀ t ∈ s.timeTasks, m ≤ t.time := by
  obtain ⟨t, ht, rfl⟩ := Option.map_eq_some_iff.mp hm
  obtain ⟨tasks, htasks⟩ := List.head?_eq_some_iff.mp ht
  have hsorted := h.sorted
  rw [htasks] at hsorted ⊢
  refine ⟨⟨t, List.mem_cons_self, rfl⟩, fun u hu => ?_⟩
  rcases List.mem_cons.mp hu with rfl | hu
  · exact Int.le_refl _
  · exact (List.pairwise_cons.mp hsorted).1 u hu

/-- In every state that calls lead to the tasks are kept, and every call there appends what it may. -/
theorem reachable_timely (h : system.Reachable s) :
    Kept s ∧ ∀ a s', step s a = some s' → Kept s' ∧ ∃ appended, Timely s a s' appended := by
  have hinv := inv_of_reachable h
  refine ⟨hinv.kept, fun a s' hs => ?_⟩
  obtain ⟨hinv', happended⟩ := hinv.step hs
  exact ⟨hinv'.kept, happended⟩

/-- A task is added whose time is to come, and its job is cancelled before that. -/
theorem reachable_timely_cancelled : ∃ s, system.Reachable s ∧ Kept s ∧ s.timeTasks = [⟨5, 0⟩] ∧
    (s.updateTimerTasks (fun _ _ => 0) 5).timeTasks = [] := by
  let s : Timers := ({ jobCancelled := fun j => if j = 1 then true else false } : Timers).addSleepTask
    (fun _ _ => 0) 3 1 0 5 7 8
  have hcancel : system.Reachable { jobCancelled := fun j => if j = 1 then true else false } :=
    .step (i := .cancel 1) (.init rfl) rfl
  have hs : system.Reachable s := .step (i := .add (fun _ _ => 0) 3 1 0 5 7 8) hcancel rfl
  exact ⟨s, hs, (reachable_timely hs).1, by decide, by decide⟩

end Timers

end Dwhbll.Concurrency.Coroutine
