import V8Speak.DefaultJob

/-!
# The job protocol

The task ids that the threads hold are the bits that are set (`Ids`). The one
that is acquired is the first bit that is not, so that as many threads hold
one already as it says, and all of them are active: it is less than the number
of threads. Of those there are 32 at most, with the joining thread, if there
are fewer than 32 worker threads.

`JobProtocol` puts together what the threads of a job may rely on. It holds if
and only if there are fewer than 32 worker threads: the run `collision` shows
what happens otherwise.
-/

open List Transitions

namespace DefaultJob

/-! ## Bits -/

/-- The first bit that is not set. -/
theorem countTrailingZeros32_not (assigned : BitVec 32) :
    let k := countTrailingZeros32 (~~~assigned)
    k ≤ 32 ∧ (∀ i < k, assigned.getLsbD i = true) ∧ (k < 32 → assigned.getLsbD k = false) := by
  have hnot : ∀ i < 32, (~~~assigned).getLsbD i = !assigned.getLsbD i := fun i hi => by
    rw [BitVec.getLsbD_not, decide_eq_true hi, Bool.true_and]
  rw [countTrailingZeros32]
  cases h : (List.range 32).find? (~~~assigned).getLsbD with
  | none =>
    rw [find?_range_eq_none] at h
    refine ⟨le_rfl, fun i hi => ?_, fun hlt => absurd hlt (lt_irrefl 32)⟩
    simpa [hnot i hi] using h i hi
  | some k =>
    obtain ⟨hfree, hk, hbelow⟩ := find?_range_eq_some.1 h
    have hk : k < 32 := mem_range.1 hk
    refine ⟨hk.le, fun i hi => ?_, fun _ => ?_⟩
    · simpa [hnot i (lt_trans hi hk)] using hbelow i hi
    · simpa [hnot k hk] using hfree

section

variable {shiftedOut : BitVec 32} {n : ℕ} {s : State} {k : ℕ}

theorem getLsbD_oneShifted (hk : k < 32) (i : ℕ) :
    (oneShifted shiftedOut k).getLsbD i = decide (k = i) := by
  rw [oneShifted, if_pos hk]
  change (BitVec.twoPow 32 k).getLsbD i = decide (k = i)
  rw [BitVec.getLsbD_twoPow, decide_eq_true hk, Bool.true_and]

variable {assigned : BitVec 32}

theorem getLsbD_acquire (hk : k < 32) (i : ℕ) :
    (assigned ||| oneShifted shiftedOut k).getLsbD i = true ↔
      k = i ∨ assigned.getLsbD i = true := by
  rw [BitVec.getLsbD_or, getLsbD_oneShifted hk, Bool.or_eq_true, decide_eq_true_iff, or_comm]

theorem getLsbD_releaseTaskId (hk : k < 32) (i : ℕ) :
    (releaseTaskId shiftedOut assigned k).getLsbD i = true ↔ assigned.getLsbD i = true ∧ k ≠ i := by
  rw [releaseTaskId, BitVec.getLsbD_and, BitVec.getLsbD_not, getLsbD_oneShifted hk,
    Bool.and_eq_true, Bool.and_eq_true, decide_eq_true_iff, Bool.not_eq_true',
    decide_eq_false_iff_not]
  exact ⟨fun h => ⟨h.1, h.2.2⟩, fun h => ⟨h.1, BitVec.lt_of_getLsbD h.1, h.2⟩⟩

/-! ## The task ids of the threads -/

/-- The task id of a worker. -/
def Worker.taskId : Worker → Option ℕ
  | .running taskId => taskId
  | _ => none

/-- The task id of the joining thread. -/
def Joiner.taskId : Joiner → Option ℕ
  | .waiting delegate => delegate.join
  | .running taskId | .ran taskId | .leaving taskId => taskId
  | _ => none

/-- The task ids that the delegates hold. -/
def State.taskIds (s : State) : List ℕ :=
  s.joiner.taskId.toList ++ s.workers.filterMap Worker.taskId

variable {t : ℕ} {w : Worker}

/-- What one worker changes in the task ids. -/
theorem filterMap_set_perm {workers : List Worker} (h : workers[t]? = some w) (w' : Worker) :
    (w.taskId.toList ++ (workers.set t w').filterMap Worker.taskId).Perm
      (w'.taskId.toList ++ workers.filterMap Worker.taskId) := by
  obtain ⟨before, after, h₁, h₂⟩ := exists_split h w'
  have hcons : ∀ v : Worker, (before ++ v :: after).filterMap Worker.taskId =
      before.filterMap Worker.taskId ++ (v.taskId.toList ++ after.filterMap Worker.taskId) := by
    intro v
    rw [filterMap_append, filterMap_cons]
    cases v.taskId <;> rfl
  rw [h₂, h₁, hcons, hcons]
  refine (perm_append_comm_assoc _ _ _).trans (List.Perm.trans ?_
    (perm_append_comm_assoc _ _ _).symm)
  exact (perm_append_comm_assoc _ _ _).append_left _

variable {s' : State}

theorem taskIds_set_perm (h : s.workers[t]? = some w) (w' : Worker)
    (hworkers : s'.workers = s.workers.set t w') (hjoiner : s'.joiner = s.joiner) :
    (w.taskId.toList ++ s'.taskIds).Perm (w'.taskId.toList ++ s.taskIds) := by
  rw [State.taskIds, State.taskIds, hworkers, hjoiner]
  refine (perm_append_comm_assoc _ _ _).trans (List.Perm.trans ?_
    (perm_append_comm_assoc _ _ _).symm)
  exact (filterMap_set_perm h w').append_left _

/-- **Every delegate with a task id belongs to an active thread**, while `Join` is not over. -/
theorem length_taskIds_le (h : Counts n s) (hover : s.joiner.isOver = false) :
    s.taskIds.length ≤ s.activeWorkers := by
  have hworkers : ∀ workers : List Worker,
      (workers.filterMap Worker.taskId).length ≤ workers.countP Worker.isActive := by
    intro workers
    induction workers with
    | nil => exact le_rfl
    | cons w workers ih =>
      rw [filterMap_cons, countP_cons]
      cases w with
      | running taskId =>
        cases taskId with
        | none => exact ih.trans (Nat.le_add_right _ _)
        | some i => exact Nat.succ_le_succ ih
      | posted | ran | done => exact ih.trans (Nat.le_add_right _ _)
  have hjoiner : s.joiner.taskId.toList.length ≤ s.joiner.isActive.toNat := by
    generalize s.joiner = j at hover ⊢
    cases j with
    | notJoined | returned => exact le_rfl
    | waiting delegate =>
      rw [Joiner.taskId]
      cases delegate.join
      · exact Nat.zero_le _
      · exact le_rfl
    | running taskId | ran taskId =>
      cases taskId
      · exact Nat.zero_le _
      · exact le_rfl
    | leaving taskId => exact absurd hover.symm Bool.false_ne_true
  rw [State.taskIds, length_append, h.active]
  have := hworkers s.workers
  omega

/-- **The invariant of the task ids**: they are distinct, and their bits are those that are set. -/
structure Ids (s : State) : Prop where
  nodup : s.taskIds.Nodup
  mem_iff : ∀ i, i ∈ s.taskIds ↔ s.assignedTaskIds.getLsbD i = true
  lt : ∀ i ∈ s.taskIds, i < s.numWorkerThreads

theorem ids_new (n : ℕ) : Ids (new n) := by
  refine ⟨nodup_nil, fun i => ?_, fun i hi => absurd hi not_mem_nil⟩
  simp [new, State.taskIds, Joiner.taskId]

theorem Ids.congr (h : Ids s) (hids : s'.taskIds = s.taskIds)
    (hassigned : s'.assignedTaskIds = s.assignedTaskIds)
    (hthreads : s.numWorkerThreads ≤ s'.numWorkerThreads) : Ids s' := by
  refine ⟨hids ▸ h.nodup, fun i => ?_, fun i hi => ?_⟩
  · rw [hids, hassigned]
    exact h.mem_iff i
  · exact (h.lt i (hids ▸ hi)).trans_le hthreads

/-- A task id is acquired. -/
theorem Ids.acquire (h : Ids s) (hids : s'.taskIds.Perm (k :: s.taskIds))
    (hk : k < 32) (hnew : s.assignedTaskIds.getLsbD k = false) (hlt : k < s'.numWorkerThreads)
    (hassigned : s'.assignedTaskIds = s.assignedTaskIds ||| oneShifted shiftedOut k)
    (hthreads : s'.numWorkerThreads = s.numWorkerThreads) : Ids s' := by
  refine ⟨hids.nodup_iff.2 (nodup_cons.2 ⟨fun hmem => ?_, h.nodup⟩), fun i => ?_, fun i hi => ?_⟩
  · rw [h.mem_iff, hnew] at hmem
    exact absurd hmem (by decide)
  · rw [hids.mem_iff, mem_cons, h.mem_iff, hassigned, getLsbD_acquire hk, eq_comm]
  · rcases mem_cons.1 (hids.mem_iff.1 hi) with rfl | hi
    · exact hlt
    · exact hthreads ▸ h.lt i hi

variable {taskId : Option ℕ}

/-- A delegate is destroyed. -/
theorem Ids.destroyDelegate (h : Ids s)
    (hids : (taskId.toList ++ s'.taskIds).Perm s.taskIds) (hthreads : s.numWorkerThreads ≤ 32)
    (hassigned : s'.assignedTaskIds = destroyDelegate shiftedOut s.assignedTaskIds taskId)
    (hthreads' : s'.numWorkerThreads = s.numWorkerThreads) : Ids s' := by
  have hnodup := hids.nodup_iff.2 h.nodup
  cases taskId with
  | none =>
    refine ⟨hnodup, fun i => ?_, fun i hi => ?_⟩
    · rw [hassigned, DefaultJob.destroyDelegate, ← h.mem_iff]
      exact hids.mem_iff
    · exact hthreads' ▸ h.lt i (hids.mem_iff.1 hi)
  | some k =>
    obtain ⟨hk, hnodup⟩ := nodup_cons.1 hnodup
    have hlt : k < 32 := (h.lt k (hids.mem_iff.1 mem_cons_self)).trans_le hthreads
    refine ⟨hnodup, fun i => ?_, fun i hi => ?_⟩
    · rw [hassigned, DefaultJob.destroyDelegate, getLsbD_releaseTaskId hlt, ← h.mem_iff,
        ← hids.mem_iff]
      refine ⟨fun hi => ⟨mem_cons_of_mem _ hi, fun heq => hk (heq ▸ hi)⟩, fun hi => ?_⟩
      exact (mem_cons.1 hi.1).resolve_left (Ne.symm hi.2)
    · exact hthreads' ▸ h.lt i (hids.mem_iff.1 (mem_cons_of_mem _ hi))

theorem taskIds_post (max : ℕ) (s : State) : (post max s).taskIds = s.taskIds := by
  rw [post]
  split
  · rw [State.taskIds, State.taskIds, filterMap_append, filterMap_replicate]
    exact congrArg _ (append_nil _)
  · rfl

theorem Ids.post (h : Ids s) (max : ℕ) : Ids (post max s) :=
  h.congr (taskIds_post max s) (post_assignedTaskIds max s) (post_numWorkerThreads max s).ge

/-- A worker changes, and its task id does not. -/
theorem taskIds_set {w w' : Worker} (h : s.workers[t]? = some w)
    (hworkers : s'.workers = s.workers.set t w') (hjoiner : s'.joiner = s.joiner)
    (htaskId : w.taskId = w'.taskId) : s'.taskIds = s.taskIds := by
  obtain ⟨before, after, h₁, h₂⟩ := exists_split h w'
  rw [State.taskIds, State.taskIds, hworkers, hjoiner, h₂, h₁, filterMap_append,
    filterMap_append, filterMap_cons, filterMap_cons, htaskId]

variable (delegate : Option (Option ℕ))

theorem Joiner.taskId_leave : (Joiner.leave delegate).taskId = delegate.join := by
  cases delegate <;> rfl

theorem Ids.participate {delegate : Option (Option ℕ)} (h : Ids s)
    (hjoiner : s.joiner.taskId = delegate.join) (maxConcurrency : ℕ) :
    Ids (participate delegate maxConcurrency s) := by
  have hids : ∀ {j : Joiner}, j.taskId = delegate.join →
      ({ s with joiner := j } : State).taskIds = s.taskIds := fun hj => by
    rw [State.taskIds, State.taskIds, hjoiner, ← hj]
  obtain heq | ⟨-, heq⟩ | ⟨-, heq⟩ := participate_cases delegate maxConcurrency s
  · rw [heq]
    exact h.congr (hids rfl) rfl le_rfl
  · have hrunning : Ids { s with joiner := .running delegate.join } :=
      h.congr (hids rfl) rfl le_rfl
    rw [heq, postFirst]
    split
    · rw [post_setJoiner]
      exact hrunning.post _
    · exact hrunning
  · rw [heq]
    exact h.congr (hids (Joiner.taskId_leave delegate)) rfl le_rfl

/-- As many task ids are taken as the first free one says. -/
theorem countTrailingZeros32_le (h : Ids s) :
    countTrailingZeros32 (~~~s.assignedTaskIds) ≤ s.taskIds.length := by
  obtain ⟨-, htaken, -⟩ := countTrailingZeros32_not s.assignedTaskIds
  have hsub : List.range (countTrailingZeros32 (~~~s.assignedTaskIds)) ⊆ s.taskIds :=
    fun i hi => (h.mem_iff i).2 (htaken i (mem_range.1 hi))
  have := (nodup_range.subperm hsub).length_le
  rwa [length_range] at this

variable {thread : Thread}

/-- A thread in `Run` is active. -/
theorem Counts.active_pos (h : Counts n s)
    (hrun : s.inRun thread = some taskId) : 0 < s.activeWorkers := by
  rw [h.active]
  cases thread with
  | worker t =>
    have hmem := mem_of_getElem? (inRun_worker.1 hrun)
    exact Nat.add_pos_left (countP_pos_iff.2 ⟨_, hmem, rfl⟩) _
  | joining =>
    rw [inRun_joining.1 hrun]
    exact Nat.succ_pos _

/-- While a thread is in `Run`, neither `Join` nor `Cancel` is over. -/
theorem Counts.not_over (h : Counts n s) (hrun : s.inRun thread = some taskId) :
    ¬ (s.joiner.isOver = true ∨ s.canceler = .returned) := fun ho =>
  (h.active_pos hrun).ne' (h.ended ho).2

/-- The task ids, where a delegate remembers one more. -/
theorem taskIds_remember (k : ℕ) (hrun : s.inRun thread = some none)
    (hworkers : s'.workers = s.workers) (hjoiner : s'.joiner = s.joiner) :
    (s'.remember k thread).taskIds.Perm (k :: s.taskIds) := by
  cases thread with
  | worker t =>
    refine taskIds_set_perm (inRun_worker.1 hrun) (.running (some k)) ?_ hjoiner
    rw [State.remember, hworkers]
  | joining =>
    rw [State.taskIds, State.taskIds, inRun_joining.1 hrun, State.remember, hworkers]
    rfl

theorem inRun_remember (k : ℕ) (hrun : s.inRun thread = some none)
    (hworkers : s'.workers = s.workers) :
    (s'.remember k thread).inRun thread = some (some k) := by
  cases thread with
  | worker t =>
    obtain ⟨ht, -⟩ := List.getElem?_eq_some_iff.1 (inRun_worker.1 hrun)
    rw [inRun_worker, State.remember, hworkers]
    exact getElem?_set_self ht
  | joining => rfl

theorem remember_frame (s : State) (k : ℕ) (thread : Thread) :
    (s.remember k thread).assignedTaskIds = s.assignedTaskIds ∧
      (s.remember k thread).numWorkerThreads = s.numWorkerThreads := by
  cases thread <;> exact ⟨rfl, rfl⟩

/-- `GetTaskId` takes a task id that nobody has, less than the number of threads. -/
theorem Ids.getTaskId (h : Ids s) (hc : Counts n s) (hn : s.numWorkerThreads ≤ 32)
    (hrun : s.inRun thread = some none) : Ids (getTaskId shiftedOut thread s) := by
  have hc' : Counts n (DefaultJob.getTaskId shiftedOut thread s) := hc.getTaskId hrun
  have hperm : (DefaultJob.getTaskId shiftedOut thread s).taskIds.Perm (_ :: s.taskIds) :=
    taskIds_remember _ hrun rfl rfl
  have hrun' : (DefaultJob.getTaskId shiftedOut thread s).inRun thread = some (some _) :=
    inRun_remember _ hrun rfl
  obtain ⟨hassigned, hthreads⟩ := remember_frame
    { s with assignedTaskIds := (acquireTaskId shiftedOut s.assignedTaskIds).2 }
    (acquireTaskId shiftedOut s.assignedTaskIds).1 thread
  have hlt : countTrailingZeros32 (~~~s.assignedTaskIds) < s.numWorkerThreads := by
    have hle := countTrailingZeros32_le h
    have hlen := hperm.length_eq
    have hactive := length_taskIds_le hc'
      (Bool.eq_false_iff.2 fun ho => hc'.not_over hrun' (.inl ho))
    have hbound := hc'.bound
    have hnum : (DefaultJob.getTaskId shiftedOut thread s).numWorkerThreads =
      s.numWorkerThreads := hthreads
    rw [length_cons] at hlen
    omega
  obtain ⟨-, -, hfree⟩ := countTrailingZeros32_not s.assignedTaskIds
  exact h.acquire hperm (hlt.trans_le hn) (hfree (hlt.trans_le hn)) (hlt.trans_eq hthreads.symm)
    hassigned hthreads

theorem Ids.canRunFirstTask (h : Ids s) (ht : s.workers[t]? = some .posted)
    (maxConcurrency : ℕ) : Ids (canRunFirstTask t maxConcurrency s) := by
  rw [DefaultJob.canRunFirstTask]
  split
  · exact h.congr (taskIds_set ht rfl rfl rfl) rfl le_rfl
  · split
    · exact h.congr (taskIds_set ht rfl rfl rfl) rfl le_rfl
    · exact h.congr (taskIds_set ht rfl rfl rfl) rfl le_rfl

theorem Ids.didRunTask (h : Ids s) (ht : s.workers[t]? = some .ran)
    (maxConcurrency : ℕ) : Ids (didRunTask t maxConcurrency s) := by
  rw [DefaultJob.didRunTask]
  split
  · exact h.congr (taskIds_set ht rfl rfl rfl) rfl le_rfl
  · refine Ids.post ?_ _
    exact h.congr (taskIds_set ht rfl rfl rfl) rfl le_rfl

variable {a : Action}

/-- **Every step keeps the invariant of the task ids**, if there are as many bits as threads. -/
theorem Ids.step (h : Ids s) (hc : Counts n s)
    (hn : s.numWorkerThreads ≤ 32) (hstep : step shiftedOut s a = some s') : Ids s' := by
  cases steps_of_step hstep with
  | notifyCheck =>
    split
    · exact h
    · exact h.congr rfl rfl le_rfl
  | notify maxConcurrency _ =>
    refine Ids.post ?_ _
    exact h.congr rfl rfl le_rfl
  | canRunFirstTask t maxConcurrency ht =>
    exact h.canRunFirstTask ht maxConcurrency
  | hasTaskId _ _ =>
    exact h
  | getTaskId thread hrun =>
    exact h.getTaskId hc hn hrun
  | runReturns t ht =>
    exact h.destroyDelegate (taskIds_set_perm ht .ran rfl rfl) hn rfl rfl
  | didRunTask t maxConcurrency ht =>
    exact h.didRunTask ht maxConcurrency
  | join maxConcurrency hv =>
    refine Ids.participate ?_ ?_ maxConcurrency
    · exact h.congr rfl rfl (Nat.le_succ _)
    · rw [(hc.valid hv).1]
      rfl
  | joinWakes maxConcurrency hj =>
    exact h.participate (by rw [hj]; rfl) maxConcurrency
  | joinRunReturns hj =>
    refine h.congr ?_ rfl le_rfl
    rw [State.taskIds, State.taskIds, hj]
    rfl
  | joinAgain maxConcurrency hj =>
    exact h.participate (by rw [hj]; rfl) maxConcurrency
  | joinReturns hj =>
    refine h.destroyDelegate ?_ hn rfl rfl
    rw [State.taskIds, State.taskIds, hj]
    rfl
  | cancelAndWait _ =>
    exact h.congr rfl rfl le_rfl
  | cancelWakes _ =>
    exact h.congr rfl rfl le_rfl
  | cancelAndDetach _ =>
    exact h.congr rfl rfl le_rfl

/-- **Distinct threads have distinct task ids.** -/
theorem Ids.injective {thread thread' : Thread} {i : ℕ} (h : Ids s)
    (hrun : s.inRun thread = some (some i)) (hrun' : s.inRun thread' = some (some i)) :
    thread = thread' := by
  obtain ⟨hjoiner, hworkers, hdisjoint⟩ := nodup_append.1 h.nodup
  have hmem : ∀ {t}, s.inRun (.worker t) = some (some i) →
      i ∈ s.workers.filterMap Worker.taskId := fun ht =>
    mem_filterMap.2 ⟨_, mem_of_getElem? (inRun_worker.1 ht), rfl⟩
  have hmem' : s.inRun .joining = some (some i) → i ∈ s.joiner.taskId.toList := fun hj => by
    rw [inRun_joining.1 hj]
    exact mem_singleton_self i
  cases thread with
  | worker t =>
    cases thread' with
    | worker t' =>
      rw [List.Nodup, pairwise_filterMap, pairwise_iff_getElem] at hworkers
      obtain ⟨ht, hw⟩ := List.getElem?_eq_some_iff.1 (inRun_worker.1 hrun)
      obtain ⟨ht', hw'⟩ := List.getElem?_eq_some_iff.1 (inRun_worker.1 hrun')
      rcases lt_trichotomy t t' with hlt | rfl | hlt
      · exact absurd rfl (hworkers t t' ht ht' hlt i (by rw [hw]; rfl) i (by rw [hw']; rfl))
      · rfl
      · exact absurd rfl (hworkers t' t ht' ht hlt i (by rw [hw']; rfl) i (by rw [hw]; rfl))
    | joining => exact absurd rfl (hdisjoint i (hmem' hrun') i (hmem hrun))
  | joining =>
    cases thread' with
    | worker t' => exact absurd rfl (hdisjoint i (hmem' hrun) i (hmem hrun'))
    | joining => rfl

theorem Ids.lt_of_inRun {i : ℕ} (h : Ids s)
    (hrun : s.inRun thread = some (some i)) : i < s.numWorkerThreads := by
  refine h.lt i (mem_append.2 ?_)
  cases thread with
  | worker t =>
    exact .inr (mem_filterMap.2 ⟨_, mem_of_getElem? (inRun_worker.1 hrun), rfl⟩)
  | joining =>
    rw [inRun_joining.1 hrun]
    exact .inl (mem_singleton_self i)

/-! ## Admission -/

theorem inRun_post (max : ℕ) (s : State) (thread : Thread) :
    (post max s).inRun thread = s.inRun thread := by
  cases thread with
  | worker t =>
    rw [post]
    split
    · rw [State.inRun, State.inRun]
      rcases Nat.lt_or_ge t s.workers.length with ht | ht
      · rw [getElem?_append_left ht]
      · rw [getElem?_append_right ht, getElem?_eq_none ht, getElem?_replicate]
        split
        · next heq => split at heq <;> cases heq
        · rfl
    · rfl
  | joining => rw [State.inRun, State.inRun, post_joiner]

/-- A thread that comes into `Run` where one worker has changed is that worker. -/
theorem inRun_set {w' : Worker}
    (hbefore : s.inRun thread = none) (hworkers : s'.workers = s.workers.set t w')
    (hjoiner : s'.joiner = s.joiner) (hw' : (∃ taskId, w' = .running taskId) → thread ≠ .worker t) :
    s'.inRun thread = none := by
  cases thread with
  | worker t' =>
    refine Option.eq_none_iff_forall_ne_some.2 fun taskId hrun => ?_
    have hw := inRun_worker.1 hrun
    rw [hworkers] at hw
    rcases eq_or_ne t t' with rfl | hne
    · obtain ⟨ht, hget⟩ := List.getElem?_eq_some_iff.1 hw
      rw [getElem_set_self] at hget
      exact hw' ⟨taskId, hget⟩ rfl
    · rw [getElem?_set_ne hne] at hw
      rw [inRun_worker.2 hw] at hbefore
      cases hbefore
  | joining =>
    rw [State.inRun, hjoiner]
    exact hbefore

/-- No thread comes into `Run` where the workers stay and the joining thread does not run. -/
theorem inRun_of_joiner (hbefore : s.inRun thread = none)
    (hworkers : s'.workers = s.workers) (hjoiner : ∀ taskId, s'.joiner ≠ .running taskId) :
    s'.inRun thread = none := by
  cases thread with
  | worker t =>
    rw [State.inRun, hworkers]
    exact hbefore
  | joining =>
    refine Option.eq_none_iff_forall_ne_some.2 fun taskId hrun => ?_
    exact hjoiner taskId (inRun_joining.1 hrun)

theorem postFirst_frame (max : ℕ) (s : State) :
    (postFirst delegate max s).activeWorkers = s.activeWorkers ∧
      (postFirst delegate max s).numWorkerThreads = s.numWorkerThreads ∧
      (postFirst delegate max s).canceler = s.canceler := by
  rw [postFirst]
  split <;> simp

theorem active_le_of_participate {delegate : Option (Option ℕ)} {maxConcurrency : ℕ}
    (hbefore : s.inRun thread = none)
    (hafter : (participate delegate maxConcurrency s).inRun thread ≠ none) :
    (participate delegate maxConcurrency s).activeWorkers ≤
      cappedMaxConcurrency (participate delegate maxConcurrency s) maxConcurrency := by
  obtain heq | ⟨hle, heq⟩ | ⟨-, heq⟩ := participate_cases delegate maxConcurrency s
  · rw [heq] at hafter
    exact (hafter (inRun_of_joiner hbefore rfl nofun)).elim
  · obtain ⟨hactive, hthreads, -⟩ :=
      postFirst_frame delegate (cappedMaxConcurrency s maxConcurrency) s
    rw [heq]
    change _ ≤ min maxConcurrency _
    rw [hactive, hthreads]
    exact hle
  · rw [heq] at hafter
    refine (hafter (inRun_of_joiner hbefore rfl fun taskId h => ?_)).elim
    cases delegate <;> cases h

/-- **Admission**: a thread comes into `Run` by a step that has just asked for the concurrency, and
does not exceed it with the thread. -/
theorem active_le_of_admitted
    (hstep : step shiftedOut s a = some s') (hbefore : s.inRun thread = none)
    (hafter : s'.inRun thread ≠ none) :
    ∃ maxConcurrency, a.maxConcurrency = some maxConcurrency ∧
      s'.activeWorkers ≤ cappedMaxConcurrency s' maxConcurrency := by
  cases steps_of_step hstep with
  | notifyCheck =>
    split at hafter <;> exact absurd hbefore hafter
  | notify maxConcurrency _ =>
    rw [notifyConcurrencyIncrease, inRun_post] at hafter
    exact absurd hbefore hafter
  | canRunFirstTask t maxConcurrency _ =>
    refine ⟨maxConcurrency, rfl, ?_⟩
    rw [canRunFirstTask] at hafter ⊢
    split at hafter
    · exact (hafter (inRun_set hbefore rfl rfl (by rintro ⟨_, ⟨⟩⟩))).elim
    · split at hafter
      · exact (hafter (inRun_set hbefore rfl rfl (by rintro ⟨_, ⟨⟩⟩))).elim
      · next hcanceled hmax =>
        rw [if_neg hcanceled, if_neg hmax]
        exact Nat.lt_of_not_le hmax
  | hasTaskId _ _ =>
    exact absurd hbefore hafter
  | getTaskId thread' hrun =>
    cases thread' with
    | worker t =>
      refine (hafter (inRun_set hbefore rfl rfl ?_)).elim
      rintro - rfl
      rw [hrun] at hbefore
      cases hbefore
    | joining =>
      cases thread with
      | worker t => exact absurd hbefore hafter
      | joining =>
        rw [hrun] at hbefore
        cases hbefore
  | runReturns t _ =>
    exact (hafter (inRun_set hbefore rfl rfl (by rintro ⟨_, ⟨⟩⟩))).elim
  | didRunTask t maxConcurrency _ =>
    refine ⟨maxConcurrency, rfl, ?_⟩
    rw [didRunTask] at hafter ⊢
    split at hafter
    · exact (hafter (inRun_set hbefore rfl rfl (by rintro ⟨_, ⟨⟩⟩))).elim
    · next hmax =>
      rw [if_neg hmax, post_activeWorkers]
      change _ ≤ min maxConcurrency _
      rw [post_numWorkerThreads]
      exact Nat.le_of_not_lt fun hlt => hmax (.inr hlt)
  | join maxConcurrency _ =>
    exact ⟨maxConcurrency, rfl, active_le_of_participate hbefore hafter⟩
  | joinWakes maxConcurrency _ =>
    exact ⟨maxConcurrency, rfl, active_le_of_participate hbefore hafter⟩
  | joinRunReturns _ =>
    exact (hafter (inRun_of_joiner hbefore rfl (by rintro _ ⟨⟩))).elim
  | joinAgain maxConcurrency _ =>
    exact ⟨maxConcurrency, rfl, active_le_of_participate hbefore hafter⟩
  | joinReturns _ =>
    exact (hafter (inRun_of_joiner hbefore rfl (by rintro _ ⟨⟩))).elim
  | cancelAndWait _ | cancelWakes _ | cancelAndDetach _ =>
    exact absurd hbefore hafter

/-! ## After the return -/

theorem participate_canceler (maxConcurrency : ℕ) (s : State) :
    (participate delegate maxConcurrency s).canceler = s.canceler := by
  obtain heq | ⟨-, heq⟩ | ⟨-, heq⟩ := participate_cases delegate maxConcurrency s
  · rw [heq]
  · rw [heq]
    exact (postFirst_frame _ _ _).2.2
  · rw [heq]

/-- **A call of `Join` or `Cancel` that has returned** is not made again. -/
theorem returned_step (hc : Counts n s)
    (hstep : step shiftedOut s a = some s') (h : s.joiner = .returned ∨ s.canceler = .returned) :
    s'.joiner = .returned ∨ s'.canceler = .returned := by
  have hv : ¬ s.isValid = true := fun hv => by
    obtain ⟨hj, hca⟩ := hc.valid hv
    rw [hj, hca] at h
    rcases h with h | h <;> cases h
  -- the joining thread goes on only if it has not returned
  have hcanceler : s.joiner ≠ .returned → s.canceler = .returned := h.resolve_left
  cases steps_of_step hstep with
  | notifyCheck =>
    split <;> exact h
  | notify maxConcurrency _ =>
    rw [notifyConcurrencyIncrease, post_joiner, post_canceler]
    exact h
  | canRunFirstTask t maxConcurrency _ =>
    rw [canRunFirstTask]
    split
    · exact h
    · split <;> exact h
  | hasTaskId _ _ =>
    exact h
  | getTaskId thread hrun =>
    cases thread with
    | worker t => exact h
    | joining => exact .inr (hcanceler (by rw [inRun_joining.1 hrun]; rintro ⟨⟩))
  | runReturns t _ =>
    exact h
  | didRunTask t maxConcurrency _ =>
    rw [didRunTask]
    split
    · exact h
    · rw [post_joiner, post_canceler]
      exact h
  | joinWakes maxConcurrency hj =>
    rw [participate_canceler]
    exact .inr (hcanceler (by rw [hj]; rintro ⟨⟩))
  | joinRunReturns hj =>
    exact .inr (hcanceler (by rw [hj]; rintro ⟨⟩))
  | joinAgain maxConcurrency hj =>
    rw [participate_canceler]
    exact .inr (hcanceler (by rw [hj]; rintro ⟨⟩))
  | joinReturns _ =>
    exact .inl rfl
  | cancelWakes hw =>
    exact .inl (h.resolve_right (by rw [hw]; decide))
  | join _ hv' | cancelAndWait hv' | cancelAndDetach hv' =>
    exact absurd hv' hv

end

/-! ## The protocol -/

/-- **The job protocol**, over all runs of a job. -/
structure JobProtocol (shiftedOut : BitVec 32) (numWorkerThreads : ℕ) : Prop where
  /-- The pending count is the number of worker tasks that have not started. -/
  pending : ∀ {s}, Reaches (step shiftedOut) (new numWorkerThreads) s →
    s.pendingTasks = s.workers.count .posted
  /-- It does not go below zero. -/
  pending_pos : ∀ {s t maxConcurrency s'}, Reaches (step shiftedOut) (new numWorkerThreads) s →
    step shiftedOut s (.canRunFirstTask t maxConcurrency) = some s' →
    s'.pendingTasks + 1 = s.pendingTasks
  /-- The active workers are the threads that have been admitted and not left. -/
  active : ∀ {s}, Reaches (step shiftedOut) (new numWorkerThreads) s →
    s.activeWorkers = s.workers.countP Worker.isActive + s.joiner.isActive.toNat
  /-- With a thread that is admitted, there are no more than the concurrency allows. -/
  admitted : ∀ {s a s' thread}, Reaches (step shiftedOut) (new numWorkerThreads) s →
    step shiftedOut s a = some s' → s.inRun thread = none → s'.inRun thread ≠ none →
    ∃ maxConcurrency, a.maxConcurrency = some maxConcurrency ∧
      s'.activeWorkers ≤ cappedMaxConcurrency s' maxConcurrency
  /-- The task ids of the threads in `Run` are distinct. -/
  distinct : ∀ {s thread thread' i}, Reaches (step shiftedOut) (new numWorkerThreads) s →
    s.inRun thread = some (some i) → s.inRun thread' = some (some i) → thread = thread'
  /-- They are less than the number of workers. -/
  lt : ∀ {s thread i}, Reaches (step shiftedOut) (new numWorkerThreads) s →
    s.inRun thread = some (some i) → i < s.numWorkerThreads
  /-- Once `Join` or `Cancel` has returned, no `Run` is in progress, and none begins. -/
  returned : ∀ {s s' thread}, Reaches (step shiftedOut) (new numWorkerThreads) s →
    s.joiner = .returned ∨ s.canceler = .returned → Reaches (step shiftedOut) s s' →
    s'.inRun thread = none

section

variable {shiftedOut : BitVec 32} {n : ℕ} {s : State}

theorem counts_of_reaches (h : Reaches (step shiftedOut) (new n) s) : Counts n s :=
  h.invariant Counts.step (counts_new n)

theorem ids_of_reaches (hn : n < kMaxWorkersPerJob) (h : Reaches (step shiftedOut) (new n) s) :
    Ids s := by
  refine (h.invariant (P := fun s => Counts n s ∧ Ids s) (fun hs hstep => ?_)
    ⟨counts_new n, ids_new n⟩).2
  refine ⟨hs.1.step hstep, hs.2.step hs.1 ?_ hstep⟩
  rw [hs.1.threads]
  rw [kMaxWorkersPerJob] at hn ⊢
  split <;> omega

theorem pendingTasks_canRunFirstTask (t maxConcurrency : ℕ) (s : State) :
    (canRunFirstTask t maxConcurrency s).pendingTasks = decrement s.pendingTasks := by
  rw [canRunFirstTask]
  split
  · rfl
  · split <;> rfl

/-- **The protocol holds with fewer than 32 worker threads.** -/
theorem jobProtocol_of_lt (shiftedOut : BitVec 32) {n : ℕ} (hn : n < kMaxWorkersPerJob) :
    JobProtocol shiftedOut n where
  pending h := (counts_of_reaches h).pending
  pending_pos h hstep := by
    obtain ⟨ht, hs⟩ := Option.ite_none_right_eq_some.1 hstep
    cases hs
    have hc := counts_of_reaches h
    have hpos := hc.pending_pos ht
    have hbound := hc.bound
    have hle := hc.threads_le
    rw [pendingTasks_canRunFirstTask, decrement_eq hpos (by omega), Nat.sub_add_cancel hpos]
  active h := (counts_of_reaches h).active
  admitted _ := active_le_of_admitted
  distinct h := (ids_of_reaches hn h).injective
  lt h := (ids_of_reaches hn h).lt_of_inRun
  returned {s s' thread} h hreturned hlater := by
    have hinv := hlater.invariant
      (P := fun s => Counts n s ∧ (s.joiner = .returned ∨ s.canceler = .returned))
      (fun hs hstep => ⟨hs.1.step hstep, returned_step hs.1 hstep hs.2⟩)
      ⟨counts_of_reaches h, hreturned⟩
    refine Option.eq_none_iff_forall_ne_some.2 fun taskId hrun => hinv.1.not_over hrun ?_
    exact hinv.2.imp (fun hj => by rw [hj]; rfl) id

end

/-- **Thirty-three threads** and thirty-two task ids. The joining thread has the task id 0, and the
last worker gets 32, whose bit is that of 0 where a shift by 32 is none. When the worker's `Run`
returns, the bit is cleared, and its next `Run` gets the task id 0. -/
def collision : List Action :=
  [.join 33, .getTaskId .joining] ++
    (List.range 32).flatMap (fun t => [.canRunFirstTask t 33, .getTaskId (.worker t)]) ++
    [.runReturns 31, .didRunTask 31 33, .getTaskId (.worker 31)]

theorem run_collision : ∃ s, run (step 1) (new 32) collision = some s ∧
      s.inRun .joining = some (some 0) ∧ s.inRun (.worker 31) = some (some 0) := by
  have h : (run (step 1) (new 32) collision).map
      (fun s => (s.inRun .joining, s.inRun (.worker 31))) = some (some (some 0),
        some (some 0)) := by
    decide +kernel
  obtain ⟨s, hrun, hs⟩ := Option.map_eq_some_iff.1 h
  exact ⟨s, hrun, (Prod.mk.inj hs).1, (Prod.mk.inj hs).2⟩

theorem new_of_le {n : ℕ} (hn : kMaxWorkersPerJob ≤ n) : new n = new 32 := by
  rw [new, new, Nat.min_eq_right hn]
  rfl

/-- **The job protocol holds for fewer than 32 worker threads**, whatever a shift by 32 gives, and
only for those. -/
theorem jobProtocol_iff (numWorkerThreads : ℕ) :
    (∀ shiftedOut, JobProtocol shiftedOut numWorkerThreads) ↔
      numWorkerThreads < kMaxWorkersPerJob := by
  refine ⟨fun h => ?_, fun hn shiftedOut => jobProtocol_of_lt shiftedOut hn⟩
  by_contra hn
  obtain ⟨s, hrun, hjoining, hworker⟩ := run_collision
  rw [← new_of_le (Nat.le_of_not_lt hn)] at hrun
  exact absurd ((h 1).distinct ⟨collision, hrun⟩ hjoining hworker) nofun

theorem not_jobProtocol_thirtyTwo : ¬ JobProtocol 1 32 := by
  obtain ⟨s, hrun, hjoining, hworker⟩ := run_collision
  exact fun h => absurd (h.distinct ⟨collision, hrun⟩ hjoining hworker) nofun

end DefaultJob
