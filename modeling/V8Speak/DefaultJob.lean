import Mathlib
import V8Speak.Transitions

/-!
# Jobs

`DefaultJobState`, `DefaultJobHandle` and `DefaultJobWorker`
(`libplatform/default-job.{h,cc}`) as a transition system. A step is one
critical section of the mutex, one operation on an atomic variable, or one end
of a `Run` of the job; between them the threads interleave in any way. What
`GetMaxConcurrency` returns is a part of the step that asks, and arbitrary.

The threads are the worker tasks, in the order in which they were decided on,
and the thread that joins. A task that has been decided on is posted some time
later, outside of the critical section, and the platform starts it when it
likes, so that it may start at any time. A wait on the condition variable may
end at any time, and looks at its condition again.

A handle is good for one call of `Join`, `Cancel` or `CancelAndDetach`; it is
not valid afterwards (`JobHandle::IsValid`).

The task ids are the bits of a word of 32. With 32 worker threads and the
joining thread there may be one more thread than there are bits. The source
then shifts by 32, which has no defined result; `shiftedOut` is what comes out
of it. The machine's own instruction shifts by nothing, so that the task id 32
shares its bit with the task id 0.

The job protocol (`JobProtocol`) holds if there are fewer than 32 worker
threads. `Counts` is the invariant of the counters, `Ids` that of the task
ids.
-/

open List

namespace DefaultJob

def kMaxWorkersPerJob : ℕ := 32

/-! ## The state -/

/-- **A worker task**. The delegate of a `Run` is its `task_id_`, if it has been asked for. -/
inductive Worker where
  /-- Decided on, and not started. -/
  | posted
  /-- In `Run`. -/
  | running (taskId : Option ℕ)
  /-- Between `Run` and `DidRunTask`. -/
  | ran
  | done
  deriving DecidableEq

/-- **The thread that calls `Join`**. Its delegate lives until `Join` returns. -/
inductive Joiner where
  | notJoined
  /-- In `WaitForParticipationOpportunity`; the first time there is no delegate yet. -/
  | waiting (delegate : Option (Option ℕ))
  | running (taskId : Option ℕ)
  | ran (taskId : Option ℕ)
  /-- Before the destruction of the delegate. -/
  | leaving (taskId : Option ℕ)
  | returned
  deriving DecidableEq

/-- The thread that calls `Cancel`. -/
inductive Canceler where
  | notCanceled
  | waiting
  | returned
  deriving DecidableEq

/-- **A job**: the members of `DefaultJobState`, and where the threads are. -/
structure State where
  activeWorkers : ℕ
  pendingTasks : ℕ
  isCanceled : Bool
  numWorkerThreads : ℕ
  assignedTaskIds : BitVec 32
  workers : List Worker
  /-- How many calls of `NotifyConcurrencyIncrease` have found the job not canceled, and do not
  have the mutex yet. -/
  notifying : ℕ
  joiner : Joiner
  canceler : Canceler
  /-- Whether the handle is valid. -/
  isValid : Bool
  deriving DecidableEq

/-- A thread that may run the job. -/
inductive Thread where
  | worker (t : ℕ)
  | joining
  deriving DecidableEq

/-- The delegate of a thread that is in `Run`. -/
def State.inRun (s : State) : Thread → Option (Option ℕ)
  | .worker t =>
    match s.workers[t]? with
    | some (.running taskId) => some taskId
    | _ => none
  | .joining =>
    match s.joiner with
    | .running taskId => some taskId
    | _ => none

/-- `DefaultJobState::DefaultJobState`. -/
def new (numWorkerThreads : ℕ) : State where
  activeWorkers := 0
  pendingTasks := 0
  isCanceled := false
  numWorkerThreads := min numWorkerThreads kMaxWorkersPerJob
  assignedTaskIds := 0
  workers := []
  notifying := 0
  joiner := .notJoined
  canceler := .notCanceled
  isValid := true

/-! ## Task ids -/

def countTrailingZeros32 (value : BitVec 32) : ℕ := ((range 32).find? value.getLsbD).getD 32

section

variable (shiftedOut : BitVec 32)

/-- `uint32_t(1) << task_id`. -/
def oneShifted (taskId : ℕ) : BitVec 32 :=
  if taskId < 32 then (1 : BitVec 32) <<< taskId else shiftedOut

variable (assignedTaskIds : BitVec 32)

/-- `AcquireTaskId`, at the time when its `compare_exchange_weak` succeeds. -/
def acquireTaskId : ℕ × BitVec 32 :=
  let taskId := countTrailingZeros32 (~~~assignedTaskIds)
  (taskId, assignedTaskIds ||| oneShifted shiftedOut taskId)

def releaseTaskId (taskId : ℕ) : BitVec 32 :=
  assignedTaskIds &&& ~~~(oneShifted shiftedOut taskId)

/-- `JobDelegate::~JobDelegate`. -/
def destroyDelegate : Option ℕ → BitVec 32
  | none => assignedTaskIds
  | some taskId => releaseTaskId shiftedOut assignedTaskIds taskId

end

/-! ## The critical sections -/

/-- The decrement of a `size_t`. -/
def decrement (x : ℕ) : ℕ := (x + 2 ^ 64 - 1) % 2 ^ 64

/-- `CappedMaxConcurrency`, where `GetMaxConcurrency` returns `maxConcurrency`. -/
def cappedMaxConcurrency (s : State) (maxConcurrency : ℕ) : ℕ :=
  min maxConcurrency s.numWorkerThreads

/-- The decision on further worker tasks, common to `NotifyConcurrencyIncrease`, `Join` and
`DidRunTask`. -/
def post (maxConcurrency : ℕ) (s : State) : State :=
  if s.activeWorkers + s.pendingTasks < maxConcurrency then
    let numTasksToPost := maxConcurrency - s.activeWorkers - s.pendingTasks
    { s with
      pendingTasks := s.pendingTasks + numTasksToPost
      workers := s.workers ++ replicate numTasksToPost .posted }
  else s

/-- The critical section of `NotifyConcurrencyIncrease`. -/
def notifyConcurrencyIncrease (maxConcurrency : ℕ) (s : State) : State :=
  post (cappedMaxConcurrency s maxConcurrency) s

/-- `CanRunFirstTask`, and what the worker does with the answer. -/
def canRunFirstTask (t maxConcurrency : ℕ) (s : State) : State :=
  let s := { s with pendingTasks := decrement s.pendingTasks }
  if s.isCanceled then { s with workers := s.workers.set t .done }
  else if cappedMaxConcurrency s maxConcurrency ≤ s.activeWorkers then
    { s with workers := s.workers.set t .done }
  else
    { s with
      activeWorkers := s.activeWorkers + 1
      workers := s.workers.set t (.running none) }

/-- `DidRunTask`, and what the worker does with the answer. -/
def didRunTask (t maxConcurrency : ℕ) (s : State) : State :=
  let max := cappedMaxConcurrency s maxConcurrency
  if s.isCanceled ∨ max < s.activeWorkers then
    { s with
      activeWorkers := decrement s.activeWorkers
      workers := s.workers.set t .done }
  else post max { s with workers := s.workers.set t (.running none) }

/-- `WaitForParticipationOpportunity`, from one wait to the next: no result if it waits again. -/
def waitForParticipationOpportunity (maxConcurrency : ℕ) (s : State) : Option ℕ × State :=
  let max := cappedMaxConcurrency s maxConcurrency
  if max < s.activeWorkers ∧ 1 < s.activeWorkers then (none, s)
  else if max ≠ 0 then (some max, s)
  else (some 0, { s with activeWorkers := 0, isCanceled := true })

variable (delegate : Option (Option ℕ))

/-- The decision on worker tasks in `Join`, in its first critical section only. -/
def postFirst (max : ℕ) (s : State) : State :=
  if delegate.isNone then post max s else s

/-- The end of `Join`, with the delegate if there is one. -/
def Joiner.leave : Option (Option ℕ) → Joiner
  | none => .returned
  | some taskId => .leaving taskId

/-- A critical section of `Join`. -/
def participate (maxConcurrency : ℕ) (s : State) : State :=
  match waitForParticipationOpportunity maxConcurrency s with
  | (none, s) => { s with joiner := .waiting delegate }
  | (some 0, s) => { s with joiner := .leave delegate }
  | (some max, s) => { postFirst delegate max s with joiner := .running delegate.join }

/-- The start of `Join`. -/
def join (maxConcurrency : ℕ) (s : State) : State :=
  participate none maxConcurrency { s with
      isValid := false
      numWorkerThreads := s.numWorkerThreads + 1
      activeWorkers := s.activeWorkers + 1 }

/-- The loop of `CancelAndWait`, from one wait to the next. -/
def waitForWorkers (s : State) : State :=
  { s with canceler := if 0 < s.activeWorkers then .waiting else .returned }

/-! ## The steps -/

/-- **The steps** of the threads. The number is what `GetMaxConcurrency` returns. -/
inductive Action where
  /-- `NotifyConcurrencyIncrease`: whether the job is canceled. -/
  | notifyCheck
  /-- `NotifyConcurrencyIncrease`: the critical section. -/
  | notify (maxConcurrency : ℕ)
  /-- The start of a worker task. -/
  | canRunFirstTask (t maxConcurrency : ℕ)
  /-- `GetTaskId`, in `Run`. -/
  | getTaskId (thread : Thread)
  /-- The end of a `Run`, after which the delegate of a worker is destroyed. -/
  | runReturns (t : ℕ)
  | didRunTask (t maxConcurrency : ℕ)
  | join (maxConcurrency : ℕ)
  /-- The joining thread wakes up. -/
  | joinWakes (maxConcurrency : ℕ)
  /-- The end of a `Run` of the joining thread. -/
  | joinRunReturns
  /-- A later critical section of `Join`. -/
  | joinAgain (maxConcurrency : ℕ)
  /-- The destruction of the delegate of the joining thread. -/
  | joinReturns
  | cancelAndWait
  /-- The canceling thread wakes up. -/
  | cancelWakes
  | cancelAndDetach
  deriving DecidableEq

/-- What an action gets from `GetMaxConcurrency`, if it asks. -/
def Action.maxConcurrency : Action → Option ℕ
  | .notify maxConcurrency | .canRunFirstTask _ maxConcurrency | .didRunTask _ maxConcurrency
  | .join maxConcurrency | .joinWakes maxConcurrency | .joinAgain maxConcurrency =>
    some maxConcurrency
  | _ => none

/-- The delegate of a thread in `Run` remembers its task id. -/
def State.remember (s : State) (taskId : ℕ) : Thread → State
  | .worker t => { s with workers := s.workers.set t (.running (some taskId)) }
  | .joining => { s with joiner := .running (some taskId) }

section

variable (shiftedOut : BitVec 32)

/-- `GetTaskId`, for a delegate that has none yet. -/
def getTaskId (thread : Thread) (s : State) : State :=
  let acquired := acquireTaskId shiftedOut s.assignedTaskIds
  { s with assignedTaskIds := acquired.2 }.remember acquired.1 thread

/-- **One step** of one thread. -/
def step (s : State) : Action → Option State
  | .notifyCheck => some (if s.isCanceled then s else { s with notifying := s.notifying + 1 })
  | .notify maxConcurrency =>
    if 0 < s.notifying then
      some (notifyConcurrencyIncrease maxConcurrency { s with notifying := s.notifying - 1 })
    else none
  | .canRunFirstTask t maxConcurrency =>
    if s.workers[t]? = some .posted then some (canRunFirstTask t maxConcurrency s) else none
  | .getTaskId thread =>
    match s.inRun thread with
    | none => none
    | some (some _) => some s
    | some none => some (getTaskId shiftedOut thread s)
  | .runReturns t =>
    match s.workers[t]? with
    | some (.running taskId) =>
      some { s with
        assignedTaskIds := destroyDelegate shiftedOut s.assignedTaskIds taskId
        workers := s.workers.set t .ran }
    | _ => none
  | .didRunTask t maxConcurrency =>
    if s.workers[t]? = some .ran then some (didRunTask t maxConcurrency s) else none
  | .join maxConcurrency => if s.isValid then some (join maxConcurrency s) else none
  | .joinWakes maxConcurrency =>
    match s.joiner with
    | .waiting delegate => some (participate delegate maxConcurrency s)
    | _ => none
  | .joinRunReturns =>
    match s.joiner with
    | .running taskId => some { s with joiner := .ran taskId }
    | _ => none
  | .joinAgain maxConcurrency =>
    match s.joiner with
    | .ran taskId => some (participate (some taskId) maxConcurrency s)
    | _ => none
  | .joinReturns =>
    match s.joiner with
    | .leaving taskId =>
      some { s with
        assignedTaskIds := destroyDelegate shiftedOut s.assignedTaskIds taskId
        joiner := .returned }
    | _ => none
  | .cancelAndWait =>
    if s.isValid then some (waitForWorkers { s with isValid := false, isCanceled := true })
    else none
  | .cancelWakes => if s.canceler = .waiting then some (waitForWorkers s) else none
  | .cancelAndDetach =>
    if s.isValid then some { s with isValid := false, isCanceled := true } else none

end

/-- **What one step does**, with the condition it is taken under. -/
inductive Steps (shiftedOut : BitVec 32) (s : State) : Action → State → Prop
  | notifyCheck :
    Steps shiftedOut s .notifyCheck
      (if s.isCanceled then s else { s with notifying := s.notifying + 1 })
  | notify (maxConcurrency : ℕ) (h : 0 < s.notifying) :
    Steps shiftedOut s (.notify maxConcurrency)
      (notifyConcurrencyIncrease maxConcurrency { s with notifying := s.notifying - 1 })
  | canRunFirstTask (t maxConcurrency : ℕ) (ht : s.workers[t]? = some .posted) :
    Steps shiftedOut s (.canRunFirstTask t maxConcurrency) (canRunFirstTask t maxConcurrency s)
  | hasTaskId (thread : Thread) {taskId : ℕ} (hrun : s.inRun thread = some (some taskId)) :
    Steps shiftedOut s (.getTaskId thread) s
  | getTaskId (thread : Thread) (hrun : s.inRun thread = some none) :
    Steps shiftedOut s (.getTaskId thread) (getTaskId shiftedOut thread s)
  | runReturns (t : ℕ) {taskId : Option ℕ} (ht : s.workers[t]? = some (.running taskId)) :
    Steps shiftedOut s (.runReturns t) { s with
      assignedTaskIds := destroyDelegate shiftedOut s.assignedTaskIds taskId
      workers := s.workers.set t .ran }
  | didRunTask (t maxConcurrency : ℕ) (ht : s.workers[t]? = some .ran) :
    Steps shiftedOut s (.didRunTask t maxConcurrency) (didRunTask t maxConcurrency s)
  | join (maxConcurrency : ℕ) (hv : s.isValid) :
    Steps shiftedOut s (.join maxConcurrency) (join maxConcurrency s)
  | joinWakes (maxConcurrency : ℕ) {delegate : Option (Option ℕ)}
      (hj : s.joiner = .waiting delegate) :
    Steps shiftedOut s (.joinWakes maxConcurrency) (participate delegate maxConcurrency s)
  | joinRunReturns {taskId : Option ℕ} (hj : s.joiner = .running taskId) :
    Steps shiftedOut s .joinRunReturns { s with joiner := .ran taskId }
  | joinAgain (maxConcurrency : ℕ) {taskId : Option ℕ} (hj : s.joiner = .ran taskId) :
    Steps shiftedOut s (.joinAgain maxConcurrency) (participate (some taskId) maxConcurrency s)
  | joinReturns {taskId : Option ℕ} (hj : s.joiner = .leaving taskId) :
    Steps shiftedOut s .joinReturns { s with
      assignedTaskIds := destroyDelegate shiftedOut s.assignedTaskIds taskId
      joiner := .returned }
  | cancelAndWait (hv : s.isValid) :
    Steps shiftedOut s .cancelAndWait
      (waitForWorkers { s with isValid := false, isCanceled := true })
  | cancelWakes (hc : s.canceler = .waiting) : Steps shiftedOut s .cancelWakes (waitForWorkers s)
  | cancelAndDetach (hv : s.isValid) :
    Steps shiftedOut s .cancelAndDetach { s with isValid := false, isCanceled := true }

theorem steps_of_step {shiftedOut : BitVec 32} {s s' : State} {a : Action}
    (hstep : step shiftedOut s a = some s') : Steps shiftedOut s a s' := by
  cases a <;> simp only [step] at hstep
  case notifyCheck =>
    cases hstep
    exact .notifyCheck
  all_goals
    split at hstep <;> cases hstep
    all_goals
      constructor
      assumption

/-! ### What a decision on worker tasks leaves as it is -/

variable (max : ℕ)

@[simp] theorem post_activeWorkers (s : State) : (post max s).activeWorkers = s.activeWorkers := by
  rw [post]
  split <;> rfl

@[simp] theorem post_numWorkerThreads (s : State) :
    (post max s).numWorkerThreads = s.numWorkerThreads := by
  rw [post]
  split <;> rfl

@[simp] theorem post_assignedTaskIds (s : State) :
    (post max s).assignedTaskIds = s.assignedTaskIds := by
  rw [post]
  split <;> rfl

@[simp] theorem post_joiner (s : State) : (post max s).joiner = s.joiner := by
  rw [post]
  split <;> rfl

@[simp] theorem post_canceler (s : State) : (post max s).canceler = s.canceler := by
  rw [post]
  split <;> rfl

/-- It does not look at the joining thread. -/
theorem post_setJoiner (s : State) (j : Joiner) :
    { post max s with joiner := j } = post max { s with joiner := j } := by
  rw [post, post]
  split <;> rfl

/-! ## The counters -/

/-- A worker that counts as active. -/
def Worker.isActive : Worker → Bool
  | .running _ | .ran => true
  | _ => false

/-- Whether the joining thread counts as active. -/
def Joiner.isActive : Joiner → Bool
  | .waiting _ | .running _ | .ran _ => true
  | _ => false

/-- `Join` is over. -/
def Joiner.isOver : Joiner → Bool
  | .leaving _ | .returned => true
  | _ => false

/-- **The invariant of the counters.** -/
structure Counts (numWorkerThreads : ℕ) (s : State) : Prop where
  pending : s.pendingTasks = s.workers.count .posted
  active : s.activeWorkers = s.workers.countP Worker.isActive + s.joiner.isActive.toNat
  bound : s.activeWorkers + s.pendingTasks ≤ s.numWorkerThreads
  threads : s.numWorkerThreads =
    min numWorkerThreads kMaxWorkersPerJob + if s.joiner = .notJoined then 0 else 1
  valid : s.isValid = true → s.joiner = .notJoined ∧ s.canceler = .notCanceled
  exclusive : s.joiner = .notJoined ∨ s.canceler = .notCanceled
  canceled : s.canceler ≠ .notCanceled → s.isCanceled = true
  ended : s.joiner.isOver = true ∨ s.canceler = .returned →
    s.isCanceled = true ∧ s.activeWorkers = 0

section

variable {n : ℕ} {s : State}

theorem counts_new (n : ℕ) : Counts n (new n) := by
  constructor <;> simp [new, Joiner.isActive, Joiner.isOver]

theorem Counts.frame (h : Counts n s) {notifying : ℕ} {assignedTaskIds : BitVec 32} :
    Counts n { s with notifying := notifying, assignedTaskIds := assignedTaskIds } :=
  ⟨h.pending, h.active, h.bound, h.threads, h.valid, h.exclusive, h.canceled, h.ended⟩

theorem Counts.threads_le (h : Counts n s) : s.numWorkerThreads ≤ kMaxWorkersPerJob + 1 := by
  rw [h.threads]
  split <;> omega

theorem decrement_eq {x : ℕ} (h0 : 0 < x) (hx : x ≤ kMaxWorkersPerJob + 1) :
    decrement x = x - 1 := by
  rw [decrement]
  rw [kMaxWorkersPerJob] at hx
  omega

variable {t : ℕ} {w : Worker} {workers : List Worker}

/-- One worker changes. -/
theorem exists_split (h : workers[t]? = some w) (w' : Worker) :
    ∃ before after, workers = before ++ w :: after ∧ workers.set t w' = before ++ w' :: after := by
  obtain ⟨ht, rfl⟩ := List.getElem?_eq_some_iff.1 h
  obtain ⟨before, after, h₁, -, h₂⟩ : ∃ l₁ l₂, workers = l₁ ++ workers[t] :: l₂ ∧ l₁.length = t ∧
      workers.set t w' = l₁ ++ w' :: l₂ := exists_of_set ht
  exact ⟨before, after, h₁, h₂⟩

/-- What one worker changes in a count. -/
theorem countP_set_add (h : workers[t]? = some w) (w' : Worker) (p : Worker → Bool) :
    (workers.set t w').countP p + (p w).toNat = workers.countP p + (p w').toNat := by
  obtain ⟨before, after, h₁, h₂⟩ := exists_split h w'
  rw [h₂, h₁, countP_append, countP_append, countP_cons, countP_cons]
  cases p w <;> cases p w' <;> simp <;> omega

/-- One worker changes, and the counters with it. -/
theorem Counts.set (h : Counts n s) (ht : s.workers[t]? = some w) (w' : Worker)
    (activeWorkers pendingTasks : ℕ) (assignedTaskIds : BitVec 32)
    (hpending : pendingTasks + (w == .posted).toNat = s.pendingTasks + (w' == .posted).toNat)
    (hactive : activeWorkers + w.isActive.toNat = s.activeWorkers + w'.isActive.toNat)
    (hbound : activeWorkers + pendingTasks ≤ s.numWorkerThreads)
    (hover : s.isCanceled = true → activeWorkers ≤ s.activeWorkers) :
    Counts n { s with
      activeWorkers := activeWorkers
      pendingTasks := pendingTasks
      assignedTaskIds := assignedTaskIds
      workers := s.workers.set t w' } := by
  have hposted := countP_set_add ht w' (· == .posted)
  have hisActive := countP_set_add ht w' Worker.isActive
  have hp := h.pending
  have ha := h.active
  rw [count] at hp
  refine ⟨?_, ?_, hbound, h.threads, h.valid, h.exclusive, h.canceled, fun ho => ?_⟩
  · rw [count]
    dsimp only
    omega
  · dsimp only
    omega
  · obtain ⟨hcanceled, h0⟩ := h.ended ho
    exact ⟨hcanceled, Nat.le_zero.1 (h0 ▸ hover hcanceled)⟩

/-- The decision on worker tasks keeps the counters, if it goes by a bound on the number of
threads. -/
theorem Counts.post {max : ℕ} (h : Counts n s) (hmax : max ≤ s.numWorkerThreads) :
    Counts n (post max s) := by
  rw [DefaultJob.post]
  split
  · refine ⟨?_, ?_, ?_, h.threads, h.valid, h.exclusive, h.canceled, h.ended⟩
    · rw [count_append, count_replicate_self, h.pending]
    · rw [countP_append, countP_replicate, h.active]
      rfl
    · dsimp only
      omega
  · exact h

/-- A worker task that is posted is pending. -/
theorem Counts.pending_pos (h : Counts n s) (ht : s.workers[t]? = some .posted) :
    0 < s.pendingTasks := by
  rw [h.pending]
  exact count_pos_iff.2 (mem_of_getElem? ht)

theorem Counts.canRunFirstTask (h : Counts n s) (ht : s.workers[t]? = some .posted)
    (maxConcurrency : ℕ) : Counts n (canRunFirstTask t maxConcurrency s) := by
  have hpos := h.pending_pos ht
  have hbound := h.bound
  have hle := h.threads_le
  have hdec : decrement s.pendingTasks = s.pendingTasks - 1 := decrement_eq hpos (by omega)
  have hdone := h.set ht .done s.activeWorkers (decrement s.pendingTasks) s.assignedTaskIds
    (by rw [hdec]; exact Nat.sub_add_cancel hpos) rfl
    (by omega) (fun _ => le_rfl)
  rw [DefaultJob.canRunFirstTask]
  dsimp only
  split
  · exact hdone
  · next hcanceled =>
    split
    · exact hdone
    · next hmax =>
      have hmax : s.activeWorkers < min maxConcurrency s.numWorkerThreads := Nat.lt_of_not_le hmax
      exact h.set ht (.running none) _ _ s.assignedTaskIds
        (by rw [hdec]; exact Nat.sub_add_cancel hpos) rfl (by omega)
        (fun hc => absurd hc hcanceled)

variable {taskId : Option ℕ}

theorem Counts.runReturns (h : Counts n s)
    (ht : s.workers[t]? = some (.running taskId)) (assignedTaskIds : BitVec 32) :
    Counts n { s with assignedTaskIds := assignedTaskIds, workers := s.workers.set t .ran } :=
  h.set ht .ran _ _ assignedTaskIds rfl rfl h.bound (fun _ => le_rfl)

theorem Counts.didRunTask (h : Counts n s) (ht : s.workers[t]? = some .ran)
    (maxConcurrency : ℕ) : Counts n (didRunTask t maxConcurrency s) := by
  have hpos : 0 < s.activeWorkers := by
    rw [h.active]
    exact Nat.add_pos_left (countP_pos_iff.2 ⟨.ran, mem_of_getElem? ht, rfl⟩) _
  have hbound := h.bound
  have hle := h.threads_le
  rw [DefaultJob.didRunTask]
  split
  · have hdec : decrement s.activeWorkers = s.activeWorkers - 1 := decrement_eq hpos (by omega)
    exact h.set ht .done _ _ s.assignedTaskIds rfl (by rw [hdec]; exact Nat.sub_add_cancel hpos)
      (by omega) (fun _ => by omega)
  · exact (h.set ht (.running none) _ _ s.assignedTaskIds rfl rfl h.bound (fun _ => le_rfl)).post
      (min_le_right _ _)

/-- **The outcomes** of a critical section of `Join`: it waits, it runs, or the job is over. -/
theorem participate_cases (maxConcurrency : ℕ) (s : State) :
    let max := cappedMaxConcurrency s maxConcurrency
    participate delegate maxConcurrency s = { s with joiner := .waiting delegate } ∨
    s.activeWorkers ≤ max ∧ participate delegate maxConcurrency s =
      { postFirst delegate max s with joiner := .running delegate.join } ∨
    s.activeWorkers ≤ 1 ∧ participate delegate maxConcurrency s =
      { s with activeWorkers := 0, isCanceled := true, joiner := .leave delegate } := by
  intro max
  rw [participate, waitForParticipationOpportunity]
  by_cases hwait : max < s.activeWorkers ∧ 1 < s.activeWorkers
  · rw [if_pos hwait]
    exact .inl rfl
  · rw [if_neg hwait]
    by_cases h0 : max ≠ 0
    · rw [if_pos h0]
      obtain ⟨k, hk⟩ := Nat.exists_eq_succ_of_ne_zero h0
      refine .inr (.inl ⟨by omega, ?_⟩)
      change (match (some max, s) with | (none, s) => _ | (some 0, s) => _ | (some max, s) => _) = _
      rw [hk]
      rfl
    · rw [if_neg h0]
      exact .inr (.inr ⟨by omega, rfl⟩)

/-- The joining thread goes on, and stays active. -/
theorem Counts.joiner {j : Joiner} (h : Counts n s) (hs : s.joiner.isActive = true)
    (hj : j.isActive = true) : Counts n { s with joiner := j } := by
  have hne : ∀ {i : Joiner}, i.isActive = true → i ≠ .notJoined ∧ i.isOver = false :=
      fun {i} hi => by
    cases i <;> simp_all [Joiner.isActive, Joiner.isOver]
  have hcanceler : s.canceler = .notCanceled := h.exclusive.resolve_left (hne hs).1
  refine ⟨h.pending, ?_, h.bound, ?_, fun hv => absurd (h.valid hv).1 (hne hs).1, .inr hcanceler,
    h.canceled, ?_⟩
  · rw [h.active]
    rw [hs, hj]
  · rw [h.threads, if_neg (hne hs).1, if_neg (hne hj).1]
  · rintro (ho | ho)
    · exact absurd ho (by rw [(hne hj).2]; decide)
    · exact absurd (hcanceler.symm.trans ho) (by decide)

theorem Counts.participate {delegate : Option (Option ℕ)}
    (h : Counts n { s with joiner := .waiting delegate }) (maxConcurrency : ℕ) :
    Counts n (participate delegate maxConcurrency s) := by
  obtain heq | ⟨-, heq⟩ | ⟨hle, heq⟩ := participate_cases delegate maxConcurrency s
  · rw [heq]
    exact h
  · have hrunning : Counts n { s with joiner := .running delegate.join } := h.joiner rfl rfl
    rw [heq, postFirst]
    split
    · rw [post_setJoiner]
      exact hrunning.post (min_le_right _ _)
    · exact hrunning
  · have hactive := h.active
    change s.activeWorkers = s.workers.countP Worker.isActive + 1 at hactive
    have hcanceler : s.canceler = .notCanceled := h.exclusive.resolve_left nofun
    have hover : (Joiner.leave delegate).isActive = false ∧ Joiner.leave delegate ≠ .notJoined := by
      cases delegate <;> exact ⟨rfl, nofun⟩
    rw [heq]
    refine ⟨h.pending, ?_, ?_, ?_, fun hv => absurd (h.valid hv).1 nofun, .inr hcanceler,
      fun _ => rfl, fun _ => ⟨rfl, rfl⟩⟩
    · dsimp only
      rw [hover.1]
      change 0 = s.workers.countP Worker.isActive + 0
      omega
    · have hbound := h.bound
      dsimp only at hbound ⊢
      omega
    · rw [h.threads, if_neg hover.2, if_neg nofun]

theorem Counts.join (h : Counts n s) (hv : s.isValid = true) (maxConcurrency : ℕ) :
    Counts n (join maxConcurrency s) := by
  obtain ⟨hjoiner, hcanceler⟩ := h.valid hv
  rw [DefaultJob.join]
  refine Counts.participate ?_ maxConcurrency
  refine ⟨h.pending, ?_, ?_, ?_, nofun, .inr hcanceler, h.canceled, ?_⟩
  · have hactive := h.active
    rw [hjoiner] at hactive
    rw [hactive]
    rfl
  · have hbound := h.bound
    dsimp only
    omega
  · have hthreads := h.threads
    rw [if_pos hjoiner] at hthreads
    rw [hthreads]
    rfl
  · rintro (ho | ho)
    · exact absurd ho Bool.false_ne_true
    · exact absurd (hcanceler.symm.trans ho) (by decide)

/-- Canceling, and the wait for the workers. -/
theorem Counts.waitForWorkers (h : Counts n s) (hcanceled : s.isCanceled = true)
    (hv : s.isValid = false) (hjoiner : s.joiner = .notJoined) : Counts n (waitForWorkers s) := by
  rw [DefaultJob.waitForWorkers]
  refine ⟨h.pending, h.active, h.bound, h.threads, fun hv' => ?_, .inl hjoiner, fun _ => hcanceled,
    ?_⟩
  · exact absurd (hv.symm.trans hv') (by decide)
  · rintro (ho | ho)
    · exact h.ended (.inl ho)
    · refine ⟨hcanceled, Nat.eq_zero_of_not_pos fun hpos => ?_⟩
      dsimp only at ho
      rw [if_pos hpos] at ho
      exact absurd ho (by decide)

theorem inRun_worker :
    s.inRun (.worker t) = some taskId ↔ s.workers[t]? = some (.running taskId) := by
  rw [State.inRun]
  constructor
  · intro h
    split at h
    · next hw => rw [hw, Option.some.inj h]
    · cases h
  · intro h
    rw [h]

theorem inRun_joining : s.inRun .joining = some taskId ↔ s.joiner = .running taskId := by
  rw [State.inRun]
  constructor
  · intro h
    split at h
    · next hj => rw [hj, Option.some.inj h]
    · cases h
  · intro h
    rw [h]

variable {shiftedOut : BitVec 32}

theorem Counts.getTaskId {thread : Thread} (h : Counts n s)
    (hrun : s.inRun thread = some none) : Counts n (getTaskId shiftedOut thread s) := by
  cases thread with
  | worker t =>
    exact h.set (inRun_worker.1 hrun) (.running (some _)) _ _ _ rfl rfl h.bound (fun _ => le_rfl)
  | joining =>
    exact h.frame.joiner (by rw [inRun_joining.1 hrun]; rfl) rfl

/-- **Every step keeps the invariant of the counters.** -/
theorem Counts.step {a : Action} {s' : State} (h : Counts n s)
    (hstep : step shiftedOut s a = some s') : Counts n s' := by
  cases steps_of_step hstep with
  | notifyCheck =>
    split
    · exact h
    · exact h.frame
  | notify maxConcurrency _ =>
    refine Counts.post ?_ (min_le_right _ _)
    exact h.frame
  | canRunFirstTask t maxConcurrency ht =>
    exact h.canRunFirstTask ht maxConcurrency
  | hasTaskId _ _ =>
    exact h
  | getTaskId thread hrun =>
    exact h.getTaskId hrun
  | runReturns t ht =>
    exact h.runReturns ht _
  | didRunTask t maxConcurrency ht =>
    exact h.didRunTask ht maxConcurrency
  | join maxConcurrency hv =>
    exact h.join hv maxConcurrency
  | joinWakes maxConcurrency hj =>
    exact Counts.participate (hj ▸ h) maxConcurrency
  | joinRunReturns hj =>
    exact h.joiner (by rw [hj]; rfl) rfl
  | joinAgain maxConcurrency hj =>
    exact (h.joiner (by rw [hj]; rfl) rfl).participate maxConcurrency
  | joinReturns hj =>
    have hactive := h.active
    have hthreads := h.threads
    rw [hj] at hactive hthreads
    exact ⟨h.pending, hactive, h.bound, hthreads,
      fun hv => absurd (hj.symm.trans (h.valid hv).1) nofun,
      .inr (h.exclusive.resolve_left (by rw [hj]; exact nofun)), h.canceled,
      fun _ => h.ended (.inl (by rw [hj]; rfl))⟩
  | cancelAndWait hv =>
    refine Counts.waitForWorkers ?_ rfl rfl (h.valid hv).1
    exact ⟨h.pending, h.active, h.bound, h.threads, nofun, h.exclusive, fun _ => rfl,
      fun ho => ⟨rfl, (h.ended ho).2⟩⟩
  | cancelWakes hc =>
    have hne : s.canceler ≠ .notCanceled := by rw [hc]; decide
    refine h.waitForWorkers (h.canceled hne) ?_ (h.exclusive.resolve_right hne)
    exact Bool.eq_false_iff.2 fun hv => hne (h.valid hv).2
  | cancelAndDetach hv =>
    exact ⟨h.pending, h.active, h.bound, h.threads, nofun, h.exclusive, fun _ => rfl,
      fun ho => ⟨rfl, (h.ended ho).2⟩⟩

end

end DefaultJob
