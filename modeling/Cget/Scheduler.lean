import Cget.Engine
import Cget.Lib.Runs
/-!
# The scheduler

`Scheduler::run` as a state machine. A step is a critical section of the coordinator (its
check at the top of the loop, the visit of one task of a pass, the wait, the joins), a step
of a worker's executor, or one of the worker's own critical sections after it. A pass holds
`stateMutex`, so workers cannot leave while one is going on. `run` takes any executor;
`chunkExecutor` is the one of `runQueuedTasks`.

The snapshot for the metrics is left out.
-/

namespace Cget

inductive SchedulingPolicy where
  | fifo | smallTaskFirst
  deriving DecidableEq, Repr

structure SchedulerConfig where
  policy : SchedulingPolicy := .fifo
  maxGlobalWorkers : Nat := 16
  maxConcurrentTasks : Nat := 4
  maxChunksPerTask : Nat := 4
  deriving DecidableEq, Repr

/-- The constructor of `Scheduler`. -/
def SchedulerConfig.normalized (c : SchedulerConfig) : SchedulerConfig :=
  { c with
    maxGlobalWorkers := max 1 c.maxGlobalWorkers
    maxConcurrentTasks := max 1 c.maxConcurrentTasks
    maxChunksPerTask := max 1 c.maxChunksPerTask }

structure ChunkJob where
  taskId : TaskId
  chunkIndex : Nat
  priority : Nat
  deriving DecidableEq, Repr

/-- A quota that belongs to no task yet has the empty id. -/
structure TaskQuota where
  taskId : TaskId := []
  maxConcurrentChunks : Nat := 0
  runningChunks : Nat := 0
  deriving DecidableEq, Repr

def isSchedulableStatus (s : TaskStatus) : Bool :=
  s = .pending || s = .queued || s = .downloading || s = .retrying || s = .failed

def Chunk.schedulable (c : Chunk) : Bool :=
  (c.status = .pending || c.status = .paused || c.status = .failed) && c.downloaded < c.size

def hasSchedulableChunk (t : DownloadTask) : Bool := isSchedulableStatus t.status && t.chunks.any (·.schedulable)

def selectNextChunk (t : DownloadTask) : Option Nat := t.chunks.findIdx? (·.schedulable)

/-! ## Executors -/

/-- A `ChunkExecutor` step by step: `none` when it has returned, an exception when it threw. -/
structure Executor (L : Type) where
  start : L
  step : TaskId → (chunk : Nat) → L → EngineM (Option L)

/-- `downloadPreparedChunk` of each task's engine. -/
def chunkExecutor (envs : TaskId → Env) : Executor WorkerPc where
  start := .attempt 0
  step id chunk pc := match pc with
    | .returned => pure none
    | .threw e => throw e
    | pc => do
      let next ← stepWorker (envs id) chunk pc
      pure (some next)

/-! ## States -/

inductive Phase (L : Type) where
  | executing (l : L)
  /-- The executor threw, `workerFailed` is set; the failure is not yet on the task. -/
  | recording
  /-- About to give its place back. -/
  | leaving
  | exited
  deriving DecidableEq

structure Worker (L : Type) where
  taskId : TaskId
  chunk : Nat
  phase : Phase L
  deriving DecidableEq

inductive Coordinator where
  | top
  /-- In a pass, with these tasks still to visit. -/
  | visiting (order : List Nat) (scheduled : Bool)
  | waiting
  | joining
  | returned
  deriving DecidableEq, Repr

structure SchedState (L : Type) where
  tasks : List DownloadTask
  world : World
  quotas : TaskId → TaskQuota := fun _ => {}
  busyWorkers : Nat := 0
  activeTasks : Nat := 0
  workerFailed : Bool := false
  scheduledJobs : List ChunkJob := []
  workers : List (Worker L) := []
  coordinator : Coordinator := .top
  /-- The process died in a worker. -/
  crashed : Bool := false

namespace SchedState

variable {L : Type} (s : SchedState L)

def unfinished : Bool := s.tasks.any (fun t => hasSchedulableChunk t || 0 < (s.quotas t.id).runningChunks)

def setTask (i : Nat) (t : DownloadTask) : SchedState L := { s with tasks := s.tasks.set i t }

def setPhase (k : Nat) (w : Worker L) (p : Phase L) : SchedState L :=
  { s with workers := s.workers.set k { w with phase := p } }

def setQuota (id : TaskId) (q : TaskQuota) : SchedState L := { s with quotas := Function.update s.quotas id q }

/-- Where the worker finds its task. -/
def indexOf (id : TaskId) : Option Nat := s.tasks.findIdx? (·.id = id)

/-! ## The coordinator -/

/-- The order of a pass. -/
def taskOrder (cfg : SchedulerConfig) : List Nat :=
  match cfg.policy with
  | .fifo => List.range s.tasks.length
  | .smallTaskFirst =>
    (List.range s.tasks.length).mergeSort
      (fun i j => ((s.tasks[i]?.map (·.fileSize)).getD 0) ≤ ((s.tasks[j]?.map (·.fileSize)).getD 0))

/-- The task's quota, initialised if this is the first visit. -/
def visitQuota (cfg : SchedulerConfig) (t : DownloadTask) : TaskQuota :=
  let quota := s.quotas t.id
  if quota.taskId = [] then
    { quota with
      taskId := t.id
      maxConcurrentChunks := if t.schedulerMaxChunks ≠ 0 then t.schedulerMaxChunks else cfg.maxChunksPerTask }
  else quota

/-- A task whose chunk `j` is given to a worker. -/
def startedTask (t : DownloadTask) (j : Nat) (c : Chunk) : DownloadTask :=
  { t with status := .downloading, chunks := t.chunks.set j { c with status := .downloading } }

/-- The coordinator starts a worker on chunk `j` of task `i`. -/
def startWorker (ex : Executor L) (i j : Nat) (t : DownloadTask) (c : Chunk) (quota : TaskQuota) : SchedState L :=
  { s with
    tasks := s.tasks.set i (startedTask t j c)
    world := s.world.record (.assigned t.id .downloading)
    quotas := Function.update s.quotas t.id { quota with runningChunks := quota.runningChunks + 1 }
    activeTasks := if quota.runningChunks = 0 then s.activeTasks + 1 else s.activeTasks
    busyWorkers := s.busyWorkers + 1
    scheduledJobs := s.scheduledJobs ++ [{ taskId := t.id, chunkIndex := c.index, priority := t.schedulerPriority }]
    workers := s.workers ++ [{ taskId := t.id, chunk := j, phase := .executing ex.start }] }

/-- The chunk a visit of task `t` starts, if any. -/
def pick (cfg : SchedulerConfig) (t : DownloadTask) : Option Nat :=
  let quota := s.visitQuota cfg t
  if !hasSchedulableChunk t || quota.maxConcurrentChunks ≤ quota.runningChunks then none
  else if quota.runningChunks = 0 && cfg.maxConcurrentTasks ≤ s.activeTasks then none
  else selectNextChunk t

/-- One round of the `for` loop over the tasks, `order` and `scheduled` being what is left. -/
def visit (ex : Executor L) (cfg : SchedulerConfig) (i : Nat) (order : List Nat) (scheduled : Bool) : SchedState L :=
  if cfg.maxGlobalWorkers ≤ s.busyWorkers then { s with coordinator := .visiting [] scheduled }
  else
    match s.tasks[i]? with
    | none => { s with coordinator := .visiting order scheduled }
    | some t =>
      match s.pick cfg t with
      | none => { s.setQuota t.id (s.visitQuota cfg t) with coordinator := .visiting order scheduled }
      | some j =>
        match t.chunks[j]? with
        | none => { s.setQuota t.id (s.visitQuota cfg t) with coordinator := .visiting order scheduled }
        | some c => { s.startWorker ex i j t c (s.visitQuota cfg t) with coordinator := .visiting order true }

def workerFailedMessage : Text := text "scheduled worker failed"

/-- What is left of `run` after the joins: tasks still Downloading fail if a worker did. -/
def sweepTask (t : DownloadTask) : DownloadTask :=
  if t.status = .downloading then { t with status := .failed, lastError := some workerFailedMessage } else t

def sweep : SchedState L :=
  if s.workerFailed then
    { s with
      tasks := s.tasks.map sweepTask
      world := (s.tasks.filter (·.status = .downloading)).foldl (fun w t => w.record (.assigned t.id .failed)) s.world }
  else s

def coordinate (ex : Executor L) (cfg : SchedulerConfig) : SchedState L :=
  match s.coordinator with
  | .top =>
    if s.workerFailed || !s.unfinished then { s with coordinator := .joining }
    else { s with coordinator := .visiting (s.taskOrder cfg) false }
  | .visiting [] scheduled => { s with coordinator := if scheduled then .top else .waiting }
  | .visiting (i :: order) scheduled => s.visit ex cfg i order scheduled
  | .waiting => { s with coordinator := .top }
  | .joining =>
    if s.workers.all (fun w => match w.phase with | .exited => true | _ => false) then
      { s.sweep with coordinator := .returned }
    else s
  | .returned => s

/-! ## The workers -/

/-- Worker `k`'s executor makes a step on task `i`. -/
def execute (ex : Executor L) (k : Nat) (w : Worker L) (l : L) (i : Nat) (t : DownloadTask) : SchedState L :=
  let r := (ex.step w.taskId w.chunk l).run { world := s.world, task := t }
  let s' : SchedState L := { s.setTask i r.2.task with world := r.2.world }
  match r.1 with
  | .ok (some l') => s'.setPhase k w (.executing l')
  | .ok none => s'.setPhase k w .leaving
  | .thrown _ => { s'.setPhase k w .recording with workerFailed := true }
  | .stopped => { s' with crashed := true }

/-- A task whose worker on chunk `j` threw. -/
def failedTask (t : DownloadTask) (j : Nat) : DownloadTask :=
  { t with
    status := .failed
    lastError := some workerFailedMessage
    chunks := t.chunks.modify j (fun c => { c with status := .failed }) }

/-- The `catch (...)` of worker `k`. -/
def recordFailure (k : Nat) (w : Worker L) : SchedState L :=
  match s.indexOf w.taskId with
  | none => s.setPhase k w .leaving
  | some i =>
    match s.tasks[i]? with
    | none => s.setPhase k w .leaving
    | some t =>
      { (s.setTask i (failedTask t w.chunk)).setPhase k w .leaving with
        world := s.world.record (.assigned t.id .failed) }

/-- Worker `k` gives its place back. -/
def leave (k : Nat) (w : Worker L) : SchedState L :=
  let quota := s.quotas w.taskId
  let left := quota.runningChunks - 1
  { s.setPhase k w .exited with
    quotas := Function.update s.quotas w.taskId { quota with runningChunks := left }
    activeTasks := if 0 < quota.runningChunks ∧ left = 0 ∧ 0 < s.activeTasks then s.activeTasks - 1 else s.activeTasks
    busyWorkers := s.busyWorkers - 1 }

/-- A pass is going on. -/
def passing : Bool := match s.coordinator with | .visiting .. => true | _ => false

def work (ex : Executor L) (k : Nat) : SchedState L :=
  match s.workers[k]? with
  | none => s
  | some w =>
    match w.phase with
    | .executing l =>
      match s.indexOf w.taskId with
      | none => s.setPhase k w .leaving
      | some i =>
        match s.tasks[i]? with
        | none => s.setPhase k w .leaving
        | some t => s.execute ex k w l i t
    | .recording => s.recordFailure k w
    | .leaving => if s.passing then s else s.leave k w
    | .exited => s

/-- Who makes the next step. -/
inductive Choice where
  | coordinator
  | worker (k : Nat)
  deriving DecidableEq, Repr

def step (ex : Executor L) (cfg : SchedulerConfig) (s : SchedState L) (c : Choice) : SchedState L :=
  if s.crashed then s
  else
    match c with
    | .coordinator => s.coordinate ex cfg
    | .worker k => s.work ex k

def runs (ex : Executor L) (cfg : SchedulerConfig) (s : SchedState L) (schedule : List Choice) : SchedState L :=
  schedule.foldl (step ex cfg) s

end SchedState

/-- `Scheduler::run` under a schedule; one that ends too early is a run cut short. -/
def schedulerRun {L : Type} (ex : Executor L) (config : SchedulerConfig) (schedule : List SchedState.Choice)
    (tasks : List DownloadTask) : Prog World Exn (List DownloadTask) where
  run w :=
    let s : SchedState L := SchedState.runs ex config.normalized { tasks, world := w } schedule
    (if !s.crashed && s.coordinator = .returned then .ok s.tasks else .stopped, s.world)

theorem wp_schedulerRun {L : Type} {ex : Executor L} {config : SchedulerConfig} {schedule : List SchedState.Choice}
    {tasks : List DownloadTask} {w : World} {Q : List DownloadTask → World → Prop} {E : Exn → World → Prop}
    {S : World → Prop} {s : SchedState L}
    (hs : SchedState.runs ex config.normalized { tasks, world := w } schedule = s)
    (hok : s.crashed = false → s.coordinator = .returned → Q s.tasks s.world) (hstop : S s.world) :
    Prog.wp (schedulerRun ex config schedule tasks) Q E S w := by
  unfold Prog.wp schedulerRun
  dsimp only
  rw [hs]
  cases hc : s.crashed
  · by_cases hr : s.coordinator = .returned
    · simpa [hc, hr] using hok hc hr
    · simpa [hc, hr] using hstop
  · simpa [hc] using hstop

/-! ## Lists of tasks and workers -/

theorem set_self {α : Type} {l : List α} {k : Nat} {a : α} (h : l[k]? = some a) : l.set k a = l := by
  obtain ⟨hlt, rfl⟩ := List.getElem?_eq_some_iff.1 h
  exact List.set_getElem_self hlt

theorem map_set_eq {α β : Type} {l : List α} {k : Nat} {a b : α} {f : α → β} (h : l[k]? = some a) (hf : f b = f a) :
    (l.set k b).map f = l.map f := by
  rw [List.map_set, hf]
  exact set_self (by rw [List.getElem?_map, h]; rfl)

/-- Two places of a list with different keys that hold the same key are one. -/
theorem index_unique {α β : Type} {l : List α} {f : α → β} (hl : (l.map f).Nodup) {m n : Nat} {a b : α}
    (ha : l[m]? = some a) (hb : l[n]? = some b) (h : f a = f b) : m = n :=
  (List.getElem?_inj (by simpa using (List.getElem?_eq_some_iff.1 ha).1) hl).1 (by simp [ha, hb, h])

theorem getElem?_set_some {α : Type} {l : List α} {k j : Nat} {a b : α} (h : (l.set k a)[j]? = some b) :
    (j = k ∧ b = a) ∨ (j ≠ k ∧ l[j]? = some b) := by
  by_cases hk : k = j
  · subst hk
    have hlen : k < l.length := by simpa using (List.getElem?_eq_some_iff.1 h).1
    rw [List.getElem?_set_self hlen] at h
    exact .inl ⟨rfl, (Option.some.inj h).symm⟩
  · rw [List.getElem?_set_ne hk] at h
    exact .inr ⟨Ne.symm hk, h⟩

/-! ## What a step can do -/

namespace SchedState

variable {L : Type} {ex : Executor L} {cfg : SchedulerConfig} {s s' : SchedState L}

theorem indexOf_none {id : TaskId} (h : s.indexOf id = none) : ∀ t ∈ s.tasks, t.id ≠ id := by
  simpa using List.findIdx?_eq_none_iff.1 h

theorem indexOf_spec {id : TaskId} {i : Nat} (h : s.indexOf id = some i) :
    ∃ t : DownloadTask, s.tasks[i]? = some t ∧ t.id = id := by
  obtain ⟨hlt, hid, -⟩ := List.findIdx?_eq_some_iff_getElem.1 h
  exact ⟨s.tasks[i], by simp, by simpa using hid⟩

/-- The chunk a visit starts is there, and schedulable in a schedulable task. -/
theorem pick_spec {t : DownloadTask} {j : Nat} (h : s.pick cfg t = some j) :
    isSchedulableStatus t.status ∧ ∃ c, t.chunks[j]? = some c ∧ c.schedulable := by
  unfold pick at h
  dsimp only at h
  split at h
  · cases h
  · rename_i hq
    split at h
    · cases h
    · obtain ⟨hlt, hc, -⟩ := List.findIdx?_eq_some_iff_getElem.1 h
      simp only [hasSchedulableChunk, Bool.or_eq_true, Bool.not_eq_true', Bool.and_eq_false_iff, not_or] at hq
      exact ⟨by simpa using hq.1.1, t.chunks[j], by simp, hc⟩

/-- Every step, by what it does to the tasks, the world and the workers. -/
inductive StepEffect (ex : Executor L) (cfg : SchedulerConfig) (s : SchedState L) (choice : Choice) :
    SchedState L → Prop
  /-- Nothing, or counters and the coordinator's place only. -/
  | idle {s' : SchedState L} : s'.tasks = s.tasks → s'.world = s.world → s'.workers = s.workers →
      s'.workerFailed = s.workerFailed → s'.crashed = s.crashed → StepEffect ex cfg s choice s'
  /-- A worker is through with its chunk. -/
  | retire {s' : SchedState L} (k : Nat) (w : Worker L) (p : Phase L) : s.workers[k]? = some w →
      w.phase = .leaving ∨ (∀ t ∈ s.tasks, t.id ≠ w.taskId) → p = .leaving ∨ p = .exited → s'.tasks = s.tasks →
      s'.world = s.world →
      s'.workers = s.workers.set k { w with phase := p } → s'.workerFailed = s.workerFailed →
      s'.crashed = s.crashed → StepEffect ex cfg s choice s'
  /-- The coordinator starts a worker. -/
  | start {s' : SchedState L} (i j : Nat) (order : List Nat) (scheduled : Bool) (t : DownloadTask) (c : Chunk) :
      choice = .coordinator → s.coordinator = .visiting (i :: order) scheduled → s.tasks[i]? = some t →
      s.pick cfg t = some j → t.chunks[j]? = some c → s'.tasks = s.tasks.set i (startedTask t j c) →
      s'.world = s.world.record (.assigned t.id .downloading) →
      s'.workers = s.workers ++ [{ taskId := t.id, chunk := j, phase := .executing ex.start }] →
      s'.workerFailed = s.workerFailed → s'.crashed = s.crashed → StepEffect ex cfg s choice s'
  /-- An executor makes a step. -/
  | execute (k : Nat) (w : Worker L) (l : L) (i : Nat) (t : DownloadTask) :
      choice = .worker k → s.workers[k]? = some w →
      w.phase = .executing l → s.tasks[i]? = some t → t.id = w.taskId →
      StepEffect ex cfg s choice (s.execute ex k w l i t)
  /-- A worker puts its exception on the task. -/
  | record {s' : SchedState L} (k : Nat) (w : Worker L) (i : Nat) (t : DownloadTask) : s.workers[k]? = some w →
      w.phase = .recording → s.tasks[i]? = some t → t.id = w.taskId →
      s'.tasks = s.tasks.set i (failedTask t w.chunk) → s'.world = s.world.record (.assigned t.id .failed) →
      s'.workers = s.workers.set k { w with phase := .leaving } → s'.workerFailed = s.workerFailed →
      s'.crashed = s.crashed → StepEffect ex cfg s choice s'
  /-- All workers are joined. -/
  | sweep {s' : SchedState L} : s.coordinator = .joining → (∀ w ∈ s.workers, w.phase = .exited) →
      s'.tasks = s.sweep.tasks → s'.world = s.sweep.world → s'.workers = s.workers →
      s'.workerFailed = s.workerFailed → s'.crashed = s.crashed → StepEffect ex cfg s choice s'

/-- The session an executor's step on task `t` ends in. -/
def executed (ex : Executor L) (s : SchedState L) (w : Worker L) (l : L) (t : DownloadTask) : Session :=
  ((ex.step w.taskId w.chunk l).run { world := s.world, task := t }).2

theorem mem_set_phase {k : Nat} {w v : Worker L} {p : Phase L} (hk : s.workers[k]? = some w)
    (hv : v ∈ s.workers.set k { w with phase := p }) :
    ∃ u ∈ s.workers, u.taskId = v.taskId ∧ u.chunk = v.chunk := by
  rcases List.mem_or_eq_of_mem_set hv with hv | rfl
  · exact ⟨v, hv, rfl, rfl⟩
  · exact ⟨w, List.mem_of_getElem? hk, rfl, rfl⟩

/-- An executor's step changes its task and the world as the executor says, and its
worker's phase. -/
theorem execute_spec (ex : Executor L) {k i : Nat} {w : Worker L} {l : L} {t : DownloadTask}
    (hk : s.workers[k]? = some w) :
    (s.execute ex k w l i t).tasks = s.tasks.set i (executed ex s w l t).task ∧
      (s.execute ex k w l i t).world = (executed ex s w l t).world ∧
      ∀ v ∈ (s.execute ex k w l i t).workers, ∃ u ∈ s.workers, u.taskId = v.taskId ∧ u.chunk = v.chunk := by
  unfold execute
  dsimp only
  split
  · exact ⟨rfl, rfl, fun v hv => mem_set_phase hk hv⟩
  · exact ⟨rfl, rfl, fun v hv => mem_set_phase hk hv⟩
  · exact ⟨rfl, rfl, fun v hv => mem_set_phase hk hv⟩
  · exact ⟨rfl, rfl, fun v hv => ⟨v, hv, rfl, rfl⟩⟩

theorem sweep_same : s.sweep.workers = s.workers ∧ s.sweep.workerFailed = s.workerFailed ∧
    s.sweep.crashed = s.crashed := by
  unfold sweep
  split <;> exact ⟨rfl, rfl, rfl⟩

theorem coordinate_effect : StepEffect ex cfg s .coordinator (s.coordinate ex cfg) := by
  unfold coordinate
  split
  · split <;> exact .idle rfl rfl rfl rfl rfl
  · exact .idle rfl rfl rfl rfl rfl
  · rename_i i order scheduled hc
    unfold visit
    split
    · exact .idle rfl rfl rfl rfl rfl
    · split
      · exact .idle rfl rfl rfl rfl rfl
      · rename_i t hti
        split
        · exact .idle rfl rfl rfl rfl rfl
        · rename_i j hpick
          split
          · exact .idle rfl rfl rfl rfl rfl
          · rename_i c hcj
            exact .start i j order scheduled t c rfl hc hti hpick hcj rfl rfl rfl rfl rfl
  · exact .idle rfl rfl rfl rfl rfl
  · rename_i hc
    split
    · rename_i hall
      obtain ⟨h1, h2, h3⟩ := sweep_same (s := s)
      refine .sweep hc (fun w hw => ?_) rfl rfl h1 h2 h3
      have := List.all_eq_true.1 hall w hw
      split at this
      · assumption
      · cases this
    · exact .idle rfl rfl rfl rfl rfl
  · exact .idle rfl rfl rfl rfl rfl

theorem work_effect (k : Nat) : StepEffect ex cfg s (.worker k) (s.work ex k) := by
  unfold work
  split
  · exact .idle rfl rfl rfl rfl rfl
  · rename_i w hk
    split
    · rename_i l hp
      split
      · rename_i hnone
        exact .retire k w .leaving hk (.inr (indexOf_none hnone)) (.inl rfl) rfl rfl rfl rfl rfl
      · rename_i i hi
        obtain ⟨t, hti, hid⟩ := indexOf_spec hi
        simp only [hti]
        exact .execute k w l i t rfl hk hp hti hid
    · rename_i hp
      unfold recordFailure
      split
      · rename_i hnone
        exact .retire k w .leaving hk (.inr (indexOf_none hnone)) (.inl rfl) rfl rfl rfl rfl rfl
      · rename_i i hi
        obtain ⟨t, hti, hid⟩ := indexOf_spec hi
        simp only [hti]
        exact .record k w i t hk hp hti hid rfl rfl rfl rfl rfl
    · rename_i hp
      split
      · exact .idle rfl rfl rfl rfl rfl
      · exact .retire k w .exited hk (.inl hp) (.inr rfl) rfl rfl rfl rfl rfl
    · exact .idle rfl rfl rfl rfl rfl

theorem step_effect (c : Choice) : StepEffect ex cfg s c (step ex cfg s c) := by
  unfold step
  split
  · exact .idle rfl rfl rfl rfl rfl
  · cases c with
    | coordinator => exact coordinate_effect
    | worker k => exact work_effect k

/-- The tasks keep their ids and their number through a sweep, and a mismatch stays one. -/
theorem sweepTask_same (t : DownloadTask) :
    (sweepTask t).id = t.id ∧ (sweepTask t).chunks = t.chunks ∧
      ((sweepTask t).status = t.status ∨ t.status = .downloading ∧ (sweepTask t).status = .failed) := by
  unfold sweepTask
  split
  · exact ⟨rfl, rfl, .inr ⟨‹_›, rfl⟩⟩
  · exact ⟨rfl, rfl, .inl rfl⟩

theorem sweep_tasks : s.sweep.tasks = s.tasks ∨ s.workerFailed ∧ s.sweep.tasks = s.tasks.map sweepTask := by
  unfold sweep
  split
  · exact .inr ⟨‹_›, rfl⟩
  · exact .inl rfl

/-- A sweep logs status changes only. -/
theorem sweep_log : ∃ es : List Event, s.sweep.world = { s.world with log := es ++ s.world.log } ∧
    ∀ e ∈ es, ∃ id, e = .assigned id .failed := by
  unfold sweep
  split
  · generalize s.tasks.filter (·.status = .downloading) = ts
    dsimp only
    generalize s.world = w
    induction ts generalizing w with
    | nil => exact ⟨[], rfl, by simp⟩
    | cons t ts ih =>
      obtain ⟨es, hes, hall⟩ := ih (w.record (.assigned t.id .failed))
      refine ⟨es ++ [.assigned t.id .failed], ?_, ?_⟩
      · rw [List.foldl_cons, hes]
        simp [World.record]
      · intro e he
        rcases List.mem_append.1 he with he | he
        · exact hall e he
        · exact ⟨t.id, by simpa using he⟩
  · exact ⟨[], rfl, by simp⟩

end SchedState

/-- A step of the executor is its end, or a step of the chunk worker. -/
theorem chunkExecutor_run (envs : TaskId → Env) (id : TaskId) {j : Nat} {e : Session} {c : Chunk}
    (h : e.task.chunks[j]? = some c) (pc : WorkerPc) :
    (pc = .returned ∧ ((chunkExecutor envs).step id j pc).run e = (.ok none, e)) ∨
    (∃ x, pc = .threw x ∧ ((chunkExecutor envs).step id j pc).run e = (.thrown x, e)) ∨
    ((chunkExecutor envs).step id j pc).run e =
      (if (e.workerMove (envs id) c pc).crashed then .stopped else .ok (some (e.workerMove (envs id) c pc).next),
        e.stepped (envs id) j c pc) := by
  have hstep : ∀ pc, Prog.run (Prog.bind (stepWorker (envs id) j pc) (fun n => Pure.pure (some n))) e =
      (if (e.workerMove (envs id) c pc).crashed then .stopped else .ok (some (e.workerMove (envs id) c pc).next),
        e.stepped (envs id) j c pc) := by
    intro pc
    simp only [Prog.bind, stepWorker_run h]
    split <;> split at * <;> simp_all [Pure.pure]
  cases pc with
  | returned => exact .inl ⟨rfl, rfl⟩
  | threw x => exact .inr (.inl ⟨x, rfl, rfl⟩)
  | _ => exact .inr (.inr (hstep _))

end Cget
