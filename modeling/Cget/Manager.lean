import Cget.Scheduler
/-!
# The download manager

`download_manager.cpp`: creating, downloading, pausing and removing a task, and `runQueuedTasks`.
Choosing the output path and the id, and checking the URL, happen before a task exists and
are parameters of `createTask`.
-/

namespace Cget

/-- What `createTask` has made of a request before it builds the task. -/
structure CreateRequest where
  id : TaskId
  url : Text
  fileName : Text
  targetPath : Path
  expectedSha256 : Option Text := none
  requestedThreads : Nat := 0
  taskRateLimitBytesPerSec : Option Nat := none
  queueOnly : Bool := false

/-- `FileSystemService::taskTempDir`. -/
def taskTempDir (env : Env) (id : TaskId) : Path := joinPath (joinPath env.appHome (text "temp")) id

def newTask (env : Env) (r : CreateRequest) : DownloadTask where
  id := r.id
  url := r.url
  fileName := r.fileName
  expectedSha256 := r.expectedSha256.map lowercaseHex
  targetPath := r.targetPath
  tempDir := taskTempDir env r.id
  status := if r.queueOnly then .queued else .pending
  requestedThreads := r.requestedThreads
  taskRateLimitBytesPerSec := r.taskRateLimitBytesPerSec
  createdAt := env.now
  updatedAt := env.now

/-- `DownloadManager::createTask`. -/
def createTask (env : Env) (r : CreateRequest) : Prog World Exn DownloadTask := do
  ensureTaskTempDir env
  modify (·.record (.assigned r.id (newTask env r).status))
  saveTask env (newTask env r)
  pure (newTask env r)

/-- `PersistenceStore::loadTask`. -/
def loadTask (id : TaskId) : Prog World Exn DownloadTask := do
  let w ← get
  match w.disk.loadTask id with
  | some t => pure t
  | none => throw (.cget .jsonCorruptedError (text "task JSON is missing or corrupted: " ++ id))

/-- An engine operation on the task `t`, and the task it leaves. -/
def onTask (t : DownloadTask) (m : EngineM Unit) : Prog World Exn DownloadTask where
  run w := match m.run { world := w, task := t } with
    | (.ok _, s) => (.ok s.task, s.world)
    | (.thrown e, s) => (.thrown e, s.world)
    | (.stopped, s) => (.stopped, s.world)

theorem wp_onTask {t : DownloadTask} {m : EngineM Unit} {w : World} {Q : DownloadTask → World → Prop}
    {E : Exn → World → Prop} {S : World → Prop} :
    Prog.wp (onTask t m) Q E S w ↔
      Prog.wp m (fun _ s => Q s.task s.world) (fun e s => E e s.world) (fun s => S s.world)
        { world := w, task := t } := by
  rcases h : m.run { world := w, task := t } with ⟨_ | _ | _, s'⟩ <;> simp [Prog.wp, onTask, h]

/-- The engine is created before `m` runs it, which may throw: `ProtocolRegistry::create`, and
`config_.load()` before it in `downloadTask`. -/
def withEngine (env : Env) (m : EngineM Unit) : EngineM Unit := do
  Prog.ofExcept env.engine
  m

/-- The statuses `downloadTask` refuses. -/
def refusedStatus (s : TaskStatus) : Bool := s = .pendingRecovery || s = .corrupted || s = .metadataMismatch

/-- `DownloadManager::downloadTask`. -/
def downloadTask (env : Env) : EngineM Unit := do
  let s ← get
  if s.task.status = .completed then pure ()
  else if refusedStatus s.task.status then
    throw (.cget .invalidStateTransitionError (text "cannot download task in state " ++ s.task.status.toText))
  else do
    setStatus .queued
    let s ← get
    onWorld (saveTask env s.task)
    withEngine env (download env)

/-- The statuses `pauseTask` refuses. -/
def unpausable (s : TaskStatus) : Bool :=
  s = .completed || s = .removed || s = .corrupted || s = .pendingRecovery || s = .metadataMismatch

def pausedTask (env : Env) (t : DownloadTask) : DownloadTask :=
  { t with
    status := .paused
    lastError := none
    chunks := t.chunks.map
      (fun c => if c.status = .downloading ∨ c.status = .failed then { c with status := .paused } else c)
    updatedAt := env.now }

/-- `DownloadManager::pauseTask`. -/
def pauseTask (env : Env) (id : TaskId) : Prog World Exn Unit := do
  let t ← loadTask id
  if unpausable t.status then
    throw (.cget .invalidStateTransitionError (text "cannot pause task in state " ++ t.status.toText))
  else do
    modify (·.record (.assigned id .paused))
    saveTask env (pausedTask env t)

def removedTask (env : Env) (t : DownloadTask) : DownloadTask := { t with status := .removed, updatedAt := env.now }

/-- `FileSystemService::removeTaskTempDir`. -/
def removeTaskTempDir (env : Env) (id : TaskId) : Prog World Exn Unit :=
  if isPathTraversal id then throw (.cget .pathTraversalError (text "unsafe task id: " ++ id))
  else fileOp env (·.removeParts (taskTempDir env id)) (fun _ d => d)
    (.cget .fileSystemError (text "failed to remove task temp directory"))

/-- `DownloadManager::removeTask`. -/
def removeTask (env : Env) (id : TaskId) : Prog World Exn Unit := do
  let t ← loadTask id
  modify (·.record (.assigned id .removed))
  saveTask env (removedTask env t)
  removeTaskFiles env id
  removeTaskTempDir env id

/-! ## runQueuedTasks -/

/-- What one call of `runQueuedTasks` meets. Each task has its own engine, and the engine
of a task without chunks is used once more after the scheduler. -/
structure QueueRun where
  recover : Env
  /-- The orders in which the two directory scans meet the task files. -/
  scan : List TaskId
  scanAgain : List TaskId
  /-- How `config_.load()` ends. -/
  loadConfig : Except Exn Unit := .ok ()
  config : SchedulerConfig := {}
  prepare : TaskId → Env
  schedule : List SchedState.Choice
  finish : TaskId → Env

def runnableStatus (s : TaskStatus) : Bool := s = .pending || s = .queued || s = .retrying || s = .failed

def prepareAll (envs : TaskId → Env) : List DownloadTask → Prog World Exn (List DownloadTask)
  | [] => pure []
  | t :: ts => do
    let t' ← onTask t (withEngine (envs t.id) (prepareTask (envs t.id)))
    let rest ← prepareAll envs ts
    pure (t' :: rest)

/-- What `runQueuedTasks` does with a task after the scheduler. -/
def finishTask (envs : TaskId → Env) (t : DownloadTask) : Prog World Exn DownloadTask :=
  if t.chunks = [] ∧ t.status ≠ .failed ∧ t.status ≠ .metadataMismatch then onTask t (download (envs t.id))
  else if t.chunks ≠ [] then onTask t (finalizePreparedTask (envs t.id))
  else pure t

def finishAll (envs : TaskId → Env) : List DownloadTask → Prog World Exn (List DownloadTask)
  | [] => pure []
  | t :: ts => do
    let t' ← finishTask envs t
    let rest ← finishAll envs ts
    pure (t' :: rest)

/-- `runQueuedTasks` on its list of runnable tasks. -/
def runRunnable (r : QueueRun) (runnable : List DownloadTask) : Prog World Exn (List DownloadTask) := do
  let prepared ← prepareAll r.prepare runnable
  let scheduled ← schedulerRun (chunkExecutor r.prepare) r.config r.schedule prepared
  finishAll r.finish scheduled

/-- `DownloadManager::runQueuedTasks`. -/
def runQueuedTasks (r : QueueRun) : Prog World Exn (List TaskSnapshot) := do
  let _ ← recoverTasks r.recover r.scan
  let w ← get
  let runnable := (w.disk.loadAllTasks r.recover r.scanAgain).filter (fun t => runnableStatus t.status)
  Prog.ofExcept r.loadConfig
  let tasks ← runRunnable r runnable
  pure (tasks.map snapshotTask)

end Cget
