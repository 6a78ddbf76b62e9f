import Cget.World
/-!
# The task store

`persistence_store.cpp`: the commit of a task file operation by operation, loading with
the backup as fallback, the scan of the tasks directory, and the repair of a task from
the sizes of its part files.
-/

namespace Cget

/-! ## Loading -/

/-- The check `taskFromJson` makes of each chunk. -/
def Chunk.acceptable (c : Chunk) : Bool := !(c.stop < c.start || c.downloaded > c.size)

/-- `PersistenceStore::taskFromJson`. -/
def taskFromJson : TaskText → Option DownloadTask
  | .written t => if t.chunks.all (·.acceptable) then some t else none
  | .torn => none

/-- `PersistenceStore::loadTask`: the main file, or else the backup. -/
def TaskFiles.load (f : TaskFiles) : Option DownloadTask :=
  (f.main.bind taskFromJson).or (f.bak.bind taskFromJson)

def Disk.loadTask (d : Disk) (id : TaskId) : Option DownloadTask := (d.tasks id).load

def taskFileName (id : TaskId) : Text := text "task_" ++ id ++ text ".json"

/-- The entry `loadAllTasks` makes up for a task file that does not load. -/
def corruptedTask (env : Env) (id : TaskId) : DownloadTask where
  id := id
  fileName := taskFileName id
  targetPath := joinPath (joinPath env.appHome (text "tasks")) (taskFileName id)
  status := .corrupted
  lastError := some (text "task JSON is corrupted")
  createdAt := env.now
  updatedAt := env.now

/-- `PersistenceStore::loadAllTasks`; `scan` is the order in which the directory iterator
meets the tasks' files. -/
def Disk.loadAllTasks (env : Env) (scan : List TaskId) (d : Disk) : List DownloadTask :=
  ((scan.filter (fun id => (d.tasks id).main.isSome)).map
    (fun id => (d.loadTask id).getD (corruptedTask env id))).insertionSort (fun a b => a.createdAt ≤ b.createdAt)

theorem acceptable_iff (c : Chunk) : c.acceptable = true ↔ c.start ≤ c.stop ∧ c.downloaded ≤ c.size := by
  simp [Chunk.acceptable]

theorem taskFromJson_written {t : DownloadTask} (h : ∀ c ∈ t.chunks, c.start ≤ c.stop ∧ c.downloaded ≤ c.size) :
    taskFromJson (.written t) = some t := by
  have : t.chunks.all (·.acceptable) = true := by
    rw [List.all_eq_true]
    exact fun c hc => (acceptable_iff c).2 (h c hc)
  simp [taskFromJson, this]

theorem taskFromJson_some {x : TaskText} {t : DownloadTask} (h : taskFromJson x = some t) :
    x = .written t ∧ ∀ c ∈ t.chunks, c.start ≤ c.stop ∧ c.downloaded ≤ c.size := by
  cases x with
  | torn => cases h
  | written u =>
    simp only [taskFromJson] at h
    split at h
    · rename_i hu
      cases h
      exact ⟨rfl, fun c hc => (acceptable_iff c).1 (List.all_eq_true.1 hu c hc)⟩
    · cases h

/-! ## Saving, operation by operation -/

def World.files (w : World) (id : TaskId) : TaskFiles := w.disk.tasks id

def World.onFiles (w : World) (id : TaskId) (g : TaskFiles → TaskFiles) : World :=
  { w with disk := { w.disk with tasks := Function.update w.disk.tasks id (g (w.disk.tasks id)) } }

def filesOp (f : Nat → Fault) (id : TaskId) (full : TaskFiles → TaskFiles) (part : Nat → TaskFiles → TaskFiles)
    (code : ErrorCode) (what : String) : Prog World Exn Unit :=
  operation f (·.onFiles id full) (fun k => (·.onFiles id (part k))) (.cget code (text what))

/-- A call with an `error_code` that the caller clears. -/
def ignoringErrors (m : Prog World Exn Unit) : Prog World Exn Unit := tryCatch m (fun _ => pure ())

/-- The backup part of `saveTask`: drop the old backup, copy the main file there. The copy
refuses to overwrite, so it fails when the removal failed. -/
def backupTaskFile (f : Nat → Fault) (id : TaskId) : Prog World Exn Unit := do
  ignoringErrors (filesOp f id (fun d => { d with bak := none }) (fun _ d => d) .fileSystemError "remove")
  let w ← get
  if (w.files id).bak.isSome then
    throw (.cget .fileSystemError (text "failed to create task backup"))
  else
    filesOp f id (fun d => { d with bak := d.main }) (fun k d => if k = 0 then d else { d with bak := some .torn })
      .fileSystemError "failed to create task backup"

def renameTmp (f : Nat → Fault) (id : TaskId) : Prog World Exn Unit :=
  filesOp f id (fun d => { d with main := d.tmp, tmp := none }) (fun _ d => d)
    .fileSystemError "failed to commit task file"

/-- The rename, retried once after removing the main file. -/
def renameIntoPlace (f : Nat → Fault) (id : TaskId) : Prog World Exn Unit :=
  tryCatch (renameTmp f id) (fun _ => do
    ignoringErrors (filesOp f id (fun d => { d with main := none }) (fun _ d => d) .fileSystemError "remove")
    renameTmp f id)

/-- The stream that writes `.tmp`, after the directories are there. -/
def writeTmpFile (f : Nat → Fault) (t : DownloadTask) : Prog World Exn Unit := do
  filesOp f t.id (fun d => d) (fun _ d => d) .fileSystemError "failed to create tasks directory"
  filesOp f t.id (fun d => { d with tmp := some .torn }) (fun _ d => d) .permissionDeniedError
    "failed to write task file"
  filesOp f t.id (fun d => { d with tmp := some (.written t) }) (fun _ d => d) .fileSystemError
    "failed to flush task file"

/-- `PersistenceStore::saveTask` with one step for each file operation. -/
def saveTaskFiles (f : Nat → Fault) (t : DownloadTask) : Prog World Exn Unit := do
  writeTmpFile f t
  let w ← get
  if (w.files t.id).main.isSome then backupTaskFile f t.id else pure ()
  renameIntoPlace f t.id

/-! ## Recovery -/

def truncateError : Exn := .cget .fileSystemError (text "failed to truncate file")

/-- `FileSystemService::truncateFile`. -/
def truncateFile (env : Env) (p : Path) (size : Nat) : Prog World Exn Unit := do
  let w ← get
  if (w.disk.parts p).isSome then
    fileOp env (fun d => d.setPart p ((d.parts p).map (·.take size))) (fun _ d => d) truncateError

/-- A part file longer than its chunk is truncated. -/
def cutPart (env : Env) (p : Path) (size : Nat) : Prog World Exn Unit := do
  let w ← get
  if size < fileSize (w.disk.parts p) then truncateFile env p size else pure ()

/-- A chunk after its part file was found to hold `actual` of its bytes. -/
def Chunk.repaired (c : Chunk) (actual : Nat) : Chunk :=
  { c with
    downloaded := actual
    status := if actual = c.size then .completed else if actual = 0 then .pending else .paused }

/-- The loop of `repairFromDisk` over the chunks. -/
def repairChunks (env : Env) (t : DownloadTask) : List Chunk → Prog World Exn (List Chunk)
  | [] => pure []
  | c :: cs => do
    match chunkPath t c with
    | .error e => throw e
    | .ok p =>
      let w ← get
      let actual := fileSize (w.disk.parts p)
      cutPart env p c.size
      let rest ← repairChunks env t cs
      pure (c.repaired (min actual c.size) :: rest)

def unfinishedStatus (s : TaskStatus) : Bool :=
  s = .downloading || s = .queued || s = .retrying || s = .pending

/-- The statuses `repairFromDisk` changes, of a task without chunks and of one with chunks. -/
def repairsStatus (t : DownloadTask) : Bool :=
  if t.chunks = [] then t.status = .downloading || t.status = .retrying else unfinishedStatus t.status

/-- What `repairFromDisk` makes of a task without chunks. -/
def repairEmpty (t : DownloadTask) : DownloadTask :=
  if t.status = .downloading ∨ t.status = .retrying then
    if t.fileSize = 0 then { t with status := .paused }
    else { t with
      status := .pendingRecovery
      lastError := some (text "task was interrupted before chunk state was available") }
  else t

/-- The task `repairFromDisk` makes of the repaired chunks. -/
def repairWith (env : Env) (t : DownloadTask) (chunks : List Chunk) : DownloadTask :=
  let total := (chunks.map (·.downloaded)).sum
  { t with
    chunks := chunks
    downloaded := total
    status :=
      if unfinishedStatus t.status then
        if total = t.fileSize ∧ t.fileSize ≠ 0 then .completed else .paused
      else t.status
    updatedAt := env.now }

def recordRepair (t t' : DownloadTask) : Prog World Exn Unit :=
  if repairsStatus t then modify (·.record (.assigned t.id t'.status)) else pure ()

/-- `PersistenceStore::repairFromDisk`. -/
def repairFromDisk (env : Env) (t : DownloadTask) : Prog World Exn DownloadTask :=
  if t.chunks = [] then do
    recordRepair t (repairEmpty t)
    pure (repairEmpty t)
  else do
    let chunks ← repairChunks env t t.chunks
    recordRepair t (repairWith env t chunks)
    pure (repairWith env t chunks)

/-- The loop of `recoverTasks`: repair and save each task that is not corrupted. -/
def recoverLoop (env : Env) : List DownloadTask → Prog World Exn (List DownloadTask)
  | [] => pure []
  | t :: ts =>
    if t.status = .corrupted then do
      let rest ← recoverLoop env ts
      pure (t :: rest)
    else do
      let t' ← repairFromDisk env t
      saveTask env t'
      let rest ← recoverLoop env ts
      pure (t' :: rest)

/-- `PersistenceStore::recoverTasks`. -/
def recoverTasks (env : Env) (scan : List TaskId) : Prog World Exn (List DownloadTask) := do
  let w ← get
  recoverLoop env (w.disk.loadAllTasks env scan)

/-! ## Removal -/

/-- `PersistenceStore::removeTask`: errors are ignored. -/
def removeTaskFiles (env : Env) (id : TaskId) : Prog World Exn Unit := do
  ignoringErrors (filesOp env.fault id (fun d => { d with main := none }) (fun _ d => d) .fileSystemError "remove")
  ignoringErrors (filesOp env.fault id (fun d => { d with bak := none }) (fun _ d => d) .fileSystemError "remove")
  ignoringErrors (filesOp env.fault id (fun d => { d with tmp := none }) (fun _ d => d) .fileSystemError "remove")

end Cget
