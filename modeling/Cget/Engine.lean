import Cget.ChunkWorker
import Cget.Planner
/-!
# The download engine

`download_engine.cpp` on one task: `download` for a task alone, `prepareTask` and
`finalizePreparedTask` around the scheduler. The threads of `downloadWithRange` are the
workers of a `Pool`, and `Env.turns` says which of them moves next.
-/

namespace Cget

variable (env : Env)

/-! ## Metadata -/

def metadataChanged (t : DownloadTask) (info : RemoteFileInfo) : Bool :=
  (t.fileSize != 0 && info.fileSize != 0 && t.fileSize != info.fileSize) ||
    (t.remoteEtag.isSome && info.etag.isSome && t.remoteEtag != info.etag) ||
    (t.remoteLastModified.isSome && info.lastModified.isSome && t.remoteLastModified != info.lastModified)

def rememberMetadata (t : DownloadTask) (info : RemoteFileInfo) : DownloadTask :=
  { t with
    fileSize := if info.fileSize = 0 then t.fileSize else info.fileSize
    remoteEtag := info.etag.or t.remoteEtag
    remoteLastModified := info.lastModified.or t.remoteLastModified
    finalUrl := if info.finalUrl = [] then t.finalUrl else some info.finalUrl }

def normalizedThreadCount (t : DownloadTask) : Nat :=
  if t.requestedThreads ≠ 0 then max 1 (min t.requestedThreads 32) else max 1 (min env.maxThreads 32)

def fetchMetadata : EngineM RemoteFileInfo := do
  let s ← get
  match env.protocol.fetchMetadata s.task.url with
  | .error e => do
    modify (·.record (.fetched s.task.id false))
    throw e
  | .ok info => do
    modify (·.record (.fetched s.task.id (!metadataChanged s.task info)))
    pure info

/-! ## Merge and checksum -/

def ensureTaskTempDir : Prog World Exn Unit :=
  fileOp env id (fun _ d => d) (.cget .fileSystemError (text "failed to create task temp directory"))

/-- The writes of `mergeChunks`. Nobody looks at the state of its output stream, so a write
that fails goes unnoticed here. -/
def writeMerged (target : Path) (bytes : Bytes) : Prog World Exn Unit :=
  ignoringErrors (fileOp (env.ending env.commit.write) (·.setOut (tempTarget target) (some bytes))
    (fun k d => d.setOut (tempTarget target) (some (bytes.take k))) (.cget .fileSystemError []))

/-- What is checked before the temp file is moved: `stopped` is why the loop ended early. -/
def checkMerged (target : Path) (stopped : Option Exn) (expectedSize : Nat) : Prog World Exn Unit :=
  match stopped with
  | some e => throw e
  | none => do
    let w ← get
    let actualSize := fileSize (w.disk.out (tempTarget target))
    if actualSize ≠ expectedSize then
      throw (.cget .fileSystemError (text "merged file size mismatch: expected " ++ decimal expectedSize ++
        text ", got " ++ decimal actualSize))
    else pure ()

/-- The part of `mergeChunks` that assembles the temp file and checks its size. -/
def assemble (chunks : List Chunk) (tempDir target : Path) (expectedSize : Nat) : Prog World Exn Unit := do
  fileOp (env.ending env.commit.directory) id (fun _ d => d)
    (.cget .fileSystemError (text "failed to create output parent directory"))
  fileOp (env.ending env.commit.openTemp) (·.setOut (tempTarget target) (some [])) (fun _ d => d)
    (.cget .permissionDeniedError (text "failed to open output temp file: " ++ tempTarget target))
  let w ← get
  writeMerged env target (gatherParts w.disk tempDir chunks).1
  checkMerged target (gatherParts w.disk tempDir chunks).2 expectedSize

/-- The part of `mergeChunks` that puts the temp file in the place of the target. -/
def moveIntoPlace (target : Path) : Prog World Exn Unit := do
  ignoringErrors (fileOp (env.ending env.commit.remove) (·.setOut target none) (fun _ d => d)
    (.cget .fileSystemError []))
  fileOp (env.ending env.commit.rename)
    (fun d => (d.setOut target (d.out (tempTarget target))).setOut (tempTarget target) none)
    (fun _ d => d) (.cget .fileSystemError (text "failed to move merged file into place"))

/-- `FileSystemService::mergeChunks`. -/
def mergeChunks (chunks : List Chunk) (tempDir target : Path) (expectedSize : Nat) : Prog World Exn Unit := do
  assemble env chunks tempDir target expectedSize
  moveIntoPlace env target

def lowercaseHex (value : Text) : Text := value.map (fun c => if 65 ≤ c ∧ c ≤ 70 then c - 65 + 97 else c)

def openHashedError (target : Path) : Exn := .other (text "failed to open file for SHA256: " ++ target)

def checksumMessage (expected actual : Text) : Text :=
  text "SHA256 mismatch: expected " ++ expected ++ text ", got " ++ actual

/-- `DownloadEngine::verifyChecksum`, with `sha256File`. -/
def verifyChecksum : EngineM Bool := do
  let s ← get
  match s.task.expectedSha256 with
  | none => pure true
  | some digest => do
    onWorld (fileOp (env.ending env.commit.openMerged) id (fun _ d => d) (openHashedError s.task.targetPath))
    match s.world.disk.out s.task.targetPath with
    | none => throw (openHashedError s.task.targetPath)
    | some bytes =>
      if env.sha256 bytes ≠ lowercaseHex digest then do
        setFailure env .failed (checksumMessage (lowercaseHex digest) (env.sha256 bytes))
        pure false
      else pure true

/-- The end of all three ways to complete a task: merge, check, persist. -/
def mergeAndComplete : EngineM Unit := do
  let s ← get
  onWorld (mergeChunks env s.task.chunks s.task.tempDir s.task.targetPath s.task.fileSize)
  if ← verifyChecksum env then do
    updateTask (fun t => { t with downloaded := t.fileSize })
    setStatus .completed
    updateTask (fun t => { t with lastError := none })
    persistTask (env.ending env.commit.save)

/-! ## Single stream -/

def singlePart : Path := text "single.part"

/-- What the progress callback of `downloadSingle` counts. -/
def countSingle (t : DownloadTask) (bytes : Nat) : DownloadTask :=
  { t with
    downloaded := t.downloaded + bytes
    chunks := match t.chunks with
      | [] => []
      | c :: cs => { c with downloaded := c.downloaded + bytes } :: cs }

/-- Counting changes nothing of a chunk but its count. -/
theorem countSingle_map {β : Type} (f : Chunk → β) (hf : ∀ c n, f { c with downloaded := n } = f c) (t : DownloadTask)
    (bytes : Nat) :
    (countSingle t bytes).chunks.map f = t.chunks.map f := by
  cases hchunks : t.chunks with
  | nil => simp [countSingle, hchunks]
  | cons c cs => simp [countSingle, hchunks, hf]

/-- The persist of a progress callback, if the flush interval has passed. -/
def flushTask (flush : Bool) : EngineM Unit := if flush then persistTask env else pure ()

/-- The callbacks of `downloadSingle`. -/
def receiveSingle (tempPath : Path) : List Block → EngineM Unit
  | [] => pure ()
  | b :: bs => do
    onWorld (fileOp env (·.appendPart tempPath b.data) (fun k => (·.appendPart tempPath (b.data.take k)))
      (.cget .fileSystemError (text "failed to write temp file")))
    updateTask (countSingle · b.data.length)
    flushTask env b.flush
    receiveSingle tempPath bs

/-- The chunk list of a single stream before its request. -/
def singleChunks (info : RemoteFileInfo) : List Chunk :=
  if 0 < info.fileSize then
    [{ index := 0, start := 0, stop := info.fileSize - 1, status := .downloading, tempPath := singlePart }]
  else []

/-- The task once the single stream is complete, with `downloaded` bytes. -/
def singleDone (t : DownloadTask) (info : RemoteFileInfo) (downloaded : Nat) : DownloadTask :=
  let size := if info.fileSize = 0 then downloaded else info.fileSize
  { t with
    chunks := match t.chunks with
      | [] =>
        if 0 < downloaded then
          [{ index := 0, start := 0, stop := downloaded - 1, downloaded, status := .completed,
             tempPath := singlePart }]
        else []
      | c :: cs => { c with downloaded, status := .completed } :: cs
    fileSize := size
    downloaded := size }

/-- `DownloadEngine::downloadSingleStream` up to the merge. -/
def transferSingleStream (info : RemoteFileInfo) : EngineM Unit := do
  onWorld (ensureTaskTempDir env)
  let s ← get
  let tempPath := joinPath s.task.tempDir singlePart
  onWorld (truncateFile env tempPath 0)
  updateTask (fun t => { t with chunks := singleChunks info, downloaded := 0 })
  persistTask env
  onWorld (fileOp env (·.setPart tempPath (some [])) (fun _ d => d)
    (.cget .permissionDeniedError (text "failed to open temp file: " ++ tempPath)))
  let s ← get
  let transfer := env.protocol.downloadSingle s.task.url
  modify (·.record (.requested s.task.id .single))
  receiveSingle env tempPath transfer.blocks
  match transfer.result with
  | .error e => throw e
  | .ok _ => do
    let s ← get
    let downloaded := fileSize (s.world.disk.parts tempPath)
    if info.fileSize ≠ 0 ∧ downloaded ≠ info.fileSize then
      throw (.cget .fileSystemError (text "downloaded file size mismatch: expected " ++ decimal info.fileSize ++
        text ", got " ++ decimal downloaded))
    else updateTask (singleDone · info downloaded)

/-! ## Ranged download -/

/-- A thread of `downloadWithRange`: its chunk, and where it stands (`none`: it is over). -/
structure PoolWorker where
  chunk : Nat
  pc : Option WorkerPc := some (.attempt 0)

structure WorkerError where
  code : ErrorCode
  message : Text
  deriving DecidableEq

structure Pool where
  workers : List PoolWorker
  errors : List WorkerError := []

/-- The two `catch` clauses of a worker. -/
def Exn.toWorkerError : Exn → WorkerError
  | .cget code what => { code, message := what }
  | .other what => { code := .networkError, message := what }

/-- Worker `j` makes a step: one of its `downloadChunkWithRetry`, or the end of the thread. -/
def Pool.turn (pool : Pool) (j : Nat) : EngineM Pool :=
  match pool.workers[j]? with
  | none | some { pc := none, .. } => pure pool
  | some { chunk, pc := some .returned } => pure { pool with workers := pool.workers.set j { chunk, pc := none } }
  | some { chunk, pc := some (.threw e) } =>
    pure { workers := pool.workers.set j { chunk, pc := none }, errors := pool.errors ++ [e.toWorkerError] }
  | some { chunk, pc := some pc } => do
    let next ← stepWorker env chunk pc
    pure { pool with workers := pool.workers.set j { chunk, pc := some next } }

/-- The threads run until all are joined. Turns that end before are a run cut short. -/
def runPool (workers : List PoolWorker) : EngineM (List WorkerError) := do
  let pool ← env.turns.foldlM (Pool.turn env) { workers }
  if pool.workers.all (·.pc.isNone) then pure pool.errors else Prog.stop

def Chunk.done (c : Chunk) : Bool := c.status = .completed || c.size ≤ c.downloaded

/-- The chunks `downloadWithRange` starts threads for. -/
def rangeWorkers (t : DownloadTask) : List PoolWorker :=
  ((List.range t.chunks.length).filter (fun i => (t.chunks[i]?.map (fun c => !c.done)).getD false)).map
    (fun i => { chunk := i })

/-- The chunks it does not start a thread for are completed. -/
def markDone (t : DownloadTask) : DownloadTask :=
  { t with chunks := t.chunks.map (fun c => if c.done then { c with status := .completed } else c) }

/-- Marking changes nothing of a chunk but its status. -/
theorem markDone_map {β : Type} (f : Chunk → β) (hf : ∀ c st, f { c with status := st } = f c) (t : DownloadTask) :
    (markDone t).chunks.map f = t.chunks.map f := by
  rw [markDone, List.map_map]
  refine List.map_congr_left fun c _ => ?_
  dsimp only [Function.comp_apply]
  split
  · exact hf c .completed
  · rfl

/-- The chunks are planned if there are none. -/
def planRange (size : Nat) (t : DownloadTask) : DownloadTask :=
  { t with
    chunks := if t.chunks = [] then ChunkPlanner.plan env.hardware size (normalizedThreadCount env t) else t.chunks }

def recomputeDownloaded (t : DownloadTask) : DownloadTask := { t with downloaded := t.chunkTotal }

def allComplete (chunks : List Chunk) : Bool := chunks.all (fun c => c.status = .completed && c.downloaded = c.size)

/-- What `downloadWithRange` and `downloadSingleStream` end with, short of an exception. -/
inductive TransferEnd where
  /-- Everything is there; the merge comes next. -/
  | transferred
  /-- A failure was set on the task. -/
  | failed
  deriving DecidableEq

/-- `DownloadEngine::downloadWithRange` up to the merge. -/
def transferWithRange (info : RemoteFileInfo) : EngineM TransferEnd := do
  onWorld (ensureTaskTempDir env)
  updateTask (planRange env info.fileSize)
  updateTask recomputeDownloaded
  persistTask env
  let s ← get
  updateTask markDone
  let errors ← runPool env (rangeWorkers s.task)
  match errors with
  | first :: _ =>
    if errors.any (·.code = .rangeNotSupportedError) then do
      updateTask (fun t => { t with
        chunks := []
        downloaded := 0
        lastError := some (text "server ignored Range request; falling back to single-stream download") })
      persistTask env
      transferSingleStream env info
      pure .transferred
    else do
      setFailure env (if first.code = .metadataMismatchError then .metadataMismatch else .failed) first.message
      pure .failed
  | [] => do
    let s ← get
    if allComplete s.task.chunks then pure .transferred
    else do
      setFailure env .failed (text "not all chunks completed")
      pure .failed

/-! ## Sessions -/

/-- How `download` and `prepareTask` begin. -/
def beginTask : EngineM Unit := do
  setStatus .downloading
  updateTask (fun t => { t with startedAt := t.startedAt.or (some env.now), lastError := none })
  persistTask env

/-- Their `catch` clauses. -/
def failWith (e : Exn) : EngineM Unit :=
  match e with
  | .cget .metadataMismatchError what => setFailure env .metadataMismatch what
  | e => setFailure env .failed e.what

def metadataMismatchMessage : Text := text "remote file metadata changed"

/-- Which transfer `download` chooses once the metadata is remembered. -/
def ranged (t : DownloadTask) (info : RemoteFileInfo) : Bool :=
  t.fileSize ≠ 0 && info.supportsRange && 1 < normalizedThreadCount env t

/-- What `download` does with metadata that did not change, up to the merge. -/
def transferFrom (info : RemoteFileInfo) : EngineM TransferEnd := do
  updateTask (rememberMetadata · info)
  persistTask env
  let s ← get
  if ranged env s.task info then transferWithRange env info
  else do
    transferSingleStream env info
    pure .transferred

/-- The body of `download` up to the merge. -/
def transfer : EngineM TransferEnd := do
  beginTask env
  let info ← fetchMetadata env
  let s ← get
  if metadataChanged s.task info then do
    setFailure env .metadataMismatch metadataMismatchMessage
    pure .failed
  else transferFrom env info

/-- `DownloadEngine::download`. -/
def download : EngineM Unit :=
  tryCatch (do
    match ← transfer env with
    | .transferred => mergeAndComplete env
    | .failed => pure ()) (failWith env)

/-- The chunks of a task that will be downloaded in ranges. -/
def prepareChunks (info : RemoteFileInfo) : EngineM Unit := do
  let s ← get
  if ranged env s.task info then do
    onWorld (ensureTaskTempDir env)
    updateTask (planRange env s.task.fileSize)
    updateTask recomputeDownloaded
  else pure ()

/-- What `prepareTask` does with metadata that did not change. -/
def prepareFrom (info : RemoteFileInfo) : EngineM Unit := do
  updateTask (rememberMetadata · info)
  prepareChunks env info
  persistTask env

/-- `DownloadEngine::prepareTask`. -/
def prepareTask : EngineM Unit :=
  tryCatch (do
    beginTask env
    let info ← fetchMetadata env
    let s ← get
    if metadataChanged s.task info then setFailure env .metadataMismatch metadataMismatchMessage
    else prepareFrom env info) (failWith env)

/-- The statuses `finalizePreparedTask` only persists. -/
def finishedStatus (s : TaskStatus) : Bool :=
  s = .failed || s = .metadataMismatch || s = .corrupted || s = .pendingRecovery

/-- `DownloadEngine::finalizePreparedTask`. -/
def finalizePreparedTask : EngineM Unit := do
  let s ← get
  if finishedStatus s.task.status then persistTask env
  else if !allComplete s.task.chunks then setFailure env .failed (text "not all scheduled chunks completed")
  else mergeAndComplete env

end Cget
