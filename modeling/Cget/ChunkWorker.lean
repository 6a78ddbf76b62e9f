import Cget.Persistence
/-!
# One task in the engine, and the thread that downloads one of its chunks

`downloadChunkWithRetry` cut at its file operations and at its critical sections: a
`WorkerPc` is where the thread stands, `workerMove` its next step. A step sees and changes
its own chunk and part file only; what it does to the task is its `TaskAction`.
-/

namespace Cget

/-- One task in memory, and the world its engine works on. -/
structure Session where
  world : World := {}
  task : DownloadTask := {}

abbrev EngineM := Prog Session Exn

def onWorld {α : Type} (m : Prog World Exn α) : EngineM α :=
  m.focus Session.world (fun w s => { s with world := w })

def updateTask (f : DownloadTask → DownloadTask) : EngineM Unit := modify (fun s => { s with task := f s.task })

@[simp] theorem wp_updateTask {f : DownloadTask → DownloadTask} {s : Session} {Q : Unit → Session → Prop}
    {E : Exn → Session → Prop} {S : Session → Prop} :
    Prog.wp (updateTask f) Q E S s ↔ Q () { s with task := f s.task } := Iff.rfl

def Session.record (s : Session) (e : Event) : Session := { s with world := s.world.record e }

def Session.setStatus (s : Session) (st : TaskStatus) : Session :=
  { s.record (.assigned s.task.id st) with task := { s.task with status := st } }

def setStatus (st : TaskStatus) : EngineM Unit := modify (·.setStatus st)

/-- `DownloadEngine::persistTask`. -/
def persistTask (env : Env) : EngineM Unit := do
  updateTask (fun t => { t with updatedAt := env.now })
  let s ← get
  onWorld (saveTask env s.task)

/-- `DownloadEngine::setFailure`. -/
def setFailure (env : Env) (status : TaskStatus) (message : Text) : EngineM Unit := do
  setStatus status
  updateTask (fun t => { t with lastError := some message, updatedAt := env.now })
  let s ← get
  onWorld (saveTask env s.task)

/-- The next tick. -/
def Session.ticked (s : Session) : Session := { s with world := { s.world with tick := s.world.tick + 1 } }

/-- The task is saved as it is. -/
def Session.saved (s : Session) : Session := { s with world := s.ticked.world.saveTask s.task }

def Session.touched (env : Env) (s : Session) : Session :=
  { s with task := { s.task with updatedAt := env.now } }

/-- What `setFailure` makes of the task before it saves it. -/
def Session.failed (env : Env) (status : TaskStatus) (message : Text) (s : Session) : Session :=
  { s.setStatus status with
    task := { s.task with status := status, lastError := some message, updatedAt := env.now } }

section Saving

variable {env : Env} {s : Session} {Q : Unit → Session → Prop} {E : Exn → Session → Prop} {S : Session → Prop}

theorem wp_persistTask (hok : env.saveFault s.world.tick = .ok → Q () (s.touched env).saved)
    (hfail : ∀ k, env.saveFault s.world.tick = .fail k → E saveError (s.touched env).ticked)
    (hcrash : ∀ k, env.saveFault s.world.tick = .crash k → S (s.touched env).ticked) :
    Prog.wp (persistTask env) Q E S s := by
  simp only [persistTask, updateTask, onWorld, Prog.wp_bind, Prog.wp_modify, Prog.wp_get, Prog.wp_focus]
  exact wp_saveTask hok hfail hcrash

theorem wp_setFailure {st : TaskStatus} {message : Text}
    (hok : env.saveFault s.world.tick = .ok → Q () (s.failed env st message).saved)
    (hfail : ∀ k, env.saveFault s.world.tick = .fail k → E saveError (s.failed env st message).ticked)
    (hcrash : ∀ k, env.saveFault s.world.tick = .crash k → S (s.failed env st message).ticked) :
    Prog.wp (setFailure env st message) Q E S s := by
  simp only [setFailure, setStatus, updateTask, onWorld, Prog.wp_bind, Prog.wp_modify, Prog.wp_get, Prog.wp_focus]
  exact wp_saveTask hok hfail hcrash

end Saving

def DownloadTask.setChunk (t : DownloadTask) (i : Nat) (c : Chunk) : DownloadTask :=
  { t with chunks := t.chunks.set i c }

def Disk.appendPart (d : Disk) (p : Path) (b : Bytes) : Disk := d.setPart p (some ((d.parts p).getD [] ++ b))

/-! ## The chunk worker -/

/-- Where `downloadChunkWithRetry` stands; `n` is its `attempt`. -/
inductive WorkerPc where
  /-- At the top of the loop. -/
  | attempt (n : Nat)
  /-- About to open the part file; the request will start at `start`. -/
  | opening (n start : Nat)
  /-- About to set chunk and task to Downloading. -/
  | starting (n start : Nat)
  /-- In the `persistTask` before the request. -/
  | announcing (n start : Nat)
  | requesting (n start : Nat)
  /-- In `downloadRange`, with the callbacks still to come. -/
  | receiving (n : Nat) (blocks : List Block) (result : Except Exn Unit)
  /-- In the `persistTask` of a progress callback. -/
  | flushing (n : Nat) (blocks : List Block) (result : Except Exn Unit)
  /-- `downloadRange` has returned. -/
  | closing (n : Nat)
  /-- In the `persistTask` after completion. -/
  | storing (n : Nat)
  /-- `e` has left the `try` block. -/
  | caught (n : Nat) (e : Exn)
  /-- In the `persistTask` of the retry branch, outside the `try` block. -/
  | recording (n : Nat)
  | sleeping (n : Nat)
  | returned
  | threw (e : Exn)
  deriving DecidableEq

def WorkerPc.startsAttempt : WorkerPc → Bool
  | .attempt _ => true
  | _ => false

/-- What a step does to the task and the world, its chunk and part file apart. -/
inductive TaskAction where
  | none
  /-- `task.downloaded.store(recomputeDownloaded(task))`. -/
  | recompute
  | setDownloading
  | count (bytes : Nat)
  | setRetrying (message : Text)
  | request (start stop attempt : Nat)
  /-- `persistTask`, and whether the write went through. -/
  | persist (saved : Bool)
  deriving DecidableEq

structure WorkerMove where
  next : WorkerPc
  chunk : Chunk
  part : Option Bytes
  action : TaskAction := .none
  crashed : Bool := false

/-- The codes that end the retries at once. -/
def fatalCode (code : ErrorCode) : Bool :=
  code = .rangeNotSupportedError || code = .metadataMismatchError || code = .httpStatusError

def sizeMismatch (c : Chunk) : Exn :=
  .cget .networkError (text "chunk " ++ decimal c.index ++ text " size mismatch after download")

/-- A `persistTask` at `pc`: on to `next`, or `failed` with its exception. -/
def persistMove (saveFault : Fault) (c : Chunk) (part : Option Bytes) (pc next failed : WorkerPc) : WorkerMove :=
  match saveFault with
  | .ok => { next, chunk := c, part, action := .persist true }
  | .fail _ => { next := failed, chunk := c, part, action := .persist false }
  | .crash _ => { next := pc, chunk := c, part, crashed := true }

/-- The next step of the thread at `pc`, for the chunk `c` with part file `part` at `path`. -/
def workerMove (env : Env) (url : Text) (path : Except Exn Path) (fault saveFault : Fault) (c : Chunk)
    (part : Option Bytes) : WorkerPc → WorkerMove
  | .attempt n =>
    match path with
    | .error e => { next := .caught n e, chunk := c, part }
    | .ok _ =>
      if c.size < fileSize part then
        match fault with
        | .ok =>
          { next := .returned, chunk := { c with downloaded := c.size, status := .completed },
            part := part.map (·.take c.size), action := .recompute }
        | .fail _ => { next := .caught n truncateError, chunk := c, part }
        | .crash _ => { next := .attempt n, chunk := c, part, crashed := true }
      else if c.size ≤ fileSize part then
        { next := .returned, chunk := { c with downloaded := fileSize part, status := .completed }, part,
          action := .recompute }
      else
        { next := .opening n (c.start + fileSize part), chunk := { c with downloaded := fileSize part }, part }
  | .opening n start =>
    match fault with
    | .ok => { next := .starting n start, chunk := c, part := some (part.getD []) }
    | .fail _ =>
      { next := .caught n (.cget .permissionDeniedError (text "failed to open chunk file: " ++ path.toOption.getD [])),
        chunk := c, part }
    | .crash _ => { next := .opening n start, chunk := c, part, crashed := true }
  | .starting n start =>
    { next := .announcing n start, chunk := { c with status := .downloading }, part, action := .setDownloading }
  | .announcing n start =>
    persistMove saveFault c part (.announcing n start) (.requesting n start) (.caught n saveError)
  | .requesting n start =>
    let transfer := env.protocol.downloadRange url start c.stop n
    { next := .receiving n transfer.blocks transfer.result, chunk := c, part, action := .request start c.stop n }
  | .receiving n (b :: bs) result =>
    match fault with
    | .ok =>
      { next := if b.flush then .flushing n bs result else .receiving n bs result,
        chunk := { c with downloaded := c.downloaded + b.data.length }, part := some (part.getD [] ++ b.data),
        action := .count b.data.length }
    | .fail k =>
      { next := .caught n (.cget .fileSystemError (text "failed to write chunk file")), chunk := c,
        part := some (part.getD [] ++ b.data.take k) }
    | .crash k =>
      { next := .receiving n (b :: bs) result, chunk := c, part := some (part.getD [] ++ b.data.take k),
        crashed := true }
  | .receiving n [] (.error e) => { next := .caught n e, chunk := c, part }
  | .receiving n [] (.ok _) => { next := .closing n, chunk := c, part }
  | .flushing n bs result =>
    persistMove saveFault c part (.flushing n bs result) (.receiving n bs result) (.caught n saveError)
  | .closing n =>
    if fileSize part ≠ c.size then { next := .caught n (sizeMismatch c), chunk := c, part }
    else
      { next := .storing n, chunk := { c with downloaded := c.size, status := .completed }, part,
        action := .recompute }
  | .storing n => persistMove saveFault c part (.storing n) .returned (.caught n saveError)
  | .caught n (.cget code what) =>
    if fatalCode code || n = env.maxRetries then
      { next := .threw (.cget code what), chunk := { c with status := .failed, retryCount := n }, part }
    else
      { next := .recording n, chunk := { c with status := .failed, retryCount := n + 1 }, part,
        action := .setRetrying what }
  -- only a `CgetError` is caught: other exceptions leave the chunk as it is
  | .caught _ (.other what) => { next := .threw (.other what), chunk := c, part }
  | .recording n => persistMove saveFault c part (.recording n) (.sleeping n) (.threw saveError)
  | .sleeping n => { next := if n < env.maxRetries then .attempt (n + 1) else .returned, chunk := c, part }
  | .returned => { next := .returned, chunk := c, part }
  | .threw e => { next := .threw e, chunk := c, part }

def TaskAction.apply (env : Env) (s : Session) : TaskAction → Session
  | .none => s
  | .recompute => { s with task := { s.task with downloaded := s.task.chunkTotal } }
  | .setDownloading => s.setStatus .downloading
  | .count n => { s with task := { s.task with downloaded := s.task.downloaded + n } }
  | .setRetrying message =>
    { s.setStatus .retrying with task := { s.task with status := .retrying, lastError := some message } }
  | .request start stop n => s.record (.requested s.task.id (.range start stop n))
  | .persist true =>
    { world := s.world.saveTask { s.task with updatedAt := env.now }, task := { s.task with updatedAt := env.now } }
  | .persist false => { s with task := { s.task with updatedAt := env.now } }

/-- The part file of a chunk, if its path is safe. -/
def Session.part (s : Session) (c : Chunk) : Option Bytes := (chunkPath s.task c).toOption.bind s.world.disk.parts

/-- The session after a move of a worker of chunk `i`, the move's action apart. -/
def Session.moved (s : Session) (i : Nat) (c : Chunk) (m : WorkerMove) : Session :=
  { world :=
      { s.world with
        disk := match chunkPath s.task c with
          | .ok p => s.world.disk.setPart p m.part
          | .error _ => s.world.disk
        tick := s.world.tick + 1 }
    task := s.task.setChunk i m.chunk }

def Session.workerMove (env : Env) (s : Session) (c : Chunk) (pc : WorkerPc) : WorkerMove :=
  Cget.workerMove env s.task.url (chunkPath s.task c) (env.fault s.world.tick) (env.saveFault s.world.tick) c
    (s.part c) pc

/-- The worker of chunk `i` makes a step. -/
def stepWorker (env : Env) (i : Nat) (pc : WorkerPc) : EngineM WorkerPc where
  run s := match s.task.chunks[i]? with
    | none => (.ok (.threw (.other (text "vector::_M_range_check"))), s)
    | some c =>
      let m := s.workerMove env c pc
      (if m.crashed then .stopped else .ok m.next, m.action.apply env (s.moved i c m))

/-! ## What a step leaves alone -/

variable {env : Env} {s : Session} {i : Nat} {c : Chunk} {pc : WorkerPc}

/-- The session after a step of the worker of chunk `i`. -/
def Session.stepped (env : Env) (s : Session) (i : Nat) (c : Chunk) (pc : WorkerPc) : Session :=
  (s.workerMove env c pc).action.apply env (s.moved i c (s.workerMove env c pc))

theorem stepWorker_run (h : s.task.chunks[i]? = some c) :
    (stepWorker env i pc).run s =
      (if (s.workerMove env c pc).crashed then .stopped else .ok (s.workerMove env c pc).next,
        s.stepped env i c pc) := by
  simp only [stepWorker, h, Session.stepped]

/-- The fields of a task that no worker writes. -/
def DownloadTask.SameRequest (t t' : DownloadTask) : Prop :=
  t'.id = t.id ∧ t'.url = t.url ∧ t'.targetPath = t.targetPath ∧ t'.tempDir = t.tempDir ∧
    t'.fileSize = t.fileSize ∧ t'.expectedSha256 = t.expectedSha256

theorem apply_same (a : TaskAction) :
    s.task.SameRequest (a.apply env s).task ∧ (a.apply env s).task.chunks = s.task.chunks := by
  cases a with
  | persist saved => cases saved <;> exact ⟨⟨rfl, rfl, rfl, rfl, rfl, rfl⟩, rfl⟩
  | _ => exact ⟨⟨rfl, rfl, rfl, rfl, rfl, rfl⟩, rfl⟩

@[simp] theorem apply_chunks (a : TaskAction) : (a.apply env s).task.chunks = s.task.chunks := (apply_same a).2

@[simp] theorem apply_id (a : TaskAction) : (a.apply env s).task.id = s.task.id := (apply_same a).1.1

@[simp] theorem apply_parts (a : TaskAction) : (a.apply env s).world.disk.parts = s.world.disk.parts := by
  cases a with
  | persist saved => cases saved <;> rfl
  | _ => rfl

@[simp] theorem apply_out (a : TaskAction) : (a.apply env s).world.disk.out = s.world.disk.out := by
  cases a with
  | persist saved => cases saved <;> rfl
  | _ => rfl

@[simp] theorem moved_chunks (m : WorkerMove) : (s.moved i c m).task.chunks = s.task.chunks.set i m.chunk := rfl

@[simp] theorem moved_id (m : WorkerMove) : (s.moved i c m).task.id = s.task.id := rfl

@[simp] theorem moved_out (m : WorkerMove) : (s.moved i c m).world.disk.out = s.world.disk.out := by
  simp only [Session.moved]
  split <;> rfl

end Cget
