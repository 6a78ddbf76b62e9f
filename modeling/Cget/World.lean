import Cget.FileSystem
import Cget.Lib.Prog
/-!
# What a run of the program meets

An `Env` fixes everything a run does not decide itself: the server's answers, the clock,
the configuration, how each file operation ends (it may fail, or the process may die in
it) and how the threads of a ranged download interleave. A `World` is the disk, the
number of operations so far, and a log of what the run did, newest entry first.

Waiting (rate limits, retry delays), log files and metrics change none of this and are
left out.
-/

namespace Cget

/-- One call of the write callback, followed by the progress callback. `flush` says
whether the flush interval has passed since the last persist when it runs. -/
structure Block where
  data : Bytes
  flush : Bool := false
  deriving DecidableEq, Repr

/-- What a transfer delivers to the callbacks, and how the call ends. -/
structure Transfer where
  blocks : List Block := []
  result : Except Exn Unit := .ok ()

def Transfer.bytes (t : Transfer) : Bytes := t.blocks.flatMap (·.data)

/-- `ProtocolHandler`. A repeated range request of one `downloadChunkWithRetry` call is told
apart by its attempt. -/
structure Protocol where
  fetchMetadata : Text → Except Exn RemoteFileInfo
  downloadRange : (url : Text) → (start stop attempt : Nat) → Transfer
  downloadSingle : Text → Transfer

/-- A server that has nothing to send. -/
def Protocol.silent : Protocol where
  fetchMetadata _ := .ok {}
  downloadRange _ _ _ _ := {}
  downloadSingle _ := {}

/-- How a file operation ends. A write that fails, or in which the process dies, has
written the first `k` bytes. -/
inductive Fault where
  | ok
  | fail (k : Nat)
  | crash (k : Nat)
  deriving DecidableEq, Repr

/-- How the operations of a commit end: those of `mergeChunks`, the open of the merged file
for its checksum and the write of the completed task. A task is committed at most once in
a call. -/
structure CommitFaults where
  directory : Fault := .ok
  openTemp : Fault := .ok
  write : Fault := .ok
  remove : Fault := .ok
  rename : Fault := .ok
  openMerged : Fault := .ok
  save : Fault := .ok
  deriving DecidableEq, Repr

def CommitFaults.all (f : CommitFaults) : List Fault :=
  [f.directory, f.openTemp, f.write, f.remove, f.rename, f.openMerged, f.save]

structure Env where
  protocol : Protocol
  sha256 : Bytes → Text := fun b => b
  maxRetries : Nat := 3
  maxThreads : Nat := 8
  /-- What `std::thread::hardware_concurrency` reports. -/
  hardware : Nat := 4
  now : Nat := 0
  appHome : Path := text "/home/user/.cget"
  /-- How `ProtocolRegistry::create` ends, and `config_.load()` before it in `downloadTask`. -/
  engine : Except Exn Unit := .ok ()
  /-- How the n-th operation ends, if it is one of `FileSystemService` or of a stream. -/
  fault : Nat → Fault := fun _ => .ok
  /-- How the n-th operation ends, if it is the write of a task file. -/
  saveFault : Nat → Fault := fun _ => .ok
  /-- How the operations of the commit end, which are not among those counted above. -/
  commit : CommitFaults := {}
  /-- Which worker of `downloadWithRange` moves next. -/
  turns : List Nat := []

/-- The same, except that every operation ends as `f`. -/
def Env.ending (env : Env) (f : Fault) : Env := { env with fault := fun _ => f, saveFault := fun _ => f }

@[simp] theorem ending_fault (env : Env) (f : Fault) (n : Nat) : (env.ending f).fault n = f := rfl

@[simp] theorem ending_saveFault (env : Env) (f : Fault) (n : Nat) : (env.ending f).saveFault n = f := rfl

inductive Request where
  | range (start stop attempt : Nat)
  | single
  deriving DecidableEq, Repr

inductive Event where
  /-- `saveTask` wrote this task. -/
  | saved (task : DownloadTask)
  /-- `fetchMetadata` ended; `unchanged` if it returned and `metadataChanged` is false. -/
  | fetched (id : TaskId) (unchanged : Bool)
  /-- `downloadRange` or `downloadSingle` was called. -/
  | requested (id : TaskId) (request : Request)
  /-- `task.status` was assigned. -/
  | assigned (id : TaskId) (status : TaskStatus)
  deriving DecidableEq, Repr

structure World where
  disk : Disk := {}
  tick : Nat := 0
  log : List Event := []

def World.record (w : World) (e : Event) : World := { w with log := e :: w.log }

/-- The files of a task after a save: the new text, with the old one as backup. -/
def TaskFiles.commit (f : TaskFiles) (x : TaskText) : TaskFiles :=
  { main := some x, bak := f.main <|> f.bak, tmp := none }

def World.saveTask (w : World) (t : DownloadTask) : World :=
  { w with
    disk := { w.disk with tasks := Function.update w.disk.tasks t.id ((w.disk.tasks t.id).commit (.written t)) }
    log := .saved t :: w.log }

theorem files_saveTask {w : World} {t : DownloadTask} {id : TaskId} (h : t.id ≠ id) :
    (w.saveTask t).disk.tasks id = w.disk.tasks id := Function.update_of_ne (Ne.symm h) _ _

/-! ## Operations -/

/-- An operation that ends as `f` says: in full, in part with the exception `e`, or in
part and the process dies. -/
def operation (f : Nat → Fault) (full : World → World) (part : Nat → World → World) (e : Exn) :
    Prog World Exn Unit where
  run w := match f w.tick with
    | .ok => (.ok (), full { w with tick := w.tick + 1 })
    | .fail k => (.thrown e, part k { w with tick := w.tick + 1 })
    | .crash k => (.stopped, part k { w with tick := w.tick + 1 })

/-- The disk effect of one operation of `FileSystemService` or of a file stream. -/
def fileOp (env : Env) (full : Disk → Disk) (part : Nat → Disk → Disk) (e : Exn) : Prog World Exn Unit :=
  operation env.fault (fun w => { w with disk := full w.disk }) (fun k w => { w with disk := part k w.disk }) e

def saveError : Exn := .cget .fileSystemError (text "failed to commit task file")

/-- `PersistenceStore::saveTask` as one step, done or not; `Persistence` follows its file
operations one by one. -/
def saveTask (env : Env) (t : DownloadTask) : Prog World Exn Unit :=
  operation env.saveFault (·.saveTask t) (fun _ w => w) saveError

variable {Q : Unit → World → Prop} {E : Exn → World → Prop} {S : World → Prop}

theorem wp_operation {f : Nat → Fault} {full : World → World} {part : Nat → World → World} {e : Exn} {w : World} :
    Prog.wp (operation f full part e) Q E S w ↔
      match f w.tick with
      | .ok => Q () (full { w with tick := w.tick + 1 })
      | .fail k => E e (part k { w with tick := w.tick + 1 })
      | .crash k => S (part k { w with tick := w.tick + 1 }) := by
  cases h : f w.tick <;> simp only [Prog.wp, operation, h]

theorem wp_fileOp {env : Env} {full : Disk → Disk} {part : Nat → Disk → Disk} {e : Exn} {w : World}
    (hok : env.fault w.tick = .ok → Q () { disk := full w.disk, tick := w.tick + 1, log := w.log })
    (hfail : ∀ k, env.fault w.tick = .fail k →
      E e { disk := part k w.disk, tick := w.tick + 1, log := w.log })
    (hcrash : ∀ k, env.fault w.tick = .crash k → S { disk := part k w.disk, tick := w.tick + 1, log := w.log }) :
    Prog.wp (fileOp env full part e) Q E S w := by
  rw [fileOp, wp_operation]
  split
  exacts [hok ‹_›, hfail _ ‹_›, hcrash _ ‹_›]

theorem wp_saveTask {env : Env} {t : DownloadTask} {w : World}
    (hok : env.saveFault w.tick = .ok → Q () (({ w with tick := w.tick + 1 } : World).saveTask t))
    (hfail : ∀ k, env.saveFault w.tick = .fail k → E saveError { w with tick := w.tick + 1 })
    (hcrash : ∀ k, env.saveFault w.tick = .crash k → S { w with tick := w.tick + 1 }) :
    Prog.wp (saveTask env t) Q E S w := by
  rw [saveTask, wp_operation]
  split
  exacts [hok ‹_›, hfail _ ‹_›, hcrash _ ‹_›]

end Cget
