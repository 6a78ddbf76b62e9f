import Cget.Merge
import Cget.Manager
/-!
# What a transfer leaves alone

Before the merge, the engine writes part files and the task's own file, changes its task's
progress and logs. A property that tolerates all of this is kept by every operation up to
the merge, however it ends: that is proved here once, for any such property.
-/

namespace Cget

open Prog

/-- Nothing is changed that identifies the task's job, nor its status. -/
def DownloadTask.SameJob (t t' : DownloadTask) : Prop :=
  t'.id = t.id ∧ t'.url = t.url ∧ t'.targetPath = t.targetPath ∧ t'.tempDir = t.tempDir ∧
    t'.expectedSha256 = t.expectedSha256 ∧ t'.status = t.status

/-- What is stored of a task and no session writes. -/
structure Figures where
  taskRateLimitBytesPerSec : Option Nat
  schedulerMaxChunks : Nat
  schedulerPriority : Nat
  peakSpeedBytesPerSec : Rat
  failedChunks : Nat
  persistedRetryCount : Nat
  requestedThreads : Nat

def DownloadTask.figures (t : DownloadTask) : Figures where
  taskRateLimitBytesPerSec := t.taskRateLimitBytesPerSec
  schedulerMaxChunks := t.schedulerMaxChunks
  schedulerPriority := t.schedulerPriority
  peakSpeedBytesPerSec := t.peakSpeedBytesPerSec
  failedChunks := t.failedChunks
  persistedRetryCount := t.persistedRetryCount
  requestedThreads := t.requestedThreads

/-- Nor its chunks, its size and what no session writes. -/
def DownloadTask.SameWork (t t' : DownloadTask) : Prop :=
  t.SameJob t' ∧ t'.chunks = t.chunks ∧ t'.fileSize = t.fileSize ∧ t'.figures = t.figures

/-- The events of a session other than saves and status changes. -/
def Event.isRequest (id : TaskId) : Event → Prop
  | .requested id' _ => id' = id
  | .fetched id' _ => id' = id
  | _ => False

/-- The statuses a session assigns before its merge. -/
def TaskStatus.working (s : TaskStatus) : Bool :=
  s = .downloading || s = .retrying || s = .failed || s = .metadataMismatch

/-- `I` survives a save, and changes of the task that are no progress. -/
structure ToleratesQuiet (I : Session → Prop) : Prop where
  tick : ∀ s n, I s → I { s with world := { s.world with tick := n } }
  task : ∀ s t, I s → s.task.SameWork t → I { s with task := t }
  saved : ∀ s, I s → I { s with world := s.world.saveTask s.task }

/-- `I` survives the saves of a session. -/
structure ToleratesSaves (I : Session → Prop) : Prop extends ToleratesQuiet I where
  status : ∀ s (st : TaskStatus), I s → st.working → I (s.setStatus st)

/-- `I` survives the data of a transfer. -/
structure ToleratesData (I : Session → Prop) : Prop extends ToleratesQuiet I where
  part : ∀ s p b, I s → I { s with world := { s.world with disk := s.world.disk.setPart p b } }
  progress : ∀ s t, I s → s.task.SameJob t → I { s with task := t }
  logged : ∀ s e, I s → e.isRequest s.task.id → I (s.record e)

/-- `I` survives what a session does before its merge. -/
structure Tolerates (I : Session → Prop) : Prop extends ToleratesSaves I, ToleratesData I

variable {env : Env} {I : Session → Prop} {α β : Type}

theorem ToleratesQuiet.updateTask (h : ToleratesQuiet I) {f : DownloadTask → DownloadTask}
    (hf : ∀ t : DownloadTask, t.SameWork (f t)) :
    Keeps I (updateTask f) := fun s hs => h.task s _ hs (hf s.task)

theorem ToleratesData.changeTask (h : ToleratesData I) {f : DownloadTask → DownloadTask}
    (hf : ∀ t : DownloadTask, t.SameJob (f t)) :
    Keeps I (Cget.updateTask f) := fun s hs => h.progress s _ hs (hf s.task)

theorem ToleratesSaves.setStatus (h : ToleratesSaves I) {st : TaskStatus} (hst : st.working) : Keeps I (setStatus st) :=
  fun s hs => h.status s st hs hst

theorem ToleratesQuiet.save (h : ToleratesQuiet I) : Keeps I (do let s ← get; onWorld (saveTask env s.task)) := by
  intro s hs
  simp only [wp_bind, wp_get, onWorld, wp_focus]
  refine wp_saveTask (fun _ => ?_) (fun _ _ => ?_) (fun _ _ => ?_)
  · exact h.saved _ (h.tick s _ hs)
  · exact h.tick s _ hs
  · exact h.tick s _ hs

theorem ToleratesQuiet.persistTask (h : ToleratesQuiet I) : Keeps I (persistTask env) := by
  unfold Cget.persistTask
  exact KeepsOr.bind (h.updateTask fun _ => ⟨⟨rfl, rfl, rfl, rfl, rfl, rfl⟩, rfl, rfl, rfl⟩) fun _ => h.save

theorem ToleratesSaves.setFailure (h : ToleratesSaves I) {st : TaskStatus} (hst : st.working) (message : Text) :
    Keeps I (setFailure env st message) := by
  unfold Cget.setFailure
  exact (h.setStatus hst).bind fun _ =>
    KeepsOr.bind (h.updateTask fun _ => ⟨⟨rfl, rfl, rfl, rfl, rfl, rfl⟩, rfl, rfl, rfl⟩) fun _ => h.save

theorem ToleratesSaves.failWith (h : ToleratesSaves I) (e : Exn) : Keeps I (failWith env e) := by
  unfold Cget.failWith
  split
  · exact h.setFailure (by decide) _
  · exact h.setFailure (by decide) _

/-- `beginTask` sets Downloading before it does anything else. -/
theorem ToleratesSaves.begin_after (h : ToleratesSaves I) {s : Session} (hs : I (s.setStatus .downloading)) :
    wp (beginTask env) (fun _ => I) (fun _ => I) I s := by
  simp only [Cget.beginTask, Cget.setStatus, wp_bind, wp_modify]
  rw [wp_updateTask]
  exact h.persistTask _ (h.task _ _ hs ⟨⟨rfl, rfl, rfl, rfl, rfl, rfl⟩, rfl, rfl, rfl⟩)

theorem ToleratesSaves.beginTask (h : ToleratesSaves I) : Keeps I (beginTask env) :=
  fun s hs => h.begin_after (h.status s .downloading hs (by decide))

/-- The session `beginTask` saves. -/
def Session.begun (env : Env) (s : Session) : Session :=
  { s.setStatus .downloading with
    task := { s.task with
      status := .downloading
      startedAt := s.task.startedAt.or (some env.now)
      lastError := none
      updatedAt := env.now } }

theorem wp_beginTask {s : Session} {Q : Unit → Session → Prop} {E : Exn → Session → Prop} {S : Session → Prop}
    (hok : env.saveFault s.world.tick = .ok → Q () (s.begun env).saved)
    (hfail : ∀ k, env.saveFault s.world.tick = .fail k → E saveError (s.begun env).ticked)
    (hcrash : ∀ k, env.saveFault s.world.tick = .crash k → S (s.begun env).ticked) :
    wp (Cget.beginTask env) Q E S s := by
  simp only [Cget.beginTask, Cget.setStatus, Cget.updateTask, wp_bind, wp_modify]
  exact wp_persistTask hok hfail hcrash

theorem wp_failWith {s : Session} {e : Exn} {Q : Unit → Session → Prop} {E : Exn → Session → Prop}
    {S : Session → Prop}
    (hok : ∀ st, st = .failed ∨ st = .metadataMismatch → Q () (s.failed env st e.what).saved)
    (hfail : ∀ st k, st = .failed ∨ st = .metadataMismatch → env.saveFault s.world.tick = .fail k →
      E saveError (s.failed env st e.what).ticked)
    (hcrash : ∀ st k, st = .failed ∨ st = .metadataMismatch → env.saveFault s.world.tick = .crash k →
      S (s.failed env st e.what).ticked) : wp (Cget.failWith env e) Q E S s := by
  unfold Cget.failWith
  split
  · exact wp_setFailure (fun _ => hok _ (.inr rfl)) (fun k => hfail _ k (.inr rfl)) (fun k => hcrash _ k (.inr rfl))
  · exact wp_setFailure (fun _ => hok _ (.inl rfl)) (fun k => hfail _ k (.inl rfl)) (fun k => hcrash _ k (.inl rfl))

/-- The failure of a session is not Completed. -/
theorem failWith_uncompleted (e : Exn) (s : Session) :
    wp (Cget.failWith env e) (fun _ s' => s'.task.status ≠ .completed) (fun _ s' => s'.task.status ≠ .completed)
      (fun _ => True) s := by
  have hne : ∀ st : TaskStatus, st = .failed ∨ st = .metadataMismatch → st ≠ .completed := by
    rintro st (rfl | rfl) <;> decide
  exact wp_failWith (fun st h => hne st h) (fun st _ h _ => hne st h) (fun _ _ _ _ => trivial)

theorem wp_fetchMetadata {s : Session} {Q : RemoteFileInfo → Session → Prop} {E : Exn → Session → Prop}
    {S : Session → Prop}
    (herror : ∀ e, env.protocol.fetchMetadata s.task.url = .error e → E e (s.record (.fetched s.task.id false)))
    (hok : ∀ info, env.protocol.fetchMetadata s.task.url = .ok info →
      Q info (s.record (.fetched s.task.id (!metadataChanged s.task info)))) :
    wp (Cget.fetchMetadata env) Q E S s := by
  simp only [Cget.fetchMetadata, wp_bind, wp_get]
  cases h : env.protocol.fetchMetadata s.task.url with
  | error e => exact herror e h
  | ok info => exact hok info h

theorem ToleratesData.fetchMetadata (h : ToleratesData I) : Keeps I (fetchMetadata env) :=
  fun s hs => wp_fetchMetadata (fun _ _ => h.logged s _ hs rfl) (fun _ _ => h.logged s _ hs rfl)

/-! ## File operations -/

/-- An operation of the disk that `I` does not see. -/
theorem ToleratesQuiet.fileOp (h : ToleratesQuiet I) {full : Disk → Disk} {part : Nat → Disk → Disk} {e : Exn}
    (hfull : ∀ s, I s → I { s with world := { s.world with disk := full s.world.disk } })
    (hpart : ∀ k s, I s → I { s with world := { s.world with disk := part k s.world.disk } }) :
    Keeps I (onWorld (fileOp env full part e)) := by
  intro s hs
  simp only [onWorld, wp_focus]
  refine wp_fileOp (fun _ => ?_) (fun k _ => ?_) (fun k _ => ?_)
  · exact hfull _ (h.tick s (s.world.tick + 1) hs)
  · exact hpart k _ (h.tick s (s.world.tick + 1) hs)
  · exact hpart k _ (h.tick s (s.world.tick + 1) hs)

theorem ToleratesQuiet.ensureTaskTempDir (h : ToleratesQuiet I) : Keeps I (onWorld (ensureTaskTempDir env)) :=
  h.fileOp (fun _ hs => hs) (fun _ _ hs => hs)

theorem ToleratesQuiet.truncateFile (h : ToleratesQuiet I) {p : Path} {size : Nat}
    (hcut : ∀ s, I s → I { s with world :=
      { s.world with disk := s.world.disk.setPart p ((s.world.disk.parts p).map (·.take size)) } }) :
    Keeps I (onWorld (truncateFile env p size)) := by
  intro s hs
  have hop : wp (onWorld (Cget.fileOp env (fun d => d.setPart p ((d.parts p).map (·.take size)))
      (fun _ d => d) truncateError)) (fun _ => I) (fun _ => I) I s := h.fileOp hcut (fun _ _ hs => hs) s hs
  simp only [onWorld, wp_focus] at hop
  simp only [onWorld, wp_focus, Cget.truncateFile, wp_bind, wp_get, wp_ite]
  split
  · exact hop
  · exact hs

/-! ## Workers -/

theorem ToleratesData.apply (h : ToleratesData I) (hd : ∀ s, I s → I (s.setStatus .downloading))
    (hr : ∀ s, I s → I (s.setStatus .retrying)) {s : Session} (a : TaskAction) (hs : I s) : I (a.apply env s) := by
  cases a with
  | none => exact hs
  | recompute => exact h.progress s _ hs ⟨rfl, rfl, rfl, rfl, rfl, rfl⟩
  | setDownloading => exact hd s hs
  | count n => exact h.progress s _ hs ⟨rfl, rfl, rfl, rfl, rfl, rfl⟩
  | setRetrying message => exact h.progress _ _ (hr s hs) ⟨rfl, rfl, rfl, rfl, rfl, rfl⟩
  | request start stop n => exact h.logged s _ hs rfl
  | persist saved =>
    have ht := h.progress s { s.task with updatedAt := env.now } hs ⟨rfl, rfl, rfl, rfl, rfl, rfl⟩
    cases saved with
    | true => exact h.saved _ ht
    | false => exact ht

theorem ToleratesData.moved (h : ToleratesData I) {s : Session} {i : Nat} {c : Chunk} (m : WorkerMove) (hs : I s) :
    I (s.moved i c m) := by
  have ht := h.progress _ (s.task.setChunk i m.chunk) (h.tick s (s.world.tick + 1) hs) ⟨rfl, rfl, rfl, rfl, rfl, rfl⟩
  unfold Session.moved
  split
  · exact h.part _ _ _ ht
  · exact ht

/-- A worker changes data and sets two statuses. -/
theorem ToleratesData.stepWorker (h : ToleratesData I) (hd : ∀ s, I s → I (s.setStatus .downloading))
    (hr : ∀ s, I s → I (s.setStatus .retrying)) (i : Nat) (pc : WorkerPc) : Keeps I (stepWorker env i pc) := by
  intro s hs
  refine wp_const.2 ?_
  unfold Cget.stepWorker
  dsimp only
  split
  · exact hs
  · exact h.apply hd hr _ (h.moved _ hs)

theorem Tolerates.stepWorker (h : Tolerates I) (i : Nat) (pc : WorkerPc) : Keeps I (stepWorker env i pc) :=
  h.toToleratesData.stepWorker (fun s hs => h.status s _ hs rfl) (fun s hs => h.status s _ hs rfl) i pc

/-- What every worker's step keeps is kept by the pool. -/
theorem runPool_keeps (h : ∀ i pc, Keeps I (Cget.stepWorker env i pc)) (workers : List PoolWorker) :
    Keeps I (runPool env workers) := by
  have hturn : ∀ (pool : Pool) (j : Nat), Keeps I (Pool.turn env pool j) := by
    intro pool j
    unfold Pool.turn
    split
    · exact KeepsOr.pure _
    · exact KeepsOr.pure _
    · exact KeepsOr.pure _
    · exact KeepsOr.pure _
    · exact (h _ _).bind fun _ => KeepsOr.pure _
  refine (KeepsOr.foldlM _ hturn _ _).bind fun pool => ?_
  split
  · exact KeepsOr.pure _
  · exact fun _ h => h

/-- And by the executor. -/
theorem chunkExecutor_keeps {envs : TaskId → Env} {id : TaskId}
    (h : ∀ i pc, Keeps I (Cget.stepWorker (envs id) i pc)) (j : Nat)
    (pc : WorkerPc) : Keeps I ((chunkExecutor envs).step id j pc) := by
  unfold Cget.chunkExecutor
  dsimp only
  split
  · exact KeepsOr.pure _
  · exact KeepsOr.throw _
  · exact (h j _).bind fun _ => KeepsOr.pure _

theorem Tolerates.runPool (h : Tolerates I) (workers : List PoolWorker) : Keeps I (runPool env workers) :=
  runPool_keeps h.stepWorker workers

theorem Tolerates.chunkExecutor (h : Tolerates I) {envs : TaskId → Env} (id : TaskId) (j : Nat) (pc : WorkerPc) :
    Keeps I ((chunkExecutor envs).step id j pc) := chunkExecutor_keeps h.stepWorker j pc

/-! ## Transfers -/

theorem ToleratesQuiet.flushTask (h : ToleratesQuiet I) {flush : Bool} : Keeps I (flushTask env flush) := by
  unfold Cget.flushTask
  split
  · exact h.persistTask
  · exact KeepsOr.pure _

theorem ToleratesData.receiveSingle (h : ToleratesData I) (p : Path) :
    ∀ blocks, Keeps I (receiveSingle env p blocks)
  | [] => KeepsOr.pure _
  | b :: bs => by
    unfold Cget.receiveSingle
    refine KeepsOr.bind (h.fileOp (fun s hs => h.part s _ _ hs) (fun k s hs => h.part s _ _ hs)) fun _ => ?_
    refine KeepsOr.bind (h.changeTask fun _ => ⟨rfl, rfl, rfl, rfl, rfl, rfl⟩) fun _ => ?_
    exact h.flushTask.bind fun _ => h.receiveSingle p bs

/-- A request is logged for the task at hand. -/
theorem ToleratesData.request (h : ToleratesData I) {e : Session → Event} (he : ∀ s, (e s).isRequest s.task.id)
    {f : Session → EngineM α} (hf : ∀ s, Keeps I (f s)) :
    Keeps I (do let s ← get; modify (·.record (e s)); f s) := by
  intro s hs
  simp only [wp_bind, wp_get, wp_modify]
  exact hf s _ (h.logged s _ hs (he s))

theorem ToleratesData.transferSingleStream (h : ToleratesData I) (info : RemoteFileInfo) :
    Keeps I (transferSingleStream env info) := by
  unfold Cget.transferSingleStream
  refine h.ensureTaskTempDir.bind fun _ => KeepsOr.get_bind fun s =>
    (h.truncateFile fun s hs => h.part s _ _ hs).bind fun _ => ?_
  refine KeepsOr.bind (h.changeTask fun _ => ⟨rfl, rfl, rfl, rfl, rfl, rfl⟩) fun _ => h.persistTask.bind fun _ => ?_
  refine KeepsOr.bind (h.fileOp (fun s hs => h.part s _ _ hs) (fun k s hs => hs)) fun _ => ?_
  refine h.request (e := fun s => .requested s.task.id .single) (fun _ => rfl) fun s => ?_
  refine (h.receiveSingle _ _).bind fun _ => ?_
  split
  · exact KeepsOr.throw _
  · refine KeepsOr.get_bind fun s => ?_
    dsimp only
    split
    · exact KeepsOr.throw _
    · exact h.changeTask fun _ => ⟨rfl, rfl, rfl, rfl, rfl, rfl⟩

theorem Tolerates.transferWithRange (h : Tolerates I) (info : RemoteFileInfo) :
    Keeps I (transferWithRange env info) := by
  unfold Cget.transferWithRange
  refine h.ensureTaskTempDir.bind fun _ =>
    KeepsOr.bind (h.changeTask fun _ => ⟨rfl, rfl, rfl, rfl, rfl, rfl⟩) fun _ => ?_
  refine KeepsOr.bind (h.changeTask fun _ => ⟨rfl, rfl, rfl, rfl, rfl, rfl⟩) fun _ => h.persistTask.bind fun _ => ?_
  refine KeepsOr.get_bind fun s => KeepsOr.bind (h.changeTask fun _ => ⟨rfl, rfl, rfl, rfl, rfl, rfl⟩) fun _ => ?_
  refine (h.runPool _).bind fun errors => ?_
  split
  · split
    · refine KeepsOr.bind (h.changeTask fun _ => ⟨rfl, rfl, rfl, rfl, rfl, rfl⟩) fun _ => h.persistTask.bind fun _ => ?_
      exact (h.transferSingleStream info).bind fun _ => KeepsOr.pure _
    · refine (h.setFailure ?_ _).bind fun _ => KeepsOr.pure _
      split <;> decide
  · refine KeepsOr.get_bind fun s => ?_
    split
    · exact KeepsOr.pure _
    · exact (h.setFailure (by decide) _).bind fun _ => KeepsOr.pure _

theorem Tolerates.transferFrom (h : Tolerates I) (info : RemoteFileInfo) : Keeps I (transferFrom env info) := by
  unfold Cget.transferFrom
  refine KeepsOr.bind (h.changeTask fun _ => ⟨rfl, rfl, rfl, rfl, rfl, rfl⟩) fun _ => h.persistTask.bind fun _ => ?_
  refine KeepsOr.get_bind fun s => ?_
  split
  · exact h.transferWithRange info
  · exact (h.transferSingleStream info).bind fun _ => KeepsOr.pure _

theorem Tolerates.transfer_after (h : Tolerates I) {s : Session} (hs : I (s.setStatus .downloading)) :
    wp (transfer env) (fun _ => I) (fun _ => I) I s := by
  unfold Cget.transfer
  rw [wp_bind]
  refine wp_mono (h.begin_after hs) (fun _ s₁ h₁ => ?_) (fun _ _ h => h) (fun _ h => h)
  refine (h.fetchMetadata.bind fun info => KeepsOr.get_bind fun s => ?_) s₁ h₁
  split
  · exact (h.setFailure (by decide) _).bind fun _ => KeepsOr.pure _
  · exact h.transferFrom info

/-- However `transfer` ends, it has kept what tolerates transfers. -/
theorem Tolerates.transfer (h : Tolerates I) : Keeps I (transfer env) :=
  fun s hs => h.transfer_after (h.status s .downloading hs (by decide))

theorem Tolerates.prepareFrom (h : Tolerates I) (info : RemoteFileInfo) : Keeps I (prepareFrom env info) := by
  unfold Cget.prepareFrom prepareChunks
  refine KeepsOr.bind (h.changeTask fun _ => ⟨rfl, rfl, rfl, rfl, rfl, rfl⟩) fun _ => ?_
  refine KeepsOr.bind (KeepsOr.get_bind fun s => ?_) fun _ => h.persistTask
  split
  · refine h.ensureTaskTempDir.bind fun _ => ?_
    refine KeepsOr.bind (h.changeTask fun _ => ⟨rfl, rfl, rfl, rfl, rfl, rfl⟩) fun _ => ?_
    exact h.changeTask fun _ => ⟨rfl, rfl, rfl, rfl, rfl, rfl⟩
  · exact KeepsOr.pure _

theorem Tolerates.prepareTask (h : Tolerates I) : Keeps I (prepareTask env) := by
  refine KeepsOr.tryCatch ?_ h.failWith
  refine h.beginTask.bind fun _ => h.fetchMetadata.bind fun info => KeepsOr.get_bind fun s => ?_
  split
  · exact h.setFailure (by decide) _
  · exact h.prepareFrom info

theorem tolerates_id {τ : TaskId} : Tolerates (fun s => s.task.id = τ) where
  tick _ _ h := h
  task _ _ h ht := ht.1.1.trans h
  status _ _ h _ := h
  saved _ h := h
  part _ _ _ h := h
  progress _ _ h ht := ht.1.trans h
  logged _ _ h _ := h

theorem tolerates_uncompleted : Tolerates (fun s => s.task.status ≠ .completed) where
  tick _ _ h := h
  task _ _ h ht := by rw [ht.1.2.2.2.2.2]; exact h
  status _ _ _ hst := by rintro rfl; cases hst
  saved _ h := h
  part _ _ _ h := h
  progress _ _ h ht := by rw [ht.2.2.2.2.2]; exact h
  logged _ _ h _ := h

/-! ## The end of a session -/

/-- The ways `verifyChecksum` can end over a merged file `b`. -/
theorem wp_verifyChecksum {s : Session} {b : Bytes} {Q : Bool → Session → Prop} {E : Exn → Session → Prop}
    {S : Session → Prop} (hb : s.world.disk.out s.task.targetPath = some b)
    (hok : ∀ n, (∀ digest, s.task.expectedSha256 = some digest →
      env.commit.openMerged = .ok ∧ env.sha256 b = lowercaseHex digest) →
      Q true { s with world := { s.world with tick := n } })
    (hbad : ∀ n digest, s.task.expectedSha256 = some digest → env.commit.openMerged = .ok →
      env.sha256 b ≠ lowercaseHex digest →
      wp (setFailure env .failed (checksumMessage (lowercaseHex digest) (env.sha256 b))) (fun _ => Q false) E S
        { s with world := { s.world with tick := n } })
    (hfail : ∀ n k, s.task.expectedSha256 ≠ none → env.commit.openMerged = .fail k →
      E (openHashedError s.task.targetPath) { s with world := { s.world with tick := n } })
    (hcrash : ∀ n k, env.commit.openMerged = .crash k → S { s with world := { s.world with tick := n } }) :
    wp (verifyChecksum env) Q E S s := by
  unfold verifyChecksum
  rw [wp_bind, wp_get]
  cases hdigest : s.task.expectedSha256 with
  | none => exact hok s.world.tick fun digest h => by rw [hdigest] at h; cases h
  | some digest =>
    dsimp only
    rw [wp_bind, onWorld, wp_focus]
    refine wp_fileOp (fun hopen => ?_) (fun k hopen => hfail _ k (by simp [hdigest]) hopen) fun k hopen =>
      hcrash _ k hopen
    simp only [hb]
    split
    · rw [wp_bind]
      exact wp_mono (hbad _ digest hdigest hopen ‹_›) (fun _ _ h => h) (fun _ _ h => h) fun _ h => h
    · refine hok _ fun digest' h => ?_
      obtain rfl : digest = digest' := Option.some.inj (hdigest.symm.trans h)
      exact ⟨hopen, not_not.1 ‹_›⟩

theorem ToleratesSaves.verifyChecksum (h : ToleratesSaves I) : Keeps I (verifyChecksum env) := by
  unfold Cget.verifyChecksum
  refine KeepsOr.get_bind fun s => ?_
  split
  · exact KeepsOr.pure _
  · refine KeepsOr.bind (h.fileOp (fun _ hs => hs) fun _ _ hs => hs) fun _ => ?_
    split
    · exact KeepsOr.throw _
    · split
      · exact (h.setFailure (by decide) _).bind fun _ => KeepsOr.pure _
      · exact KeepsOr.pure _

/-- A property that does not see the output files and tolerates Completed is kept to the end. -/
theorem ToleratesSaves.mergeAndComplete (h : ToleratesSaves I)
    (hout : ∀ s w', OnlyTarget s.task.targetPath s.world w' → I s → I { s with world := w' })
    (hdone : ∀ s, I s → I (s.setStatus .completed)) : Keeps I (mergeAndComplete env) := by
  unfold Cget.mergeAndComplete
  intro s hs
  simp only [wp_bind, wp_get, onWorld, wp_focus]
  refine wp_mono mergeChunks_wp ?_ (fun _ w' hw => hout s w' hw.1 hs) (fun w' hw => hout s w' hw.1 hs)
  rintro _ w' ⟨hw, -⟩
  refine wp_mono (h.verifyChecksum _ (hout s w' hw hs)) ?_ (fun _ _ h => h) (fun _ h => h)
  intro ok s' hs'
  split
  · simp only [wp_bind, Cget.updateTask, Cget.setStatus, wp_modify]
    have ht := h.task s' { s'.task with downloaded := s'.task.fileSize } hs'
      ⟨⟨rfl, rfl, rfl, rfl, rfl, rfl⟩, rfl, rfl, rfl⟩
    exact h.persistTask _ (h.task _ _ (hdone _ ht) ⟨⟨rfl, rfl, rfl, rfl, rfl, rfl⟩, rfl, rfl, rfl⟩)
  · exact hs'

/-- `download` keeps what its parts keep. -/
theorem keeps_download {S : Session → Prop} (htransfer : KeepsOr S I (transfer env))
    (hmerge : KeepsOr S I (mergeAndComplete env))
    (hfail : ∀ e, KeepsOr S I (failWith env e)) : KeepsOr S I (download env) := by
  refine KeepsOr.tryCatch (htransfer.bind fun r => ?_) hfail
  cases r with
  | transferred => exact hmerge
  | failed => exact KeepsOr.pure _

theorem wp_withEngine {m : EngineM Unit} {s : Session} {Q : Unit → Session → Prop} {E : Exn → Session → Prop}
    {S : Session → Prop} (hengine : ∀ e, env.engine = .error e → E e s) (h : wp m Q E S s) :
    wp (withEngine env m) Q E S s := by
  rw [withEngine, wp_bind]
  exact wp_ofExcept (fun _ _ => h) hengine

theorem withEngine_created (h : env.engine = .ok ()) (m : EngineM Unit) : withEngine env m = m := by
  rw [withEngine, h]
  rfl

/-- Creating the engine changes nothing. -/
theorem keeps_withEngine {S : Session → Prop} {m : EngineM Unit} (h : KeepsOr S I m) : KeepsOr S I (withEngine env m) :=
  (KeepsOr.ofExcept _).bind fun _ => h

/-- `finalizePreparedTask` keeps what its parts keep. -/
theorem keeps_finalize {S : Session → Prop} (hsave : KeepsOr S I (persistTask env))
    (hfail : ∀ message, KeepsOr S I (setFailure env .failed message)) (hmerge : KeepsOr S I (mergeAndComplete env)) :
    KeepsOr S I (finalizePreparedTask env) := by
  refine KeepsOr.get_bind fun s => ?_
  split
  · exact hsave
  · split
    · exact hfail _
    · exact hmerge

theorem mergeAndComplete_id {τ : TaskId} : Keeps (fun s : Session => s.task.id = τ) (mergeAndComplete env) :=
  tolerates_id.toToleratesSaves.mergeAndComplete (fun _ _ _ h => h) fun _ h => h

end Cget
