import Cget.Endings
import Cget.Lib.InStep
/-!
# One task in two worlds

A session sees of its world the part files under its task's temp directory, the task's target
and the temp file beside it. Two sessions on the same task, with the same of these files, go
the same way if no file operation fails, whatever else there is in their worlds.
-/

namespace Cget

open Prog

variable {env : Env} {t u : DownloadTask} {w w' w'' : World} {s s' : Session} {c : Chunk} {cs : List Chunk}
  {info : RemoteFileInfo}

/-! ## The files of a task -/

/-- The task's target, the temp file beside it and the files under its temp directory are the same. -/
structure SameFiles (t : DownloadTask) (w w' : World) : Prop where
  target : w'.disk.out t.targetPath = w.disk.out t.targetPath
  temp : w'.disk.out (tempTarget t.targetPath) = w.disk.out (tempTarget t.targetPath)
  parts : ∀ n, SafeName n → w'.disk.parts (joinPath t.tempDir n) = w.disk.parts (joinPath t.tempDir n)

theorem safeName_single : SafeName singlePart := by unfold SafeName; decide

namespace SameFiles

theorem refl : SameFiles t w w := ⟨rfl, rfl, fun _ _ => rfl⟩

theorem symm (h : SameFiles t w w') : SameFiles t w' w := ⟨h.target.symm, h.temp.symm, fun n hn => (h.parts n hn).symm⟩

theorem trans (h : SameFiles t w w') (h' : SameFiles t w' w'') : SameFiles t w w'' :=
  ⟨h'.target.trans h.target, h'.temp.trans h.temp, fun n hn => (h'.parts n hn).trans (h.parts n hn)⟩

/-- It is the paths of the task that count. -/
theorem congr (h : SameFiles t w w') (htarget : u.targetPath = t.targetPath) (hdir : u.tempDir = t.tempDir) :
    SameFiles u w w' := by
  refine ⟨?_, ?_, ?_⟩
  · rw [htarget]
    exact h.target
  · rw [htarget]
    exact h.temp
  · rw [hdir]
    exact h.parts

/-- Nothing on the disk but task files has changed. -/
theorem of_disk (hout : w'.disk.out = w.disk.out) (hparts : w'.disk.parts = w.disk.parts) : SameFiles t w w' := by
  refine ⟨?_, ?_, fun n _ => ?_⟩
  · rw [hout]
  · rw [hout]
  · rw [hparts]

theorem setPart (h : SameFiles t w w') (p : Path) (b : Option Bytes) :
    SameFiles t { w with disk := w.disk.setPart p b } { w' with disk := w'.disk.setPart p b } := by
  refine ⟨h.target, h.temp, fun n hn => ?_⟩
  by_cases hp : joinPath t.tempDir n = p
  · rw [Disk.setPart_parts, Disk.setPart_parts, hp, Function.update_self, Function.update_self]
  · rw [Disk.setPart_parts, Disk.setPart_parts, Function.update_of_ne hp, Function.update_of_ne hp, h.parts n hn]

theorem setOut (h : SameFiles t w w') (p : Path) (b : Option Bytes) :
    SameFiles t { w with disk := w.disk.setOut p b } { w' with disk := w'.disk.setOut p b } := by
  have hset : ∀ q, w'.disk.out q = w.disk.out q → (w'.disk.setOut p b).out q = (w.disk.setOut p b).out q := by
    intro q hq
    rw [Disk.setOut_out, Disk.setOut_out, hq]
  exact ⟨hset _ h.target, hset _ h.temp, h.parts⟩

theorem partOn (h : SameFiles t w w') (c : Chunk) : t.partOn w'.disk c = t.partOn w.disk c := by
  unfold DownloadTask.partOn chunkPath
  split
  · rfl
  · exact h.parts _ (Bool.eq_false_of_not_eq_true ‹_›)

theorem gathered (h : SameFiles t w w') : gatherParts w'.disk t.tempDir cs = gatherParts w.disk t.tempDir cs := by
  induction cs with
  | nil => rfl
  | cons c cs ih =>
    rw [gatherParts, gatherParts]
    split
    · rfl
    · rename_i hsafe
      rw [h.parts _ (Bool.eq_false_of_not_eq_true hsafe), ih]

end SameFiles

/-! ## File operations -/

theorem Env.Smooth.run_fileOp (hf : env.Smooth) {full : Disk → Disk} {part : Nat → Disk → Disk} {e : Exn} (w : World) :
    (Cget.fileOp env full part e).run w = (.ok (), { disk := full w.disk, tick := w.tick + 1, log := w.log }) := by
  simp only [Cget.fileOp, operation, (hf w.tick).1]

theorem Env.Smooth.run_saveTask (hf : env.Smooth) (w : World) :
    (saveTask env t).run w = (.ok (), ({ w with tick := w.tick + 1 } : World).saveTask t) := by
  simp only [saveTask, operation, (hf w.tick).2]

/-- Where every operation ends well. -/
theorem ending_smooth : (env.ending .ok).Smooth := fun _ => ⟨rfl, rfl⟩

section Operations

variable (hf : env.Smooth)

include hf in
theorem inStep_fileOp {full : Disk → Disk} {part : Nat → Disk → Disk} {e : Exn}
    (hfull : ∀ w w', SameFiles t w w' → SameFiles t { w with disk := full w.disk } { w' with disk := full w'.disk }) :
    InStep (SameFiles t) (fileOp env full part e) (fileOp env full part e) := by
  refine .of_run hf.run_fileOp hf.run_fileOp fun w w' h => ?_
  obtain ⟨htarget, htemp, hparts⟩ := hfull w w' h
  exact ⟨htarget, htemp, hparts⟩

include hf in
theorem inStep_ensureTaskTempDir : InStep (SameFiles t) (ensureTaskTempDir env) (ensureTaskTempDir env) :=
  inStep_fileOp hf fun _ _ h => h

include hf in
theorem inStep_truncateFile {n : Path} (hn : SafeName n) (size : Nat) :
    InStep (SameFiles t) (truncateFile env (joinPath t.tempDir n) size)
      (truncateFile env (joinPath t.tempDir n) size) := by
  unfold truncateFile
  refine .get_bind fun w w' h => ?_
  rw [h.parts n hn]
  split
  · refine inStep_fileOp hf fun w w' h => ?_
    rw [h.parts n hn]
    exact h.setPart _ _
  · exact .pure _

end Operations

theorem inStep_mergeChunks (hf : env.Faultless) (size : Nat) :
    InStep (SameFiles t) (mergeChunks env cs t.tempDir t.targetPath size)
    (mergeChunks env cs t.tempDir t.targetPath size) := by
  have hset : ∀ (p : Path) (b : Option Bytes) (w w' : World), SameFiles t w w' →
      SameFiles t { w with disk := w.disk.setOut p b } { w' with disk := w'.disk.setOut p b } :=
      fun p b _ _ h => h.setOut p b
  have hmove : ∀ w w', SameFiles t w w' →
      SameFiles t
        { w with
          disk := (w.disk.setOut t.targetPath (w.disk.out (tempTarget t.targetPath))).setOut
            (tempTarget t.targetPath) none }
        { w' with
          disk := (w'.disk.setOut t.targetPath (w'.disk.out (tempTarget t.targetPath))).setOut
            (tempTarget t.targetPath) none } := by
    intro w w' h
    rw [h.temp]
    exact (h.setOut _ _).setOut _ _
  unfold mergeChunks assemble moveIntoPlace writeMerged checkMerged ignoringErrors
  rw [hf.commit]
  refine .bind (.bind (inStep_fileOp ending_smooth fun _ _ h => h) fun _ =>
    .bind (inStep_fileOp ending_smooth (hset _ _)) fun _ => ?_) fun _ => ?_
  · refine .get_bind fun w w' h => ?_
    rw [h.gathered]
    refine .bind (.tryCatch (inStep_fileOp ending_smooth (hset _ _)) fun _ => .pure _) fun _ => ?_
    split
    · exact .throw _
    · refine .get_bind fun w w' h => ?_
      rw [h.temp]
      dsimp only
      split
      · exact .throw _
      · exact .pure _
  · exact .bind (.tryCatch (inStep_fileOp ending_smooth (hset _ _)) fun _ => .pure _) fun _ =>
      inStep_fileOp ending_smooth hmove


/-! ## Sessions -/

/-- Two sessions on one task, which has the paths of `t`, with the same of its files. -/
structure Twins (t : DownloadTask) (s s' : Session) : Prop where
  task : s'.task = s.task
  target : s.task.targetPath = t.targetPath
  dir : s.task.tempDir = t.tempDir
  files : SameFiles t s.world s'.world

theorem Twins.record (h : Twins t s s') (e : Event) : Twins t (s.record e) (s'.record e) :=
  ⟨h.task, h.target, h.dir, h.files.target, h.files.temp, h.files.parts⟩

theorem Twins.change (h : Twins t s s') {f : DownloadTask → DownloadTask}
    (hf : ∀ u : DownloadTask, (f u).targetPath = u.targetPath ∧ (f u).tempDir = u.tempDir) :
    Twins t { s with task := f s.task } { s' with task := f s'.task } :=
  ⟨congrArg f h.task, (hf _).1.trans h.target, (hf _).2.trans h.dir, h.files⟩

theorem inStep_onWorld {α : Type} {m m' : Prog World Exn α} (h : InStep (SameFiles t) m m') :
    InStep (Twins t) (onWorld m) (onWorld m') :=
  h.focus (fun _ _ h => h.files) fun _ _ _ _ h hw => ⟨h.task, h.target, h.dir, hw⟩

theorem inStep_updateTask {f : DownloadTask → DownloadTask}
    (hf : ∀ u : DownloadTask, (f u).targetPath = u.targetPath ∧ (f u).tempDir = u.tempDir) :
    InStep (Twins t) (updateTask f) (updateTask f) := .modify fun _ _ h => h.change hf

theorem inStep_setStatus (st : TaskStatus) : InStep (Twins t) (setStatus st) (setStatus st) :=
  .modify fun s s' h => by
    have hrecord : Twins t (s.record (.assigned s.task.id st)) (s'.record (.assigned s'.task.id st)) := by
      rw [h.task]
      exact h.record _
    exact hrecord.change (f := fun u => { u with status := st }) fun _ => ⟨rfl, rfl⟩

section Sessions

variable (hf : env.Smooth)

include hf in
/-- A save leaves all other files alone. -/
theorem inStep_save : InStep (Twins t) (do let s ← get; onWorld (saveTask env s.task))
    (do let s ← get; onWorld (saveTask env s.task)) := by
  refine .get_bind fun s s' h => ?_
  rw [h.task]
  refine inStep_onWorld (.of_run hf.run_saveTask hf.run_saveTask fun w w' hw => ?_)
  exact ⟨hw.target, hw.temp, hw.parts⟩

include hf in
theorem inStep_persistTask : InStep (Twins t) (persistTask env) (persistTask env) := by
  unfold persistTask
  exact .bind (inStep_updateTask fun _ => ⟨rfl, rfl⟩) fun _ => inStep_save hf

include hf in
theorem inStep_setFailure (st : TaskStatus) (message : Text) :
    InStep (Twins t) (setFailure env st message) (setFailure env st message) := by
  unfold setFailure
  exact (inStep_setStatus st).bind fun _ => .bind (inStep_updateTask fun _ => ⟨rfl, rfl⟩) fun _ => inStep_save hf

include hf in
theorem inStep_failWith (e : Exn) : InStep (Twins t) (failWith env e) (failWith env e) := by
  rw [failWith_eq]
  exact inStep_setFailure hf _ _

include hf in
theorem inStep_beginTask : InStep (Twins t) (beginTask env) (beginTask env) := by
  unfold beginTask
  exact (inStep_setStatus _).bind fun _ => .bind (inStep_updateTask fun _ => ⟨rfl, rfl⟩) fun _ => inStep_persistTask hf

theorem inStep_fetchMetadata : InStep (Twins t) (fetchMetadata env) (fetchMetadata env) := by
  unfold fetchMetadata
  refine .get_bind fun s s' h => ?_
  rw [h.task]
  cases env.protocol.fetchMetadata s.task.url with
  | error e => exact .bind (.modify fun _ _ h => h.record _) fun _ => .throw _
  | ok info => exact .bind (.modify fun _ _ h => h.record _) fun _ => .pure _

/-! ## Transfers -/

include hf in
theorem inStep_receiveSingle : ∀ blocks, InStep (Twins t) (receiveSingle env (joinPath t.tempDir singlePart) blocks)
    (receiveSingle env (joinPath t.tempDir singlePart) blocks)
  | [] => .pure _
  | b :: bs => by
    have happend : ∀ w w', SameFiles t w w' →
        SameFiles t { w with disk := w.disk.appendPart (joinPath t.tempDir singlePart) b.data }
        { w' with disk := w'.disk.appendPart (joinPath t.tempDir singlePart) b.data } := by
      intro w w' h
      unfold Disk.appendPart
      rw [h.parts _ safeName_single]
      exact h.setPart _ _
    unfold receiveSingle
    refine (inStep_onWorld (inStep_fileOp hf happend)).bind fun _ =>
      .bind (inStep_updateTask fun _ => ⟨rfl, rfl⟩) fun _ => ?_
    refine .bind ?_ fun _ => inStep_receiveSingle bs
    unfold flushTask
    split
    · exact inStep_persistTask hf
    · exact .pure _

include hf in
theorem inStep_transferSingleStream (info : RemoteFileInfo) :
    InStep (Twins t) (transferSingleStream env info) (transferSingleStream env info) := by
  unfold transferSingleStream
  refine (inStep_onWorld (inStep_ensureTaskTempDir hf)).bind fun _ => .get_bind fun s s' h => ?_
  rw [h.task, h.dir]
  refine (inStep_onWorld (inStep_truncateFile hf safeName_single 0)).bind fun _ =>
    .bind (inStep_updateTask fun _ => ⟨rfl, rfl⟩) fun _ => ?_
  refine (inStep_persistTask hf).bind fun _ =>
    (inStep_onWorld (inStep_fileOp hf fun _ _ h => h.setPart _ _)).bind fun _ => ?_
  refine .get_bind fun s s' h => ?_
  rw [h.task]
  refine .bind (.modify fun _ _ h => h.record _) fun _ => (inStep_receiveSingle hf _).bind fun _ => ?_
  split
  · exact .throw _
  · refine .get_bind fun s s' h => ?_
    rw [h.files.parts _ safeName_single]
    dsimp only
    split
    · exact .throw _
    · exact inStep_updateTask fun _ => ⟨rfl, rfl⟩

theorem Twins.apply (h : Twins t s s') (a : TaskAction) : Twins t (a.apply env s) (a.apply env s') := by
  have hassign : ∀ st, Twins t (s.record (.assigned s.task.id st)) (s'.record (.assigned s'.task.id st)) := by
    intro st
    rw [h.task]
    exact h.record _
  cases a with
  | none => exact h
  | recompute => exact h.change (f := recomputeDownloaded) fun _ => ⟨rfl, rfl⟩
  | setDownloading =>
    exact (hassign .downloading).change (f := fun u => { u with status := .downloading }) fun _ => ⟨rfl, rfl⟩
  | count n => exact h.change (f := fun u => { u with downloaded := u.downloaded + n }) fun _ => ⟨rfl, rfl⟩
  | setRetrying message =>
    exact (hassign .retrying).change (f := fun u => { u with status := .retrying, lastError := some message })
      fun _ => ⟨rfl, rfl⟩
  | request start stop n =>
    unfold TaskAction.apply
    rw [h.task]
    exact h.record _
  | persist saved =>
    have htouched := h.change (f := fun u => { u with updatedAt := env.now }) fun _ => ⟨rfl, rfl⟩
    cases saved with
    | true => exact ⟨htouched.task, htouched.target, htouched.dir, h.files.target, h.files.temp, h.files.parts⟩
    | false => exact htouched

theorem Twins.moved (h : Twins t s s') (i : Nat) (c : Chunk) (m : WorkerMove) :
    Twins t (s.moved i c m) (s'.moved i c m) := by
  have htask : (s'.moved i c m).task = (s.moved i c m).task := by
    unfold Session.moved
    rw [h.task]
  refine ⟨htask, h.target, h.dir, ?_⟩
  unfold Session.moved
  rw [h.task]
  cases chunkPath s.task c with
  | error e => exact ⟨h.files.target, h.files.temp, h.files.parts⟩
  | ok p =>
    obtain ⟨htarget, htemp, hparts⟩ := h.files.setPart p m.part
    exact ⟨htarget, htemp, hparts⟩

include hf in
/-- A worker's step sees its chunk and its part file. -/
theorem inStep_stepWorker (i : Nat) (pc : WorkerPc) : InStep (Twins t) (stepWorker env i pc) (stepWorker env i pc) := by
  intro s s' h
  have hchunks : s'.task.chunks[i]? = s.task.chunks[i]? := by rw [h.task]
  cases hc : s.task.chunks[i]? with
  | none =>
    have hrun : ∀ s : Session, s.task.chunks[i]? = none →
        (stepWorker env i pc).run s = (.ok (.threw (.other (text "vector::_M_range_check"))), s) := by
      intro s hnone
      simp only [stepWorker, hnone]
    rw [hrun s hc, hrun s' (hchunks.trans hc)]
    exact ⟨rfl, h⟩
  | some c =>
    have hpart : s.task.partOn s'.world.disk c = s.task.partOn s.world.disk c := (h.files.congr h.target h.dir).partOn c
    have hmove : s'.workerMove env c pc = s.workerMove env c pc := by
      unfold Session.workerMove Session.part
      unfold DownloadTask.partOn at hpart
      rw [h.task, hpart, (hf s.world.tick).1, (hf s.world.tick).2, (hf s'.world.tick).1, (hf s'.world.tick).2]
    rw [stepWorker_run hc, stepWorker_run (hchunks.trans hc), Session.stepped, Session.stepped, hmove]
    exact ⟨rfl, (h.moved i c _).apply _⟩

include hf in
theorem inStep_runPool (workers : List PoolWorker) : InStep (Twins t) (runPool env workers) (runPool env workers) := by
  have hturn : ∀ (pool : Pool) (j : Nat), InStep (Twins t) (Pool.turn env pool j) (Pool.turn env pool j) := by
    intro pool j
    unfold Pool.turn
    split
    · exact .pure _
    · exact .pure _
    · exact .pure _
    · exact .pure _
    · exact (inStep_stepWorker hf _ _).bind fun _ => .pure _
  unfold runPool
  refine (InStep.foldlM hturn _ _).bind fun pool => ?_
  split
  · exact .pure _
  · exact .stop

include hf in
theorem inStep_transferWithRange (info : RemoteFileInfo) :
    InStep (Twins t) (transferWithRange env info) (transferWithRange env info) := by
  unfold transferWithRange
  refine (inStep_onWorld (inStep_ensureTaskTempDir hf)).bind fun _ =>
    .bind (inStep_updateTask fun _ => ⟨rfl, rfl⟩) fun _ => ?_
  refine .bind (inStep_updateTask fun _ => ⟨rfl, rfl⟩) fun _ => (inStep_persistTask hf).bind fun _ => ?_
  refine .get_bind fun s s' h => ?_
  rw [h.task]
  refine .bind (inStep_updateTask fun _ => ⟨rfl, rfl⟩) fun _ => (inStep_runPool hf _).bind fun errors => ?_
  split
  · split
    · refine .bind (inStep_updateTask fun _ => ⟨rfl, rfl⟩) fun _ => (inStep_persistTask hf).bind fun _ => ?_
      exact (inStep_transferSingleStream hf info).bind fun _ => .pure _
    · exact (inStep_setFailure hf _ _).bind fun _ => .pure _
  · refine .get_bind fun s s' h => ?_
    rw [h.task]
    split
    · exact .pure _
    · exact (inStep_setFailure hf _ _).bind fun _ => .pure _

include hf in
theorem inStep_transfer : InStep (Twins t) (transfer env) (transfer env) := by
  unfold transfer transferFrom
  refine (inStep_beginTask hf).bind fun _ => inStep_fetchMetadata.bind fun info => .get_bind fun s s' h => ?_
  rw [h.task]
  split
  · exact (inStep_setFailure hf _ _).bind fun _ => .pure _
  · refine .bind (inStep_updateTask fun _ => ⟨rfl, rfl⟩) fun _ => (inStep_persistTask hf).bind fun _ =>
      .get_bind fun s s' h => ?_
    rw [h.task]
    split
    · exact inStep_transferWithRange hf info
    · exact (inStep_transferSingleStream hf info).bind fun _ => .pure _

end Sessions

/-! ## Whole sessions -/

theorem inStep_prepareTask (hf : env.Smooth) : InStep (Twins t) (prepareTask env) (prepareTask env) := by
  refine .tryCatch ?_ fun e => inStep_failWith hf e
  refine (inStep_beginTask hf).bind fun _ => inStep_fetchMetadata.bind fun info => .get_bind fun s s' h => ?_
  rw [h.task]
  split
  · exact inStep_setFailure hf _ _
  · unfold prepareFrom prepareChunks
    refine .bind (inStep_updateTask fun _ => ⟨rfl, rfl⟩) fun _ => .bind (.get_bind fun s s' h => ?_) fun _ =>
      inStep_persistTask hf
    rw [h.task]
    split
    · refine (inStep_onWorld (inStep_ensureTaskTempDir hf)).bind fun _ =>
        .bind (inStep_updateTask fun _ => ⟨rfl, rfl⟩) fun _ => ?_
      exact inStep_updateTask fun _ => ⟨rfl, rfl⟩
    · exact .pure _

section Commits

variable (hf : env.Faultless)

include hf in
theorem inStep_verifyChecksum : InStep (Twins t) (verifyChecksum env) (verifyChecksum env) := by
  unfold verifyChecksum
  refine .get_bind fun s s' h => ?_
  rw [h.task, h.target, h.files.target, hf.commit]
  split
  · exact .pure _
  · refine (inStep_onWorld (inStep_fileOp ending_smooth fun _ _ h => h)).bind fun _ => ?_
    split
    · exact .throw _
    · split
      · exact (inStep_setFailure hf.smooth _ _).bind fun _ => .pure _
      · exact .pure _

include hf in
theorem inStep_mergeAndComplete : InStep (Twins t) (mergeAndComplete env) (mergeAndComplete env) := by
  unfold mergeAndComplete
  refine .get_bind fun s s' h => ?_
  rw [h.task, h.target, h.dir]
  refine (inStep_onWorld (inStep_mergeChunks hf _)).bind fun _ => (inStep_verifyChecksum hf).bind fun ok => ?_
  split
  · refine .bind (inStep_updateTask fun _ => ⟨rfl, rfl⟩) fun _ => (inStep_setStatus _).bind fun _ => ?_
    exact .bind (inStep_updateTask fun _ => ⟨rfl, rfl⟩) fun _ => inStep_persistTask hf.saves
  · exact .pure _

include hf in
/-- `download` sees the files of its task. -/
theorem inStep_download : InStep (Twins t) (download env) (download env) := by
  refine .tryCatch ((inStep_transfer hf.smooth).bind fun r => ?_) fun e => inStep_failWith hf.smooth e
  cases r with
  | transferred => exact inStep_mergeAndComplete hf
  | failed => exact .pure _

include hf in
theorem inStep_finalize : InStep (Twins t) (finalizePreparedTask env) (finalizePreparedTask env) := by
  unfold finalizePreparedTask
  refine .get_bind fun s s' h => ?_
  rw [h.task]
  split
  · exact inStep_persistTask hf.smooth
  · split
    · exact inStep_setFailure hf.smooth _ _
    · exact inStep_mergeAndComplete hf

end Commits


theorem inStep_onTask {m m' : EngineM Unit} (hm : InStep (Twins t) m m') (htarget : u.targetPath = t.targetPath)
    (hdir : u.tempDir = t.tempDir) : InStep (SameFiles t) (onTask u m) (onTask u m') := by
  intro w w' hw
  obtain ⟨hout, hrel⟩ := hm { world := w, task := u } { world := w', task := u } ⟨rfl, htarget, hdir, hw⟩
  unfold onTask
  dsimp only
  rcases hrun : m.run { world := w, task := u } with ⟨_ | e | _, s⟩ <;>
    rcases hrun' : m'.run { world := w', task := u } with ⟨_ | e' | _, s'⟩ <;>
      rw [hrun, hrun'] at hout hrel <;> cases hout
  · exact ⟨congrArg Outcome.ok hrel.task, hrel.files⟩
  · exact ⟨rfl, hrel.files⟩
  · exact ⟨rfl, hrel.files⟩

/-- What the queue does with a task after the scheduler. -/
theorem inStep_finishTask {envs : TaskId → Env} (hf : (envs u.id).Faultless) (htarget : u.targetPath = t.targetPath)
    (hdir : u.tempDir = t.tempDir) : InStep (SameFiles t) (finishTask envs u) (finishTask envs u) := by
  unfold finishTask
  split
  · exact inStep_onTask (inStep_download hf) htarget hdir
  · split
    · exact inStep_onTask (inStep_finalize hf) htarget hdir
    · exact .pure _

end Cget
