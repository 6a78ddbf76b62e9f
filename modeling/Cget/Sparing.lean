import Cget.Layout
import Cget.QueueFrame
/-!
# What a task's neighbours leave alone

A session writes the files of its own task, its own target with the temp file beside it, and
part files under its own temp directory. A task that shares none of these is spared by it:
no byte of its target and its parts changes, nor its task file, and nothing is requested in
its name.
-/

namespace Cget

open Prog SchedState

variable {env : Env} {envs : TaskId → Env} {t u u' : DownloadTask} {w w' w'' : World} {s : Session}
  {c : Chunk} {p : Path} {id : TaskId} {log : List Event} {info : RemoteFileInfo}

/-! ## The files of a task -/

/-- `p` is the part file of a chunk of `t`. -/
def DownloadTask.HasPart (t : DownloadTask) (p : Path) : Prop := ∃ c ∈ t.chunks, chunkPath t c = .ok p

def Event.requests (id : TaskId) : Event → Bool
  | .requested id' _ => id' = id
  | _ => false

/-- What has been requested for the task. -/
def requestsOf (id : TaskId) (log : List Event) : List Event := log.filter (·.requests id)

/-- Between `w` and `w'` nothing that belongs to `t` has changed. -/
structure Spared (t : DownloadTask) (w w' : World) : Prop where
  files : w'.disk.tasks t.id = w.disk.tasks t.id
  target : w'.disk.out t.targetPath = w.disk.out t.targetPath
  parts : ∀ p, t.HasPart p → w'.disk.parts p = w.disk.parts p
  requests : requestsOf t.id w'.log = requestsOf t.id w.log

/-- The task `u` has no file in common with `t`, and will not get one. -/
structure DownloadTask.Avoids (u t : DownloadTask) : Prop where
  id : u.id ≠ t.id
  target : ¬ OneFile u.targetPath t.targetPath
  temp : ¬ OneFile (tempTarget u.targetPath) t.targetPath
  chunks : ∀ c ∈ u.chunks, ¬ t.HasPart (joinPath u.tempDir c.tempPath)
  single : ¬ t.HasPart (joinPath u.tempDir singlePart)
  planned : ∀ i, ¬ t.HasPart (joinPath u.tempDir (ChunkPlanner.chunkName i))

/-- `u'` is `u`, with its chunks where they were or where the engine puts new ones. -/
structure DownloadTask.Moves (u u' : DownloadTask) : Prop where
  id : u'.id = u.id
  target : u'.targetPath = u.targetPath
  dir : u'.tempDir = u.tempDir
  places : ∀ c' ∈ u'.chunks, (∃ c ∈ u.chunks, c'.tempPath = c.tempPath) ∨ c'.tempPath = singlePart ∨
    ∃ i, c'.tempPath = ChunkPlanner.chunkName i

theorem Spared.refl : Spared t w w := ⟨rfl, rfl, fun _ _ => rfl, rfl⟩

theorem Spared.ticked (h : Spared t w w') {n : Nat} : Spared t w { w' with tick := n } :=
  ⟨h.files, h.target, h.parts, h.requests⟩

theorem requestsOf_append (es : List Event) (h : ∀ e ∈ es, e.requests id = false) :
    requestsOf id (es ++ log) = requestsOf id log := by
  have hnone : es.filter (·.requests id) = [] := List.filter_eq_nil_iff.2 fun e he => by simp [h e he]
  rw [requestsOf, List.filter_append, hnone, List.nil_append, requestsOf]

/-- An event that is no request for the task. -/
theorem Spared.record (h : Spared t w w') {e : Event} (he : e.requests t.id = false) : Spared t w (w'.record e) :=
  ⟨h.files, h.target, h.parts, (requestsOf_append [e] (List.forall_mem_singleton.2 he)).trans h.requests⟩

theorem Spared.setPart (h : Spared t w w') (hp : ¬ t.HasPart p) (b : Option Bytes) :
    Spared t w { w' with disk := w'.disk.setPart p b } := by
  refine ⟨h.files, h.target, fun q hq => ?_, h.requests⟩
  have hne : q ≠ p := fun heq => hp (heq ▸ hq)
  rw [Disk.setPart_parts, Function.update_of_ne hne, h.parts q hq]

theorem Spared.save (h : Spared t w w') (hid : u.id ≠ t.id) : Spared t w (w'.saveTask u) :=
  ⟨(files_saveTask hid).trans h.files, h.target, h.parts,
    (requestsOf_append [.saved u] (List.forall_mem_singleton.2 rfl)).trans h.requests⟩

/-- A merge of a task that goes elsewhere. -/
theorem Spared.merged (h : Spared t w w') (hu : u.Avoids t) (hout : OnlyTarget u.targetPath w' w'') :
    Spared t w w'' := by
  obtain ⟨htasks, hparts, hlog, hother, -⟩ := hout
  refine ⟨?_, ?_, fun p hp => ?_, ?_⟩
  · rw [htasks, h.files]
  · rw [hother _ (fun h => hu.target h.symm) fun h => hu.temp h.symm, h.target]
  · rw [hparts, h.parts p hp]
  · rw [hlog, h.requests]

theorem DownloadTask.Moves.of_places (hid : u'.id = u.id) (htarget : u'.targetPath = u.targetPath)
    (hdir : u'.tempDir = u.tempDir)
    (hplaces : u'.chunks.map (·.tempPath) = u.chunks.map (·.tempPath)) : u.Moves u' := by
  refine ⟨hid, htarget, hdir, fun c' hc' => ?_⟩
  have hmem : c'.tempPath ∈ u.chunks.map (·.tempPath) := hplaces ▸ List.mem_map_of_mem hc'
  obtain ⟨c, hc, heq⟩ := List.mem_map.1 hmem
  exact .inl ⟨c, hc, heq.symm⟩

theorem DownloadTask.Avoids.moves (h : u.Avoids t) (hu : u.Moves u') : u'.Avoids t := by
  refine ⟨hu.id.symm ▸ h.id, hu.target.symm ▸ h.target, hu.target.symm ▸ h.temp, fun c' hc' => ?_,
    hu.dir.symm ▸ h.single, fun i => hu.dir.symm ▸ h.planned i⟩
  rw [hu.dir]
  rcases hu.places c' hc' with ⟨c, hc, heq⟩ | heq | ⟨i, heq⟩
  · rw [heq]
    exact h.chunks c hc
  · rw [heq]
    exact h.single
  · rw [heq]
    exact h.planned i

/-- The chunks' part files are under the temp directory. -/
theorem DownloadTask.Avoids.path (h : u.Avoids t) (hc : c ∈ u.chunks) (hpath : chunkPath u c = .ok p) :
    ¬ t.HasPart p := by
  unfold chunkPath at hpath
  split at hpath
  · cases hpath
  · cases hpath
    exact h.chunks c hc

/-! ## Sessions -/

/-- A session that spares `t`. -/
def Aside (t : DownloadTask) (w : World) : Session → Prop := Beside (Spared t w) (·.Avoids t)

theorem aside_saves : ToleratesSaves (Aside t w) where
  tick _ _ h := ⟨h.1.ticked, h.2⟩
  task _ _ h ht := ⟨h.1, h.2.moves (.of_places ht.1.1 ht.1.2.2.1 ht.1.2.2.2.1 (by rw [ht.2.1]))⟩
  status _ _ h _ := ⟨h.1.record rfl, h.2.moves (.of_places rfl rfl rfl rfl)⟩
  saved _ h := ⟨h.1.save h.2.id, h.2⟩

theorem aside_change {f : DownloadTask → DownloadTask} (hf : ∀ u : DownloadTask, u.Moves (f u)) :
    Keeps (Aside t w) (updateTask f) :=
  fun s h => ⟨h.1, h.2.moves (hf s.task)⟩

theorem aside_record (h : Aside t w s) {e : Event} (he : e.isRequest s.task.id) : Aside t w (s.record e) := by
  refine ⟨h.1.record ?_, h.2⟩
  cases e with
  | requested id' r =>
    have hid : id' ≠ t.id := fun heq => h.2.id (he.symm.trans heq)
    exact decide_eq_false hid
  | _ => rfl

theorem aside_fetchMetadata : Keeps (Aside t w) (fetchMetadata env) :=
  fun _ h => wp_fetchMetadata (fun _ _ => aside_record h rfl) fun _ _ => aside_record h rfl

/-- An operation on a part file that is not of `t`. -/
theorem aside_partOp (hp : ¬ t.HasPart p) {full : Disk → Disk} {part : Nat → Disk → Disk} {e : Exn}
    (hfull : ∀ d, ∃ b, full d = d.setPart p b) (hpart : ∀ k d, (∃ b, part k d = d.setPart p b) ∨ part k d = d) :
    Keeps (Aside t w) (onWorld (fileOp env full part e)) := by
  refine aside_saves.fileOp (fun s h => ?_) fun k s h => ?_
  · obtain ⟨b, hb⟩ := hfull s.world.disk
    rw [hb]
    exact ⟨h.1.setPart hp b, h.2⟩
  · rcases hpart k s.world.disk with ⟨b, hb⟩ | hsame
    · rw [hb]
      exact ⟨h.1.setPart hp b, h.2⟩
    · rw [hsame]
      exact h

theorem aside_apply (h : Aside t w s) (a : TaskAction) : Aside t w (a.apply env s) := by
  have hplaces : ∀ {u : DownloadTask}, u.id = s.task.id → u.targetPath = s.task.targetPath → u.tempDir =
      s.task.tempDir → u.chunks = s.task.chunks → u.Avoids t :=
    fun hid htarget hdir hchunks => h.2.moves (.of_places hid htarget hdir (by rw [hchunks]))
  cases a with
  | none => exact h
  | recompute => exact ⟨h.1, hplaces rfl rfl rfl rfl⟩
  | setDownloading => exact aside_saves.status s .downloading h rfl
  | count n => exact ⟨h.1, hplaces rfl rfl rfl rfl⟩
  | setRetrying message => exact ⟨h.1.record rfl, hplaces rfl rfl rfl rfl⟩
  | request start stop n => exact aside_record h rfl
  | persist saved =>
    cases saved with
    | true => exact ⟨h.1.save h.2.id, hplaces rfl rfl rfl rfl⟩
    | false => exact ⟨h.1, hplaces rfl rfl rfl rfl⟩

/-- A worker writes to its chunk's part file. -/
theorem aside_stepWorker (i : Nat) (l : WorkerPc) : Keeps (Aside t w) (stepWorker env i l) := by
  intro s h
  refine wp_const.2 ?_
  cases hc : s.task.chunks[i]? with
  | none => simpa only [stepWorker, hc] using h
  | some c =>
    rw [stepWorker_run hc]
    refine aside_apply ?_ _
    have hplace : (s.task.setChunk i (s.workerMove env c l).chunk).chunks.map (·.tempPath) =
        s.task.chunks.map (·.tempPath) :=
      map_set_eq hc workerMove_place.2.2.2
    refine ⟨?_, h.2.moves (.of_places rfl rfl rfl hplace)⟩
    unfold Session.moved
    dsimp only
    split
    · rename_i p hpath
      exact (h.1.setPart (h.2.path (List.mem_of_getElem? hc) hpath) _).ticked
    · exact h.1.ticked

theorem aside_receiveSingle (hp : ¬ t.HasPart p) : ∀ blocks, Keeps (Aside t w) (receiveSingle env p blocks)
  | [] => KeepsOr.pure _
  | b :: bs => by
    unfold receiveSingle
    refine (aside_partOp hp (fun _ => ⟨_, rfl⟩) fun _ _ => .inl ⟨_, rfl⟩).bind fun _ => ?_
    have hcount : ∀ u : DownloadTask, u.Moves (countSingle u b.data.length) := fun u =>
      .of_places rfl rfl rfl (countSingle_map (·.tempPath) (fun _ _ => rfl) u b.data.length)
    exact (aside_change hcount).bind fun _ => aside_saves.flushTask.bind fun _ => aside_receiveSingle hp bs

theorem single_moves (u : DownloadTask) : u.Moves { u with chunks := singleChunks info, downloaded := 0 } := by
  refine ⟨rfl, rfl, rfl, fun c hc => .inr (.inl ?_)⟩
  unfold singleChunks at hc
  dsimp only at hc
  split at hc
  · rw [List.mem_singleton.1 hc]
  · cases hc

theorem singleDone_moves (n : Nat) (u : DownloadTask) : u.Moves (singleDone u info n) := by
  unfold singleDone
  dsimp only
  cases hchunks : u.chunks with
  | nil =>
    refine ⟨rfl, rfl, rfl, fun c hc => .inr (.inl ?_)⟩
    dsimp only at hc
    split at hc
    · rw [List.mem_singleton.1 hc]
    · cases hc
  | cons d ds => exact .of_places rfl rfl rfl (by rw [hchunks]; rfl)

theorem planRange_moves (size : Nat) (u : DownloadTask) : u.Moves (planRange env size u) := by
  refine ⟨rfl, rfl, rfl, fun c hc => ?_⟩
  unfold planRange at hc
  dsimp only at hc
  split at hc
  · exact .inr (.inr ⟨c.index, (ChunkPlanner.plan_fresh _ _ _ c hc).2.2⟩)
  · exact .inl ⟨c, hc, rfl⟩

theorem markDone_moves (u : DownloadTask) : u.Moves (markDone u) :=
  .of_places rfl rfl rfl (markDone_map (·.tempPath) (fun _ _ => rfl) u)

theorem same_moves (hid : u'.id = u.id) (htarget : u'.targetPath = u.targetPath) (hdir : u'.tempDir = u.tempDir)
    (hchunks : u'.chunks = u.chunks) : u.Moves u' := .of_places hid htarget hdir (by rw [hchunks])

theorem recompute_moves (u : DownloadTask) : u.Moves (recomputeDownloaded u) := same_moves rfl rfl rfl rfl

theorem remember_moves (u : DownloadTask) : u.Moves (rememberMetadata u info) := same_moves rfl rfl rfl rfl

theorem aside_transferSingleStream : Keeps (Aside t w) (transferSingleStream env info) := by
  unfold transferSingleStream
  refine aside_saves.ensureTaskTempDir.bind fun _ s h => ?_
  rw [wp_bind, wp_get]
  have hp : ¬ t.HasPart (joinPath s.task.tempDir singlePart) := h.2.single
  have hcut : Keeps (Aside t w) (onWorld (truncateFile env (joinPath s.task.tempDir singlePart) 0)) :=
    aside_saves.truncateFile fun s hs => ⟨hs.1.setPart hp _, hs.2⟩
  refine (hcut.bind fun _ => (aside_change single_moves).bind fun _ => aside_saves.persistTask.bind fun _ => ?_) s h
  refine (aside_partOp hp (fun _ => ⟨_, rfl⟩) fun _ _ => .inr rfl).bind fun _ s' h' => ?_
  rw [wp_bind, wp_get, wp_bind, wp_modify]
  refine ((aside_receiveSingle hp _).bind fun _ => ?_) _ (aside_record h' rfl)
  split
  · exact KeepsOr.throw _
  · refine KeepsOr.get_bind fun s'' => ?_
    dsimp only
    split
    · exact KeepsOr.throw _
    · exact aside_change (singleDone_moves _)

theorem aside_transferWithRange : Keeps (Aside t w) (transferWithRange env info) := by
  unfold transferWithRange
  refine aside_saves.ensureTaskTempDir.bind fun _ => (aside_change (planRange_moves _)).bind fun _ => ?_
  refine (aside_change recompute_moves).bind fun _ => aside_saves.persistTask.bind fun _ => ?_
  refine KeepsOr.get_bind fun s => (aside_change markDone_moves).bind fun _ => ?_
  refine (runPool_keeps aside_stepWorker _).bind fun errors => ?_
  split
  · split
    · have hempty : ∀ u : DownloadTask, u.Moves { u with
          chunks := []
          downloaded := 0
          lastError := some (text "server ignored Range request; falling back to single-stream download") } :=
        fun u => ⟨rfl, rfl, rfl, fun c hc => absurd hc List.not_mem_nil⟩
      refine (aside_change hempty).bind fun _ => aside_saves.persistTask.bind fun _ => ?_
      exact aside_transferSingleStream.bind fun _ => KeepsOr.pure _
    · refine (aside_saves.setFailure ?_ _).bind fun _ => KeepsOr.pure _
      split <;> decide
  · refine KeepsOr.get_bind fun s => ?_
    split
    · exact KeepsOr.pure _
    · exact (aside_saves.setFailure (by decide) _).bind fun _ => KeepsOr.pure _

theorem aside_transfer : Keeps (Aside t w) (transfer env) := by
  unfold transfer
  refine aside_saves.beginTask.bind fun _ => aside_fetchMetadata.bind fun info => KeepsOr.get_bind fun s => ?_
  split
  · exact (aside_saves.setFailure (by decide) _).bind fun _ => KeepsOr.pure _
  · unfold transferFrom
    refine (aside_change remember_moves).bind fun _ => aside_saves.persistTask.bind fun _ => ?_
    refine KeepsOr.get_bind fun s => ?_
    split
    · exact aside_transferWithRange
    · exact aside_transferSingleStream.bind fun _ => KeepsOr.pure _

theorem aside_mergeAndComplete : Keeps (Aside t w) (mergeAndComplete env) :=
  aside_saves.mergeAndComplete (fun _ _ hout h => ⟨h.1.merged h.2 hout, h.2⟩)
    fun _ h => ⟨h.1.record rfl, h.2.moves (same_moves rfl rfl rfl rfl)⟩

theorem aside_download : Keeps (Aside t w) (download env) :=
  keeps_download aside_transfer aside_mergeAndComplete aside_saves.failWith

theorem aside_finalize : Keeps (Aside t w) (finalizePreparedTask env) :=
  keeps_finalize aside_saves.persistTask (aside_saves.setFailure (by decide)) aside_mergeAndComplete

theorem aside_prepareTask : Keeps (Aside t w) (prepareTask env) := by
  refine KeepsOr.tryCatch ?_ aside_saves.failWith
  refine aside_saves.beginTask.bind fun _ => aside_fetchMetadata.bind fun info => KeepsOr.get_bind fun s => ?_
  split
  · exact aside_saves.setFailure (by decide) _
  · unfold prepareFrom prepareChunks
    refine (aside_change remember_moves).bind fun _ => ?_
    refine KeepsOr.bind (KeepsOr.get_bind fun s => ?_) fun _ => aside_saves.persistTask
    split
    · refine aside_saves.ensureTaskTempDir.bind fun _ => (aside_change (planRange_moves _)).bind fun _ => ?_
      exact aside_change recompute_moves
    · exact KeepsOr.pure _

end Cget
