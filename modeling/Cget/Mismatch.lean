import Cget.Settlement
import Cget.Sparing
/-!
# Metadata that changed

The answer of the server is compared with what is saved before anything is written but the
task file. A task it does not match ends MetadataMismatch with all it had, alone or in a
queue: the scheduler starts nothing for that status, its sweep passes it over and
`finalizePreparedTask` only saves it. In a queue this says nothing of other tasks, which
must not share its files.
-/

namespace Cget

open Prog SchedState

variable {env : Env} {envs : TaskId → Env} {t u : DownloadTask} {w w' w'' : World} {s : Session}
  {ts : List DownloadTask} {info : RemoteFileInfo}

/-! ## A task that is left as it was -/

/-- The server answers with metadata that changed, and the task file can be written. -/
structure Env.Refuses (env : Env) (t : DownloadTask) (info : RemoteFileInfo) : Prop where
  saves : ∀ n, env.saveFault n = .ok
  answer : env.protocol.fetchMetadata t.url = .ok info
  changed : metadataChanged t info = true

/-- The task `u` is `t`, stopped with MetadataMismatch. -/
structure DownloadTask.Stopped (t u : DownloadTask) : Prop where
  status : u.status = .metadataMismatch
  origin : t.SameOrigin u
  chunks : u.chunks = t.chunks
  downloaded : u.downloaded = t.downloaded
  remoteEtag : u.remoteEtag = t.remoteEtag
  remoteLastModified : u.remoteLastModified = t.remoteLastModified
  fileSize : u.fileSize = t.fileSize
  finalUrl : u.finalUrl = t.finalUrl

/-- Target and part files are as they were, and nothing was requested. -/
structure Intact (t : DownloadTask) (w w' : World) : Prop where
  target : w'.disk.out t.targetPath = w.disk.out t.targetPath
  parts : ∀ p, t.HasPart p → w'.disk.parts p = w.disk.parts p
  requests : requestsOf t.id w'.log = requestsOf t.id w.log

/-- And the task file says MetadataMismatch. -/
structure Frozen (t : DownloadTask) (w w' : World) : Prop extends Intact t w w' where
  persisted : ∃ u, (w'.disk.tasks t.id).main = some (.written u) ∧ t.Stopped u

theorem Intact.trans (h : Intact t w w') (h' : Intact t w' w'') : Intact t w w'' :=
  ⟨h'.target.trans h.target, fun p hp => (h'.parts p hp).trans (h.parts p hp), h'.requests.trans h.requests⟩

theorem Spared.intact (h : Spared t w w') : Intact t w w' := ⟨h.target, h.parts, h.requests⟩

theorem Frozen.spared (h : Frozen t w w') (h' : Spared t w' w'') : Frozen t w w'' := by
  obtain ⟨u, hu, hstopped⟩ := h.persisted
  exact ⟨h.toIntact.trans h'.intact, u, by rw [h'.files, hu], hstopped⟩

/-! ## Its own session -/

/-- The session in which the answer has come. -/
def Session.answered (env : Env) (s : Session) : Session := (s.begun env).saved.record (.fetched s.task.id false)

/-- `finalizePreparedTask` saves it once more, if it can. -/
theorem finalize_stopped (hstopped : t.Stopped u) (h : Frozen t w w') :
    wp (finalizePreparedTask env) (fun _ s => t.Stopped s.task ∧ Frozen t w s.world) (fun _ s => Frozen t w s.world)
      (fun s => Frozen t w s.world) { world := w', task := u } := by
  have hfinished : finishedStatus u.status = true := by rw [hstopped.status]; rfl
  have hu : t.Stopped { u with updatedAt := env.now } :=
    ⟨hstopped.status, hstopped.origin, hstopped.chunks, hstopped.downloaded, hstopped.remoteEtag,
      hstopped.remoteLastModified, hstopped.fileSize, hstopped.finalUrl⟩
  have hid : u.id = t.id := hstopped.origin.1
  unfold finalizePreparedTask
  rw [wp_bind, wp_get, if_pos hfinished]
  have hticked : Frozen t w { w' with tick := w'.tick + 1 } := ⟨⟨h.target, h.parts, h.requests⟩, h.persisted⟩
  refine wp_persistTask (fun _ => ⟨hu, ⟨h.target, h.parts, h.requests⟩, _, ?_, hu⟩) (fun _ _ => hticked)
    (fun _ _ => hticked)
  rw [← hid]
  exact (keeps_saveTask _ _).main

/-! ## In a list -/

/-- A task of the list is stopped, or another one that avoids the files of `t`. -/
def DownloadTask.Placed (t u : DownloadTask) : Prop := (u.id = t.id ∧ t.Stopped u) ∨ u.Avoids t

/-- The task is stopped, and no worker works on it. -/
structure PassesOver (t : DownloadTask) (w : World) (s : SchedState WorkerPc) : Prop where
  world : Frozen t w s.world
  tasks : ∀ u ∈ s.tasks, t.Placed u
  workers : ∀ v ∈ s.workers, v.taskId ≠ t.id

theorem DownloadTask.Placed.avoids (h : t.Placed u) (hst : u.status ≠ .metadataMismatch) : u.Avoids t :=
  h.resolve_left fun hstopped => hst hstopped.2.status

theorem DownloadTask.Placed.other (h : t.Placed u) (hid : u.id ≠ t.id) : u.Avoids t :=
  h.resolve_left fun hstopped => hid hstopped.1

theorem DownloadTask.Placed.sweep (h : t.Placed u) : t.Placed (sweepTask u) := by
  unfold sweepTask
  split
  · rename_i hst
    have hu : u.Avoids t := h.avoids (by rw [hst]; decide)
    exact .inr (hu.moves (same_moves rfl rfl rfl rfl))
  · exact h

theorem PassesOver.step {cfg : SchedulerConfig} {s s' : SchedState WorkerPc} {choice : Choice} (h : PassesOver t w s)
    (heff : StepEffect (chunkExecutor envs) cfg s choice s') : PassesOver t w s' := by
  have hset : ∀ {i : Nat} {u : DownloadTask}, u.Avoids t → ∀ v ∈ s.tasks.set i u, t.Placed v := by
    intro i u hu v hv
    rcases List.mem_or_eq_of_mem_set hv with hv | rfl
    · exact h.tasks v hv
    · exact .inr hu
  cases heff with
  | idle ht hworld hworkers => exact ⟨hworld ▸ h.world, ht ▸ h.tasks, hworkers ▸ h.workers⟩
  | retire k v p hk _ _ ht hworld hworkers =>
    refine ⟨hworld ▸ h.world, ht ▸ h.tasks, fun x hx => ?_⟩
    rw [hworkers] at hx
    obtain ⟨y, hy, hid, -⟩ := mem_set_phase hk hx
    exact hid ▸ h.workers y hy
  | start i j order scheduled u c _ _ hti hpick hcj ht hworld hworkers =>
    -- the scheduler picks no task with MetadataMismatch
    have hu : u.Avoids t := (h.tasks u (List.mem_of_getElem? hti)).avoids fun hst => by
      have hschedulable := (pick_spec hpick).1
      rw [hst] at hschedulable
      cases hschedulable
    have hspared : Spared t s.world s'.world := by
      rw [hworld]
      exact Spared.refl.record rfl
    refine ⟨h.world.spared hspared, ?_, fun x hx => ?_⟩
    · rw [ht]
      exact hset (hu.moves (.of_places rfl rfl rfl (map_set_eq hcj rfl)))
    · rw [hworkers] at hx
      rcases List.mem_append.1 hx with hx | hx
      · exact h.workers x hx
      · rw [List.mem_singleton.1 hx]
        exact hu.id
  | execute k v l i u _ hk _ hti hid =>
    obtain ⟨ht, hworld, hworkers⟩ := execute_spec (chunkExecutor envs) (l := l) (i := i) (t := u) hk
    have hu : u.Avoids t := (h.tasks u (List.mem_of_getElem? hti)).other
      (hid.symm ▸ h.workers v (List.mem_of_getElem? hk))
    have hkeeps : Keeps (Aside t s.world) ((chunkExecutor envs).step v.taskId v.chunk l) :=
      chunkExecutor_keeps aside_stepWorker v.chunk l
    obtain ⟨hspared, hend⟩ := hkeeps.run { world := s.world, task := u } ⟨.refl, hu⟩
    refine ⟨h.world.spared (hworld ▸ hspared), ?_, fun x hx => ?_⟩
    · rw [ht]
      exact hset hend
    · obtain ⟨y, hy, hyid, -⟩ := hworkers x hx
      exact hyid ▸ h.workers y hy
  | record k v i u hk _ hti hid ht hworld hworkers =>
    have hu : u.Avoids t := (h.tasks u (List.mem_of_getElem? hti)).other
      (hid.symm ▸ h.workers v (List.mem_of_getElem? hk))
    have hspared : Spared t s.world s'.world := by
      rw [hworld]
      exact Spared.refl.record rfl
    have hplaces : (failedTask u v.chunk).chunks.map (·.tempPath) = u.chunks.map (·.tempPath) :=
      failedTask_map (·.tempPath) (fun _ => rfl) u v.chunk
    refine ⟨h.world.spared hspared, ?_, fun x hx => ?_⟩
    · rw [ht]
      exact hset (hu.moves (.of_places rfl rfl rfl hplaces))
    · rw [hworkers] at hx
      obtain ⟨y, hy, hyid, -⟩ := mem_set_phase hk hx
      exact hyid ▸ h.workers y hy
  | sweep _ _ ht hworld hworkers =>
    obtain ⟨es, hes, hassigned⟩ := sweep_log (s := s)
    have hspared : Spared t s.world s'.world := by
      rw [hworld, hes]
      refine ⟨rfl, rfl, fun _ _ => rfl, requestsOf_append _ fun e he => ?_⟩
      obtain ⟨id, rfl⟩ := hassigned e he
      rfl
    refine ⟨h.world.spared hspared, fun u hu => ?_, hworkers ▸ h.workers⟩
    rw [ht] at hu
    rcases sweep_tasks (s := s) with hsame | ⟨-, hswept⟩
    · exact h.tasks u (hsame ▸ hu)
    · rw [hswept] at hu
      obtain ⟨v, hv, rfl⟩ := List.mem_map.1 hu
      exact (h.tasks v hv).sweep

/-! ## The last loop -/

/-- `finish` for each task of the list. -/
def finishEach (finish : DownloadTask → Prog World Exn DownloadTask) :
    List DownloadTask → Prog World Exn (List DownloadTask)
  | [] => pure []
  | t :: ts => do
    let t' ← finish t
    let rest ← finishEach finish ts
    pure (t' :: rest)

theorem finishAll_eq (envs : TaskId → Env) (ts : List DownloadTask) :
    finishAll envs ts = finishEach (finishTask envs) ts := by
  induction ts with
  | nil => rfl
  | cons t ts ih => rw [finishAll, finishEach, ih]

/-- `finish` spares `t` when it finishes another task, and leaves it stopped when its turn comes. -/
structure FinishesAside (finish : DownloadTask → Prog World Exn DownloadTask) (t : DownloadTask) : Prop where
  other : ∀ u w, u.Avoids t →
    wp (finish u) (fun u' w' => Spared t w w' ∧ u'.Avoids t) (fun _ => Spared t w) (Spared t w) w
  own : ∀ u w w', t.Stopped u → Frozen t w w' →
    wp (finish u) (fun u' w'' => t.Stopped u' ∧ Frozen t w w'') (fun _ => Frozen t w) (Frozen t w) w'

theorem finalize_aside (envs : TaskId → Env) (t : DownloadTask) :
    FinishesAside (fun t => onTask t (finalizePreparedTask (envs t.id))) t where
  other u w hu := by
    have hsession : Aside t w { world := w, task := u } := ⟨.refl, hu⟩
    exact wp_onTask.2 (wp_mono (aside_finalize _ hsession) (fun _ _ h => h) (fun _ _ h => h.1) (fun _ h => h.1))
  own u w w' hu hw := wp_onTask.2 (finalize_stopped hu hw)

theorem finishTask_aside (envs : TaskId → Env) (t : DownloadTask) : FinishesAside (finishTask envs) t where
  other u w hu := by
    have hsession : Aside t w { world := w, task := u } := ⟨.refl, hu⟩
    unfold finishTask
    split
    · exact wp_onTask.2 (wp_mono (aside_download _ hsession) (fun _ _ h => h) (fun _ _ h => h.1) (fun _ h => h.1))
    · split
      · exact (finalize_aside envs t).other u w hu
      · exact ⟨.refl, hu⟩
  own u w w' hu hw := by
    have hrefused : ¬ (u.chunks = [] ∧ u.status ≠ .failed ∧ u.status ≠ .metadataMismatch) := fun h => h.2.2 hu.status
    unfold finishTask
    rw [if_neg hrefused]
    split
    · exact (finalize_aside envs t).own u w w' hu hw
    · exact ⟨hu, hw⟩

/-- A task that is complete but for its merge. -/
def mergeable (id : TaskId) (etag : Text) : DownloadTask where
  id := id
  targetPath := text "/home/user/file"
  tempDir := id
  status := .queued
  fileSize := 2
  remoteEtag := some etag
  chunks := [{ stop := 1, downloaded := 2, status := .completed, tempPath := text "chunk_0.part" }]

end Cget
