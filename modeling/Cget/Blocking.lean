import Cget.MetadataGuard
import Cget.Operations
import Cget.Sessions
/-!
# Statuses that stay

Completed, MetadataMismatch and PendingRecovery are left by removal only, Paused by an
explicit download or removal. Repair changes neither, `runQueuedTasks` does not select them,
pause and download refuse the former three, and an operation on another task writes only
that task's files.
-/

namespace Cget

open Prog

variable {env : Env} {t t' : DownloadTask} {w w' : World} {id : TaskId} {F : TaskFiles} {st : TaskStatus}

/-- The version in the file of a task, or in its backup while the file is not there. -/
def TaskFiles.persisted (f : TaskFiles) : Option DownloadTask :=
  match f.main.or f.bak with
  | some (.written t) => some t
  | _ => none

/-- The version has this status, and its text passes the loader: no chunk counts more than
its size, and the size is one a double holds. -/
structure DownloadTask.HeldAs (st : TaskStatus) (t : DownloadTask) : Prop where
  status : t.status = st
  fits : t.Fits
  size : t.fileSize ≤ 2 ^ 53

/-- Repair leaves the status alone, and the queue does not select it. -/
def Resting (st : TaskStatus) : Prop := unfinishedStatus st = false ∧ runnableStatus st = false

def blockingStatus (st : TaskStatus) : Bool := st = .completed || st = .metadataMismatch || st = .pendingRecovery

theorem resting_blocking (h : blockingStatus st) : Resting st := by
  cases st <;> first | exact ⟨rfl, rfl⟩ | cases h

theorem refused_blocking (h : blockingStatus st) : unpausable st ∧ (st = .completed ∨ refusedStatus st) := by
  cases st <;> first | exact ⟨rfl, by decide⟩ | cases h

/-! ## Operations on other tasks -/

/-- A session on another task does not touch a task's files. -/
theorem other_rule (id : TaskId) (F : TaskFiles) : JobRule (fun w => w.disk.tasks id = F) (fun t => t.id ≠ id) where
  origin t t' ht h := by rw [ht.1]; exact h
  tick _ _ h := h
  parts _ _ h := h
  logged _ _ _ h := h
  saved w t _ ht h := (files_saveTask ht).trans h
  out w w' t hw _ h := by rw [hw.tasks]; exact h

/-- A way to read the files of a task that finds the version saved last. -/
def FindsSaved (v : TaskFiles → Option DownloadTask) : Prop :=
  ∀ (f : TaskFiles) (t : DownloadTask), t.Fits → v (f.commit (.written t)) = some t

theorem load_findsSaved : FindsSaved TaskFiles.load := fun f t h => by
  simp [TaskFiles.load, TaskFiles.commit, taskFromJson_written h]

theorem persisted_findsSaved : FindsSaved TaskFiles.persisted := fun _ _ _ => rfl

/-- The version of the task that `v` finds is as `B` says. -/
def StoredAs (v : TaskFiles → Option DownloadTask) (id : TaskId) (B : DownloadTask → Prop) (w : World) : Prop :=
  ∃ t, v (w.disk.tasks id) = some t ∧ B t

/-- The task is persisted with this status, and the store is in order. -/
structure Rests (id : TaskId) (st : TaskStatus) (w : World) : Prop where
  filed : Filed (fun _ => True) w
  held : StoredAs TaskFiles.persisted id (·.HeldAs st) w

variable {v : TaskFiles → Option DownloadTask} {B : DownloadTask → Prop}

theorem storedAs_files (h : StoredAs v id B w) (hsame : w'.disk.tasks id = w.disk.tasks id) : StoredAs v id B w' := by
  rw [StoredAs, hsame]
  exact h

/-- What leaves the files of the task alone leaves its version alone. -/
theorem storedAs_kept {α : Type} {m : Prog World Exn α} (hw : StoredAs v id B w)
    (h : wp m (fun _ w' => w'.disk.tasks id = w.disk.tasks id) (fun _ w' => w'.disk.tasks id = w.disk.tasks id)
      (fun w' => w'.disk.tasks id = w.disk.tasks id) w) :
    wp m (fun _ => StoredAs v id B) (fun _ => StoredAs v id B) (StoredAs v id B) w :=
  wp_mono h (fun _ _ h => storedAs_files hw h) (fun _ _ h => storedAs_files hw h) (fun _ h => storedAs_files hw h)

/-- A version that passes the loader is what the task loads as. -/
theorem persisted_loads {f : TaskFiles} (h : f.persisted = some t) (hfits : t.Fits) : f.load = some t := by
  unfold TaskFiles.persisted at h
  unfold TaskFiles.load
  rcases f with ⟨main, bak, tmp⟩
  cases main with
  | some x =>
    cases x with
    | written u =>
      cases h
      simp [taskFromJson_written hfits]
    | torn => cases h
  | none =>
    cases bak with
    | none => cases h
    | some x =>
      cases x with
      | written u =>
        cases h
        simp [taskFromJson_written hfits]
      | torn => cases h

/-- The task loads as the version it rests in. -/
theorem Rests.load (h : Rests id st w) : ∃ t, w.disk.loadTask id = some t ∧ t.HeldAs st := by
  obtain ⟨t, ht, hheld⟩ := h.held
  exact ⟨t, persisted_loads ht hheld.fits, hheld⟩

theorem Rests.loads (h : Rests id st w) (hload : w.disk.loadTask id = some t) : t.HeldAs st := by
  obtain ⟨u, hu, hheld⟩ := h.load
  obtain rfl := Option.some.inj (hu.symm.trans hload)
  exact hheld

/-- What is listed under the id of the task is the task. -/
theorem Rests.listed (h : Rests id st w) {scan : List TaskId} (ht : t ∈ w.disk.loadAllTasks env scan)
    (hid : t.id = id) :
    t.HeldAs st := by
  obtain ⟨id₁, -, -, hload | ⟨hnone, rfl⟩⟩ := mem_loadAllTasks ht
  · obtain rfl : id = id₁ := hid.symm.trans (h.filed.job hload).1
    exact h.loads hload
  · obtain rfl : id₁ = id := hid
    obtain ⟨u, hu, -⟩ := h.load
    rw [hu] at hnone
    cases hnone

/-! ## Recovery and the queue -/

theorem files_saved : (w.saveTask t).disk.tasks t.id = (w.disk.tasks t.id).commit (.written t) := by
  simp [World.saveTask]

/-- A save of another task, or of this one as a version of `B`. -/
theorem storedAs_saveTask (hv : FindsSaved v) (h : t.id = id → B t ∧ t.Fits) :
    Keeps (StoredAs v id B) (saveTask env t) := by
  intro w hw
  refine wp_saveTask (fun _ => ?_) (fun _ _ => hw) (fun _ _ => hw)
  by_cases hid : t.id = id
  · subst hid
    exact ⟨t, by rw [files_saved]; exact hv _ t (h rfl).2, (h rfl).1⟩
  · exact storedAs_files hw (files_saveTask hid)

theorem files_noted (hw : Trimmed w w') : (w'.noted t t').disk.tasks = w.disk.tasks := by
  rw [noted_disk, hw.tasks]

/-- Repair makes a version of `B` of the task, as often as it is listed. -/
def RepairsInto (id : TaskId) (B : DownloadTask → Prop) (ts : List DownloadTask) : Prop :=
  ∀ t ∈ ts, t.id = id → (∀ sizes d t', Repaired t sizes d t' → B t') ∧ t.Fits

theorem Repaired.into {sizes : List Nat} {d : Disk} (hrep : Repaired t sizes d t')
    (h : t.id = id → (∀ sizes d t', Repaired t sizes d t' → B t') ∧ t.Fits) : t'.id = id → B t' ∧ t'.Fits := by
  intro hid
  obtain ⟨hB, hfits⟩ := h (hrep.same.1.symm.trans hid)
  exact ⟨hB _ _ _ hrep, repaired_fits hrep hfits⟩

theorem recoverLoop_storedAs (hv : FindsSaved v) : ∀ ts : List DownloadTask, RepairsInto id B ts →
    Keeps (StoredAs v id B) (recoverLoop env ts)
  | [], _ => KeepsOr.pure _
  | t :: ts, hts => by
    have htail : Keeps (StoredAs v id B) (recoverLoop env ts) :=
      recoverLoop_storedAs hv ts fun u hu => hts u (List.mem_cons_of_mem _ hu)
    unfold recoverLoop
    split
    · exact htail.bind fun _ => KeepsOr.pure _
    · intro w hw
      rw [wp_bind]
      refine wp_mono (repairFromDisk_wp t w) ?_ (fun _ _ h => storedAs_files hw (congrFun h.tasks id))
        (fun _ h => storedAs_files hw (congrFun h.tasks id))
      rintro t' _ ⟨w₁, hw₁, hrep, rfl⟩
      have hsave : Keeps (StoredAs v id B) (saveTask env t') :=
        storedAs_saveTask hv (hrep.into (hts t List.mem_cons_self))
      exact (hsave.bind fun _ => htail.bind fun _ => KeepsOr.pure _) _
        (storedAs_files hw (congrFun (files_noted hw₁) id))

/-- Repair keeps a version that rests. -/
theorem DownloadTask.HeldAs.repaired {sizes : List Nat} {d : Disk} (h : t.HeldAs st)
    (hrest : unfinishedStatus st = false) (hrep : Repaired t sizes d t') : t'.HeldAs st := by
  refine ⟨?_, repaired_fits hrep h.fits, hrep.same.2.2.2.2.1.trans_le h.size⟩
  rw [hrep.status, repairedStatus_kept (repairsStatus_resting (by rw [h.status]; exact hrest)) sizes]
  exact h.status

theorem recoverTasks_rests (hrest : Resting st) (h : Rests id st w) (scan : List TaskId) :
    wp (recoverTasks env scan) (fun _ => Rests id st) (fun _ => Rests id st) (Rests id st) w := by
  have hfiled : Keeps (Filed fun _ => True) (recoverTasks env scan) :=
    recoverTasks_keeps (filed_rule fun _ _ _ _ => trivial) scan
  have hinto : RepairsInto id (·.HeldAs st) (w.disk.loadAllTasks env scan) := by
    intro t ht hid
    have hheld := h.listed ht hid
    exact ⟨fun _ _ _ hrep => hheld.repaired hrest.1 hrep, hheld.fits⟩
  have hheld : wp (recoverTasks env scan) (fun _ => StoredAs TaskFiles.persisted id (·.HeldAs st))
      (fun _ => StoredAs TaskFiles.persisted id (·.HeldAs st)) (StoredAs TaskFiles.persisted id (·.HeldAs st)) w := by
    unfold recoverTasks
    rw [wp_bind, wp_get]
    exact recoverLoop_storedAs persisted_findsSaved _ hinto w h.held
  exact wp_mono (wp_and (hfiled w h.filed) hheld) (fun _ _ h => ⟨h.1, h.2⟩) (fun _ _ h => ⟨h.1, h.2⟩)
    fun _ h => ⟨h.1, h.2⟩

theorem runQueuedTasks_rests (hrest : Resting st) (h : Rests id st w) (r : QueueRun) :
    wp (runQueuedTasks r) (fun _ => StoredAs TaskFiles.persisted id (·.HeldAs st))
      (fun _ => StoredAs TaskFiles.persisted id (·.HeldAs st))
      (StoredAs TaskFiles.persisted id (·.HeldAs st)) w := by
  unfold runQueuedTasks
  rw [wp_bind]
  refine wp_mono (recoverTasks_rests hrest h r.scan) (fun _ w₁ h₁ => ?_) (fun _ _ h => h.held) (fun _ h => h.held)
  rw [wp_bind, wp_get]
  -- the task is not among those that run
  have hothers : AllJobs (fun t => t.id ≠ id)
      ((w₁.disk.loadAllTasks r.recover r.scanAgain).filter (fun t => runnableStatus t.status)) := by
    intro t ht
    obtain ⟨ht, hrun⟩ := List.mem_filter.1 ht
    refine ⟨((filed_rule fun _ _ _ _ => trivial).loadsAll h₁.filed ht ?_).1, fun hid => ?_⟩
    · rintro heq
      rw [heq] at hrun
      cases hrun
    · rw [(h₁.listed ht hid).status, hrest.2] at hrun
      cases hrun
  refine storedAs_kept h₁.held ?_
  exact ((KeepsOr.ofExcept _).bind fun _ => (runRunnable_keeps (other_rule id _) hothers).bind fun _ =>
    KeepsOr.pure _) w₁ rfl

/-! ## Refusals -/

theorem loadTask_run (h : w.disk.loadTask id = some t) : (loadTask id).run w = (.ok t, w) := by
  have hget : (get : Prog World Exn World).run w = (.ok w, w) := rfl
  rw [loadTask, run_bind_ok hget, h]
  rfl

/-- A refused call changes nothing at all. -/
theorem pauseTask_refused (hload : w.disk.loadTask id = some t) (hst : unpausable t.status) :
    (pauseTask env id).run w =
      (.thrown (.cget .invalidStateTransitionError (text "cannot pause task in state " ++ t.status.toText)), w) := by
  rw [pauseTask, run_bind_ok (loadTask_run hload), if_pos hst]
  rfl

theorem onTask_world (m : EngineM Unit) : ((onTask t m).run w).2 = (m.run { world := w, task := t }).2.world := by
  rcases h : m.run { world := w, task := t } with ⟨_ | _ | _, s'⟩ <;> simp [onTask, h]

theorem downloadStored_refused (hload : w.disk.loadTask id = some t)
    (hst : t.status = .completed ∨ refusedStatus t.status) :
    ((downloadStored env id).run w).2 = w := by
  have hget : (get : EngineM Session).run { world := w, task := t } =
    (.ok { world := w, task := t }, { world := w, task := t }) := rfl
  rw [downloadStored, run_bind_ok (loadTask_run hload), onTask_world, downloadTask, run_bind_ok hget]
  by_cases hdone : t.status = .completed
  · rw [if_pos hdone]
    rfl
  · rw [if_neg hdone, if_pos (hst.resolve_left hdone)]
    rfl

/-! ## Single operations -/

/-- What leaves a blocking status: removal, and a new task under the same id. -/
def Operation.Spares (id : TaskId) : Operation → Prop
  | .create _ r => r.id ≠ id
  | .remove _ id' => id' ≠ id
  | _ => True

/-- Nor is the task downloaded. -/
def Operation.SparesPaused (id : TaskId) : Operation → Prop
  | .create _ r => r.id ≠ id
  | .remove _ id' => id' ≠ id
  | .download _ id' => id' ≠ id
  | _ => True

theorem Rests.other (h : Rests id st w) {id' : TaskId} (hid : id' ≠ id) :
    ∀ t, w.disk.loadTask id' = some t → t.Laid ∧ t.id ≠ id := by
  intro t ht
  obtain ⟨htid, hl, -⟩ := h.filed.job ht
  exact ⟨hl, by rw [htid]; exact hid⟩

theorem downloadStored_rests (h : Rests id st w) {id' : TaskId} (hok : id' = id → st = .completed ∨ refusedStatus st) :
    StoredAs TaskFiles.persisted id (·.HeldAs st) ((downloadStored env id').run w).2 := by
  by_cases hid : id' = id
  · subst hid
    obtain ⟨t, ht, hheld⟩ := h.load
    rw [downloadStored_refused ht (by rw [hheld.status]; exact hok rfl)]
    exact h.held
  · exact wp_const.1 (storedAs_kept h.held (downloadStored_keeps (other_rule id _) (h.other hid) rfl))

theorem pausedTask_held (h : t.HeldAs st) : (pausedTask env t).HeldAs .paused := by
  refine ⟨rfl, fun c hc => ?_, h.size⟩
  obtain ⟨d, hd, rfl⟩ := List.mem_map.1 hc
  split <;> exact h.fits d hd

theorem pauseTask_rests (h : Rests id st w) {id' : TaskId} (hok : id' = id → unpausable st ∨ st = .paused) :
    StoredAs TaskFiles.persisted id (·.HeldAs st) ((pauseTask env id').run w).2 := by
  by_cases hid : id' = id
  · subst hid
    obtain ⟨t, ht, hheld⟩ := h.load
    by_cases hrefused : unpausable t.status
    · rw [pauseTask_refused ht hrefused]
      exact h.held
    · obtain rfl : st = .paused := (hok rfl).resolve_left (by rw [← hheld.status]; exact hrefused)
      rw [pauseTask, run_bind_ok (loadTask_run ht), if_neg hrefused]
      have hpaused : (pausedTask env t).HeldAs .paused := pausedTask_held hheld
      have hsave : Keeps (StoredAs TaskFiles.persisted id' (·.HeldAs .paused)) (saveTask env (pausedTask env t)) :=
        storedAs_saveTask persisted_findsSaved fun _ => ⟨hpaused, hpaused.fits⟩
      exact hsave.run (w.record (.assigned id' .paused)) h.held
  · exact wp_const.1 (storedAs_kept h.held (pauseTask_keeps (other_rule id _) (h.other hid) rfl))

theorem removeTask_rests (h : Rests id st w) {id' : TaskId} (hid : id' ≠ id) :
    StoredAs TaskFiles.persisted id (·.HeldAs st) ((removeTask env id').run w).2 := by
  refine wp_const.1 (storedAs_kept h.held (removeTask_keeps (other_rule id _) (h.other hid) (fun w' g _ hw' => ?_) rfl))
  rw [← hw']
  exact Function.update_of_ne (Ne.symm hid) _ _

/-! ## Runs -/

/-- The operation leaves the task in this status. -/
theorem Rests.step (h : Rests id st w) (hrest : Resting st) {op : Operation} (hspares : op.Spares id)
    (hpause : ∀ env, op = .pause env id → unpausable st ∨ st = .paused)
    (hdownload : ∀ env, op = .download env id → st = .completed ∨ refusedStatus st) : Rests id st (op.step w) := by
  refine ⟨(filed_rule fun _ _ _ _ => trivial).step (by cases op <;> trivial) h.filed, ?_⟩
  cases op with
  | create env r => exact wp_const.1 (storedAs_kept h.held (createTask_keeps (other_rule id _) hspares w rfl))
  | download env id' => exact downloadStored_rests h fun hid => hdownload env (by rw [hid])
  | pause env id' => exact pauseTask_rests h fun hid => hpause env (by rw [hid])
  | remove env id' => exact removeTask_rests h hspares
  | recover env scan => exact (wp_const.1 (recoverTasks_rests hrest h scan)).held
  | queue r => exact wp_const.1 (runQueuedTasks_rests hrest h r)

theorem Rests.run {ok : Operation → Prop} (hok : ∀ op w, ok op → Rests id st w → Rests id st (op.step w))
    {ops : List Operation} (h : Rests id st w) (hops : ∀ op ∈ ops, ok op) : Rests id st (runOperations w ops) :=
  GuardedRun.inv (fun w op h hop => hok op w hop h) h (GuardedRun.of_all hops)

/-- After any run, if the version in a task's file passes the loader: a task in a blocking
status stays persisted so until it is removed, a paused one until it is downloaded or
removed, and refused calls of `pauseTask` and `downloadTask` change nothing. -/
theorem blocking_statuses_stay (parts out : Path → Option Bytes) (before : List Operation) (id : TaskId)
    (st : TaskStatus)
    (hheld : StoredAs TaskFiles.persisted id (·.HeldAs st) (runOperations (.fresh parts out) before)) :
    (blockingStatus st → ∀ ops : List Operation, (∀ op ∈ ops, op.Spares id) →
        StoredAs TaskFiles.persisted id (·.HeldAs st) (runOperations (runOperations (.fresh parts out) before) ops)) ∧
      (st = .paused → ∀ ops : List Operation, (∀ op ∈ ops, op.SparesPaused id) →
        StoredAs TaskFiles.persisted id (·.HeldAs .paused)
          (runOperations (runOperations (.fresh parts out) before) ops)) ∧
      (unpausable st → ∀ env, ((pauseTask env id).run (runOperations (.fresh parts out) before)).2 =
        runOperations (.fresh parts out) before) ∧
      (st = .completed ∨ refusedStatus st →
        ∀ env, ((downloadStored env id).run (runOperations (.fresh parts out) before)).2 =
          runOperations (.fresh parts out) before) := by
  have hrests : Rests id st (runOperations (.fresh parts out) before) := ⟨run_filed parts out before, hheld⟩
  obtain ⟨t, hload, ht⟩ := hrests.load
  refine ⟨fun hst ops hops => ?_, fun hst ops hops => ?_, fun hst env => ?_, fun hst env => ?_⟩
  · have hrefused := refused_blocking hst
    refine (Rests.run (fun op w hop h => ?_) hrests hops).held
    exact h.step (resting_blocking hst) hop (fun _ _ => .inl hrefused.1) fun _ _ => hrefused.2
  · subst hst
    refine (Rests.run (fun op w hop h => ?_) hrests hops).held
    refine h.step ⟨rfl, rfl⟩ ?_ (fun _ _ => .inr rfl) fun env heq => ?_
    · cases op <;> first | exact hop | trivial
    · subst heq
      exact absurd rfl hop
  · rw [pauseTask_refused hload (by rw [ht.status]; exact hst)]
  · exact downloadStored_refused hload (by rw [ht.status]; exact hst)

/-- A server with a file of one byte. -/
def oneByteEnv : Env where
  protocol :=
    { fetchMetadata := fun _ => .ok { fileSize := 1 }
      downloadRange := fun _ _ _ _ => {}
      downloadSingle := fun _ => { blocks := [{ data := [7] }] } }

def oneByteRequest : CreateRequest where
  id := text "a"
  url := text "http://a/b"
  fileName := text "b"
  targetPath := text "/out/b"

def downloadedRun : List Operation := [.create oneByteEnv oneByteRequest, .download oneByteEnv (text "a")]

theorem blocking_statuses_stay_downloaded :
    StoredAs TaskFiles.persisted (text "a") (·.HeldAs .completed)
      (runOperations (runOperations (.fresh (fun _ => none) fun _ => none) downloadedRun)
        [.pause oneByteEnv (text "a"), .recover oneByteEnv [text "a"], .download silentEnv (text "a")]) := by
  refine (blocking_statuses_stay (fun _ => none) (fun _ => none) downloadedRun (text "a") .completed ?_).1 rfl _
    (by simp [Operation.Spares])
  exact ⟨_, rfl, by decide +kernel, by unfold DownloadTask.Fits Chunk.Fits; decide +kernel, by decide +kernel⟩

/-- A server that announces two bytes, sends three and ends with the answer that no such range is there. -/
def unsatisfiableEnv : Env where
  protocol :=
    { fetchMetadata := fun _ => .ok { fileSize := 2 }
      downloadRange := fun _ _ _ _ => {}
      downloadSingle := fun _ =>
        { blocks := [{ data := [1, 2, 3] }]
          result := .error (.cget .metadataMismatchError (text "range not satisfiable")) } }

/-- MetadataMismatch is persisted in a text that the loader rejects; the backup loads
instead, and recovery finds all of the file in its part. -/
theorem excess_bytes_lose_mismatch :
    ¬ ∀ (parts out : Path → Option Bytes) (before : List Operation) (id : TaskId) (st : TaskStatus),
      StoredAs TaskFiles.persisted id (·.status = st) (runOperations (.fresh parts out) before) → blockingStatus st →
      ∀ ops : List Operation, (∀ op ∈ ops, op.Spares id) →
        StoredAs TaskFiles.persisted id (·.status = st)
          (runOperations (runOperations (.fresh parts out) before) ops) := by
  intro h
  obtain ⟨t, ht, hst⟩ := h (fun _ => none) (fun _ => none)
    [.create unsatisfiableEnv oneByteRequest, .download unsatisfiableEnv (text "a")] (text "a") .metadataMismatch
    ⟨_, rfl, by decide +kernel⟩ rfl [.recover unsatisfiableEnv [text "a"]] (by simp [Operation.Spares])
  have hcompleted : ((runOperations (runOperations (.fresh (fun _ => none) fun _ => none)
      [.create unsatisfiableEnv oneByteRequest, .download unsatisfiableEnv (text "a")])
      [.recover unsatisfiableEnv [text "a"]]).disk.tasks (text "a")).persisted.map (·.status) = some .completed := by
        decide +kernel
  rw [ht, Option.map_some, hst] at hcompleted
  cases hcompleted

end Cget
