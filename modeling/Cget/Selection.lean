import Cget.Blocking
/-!
# What runQueuedTasks selects

It recovers all tasks, loads them again and keeps those that are Pending, Queued, Retrying
or Failed. Recovery has by then made every task that is Pending or Queued with chunks, or
Retrying, into a Paused, Completed or PendingRecovery one, so of what was waiting in the
store only Failed tasks and those without chunks are selected.
-/

namespace Cget

open Prog

variable {env : Env} {t t' u : DownloadTask} {w w' : World} {id : TaskId} {ts : List DownloadTask} {r : QueueRun}

/-- The runnable list, if the recovery returns. -/
def selected (r : QueueRun) (w : World) : Option (List DownloadTask) :=
  match (recoverTasks r.recover r.scan).run w with
  | (.ok _, w₁) => some ((w₁.disk.loadAllTasks r.recover r.scanAgain).filter (fun t => runnableStatus t.status))
  | _ => none

/-- A directory scan meets every task file. -/
def Disk.ScannedBy (d : Disk) (scan : List TaskId) : Prop := ∀ id, (d.tasks id).main.isSome → id ∈ scan

/-- The ids of the created tasks are all ids there are. -/
theorem run_scanned (parts out : Path → Option Bytes) {ops : List Operation} {ids : List TaskId}
    (h : ∀ op ∈ ops, op.Creates (fun t => t.id ∈ ids)) : (runOperations (.fresh parts out) ops).disk.ScannedBy ids := by
  intro id hmain
  have hfiled : Filed (fun t => t.id ∈ ids) (runOperations (.fresh parts out) ops) :=
    run_filed_of (fun t t' ht hid => by rw [ht.1]; exact hid) parts out h
  obtain ⟨x, hx⟩ := Option.isSome_iff_exists.1 hmain
  obtain ⟨t, -, rfl, hsaved⟩ := hfiled.stored id x (.inl hx)
  exact (hfiled.saved t hsaved).2

theorem selected_some {l : List DownloadTask} (h : selected r w = some l) :
    ∃ ts w₁, (recoverTasks r.recover r.scan).run w = (.ok ts, w₁) ∧
      l = (w₁.disk.loadAllTasks r.recover r.scanAgain).filter (fun t => runnableStatus t.status) := by
  unfold selected at h
  split at h
  · exact ⟨_, _, ‹_›, (Option.some.inj h).symm⟩
  · cases h

/-- What is selected is what `runQueuedTasks` goes on with. -/
theorem runQueuedTasks_selected {l : List DownloadTask} (h : selected r w = some l) :
    ∃ w₁, (runQueuedTasks r).run w = ((do
      Prog.ofExcept r.loadConfig
      let tasks ← runRunnable r l
      pure (tasks.map snapshotTask)) : Prog World Exn (List TaskSnapshot)).run w₁ := by
  obtain ⟨ts, w₁, hrun, rfl⟩ := selected_some h
  refine ⟨w₁, ?_⟩
  have hget : (get : Prog World Exn World).run w₁ = (.ok w₁, w₁) := rfl
  rw [runQueuedTasks, run_bind_ok hrun, run_bind_ok hget]

/-! ## Recovery of the whole store -/

theorem saveTask_into {B : DownloadTask → Prop} (h : B t ∧ t.Fits) :
    wp (saveTask env t) (fun _ => StoredAs TaskFiles.load t.id B) (fun _ _ => True) (fun _ => True) w :=
  wp_saveTask (fun _ => ⟨t, by rw [files_saved]; exact load_findsSaved _ t h.2, h.1⟩) (fun _ _ => trivial)
    fun _ _ => trivial

/-- A recovery that returns leaves a listed task as a version of `B`. -/
theorem recoverLoop_into {B : DownloadTask → Prop} : ∀ (ts : List DownloadTask) (w : World), RepairsInto id B ts →
    (∃ t ∈ ts, t.id = id ∧ t.status ≠ .corrupted) →
    wp (recoverLoop env ts) (fun _ => StoredAs TaskFiles.load id B) (fun _ _ => True) (fun _ => True) w
  | [], _, _, hlisted => absurd hlisted (by simp)
  | t :: ts, w, hts, hlisted => by
    have hinto : RepairsInto id B ts := fun u hu => hts u (List.mem_cons_of_mem _ hu)
    have hrest : ¬ (t.id = id ∧ t.status ≠ .corrupted) → ∃ u ∈ ts, u.id = id ∧ u.status ≠ .corrupted := by
      rintro hne
      obtain ⟨u, hu, hlist⟩ := hlisted
      rcases List.mem_cons.1 hu with rfl | hu
      · exact absurd hlist hne
      · exact ⟨u, hu, hlist⟩
    unfold recoverLoop
    split
    · rename_i hcorrupted
      rw [wp_bind]
      exact wp_mono (recoverLoop_into ts w hinto (hrest fun h => h.2 hcorrupted)) (fun _ _ h => h) (fun _ _ h => h)
        (fun _ h => h)
    · rename_i hok
      rw [wp_bind]
      refine wp_mono (repairFromDisk_wp t w) ?_ (fun _ _ _ => trivial) (fun _ _ => trivial)
      rintro t' _ ⟨w₁, -, hrep, rfl⟩
      rw [wp_bind]
      by_cases hid : t'.id = id
      · -- the save gives it, and the rest of the list does not take it away
        have hsave : wp (saveTask env t') (fun _ => StoredAs TaskFiles.load t'.id B) (fun _ _ => True) (fun _ => True)
            (w₁.noted t t') :=
          saveTask_into (hrep.into (hts t List.mem_cons_self) hid)
        refine wp_mono hsave (fun _ w₂ hw₂ => ?_) (fun _ _ h => h) (fun _ h => h)
        have hkept : Keeps (StoredAs TaskFiles.load id B) (recoverLoop env ts) :=
          recoverLoop_storedAs load_findsSaved ts hinto
        rw [wp_bind]
        exact wp_mono (hkept w₂ (hid ▸ hw₂)) (fun _ _ h => h) (fun _ _ _ => trivial) (fun _ _ => trivial)
      · refine wp_saveTask (fun _ => ?_) (fun _ _ => trivial) fun _ _ => trivial
        rw [wp_bind]
        have hlist := hrest fun h => hid (hrep.same.1.trans h.1)
        exact wp_mono (recoverLoop_into ts _ hinto hlist) (fun _ _ h => h) (fun _ _ h => h) (fun _ h => h)

/-- Recovery creates no task file where there was none. -/
theorem recoverLoop_mains {M : TaskId → Bool} : ∀ ts :
    List DownloadTask, (∀ t ∈ ts, t.status ≠ .corrupted → M t.id = true) →
    Keeps (fun w : World => ∀ i, (w.disk.tasks i).main.isSome = M i) (recoverLoop env ts)
  | [], _ => KeepsOr.pure _
  | t :: ts, hts => by
    have htail : Keeps (fun w : World => ∀ i, (w.disk.tasks i).main.isSome = M i) (recoverLoop env ts) :=
      recoverLoop_mains ts fun u hu => hts u (List.mem_cons_of_mem _ hu)
    unfold recoverLoop
    split
    · exact htail.bind fun _ => KeepsOr.pure _
    · intro w hw
      rw [wp_bind]
      refine wp_mono (repairFromDisk_wp t w) ?_ (fun _ _ h => by rw [h.tasks]; exact hw)
        (fun _ h => by rw [h.tasks]; exact hw)
      rintro t' _ ⟨w₁, hw₁, hrep, rfl⟩
      have hnoted : ∀ i, ((w₁.noted t t').disk.tasks i).main.isSome = M i := by
        rw [files_noted hw₁]
        exact hw
      rw [wp_bind]
      refine wp_saveTask (fun _ => ?_) (fun _ _ => hnoted) fun _ _ => hnoted
      refine (htail.bind fun _ => KeepsOr.pure _) _ fun i => ?_
      by_cases hi : i = t'.id
      · subst hi
        rw [hrep.same.1, hts t List.mem_cons_self ‹_›]
        simp [World.saveTask, TaskFiles.commit, hrep.same.1]
      · simpa [World.saveTask, Function.update_of_ne hi] using hnoted i

theorem recoverTasks_mains (hnamed : ∀ id t, w.disk.loadTask id = some t → t.id = id) (scan : List TaskId) :
    wp (recoverTasks env scan) (fun _ w' => ∀ i, (w'.disk.tasks i).main.isSome = (w.disk.tasks i).main.isSome)
      (fun _ w' => ∀ i, (w'.disk.tasks i).main.isSome = (w.disk.tasks i).main.isSome)
      (fun w' => ∀ i, (w'.disk.tasks i).main.isSome = (w.disk.tasks i).main.isSome) w := by
  unfold recoverTasks
  rw [wp_bind, wp_get]
  refine recoverLoop_mains _ (fun t ht hst => ?_) w fun _ => rfl
  obtain ⟨id, -, hmain, hload | ⟨-, rfl⟩⟩ := mem_loadAllTasks ht
  · rw [hnamed id t hload]
    exact hmain
  · exact absurd rfl hst

/-! ## The selection -/

theorem loadAllTasks_mem {d : Disk} {scan : List TaskId} (hscan : id ∈ scan) (hmain : (d.tasks id).main.isSome)
    (hload : d.loadTask id = some t) : t ∈ d.loadAllTasks env scan := by
  unfold Disk.loadAllTasks
  rw [List.mem_insertionSort, List.mem_map]
  exact ⟨id, List.mem_filter.2 ⟨hscan, by simpa using hmain⟩, by rw [hload]; rfl⟩

theorem repairedStatus_moved (h : repairsStatus t) (sizes : List Nat) :
    runnableStatus (repairedStatus t sizes) = false := by
  rw [repairedStatus, if_pos h]
  split_ifs <;> rfl

theorem uncorrupted_of_runnable (h : runnableStatus t.status) : t.status ≠ .corrupted := by
  rintro heq
  rw [heq] at h
  cases h

/-- What is listed under the id of a stored task is that task. -/
theorem Filed.listed {P : DownloadTask → Prop} (h : Filed P w) {scan : List TaskId}
    (hload : w.disk.loadTask id = some t)
    (hu : u ∈ w.disk.loadAllTasks env scan) (hid : u.id = id) : u = t := by
  obtain ⟨id₁, -, -, hload₁ | ⟨hnone, rfl⟩⟩ := mem_loadAllTasks hu
  · obtain rfl : id = id₁ := hid.symm.trans (h.job hload₁).1
    exact Option.some.inj (hload₁.symm.trans hload)
  · obtain rfl : id₁ = id := hid
    rw [hload] at hnone
    cases hnone

/-- A stored task that waits to run is selected if and only if its file is there and repair
leaves its status alone. -/
theorem selects_iff (hfiled : Filed (fun _ => True) w) (hload : w.disk.loadTask id = some t)
    (hst : runnableStatus t.status)
    (hscan : w.disk.ScannedBy r.scan) (hagain : w.disk.ScannedBy r.scanAgain) {l : List DownloadTask}
    (hl : selected r w = some l) :
    (∃ u ∈ l, u.id = id) ↔ (w.disk.tasks id).main.isSome ∧ repairsStatus t = false := by
  obtain ⟨ts, w₁, hrun, rfl⟩ := selected_some hl
  have hfits : t.Fits := load_fits hload
  have hrecover : Keeps (Filed fun _ => True) (recoverTasks r.recover r.scan) :=
    recoverTasks_keeps (filed_rule fun _ _ _ _ => trivial) r.scan
  have hfiled₁ : Filed (fun _ => True) w₁ := (wp_of_ok hrun).1 (hrecover w hfiled)
  have hmains : ∀ i, (w₁.disk.tasks i).main.isSome = (w.disk.tasks i).main.isSome :=
    (wp_of_ok hrun).1 (recoverTasks_mains (fun _ _ h => (hfiled.job h).1) r.scan)
  -- the recovery of the listed tasks, whatever it makes of this one
  have hinto : ∀ B : TaskStatus → Prop, (∀ sizes, B (repairedStatus t sizes)) →
      RepairsInto id (fun t => B t.status) (w.disk.loadAllTasks r.recover r.scan) := by
    intro B hB u hu hid
    obtain rfl := hfiled.listed hload hu hid
    refine ⟨fun _ _ t' hrep => ?_, hfits⟩
    change B t'.status
    rw [hrep.status]
    exact hB _
  constructor
  · rintro ⟨u, hu, hid⟩
    obtain ⟨hu, hust⟩ := List.mem_filter.1 hu
    obtain ⟨id₁, -, hmain₁, hload₁ | ⟨-, rfl⟩⟩ := mem_loadAllTasks hu
    · obtain rfl : id = id₁ := hid.symm.trans (hfiled₁.job hload₁).1
      rw [hmains] at hmain₁
      refine ⟨hmain₁, ?_⟩
      by_contra hrepairs
      have hstatus : wp (recoverTasks r.recover r.scan)
          (fun _ => StoredAs TaskFiles.load id (fun t => runnableStatus t.status = false))
          (fun _ _ => True) (fun _ => True) w := by
        unfold recoverTasks
        rw [wp_bind, wp_get]
        refine recoverLoop_into _ w (hinto (runnableStatus · = false)
          (repairedStatus_moved (by simpa using hrepairs))) ?_
        exact ⟨t, loadAllTasks_mem (hscan id hmain₁) hmain₁ hload, (hfiled.job hload).1, uncorrupted_of_runnable hst⟩
      obtain ⟨u', hu', hrest⟩ := (wp_of_ok hrun).1 hstatus
      obtain rfl := Option.some.inj (hload₁.symm.trans hu')
      rw [hrest] at hust
      cases hust
    · cases hust
  · rintro ⟨hmain, hrepairs⟩
    have hstatus : wp (recoverTasks r.recover r.scan) (fun _ => StoredAs TaskFiles.load id (·.status = t.status))
        (fun _ => StoredAs TaskFiles.load id (·.status = t.status))
        (StoredAs TaskFiles.load id (·.status = t.status)) w := by
      unfold recoverTasks
      rw [wp_bind, wp_get]
      exact recoverLoop_storedAs load_findsSaved _ (hinto (· = t.status) (repairedStatus_kept hrepairs)) w
        ⟨t, hload, rfl⟩
    obtain ⟨u, hu, hust⟩ := (wp_of_ok hrun).1 hstatus
    have hlisted : u ∈ w₁.disk.loadAllTasks r.recover r.scanAgain :=
      loadAllTasks_mem (hagain id hmain) (by rw [hmains]; exact hmain) hu
    exact ⟨u, List.mem_filter.2 ⟨hlisted, by rw [hust]; exact hst⟩, (hfiled₁.job hu).1⟩

/-! ## The selection is reached -/

/-- No operation but those of the commit fails. -/
def Env.Smooth (env : Env) : Prop := ∀ n, env.fault n = .ok ∧ env.saveFault n = .ok

/-- Every task file can be written. -/
def Env.Persists (env : Env) : Prop := ∀ n, env.saveFault n = .ok

theorem Env.Smooth.persists (hf : env.Smooth) : env.Persists := fun n => (hf n).2

/-- Nothing fails. -/
structure Env.Faultless (env : Env) : Prop where
  smooth : env.Smooth
  commit : env.commit = {}
  engine : env.engine = .ok ()

theorem repairChunks_returns (hf : env.Smooth) : ∀ (cs : List Chunk)
    (w : World), (∀ c ∈ cs, ∃ p, chunkPath t c = .ok p) →
    wp (repairChunks env t cs) (fun _ _ => True) (fun _ _ => False) (fun _ => False) w
  | [], _, _ => trivial
  | c :: cs, w, h => by
    obtain ⟨p, hp⟩ := h c List.mem_cons_self
    unfold repairChunks
    rw [hp]
    simp only [wp_bind, wp_get, wp_pure]
    refine wp_mono (cutPart_returns fun n => (hf n).1) (fun _ w₁ _ => ?_) (fun _ _ h => h) (fun _ h => h)
    exact repairChunks_returns hf cs w₁ fun d hd => h d (List.mem_cons_of_mem _ hd)

theorem recoverLoop_returns (hf : env.Smooth) : ∀ (ts : List DownloadTask) (w : World),
    (∀ t ∈ ts, t.status ≠ .corrupted → t.Laid) →
    wp (recoverLoop env ts) (fun _ _ => True) (fun _ _ => False) (fun _ => False) w
  | [], _, _ => trivial
  | t :: ts, w, h => by
    have hrest : ∀ w, wp (recoverLoop env ts) (fun _ _ => True) (fun _ _ => False) (fun _ => False) w := fun w =>
      recoverLoop_returns hf ts w fun u hu => h u (List.mem_cons_of_mem _ hu)
    unfold recoverLoop
    split
    · rw [wp_bind]
      exact wp_mono (hrest w) (fun _ _ _ => trivial) (fun _ _ h => h) (fun _ h => h)
    · have hrepair : wp (repairFromDisk env t) (fun _ _ => True) (fun _ _ => False) (fun _ => False) w := by
        unfold repairFromDisk
        split
        · rw [wp_bind, recordRepair_wp]
          trivial
        · rw [wp_bind]
          refine wp_mono (repairChunks_returns hf t.chunks w (h t List.mem_cons_self ‹_›).paths) ?_ (fun _ _ h => h)
            (fun _ h => h)
          intro cs w₁ _
          rw [wp_bind, recordRepair_wp]
          trivial
      rw [wp_bind]
      refine wp_mono hrepair (fun t' w₁ _ => ?_) (fun _ _ h => h) (fun _ h => h)
      rw [wp_bind]
      refine wp_saveTask (fun _ => ?_) (fun k hk => ?_) (fun k hk => ?_)
      · rw [wp_bind]
        exact wp_mono (hrest _) (fun _ _ _ => trivial) (fun _ _ h => h) (fun _ h => h)
      · simp [(hf _).2] at hk
      · simp [(hf _).2] at hk

/-- Without failures the recovery of a store in order returns. -/
theorem selected_reached (hfiled : Filed (fun _ => True) w) (hf : r.recover.Smooth) : ∃ l, selected r w = some l := by
  have hreturns : wp (recoverTasks r.recover r.scan) (fun _ _ => True) (fun _ _ => False) (fun _ => False) w := by
    unfold recoverTasks
    rw [wp_bind, wp_get]
    exact recoverLoop_returns hf _ w fun t ht hst => ((filed_rule fun _ _ _ _ => trivial).loadsAll hfiled ht hst).1
  unfold selected
  rcases hrun : (recoverTasks r.recover r.scan).run w with ⟨ts | e | _, w₁⟩
  · exact ⟨_, rfl⟩
  · exact ((wp_of_thrown hrun).1 hreturns).elim
  · exact ((wp_of_stopped hrun).1 hreturns).elim

theorem repairsStatus_waiting (h : runnableStatus t.status) :
    repairsStatus t = false ↔ t.status = .failed ∨ (t.chunks = [] ∧ t.status ≠ .retrying) := by
  unfold repairsStatus
  cases hst : t.status <;> simp [hst, runnableStatus, unfinishedStatus] at h ⊢

/-- In every reachable store, a call of `runQueuedTasks` in which no recovery fails comes to a
runnable list, and one that comes to it has a waiting task on it if and only if the task's
file is there and the task is Failed, or Pending or Queued without chunks. -/
theorem queue_selects_iff (parts out : Path → Option Bytes) (before : List Operation) (r : QueueRun) (id : TaskId)
    (t : DownloadTask) (hload : (runOperations (.fresh parts out) before).disk.loadTask id = some t)
    (hst : runnableStatus t.status) (hscan : (runOperations (.fresh parts out) before).disk.ScannedBy r.scan)
    (hagain : (runOperations (.fresh parts out) before).disk.ScannedBy r.scanAgain) :
    (r.recover.Smooth → ∃ l, selected r (runOperations (.fresh parts out) before) = some l) ∧
      ∀ l, selected r (runOperations (.fresh parts out) before) = some l →
        ((∃ u ∈ l, u.id = id) ↔ ((runOperations (.fresh parts out) before).disk.tasks id).main.isSome ∧
          (t.status = .failed ∨ (t.chunks = [] ∧ t.status ≠ .retrying))) := by
  have hfiled := run_filed parts out before
  refine ⟨selected_reached hfiled, fun l hl => ?_⟩
  rw [selects_iff hfiled hload hst hscan hagain hl, repairsStatus_waiting hst]

/-- A task that was created and waits. -/
def createdRun : List Operation := [.create silentEnv oneByteRequest]

theorem queue_selects_created :
    (∃ l, selected silentRun (runOperations (.fresh (fun _ => none) fun _ => none) createdRun) = some l) ∧
      ∀ l, selected silentRun (runOperations (.fresh (fun _ => none) fun _ => none) createdRun) = some l →
        ∃ u ∈ l, u.id = text "a" := by
  have hids : ∀ op ∈ createdRun, op.Creates (fun t => t.id ∈ [text "a"]) := by
    simp [createdRun, Operation.Creates, newTask, oneByteRequest]
  obtain ⟨hreached, hiff⟩ := queue_selects_iff (fun _ => none) (fun _ => none) createdRun silentRun (text "a") _ rfl rfl
    (run_scanned _ _ hids) (run_scanned _ _ hids)
  exact ⟨hreached fun _ => ⟨rfl, rfl⟩, fun l hl => (hiff l hl).2 ⟨rfl, .inr ⟨rfl, by decide⟩⟩⟩

/-- A download that is cut short in its first transfer, a recovery, and a second download
that is cut short between the save of Queued and that of Downloading. -/
def cutShortRun : List Operation :=
  [.create answeringEnv oneByteRequest, .download answeringEnv (text "a"), .recover answeringEnv [text "a"],
    .download { answeringEnv with saveFault := fun n => if n = 9 then .crash 0 else .ok } (text "a")]

/-- The task is Queued in the store, and the queue passes it over. -/
theorem queued_task_passed_over :
    ∃ (parts out : Path → Option Bytes) (before : List Operation) (r : QueueRun) (id : TaskId) (t : DownloadTask)
      (l : List DownloadTask), (runOperations (.fresh parts out) before).disk.loadTask id = some t ∧
      t.status = .queued ∧
        (runOperations (.fresh parts out) before).disk.ScannedBy r.scan ∧
        (runOperations (.fresh parts out) before).disk.ScannedBy r.scanAgain ∧
        selected r (runOperations (.fresh parts out) before) = some l ∧ ∀ u ∈ l, u.id ≠ id := by
  have hids : ∀ op ∈ cutShortRun, op.Creates (fun t => t.id ∈ [text "a"]) := by
    simp [cutShortRun, Operation.Creates, newTask, oneByteRequest]
  refine ⟨fun _ => none, fun _ => none, cutShortRun, silentRun, text "a", _, [], rfl, rfl, run_scanned _ _ hids,
    run_scanned _ _ hids, rfl, List.forall_mem_nil _⟩

end Cget
