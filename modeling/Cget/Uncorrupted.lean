import Cget.QueueFrame
import Cget.Selection
/-!
# Corrupted is never stored

The status Corrupted stands for a task file that does not load: `loadAllTasks` makes up an
entry with it. No operation sets it, and so no version of a task that was ever written has it.
-/

namespace Cget

open Prog

variable {env : Env} {w w' : World} {t t' : DownloadTask} {ts : List DownloadTask} {id : TaskId}

/-- No version in the store is Corrupted. -/
def NeverCorrupted (w : World) : Prop :=
  ∀ id t, (w.disk.tasks id).main = some (.written t) ∨ (w.disk.tasks id).bak = some (.written t) → t.status ≠ .corrupted

def DownloadTask.Uncorrupted (t : DownloadTask) : Prop := t.status ≠ .corrupted

theorem NeverCorrupted.files (h : NeverCorrupted w) (hsame : w'.disk.tasks = w.disk.tasks) : NeverCorrupted w' := by
  intro id t ht
  rw [hsame] at ht
  exact h id t ht

theorem NeverCorrupted.save (h : NeverCorrupted w) (ht : t.Uncorrupted) : NeverCorrupted (w.saveTask t) := by
  intro id u hu
  have hcases : ∀ x, x = TaskText.written u → ((w.saveTask t).disk.tasks id).main = some x ∨
      ((w.saveTask t).disk.tasks id).bak = some x → u.status ≠ .corrupted := by
    rintro x rfl hx
    rcases saveTask_texts hx with ⟨-, heq⟩ | hold
    · cases heq
      exact ht
    · exact h id u hold
  exact hcases _ rfl hu

theorem NeverCorrupted.loads (h : NeverCorrupted w) (hload : w.disk.loadTask id = some t) : t.Uncorrupted :=
  h id t (load_spec hload)

/-- Only made up entries are Corrupted. -/
theorem NeverCorrupted.listed (h : NeverCorrupted w) {scan : List TaskId} (ht : t ∈ w.disk.loadAllTasks env scan)
    (hst : t.status = .corrupted) : t.chunks = [] := by
  obtain ⟨id, -, -, hload | ⟨-, rfl⟩⟩ := mem_loadAllTasks ht
  · exact absurd hst (h.loads hload)
  · rfl

/-- Sessions and the queue keep it. -/
theorem uncorrupted_rule : FinishRule NeverCorrupted DownloadTask.Uncorrupted where
  tick _ _ h := ⟨h.1.files rfl, h.2⟩
  task _ _ h ht := ⟨h.1, fun heq => h.2 (ht.1.2.2.2.2.2.symm.trans heq)⟩
  status _ st h hst := ⟨h.1.files rfl, fun heq => by
    change st = _ at heq
    rw [heq] at hst
    cases hst⟩
  saved _ h := ⟨h.1.save h.2, h.2⟩
  part _ _ _ h := ⟨h.1.files rfl, h.2⟩
  progress _ _ h ht := ⟨h.1, fun heq => h.2 (ht.2.2.2.2.2.symm.trans heq)⟩
  logged _ _ h _ := ⟨h.1.files rfl, h.2⟩
  logs _ _ h := h.files rfl
  out _ _ _ hw _ h := h.files hw.tasks
  anyStatus _ _ hst _ := hst

/-! ## Operations -/

theorem saveTask_uncorrupted (ht : t.Uncorrupted) : Keeps NeverCorrupted (saveTask env t) := fun _ h =>
  wp_saveTask (fun _ => (h.files rfl).save ht) (fun _ _ => h.files rfl) fun _ _ => h.files rfl

theorem recoverLoop_uncorrupted : ∀ ts : List DownloadTask, Keeps NeverCorrupted (recoverLoop env ts)
  | [] => KeepsOr.pure _
  | t :: ts => by
    have hrest : Keeps NeverCorrupted (recoverLoop env ts) := recoverLoop_uncorrupted ts
    unfold recoverLoop
    split
    · exact hrest.bind fun _ => KeepsOr.pure _
    · intro w h
      rw [wp_bind]
      refine wp_mono (repairFromDisk_wp t w) ?_ (fun _ _ h' => h.files h'.tasks) (fun _ h' => h.files h'.tasks)
      rintro t' _ ⟨w₁, hw₁, hrep, rfl⟩
      have hst : t'.Uncorrupted := by
        rw [DownloadTask.Uncorrupted, hrep.status]
        exact repairedStatus_uncorrupted ‹_›
      exact ((saveTask_uncorrupted hst).bind fun _ => hrest.bind fun _ => KeepsOr.pure _) _
        (h.files (by rw [noted_disk, hw₁.tasks]))

theorem recoverTasks_uncorrupted (scan : List TaskId) : Keeps NeverCorrupted (recoverTasks env scan) := by
  unfold recoverTasks
  exact KeepsOr.get_bind fun w => recoverLoop_uncorrupted _

theorem runQueuedTasks_uncorrupted (r : QueueRun) : Keeps NeverCorrupted (runQueuedTasks r) := by
  refine (recoverTasks_uncorrupted r.scan).bind fun _ w h => ?_
  rw [wp_bind, wp_get, wp_bind]
  refine wp_ofExcept (fun _ _ => ?_) fun _ _ => h
  rw [wp_bind]
  refine wp_mono (runRunnable_beside uncorrupted_rule.toQueueRule h (fun t ht => ?_) (fun _ h => h)
    fun ts' w' hw' hts' _ => ?_) (fun _ _ h => h) (fun _ _ h => h) (fun _ h => h)
  · exact uncorrupted_of_runnable (List.mem_filter.1 ht).2
  · exact finishAll_beside uncorrupted_rule ts' hts' w' hw'

theorem downloadStored_uncorrupted : Keeps NeverCorrupted (downloadStored env id) := by
  intro w h
  unfold downloadStored
  rw [wp_bind]
  refine wp_loadTask (fun t hload => ?_) fun _ => h
  rw [wp_onTask]
  exact wp_mono (uncorrupted_rule.downloadTask { world := w, task := t } ⟨h, h.loads hload⟩) (fun _ _ h => h.1)
    (fun _ _ h => h.1) (fun _ h => h.1)

theorem createTask_uncorrupted (r : CreateRequest) : Keeps NeverCorrupted (createTask env r) := by
  have hnew : (newTask env r).Uncorrupted := by
    simp only [DownloadTask.Uncorrupted, newTask]
    split <;> decide
  intro w h
  unfold createTask ensureTaskTempDir
  rw [wp_bind]
  refine wp_fileOp (fun _ => ?_) (fun _ _ => h.files rfl) (fun _ _ => h.files rfl)
  rw [wp_bind, wp_modify]
  exact ((saveTask_uncorrupted hnew).bind fun _ => KeepsOr.pure _) _ (h.files rfl)

theorem pauseTask_uncorrupted : Keeps NeverCorrupted (pauseTask env id) := by
  intro w h
  unfold pauseTask
  rw [wp_bind]
  refine wp_loadTask (fun t _ => ?_) fun _ => h
  split
  · exact h
  · rw [wp_bind, wp_modify]
    exact saveTask_uncorrupted (t := pausedTask env t) (by simp [DownloadTask.Uncorrupted, pausedTask]) _ (h.files rfl)

theorem NeverCorrupted.dropped (h : NeverCorrupted w) {g : TaskFiles → TaskFiles} (hg : Dropping g) :
    NeverCorrupted (w.onFiles id g) :=
  fun n t ht => h n t (dropped_texts hg ht)

theorem removeTask_uncorrupted : Keeps NeverCorrupted (removeTask env id) := by
  have htick : ∀ (w : World) n, NeverCorrupted w → NeverCorrupted { w with tick := n } := fun _ _ h => h.files rfl
  intro w h
  unfold removeTask
  rw [wp_bind]
  refine wp_loadTask (fun t _ => ?_) fun _ => h
  rw [wp_bind, wp_modify]
  have hremoved : (removedTask env t).Uncorrupted := by simp [DownloadTask.Uncorrupted, removedTask]
  refine ((saveTask_uncorrupted hremoved).bind fun _ => KeepsOr.bind ?_ fun _ => ?_) _ (h.files rfl)
  · unfold removeTaskFiles
    refine KeepsOr.bind ?_ fun _ => KeepsOr.bind ?_ fun _ => ?_
    · exact dropFile_keeps htick fun w h => h.dropped fun f => ⟨.inr rfl, .inl rfl⟩
    · exact dropFile_keeps htick fun w h => h.dropped fun f => ⟨.inl rfl, .inr rfl⟩
    · exact dropFile_keeps htick fun w h => h.dropped fun f => ⟨.inl rfl, .inl rfl⟩
  · unfold removeTaskTempDir
    split
    · exact KeepsOr.throw _
    · exact fun w h => wp_fileOp (fun _ => h.files rfl) (fun _ _ => h.files rfl) fun _ _ => h.files rfl

theorem Operation.step_uncorrupted (op : Operation) (h : NeverCorrupted w) : NeverCorrupted (op.step w) := by
  cases op with
  | create env r => exact (createTask_uncorrupted r).run w h
  | download env id => exact downloadStored_uncorrupted.run w h
  | pause env id => exact pauseTask_uncorrupted.run w h
  | remove env id => exact removeTask_uncorrupted.run w h
  | recover env scan => exact (recoverTasks_uncorrupted scan).run w h
  | queue r => exact (runQueuedTasks_uncorrupted r).run w h

/-- No run ever stores a task as Corrupted. -/
theorem run_uncorrupted (parts out : Path → Option Bytes) (ops : List Operation) :
    NeverCorrupted (runOperations (.fresh parts out) ops) := by
  refine run_inv (fun _ op h => op.step_uncorrupted h) fun id t ht => ?_
  simp [World.fresh] at ht

end Cget
