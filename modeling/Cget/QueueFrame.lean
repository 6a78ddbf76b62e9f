import Cget.Frame
import Cget.Ownership
/-!
# Sessions side by side

`runQueuedTasks` prepares its tasks one after the other and then moves their workers in
turns. What a single session tolerates before its merge, of the store and of its task, holds
of the store and of all tasks up to the end of the scheduler.
-/

namespace Cget

open Prog SchedState

variable {W : World → Prop} {T : DownloadTask → Prop} {env : Env} {envs : TaskId → Env} {w w' : World}
  {t : DownloadTask}

/-- `W` of the store and `T` of the task of a session. -/
def Beside (W : World → Prop) (T : DownloadTask → Prop) (s : Session) : Prop := W s.world ∧ T s.task

/-- What sessions on tasks of `T` tolerate, as a log that grows does. -/
structure QueueRule (W : World → Prop) (T : DownloadTask → Prop) : Prop extends Tolerates (Beside W T) where
  logs : ∀ (w : World) (es : List Event), W w → W { w with log := es ++ w.log }

/-- What they tolerate to their end. -/
structure FinishRule (W : World → Prop) (T : DownloadTask → Prop) : Prop extends QueueRule W T where
  out : ∀ (w w' : World) (t : DownloadTask), OnlyTarget t.targetPath w w' → T t → W w → W w'
  anyStatus : ∀ (t : DownloadTask) (st : TaskStatus), st ≠ .corrupted → T t → T { t with status := st }

/-- New progress and a status of a session at work. -/
theorem QueueRule.restatus (h : QueueRule W T) (hw : W w) (ht : T t) {u : DownloadTask} (hu : t.SameJob u)
    {st : TaskStatus} (hst : st.working) : T { u with status := st } :=
  (h.status { world := w, task := u } st (h.progress { world := w, task := t } u ⟨hw, ht⟩ hu) hst).2

theorem prepareAll_beside (h : QueueRule W T) : ∀ (ts : List DownloadTask) (w : World), W w → (∀ t ∈ ts, T t) →
    wp (prepareAll envs ts) (fun ts' w' => W w' ∧ (∀ t ∈ ts', T t) ∧ ts'.map (·.id) = ts.map (·.id)) (fun _ => W) W w
  | [], _, hw, _ => ⟨hw, List.forall_mem_nil _, rfl⟩
  | t :: ts, w, hw, hts => by
    unfold prepareAll
    rw [wp_bind, wp_onTask]
    have hsession : Beside W T { world := w, task := t } := ⟨hw, hts t List.mem_cons_self⟩
    refine wp_mono (wp_and (keeps_withEngine h.prepareTask _ hsession)
      (keeps_withEngine (tolerates_id (τ := t.id)).prepareTask _ rfl)) ?_ (fun _ _ h => h.1.1) (fun _ h => h.1.1)
    rintro _ s₁ ⟨⟨hw₁, ht₁⟩, hid⟩
    rw [wp_bind]
    refine wp_mono (prepareAll_beside h ts s₁.world hw₁ fun u hu => hts u (List.mem_cons_of_mem _ hu)) ?_
      (fun _ _ h => h) (fun _ h => h)
    rintro ts' w₂ ⟨hw₂, hts', hids⟩
    exact ⟨hw₂, List.forall_mem_cons.2 ⟨ht₁, hts'⟩, by rw [List.map_cons, List.map_cons, hids, hid]⟩

/-- A step of the scheduler. -/
theorem schedStep_beside (h : QueueRule W T) {cfg : SchedulerConfig} {s s' : SchedState WorkerPc} {choice : Choice}
    (hs : W s.world ∧ ∀ t ∈ s.tasks, T t) (heff : StepEffect (chunkExecutor envs) cfg s choice s') :
    W s'.world ∧ ∀ t ∈ s'.tasks, T t := by
  obtain ⟨hw, hts⟩ := hs
  have hset : ∀ {i : Nat} {u : DownloadTask}, T u → ∀ t ∈ s.tasks.set i u, T t := by
    intro i u hu t ht
    rcases List.mem_or_eq_of_mem_set ht with ht | rfl
    · exact hts t ht
    · exact hu
  cases heff with
  | idle ht hworld => exact ⟨hworld ▸ hw, ht ▸ hts⟩
  | retire _ _ _ _ _ _ ht hworld => exact ⟨hworld ▸ hw, ht ▸ hts⟩
  | start i j order scheduled t c _ _ hti _ _ ht hworld =>
    rw [hworld, ht]
    refine ⟨h.logs _ [_] hw, hset ?_⟩
    exact h.restatus hw (hts t (List.mem_of_getElem? hti))
      (u := { t with chunks := t.chunks.set j { c with status := .downloading } })
      ⟨rfl, rfl, rfl, rfl, rfl, rfl⟩ rfl
  | execute k w pc i t _ hk _ hti _ =>
    obtain ⟨ht, hworld, -⟩ := execute_spec (chunkExecutor envs) (l := pc) (i := i) (t := t) hk
    have hsession : Beside W T { world := s.world, task := t } := ⟨hw, hts t (List.mem_of_getElem? hti)⟩
    have hend : Beside W T (executed (chunkExecutor envs) s w pc t) :=
      (h.toTolerates.chunkExecutor w.taskId w.chunk pc).run _ hsession
    rw [hworld, ht]
    exact ⟨hend.1, hset hend.2⟩
  | record k w i t _ _ hti _ ht hworld =>
    rw [hworld, ht]
    refine ⟨h.logs _ [_] hw, hset ?_⟩
    exact h.restatus hw (hts t (List.mem_of_getElem? hti))
      (u := { t with
        lastError := some workerFailedMessage
        chunks := t.chunks.modify w.chunk (fun c => { c with status := .failed }) }) ⟨rfl, rfl, rfl, rfl, rfl, rfl⟩ rfl
  | sweep _ _ ht hworld =>
    obtain ⟨es, hes, -⟩ := sweep_log (s := s)
    rw [hworld, hes, ht]
    refine ⟨h.logs _ _ hw, fun u hu => ?_⟩
    rcases sweep_tasks (s := s) with hsame | ⟨-, hswept⟩
    · exact hts u (hsame ▸ hu)
    · rw [hswept] at hu
      obtain ⟨t, ht, rfl⟩ := List.mem_map.1 hu
      unfold sweepTask
      split
      · exact h.restatus hw (hts t ht) (u := { t with lastError := some workerFailedMessage })
          ⟨rfl, rfl, rfl, rfl, rfl, rfl⟩ rfl
      · exact hts t ht

/-- What is left for the last loop of `runQueuedTasks`. -/
theorem runRunnable_beside (h : QueueRule W T) {r : QueueRun} {ts : List DownloadTask} (hw : W w) (hts : ∀ t ∈ ts, T t)
    {Q : World → Prop} (hQ : ∀ w, W w → Q w)
    (hfinish : ∀ ts' w', W w' → (∀ t ∈ ts', T t) → ts'.map (·.id) = ts.map (·.id) →
      wp (finishAll r.finish ts') (fun _ => Q) (fun _ => Q) Q w') :
    wp (runRunnable r ts) (fun _ => Q) (fun _ => Q) Q w := by
  unfold runRunnable
  rw [wp_bind]
  refine wp_mono (prepareAll_beside h ts w hw hts) ?_ (fun _ w' h' => hQ w' h') (fun w' h' => hQ w' h')
  rintro prepared w₁ ⟨hw₁, hprepared, hids⟩
  have hrun : (W (runs (chunkExecutor r.prepare) r.config.normalized
      { tasks := prepared, world := w₁ } r.schedule).world ∧
      ∀ t ∈ (runs (chunkExecutor r.prepare) r.config.normalized { tasks := prepared, world := w₁ } r.schedule).tasks,
      T t) ∧
      (runs (chunkExecutor r.prepare) r.config.normalized { tasks := prepared, world := w₁ } r.schedule).tasks.map
        (·.id) =
        prepared.map (·.id) :=
    run_inv (I := fun s : SchedState WorkerPc => (W s.world ∧ ∀ t ∈ s.tasks, T t) ∧
      s.tasks.map (·.id) = prepared.map (·.id))
      (fun s c hs => ⟨schedStep_beside h hs.1 (step_effect c), (step_records (step_effect c)).1.trans hs.2⟩)
      ⟨⟨hw₁, hprepared⟩, rfl⟩
  rw [wp_bind]
  exact wp_schedulerRun rfl (fun _ _ => hfinish _ _ hrun.1.1 hrun.1.2 (hrun.2.trans hids)) (hQ _ hrun.1.1)

/-! ## The last loop -/

theorem FinishRule.mergeAndComplete (h : FinishRule W T) : Keeps (Beside W T) (mergeAndComplete env) :=
  h.toToleratesSaves.mergeAndComplete (fun s w' hw hs => ⟨h.out s.world w' s.task hw hs.2 hs.1, hs.2⟩)
    fun s hs => ⟨h.logs s.world [_] hs.1, h.anyStatus s.task .completed (by decide) hs.2⟩

theorem FinishRule.download (h : FinishRule W T) : Keeps (Beside W T) (download env) :=
  keeps_download h.transfer h.mergeAndComplete h.failWith

theorem FinishRule.downloadTask (h : FinishRule W T) : Keeps (Beside W T) (downloadTask env) := by
  intro s hs
  unfold Cget.downloadTask
  rw [wp_bind, wp_get]
  split
  · exact hs
  · split
    · exact hs
    · rw [setStatus, wp_bind, wp_modify, wp_bind, wp_get, wp_bind]
      have hqueued : Beside W T (s.setStatus .queued) :=
        ⟨h.logs s.world [_] hs.1, h.anyStatus s.task .queued (by decide) hs.2⟩
      have hsave : Keeps (Beside W T) (do let s ← get; onWorld (saveTask env s.task)) := h.save
      have hsaved := hsave _ hqueued
      rw [wp_bind, wp_get] at hsaved
      exact wp_mono hsaved (fun _ s₁ h₁ => keeps_withEngine h.download s₁ h₁) (fun _ _ h => h) (fun _ h => h)

theorem FinishRule.finalize (h : FinishRule W T) : Keeps (Beside W T) (finalizePreparedTask env) :=
  keeps_finalize h.persistTask (h.setFailure (by decide)) h.mergeAndComplete

theorem finishTask_beside (h : FinishRule W T) (ht : T t) : Keeps W (finishTask envs t) := by
  intro w hw
  have hsession : Beside W T { world := w, task := t } := ⟨hw, ht⟩
  unfold finishTask
  split
  · exact wp_onTask.2 (wp_mono (h.download _ hsession) (fun _ _ h => h.1) (fun _ _ h => h.1) (fun _ h => h.1))
  · split
    · exact wp_onTask.2 (wp_mono (h.finalize _ hsession) (fun _ _ h => h.1) (fun _ _ h => h.1) (fun _ h => h.1))
    · exact hw

theorem finishAll_beside (h : FinishRule W T) : ∀ ts : List DownloadTask, (∀ t ∈ ts, T t) → Keeps W (finishAll envs ts)
  | [], _ => KeepsOr.pure _
  | t :: ts, hts => by
    have hrest : Keeps W (finishAll envs ts) := finishAll_beside h ts fun u hu => hts u (List.mem_cons_of_mem _ hu)
    exact (finishTask_beside h (hts t List.mem_cons_self)).bind fun _ => hrest.bind fun _ => KeepsOr.pure _

end Cget
