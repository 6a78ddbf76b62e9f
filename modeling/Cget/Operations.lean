import Cget.Layout
import Cget.Recovery
/-!
# Runs of the manager

The operations of `DownloadManager` as steps of a machine on the world, each in an
environment of its own: any answers, any failed or fatal file operation, any interleaving.
A `StoreRule` is what the store keeps over all of them, and it always keeps this: what is
written are tasks without chunks or with chunks that tile their file.
-/

namespace Cget

open Prog SchedState

/-- A call of the manager. `download` is `loadTask` and `downloadTask`. -/
inductive Operation where
  | create (env : Env) (r : CreateRequest)
  | download (env : Env) (id : TaskId)
  | pause (env : Env) (id : TaskId)
  | remove (env : Env) (id : TaskId)
  | recover (env : Env) (scan : List TaskId)
  | queue (r : QueueRun)

/-- `loadTask`, and `downloadTask` on what it returns. -/
def downloadStored (env : Env) (id : TaskId) : Prog World Exn DownloadTask := do
  let t ← loadTask id
  onTask t (downloadTask env)

/-- However the operation ends, this is what it leaves. -/
def Operation.step (w : World) : Operation → World
  | .create env r => ((createTask env r).run w).2
  | .download env id => ((downloadStored env id).run w).2
  | .pause env id => ((pauseTask env id).run w).2
  | .remove env id => ((removeTask env id).run w).2
  | .recover env scan => ((recoverTasks env scan).run w).2
  | .queue r => ((runQueuedTasks r).run w).2

/-- A world before the first task, with any files around. -/
def World.fresh (parts out : Path → Option Bytes) : World := { disk := { parts, out } }

/-- What a run of the manager leaves. -/
def runOperations (w : World) (ops : List Operation) : World := ops.foldl Operation.step w

variable {G : World → Prop} {P : DownloadTask → Prop} {env : Env} {envs : TaskId → Env} {t t' : DownloadTask}
  {w w' : World} {id : TaskId}

/-! ## Loading -/

theorem load_spec {f : TaskFiles} (h : f.load = some t) : f.main = some (.written t) ∨ f.bak = some (.written t) := by
  have hread : ∀ x : Option TaskText, x.bind taskFromJson = some t → x = some (.written t) := by
    intro x hx
    obtain ⟨y, rfl, hy⟩ := Option.bind_eq_some_iff.1 hx
    rw [(taskFromJson_some hy).1]
  rw [TaskFiles.load, Option.or_eq_some_iff] at h
  exact h.imp (hread _) fun h => hread _ h.2

/-- What loads passes the loader's check. -/
theorem load_fits {f : TaskFiles} (h : f.load = some t) : ∀ c ∈ t.chunks, c.start ≤ c.stop ∧ c.downloaded ≤ c.size := by
  rw [TaskFiles.load, Option.or_eq_some_iff] at h
  rcases h with h | ⟨-, h⟩
  · obtain ⟨y, -, hy⟩ := Option.bind_eq_some_iff.1 h
    exact (taskFromJson_some hy).2
  · obtain ⟨y, -, hy⟩ := Option.bind_eq_some_iff.1 h
    exact (taskFromJson_some hy).2

theorem mem_loadAllTasks {scan : List TaskId} {d : Disk} (h : t ∈ d.loadAllTasks env scan) :
    ∃ id ∈ scan, (d.tasks id).main.isSome ∧
    (d.loadTask id = some t ∨ d.loadTask id = none ∧ t = corruptedTask env id) := by
  unfold Disk.loadAllTasks at h
  rw [List.mem_insertionSort, List.mem_map] at h
  obtain ⟨id, hid, rfl⟩ := h
  obtain ⟨hscan, hmain⟩ := List.mem_filter.1 hid
  refine ⟨id, hscan, hmain, ?_⟩
  cases hload : d.loadTask id with
  | none => exact .inr ⟨rfl, rfl⟩
  | some t => exact .inl rfl

theorem wp_loadTask {Q : DownloadTask → World → Prop} {E : Exn → World → Prop} {S : World → Prop}
    (hok : ∀ t, w.disk.loadTask id = some t → Q t w) (herror : ∀ e, E e w) : wp (loadTask id) Q E S w := by
  unfold loadTask
  rw [wp_bind, wp_get]
  split
  · exact hok _ ‹_›
  · exact herror _

/-! ## Rules for the store -/

/-- `g` only removes files. -/
def Dropping (g : TaskFiles → TaskFiles) : Prop :=
  ∀ f, ((g f).main = f.main ∨ (g f).main = none) ∧ ((g f).bak = f.bak ∨ (g f).bak = none)

/-- A rule that knows the tasks it loads. -/
structure StoreRule (G : World → Prop) (P : DownloadTask → Prop) : Prop extends JobRule G P where
  loads : ∀ (w : World) id t, G w → w.disk.loadTask id = some t → t.Laid ∧ P t
  dropped : ∀ (w : World) id g, Dropping g → G w → G (w.onFiles id g)

/-- The tasks in memory are laid out, and jobs of `P`. -/
def AllJobs (P : DownloadTask → Prop) (ts : List DownloadTask) : Prop := ∀ t ∈ ts, t.Laid ∧ P t

theorem JobRule.saveTask (hr : JobRule G P) (ht : t.Laid ∧ P t) : Keeps G (saveTask env t) := fun w h =>
  wp_saveTask (fun _ => hr.saved _ _ ht.1 ht.2 (hr.tick w _ h)) (fun _ _ => hr.tick w _ h) (fun _ _ => hr.tick w _ h)

theorem JobRule.fileOp (hr : JobRule G P) {full : Disk → Disk} {e : Exn}
    (hfull : ∀ d, ∃ f, full d = { d with parts := f }) :
    Keeps G (fileOp env full (fun _ d => d) e) := by
  intro w h
  refine wp_fileOp (fun _ => ?_) (fun _ _ => hr.tick w _ h) (fun _ _ => hr.tick w _ h)
  obtain ⟨f, hf⟩ := hfull w.disk
  rw [hf]
  exact hr.tick _ (w.tick + 1) (hr.parts w f h)

/-- A session on a task of `P`. -/
theorem onTask_keeps (ht : t.Laid ∧ P t) (h : G w) {m : EngineM Unit} (hm : Keeps (Held G P AnyShape) m) :
    wp (onTask t m) (fun t' w' => G w' ∧ t'.Laid ∧ P t') (fun _ => G) G w := by
  rw [wp_onTask]
  exact wp_mono (hm { world := w, task := t } ⟨h, ht.2, ht.1, trivial⟩) (fun _ _ h => ⟨h.world, h.laid, h.job⟩)
    (fun _ _ h => h.world) (fun _ h => h.world)

/-! ## The queue -/

theorem prepareAll_keeps (hr : JobRule G P) : ∀ (ts : List DownloadTask) (w : World), G w → AllJobs P ts →
    wp (prepareAll envs ts) (fun ts' w' => G w' ∧ AllJobs P ts') (fun _ => G) G w
  | [], _, h, _ => ⟨h, List.forall_mem_nil _⟩
  | t :: ts, w, h, hts => by
    unfold prepareAll
    rw [wp_bind]
    refine wp_mono (onTask_keeps (hts t List.mem_cons_self) h (keeps_withEngine (held_prepareTask hr))) ?_
      (fun _ _ h => h) (fun _ h => h)
    rintro t' w₁ ⟨h₁, ht'⟩
    rw [wp_bind]
    refine wp_mono (prepareAll_keeps hr ts w₁ h₁ fun u hu => hts u (List.mem_cons_of_mem _ hu)) ?_ (fun _ _ h => h)
      (fun _ h => h)
    exact fun ts' w₂ h₂ => ⟨h₂.1, List.forall_mem_cons.2 ⟨ht', h₂.2⟩⟩

/-- A task whose chunks change status only. -/
theorem JobRule.restatus (hr : JobRule G P) (ht : t.Laid ∧ P t) (horigin : t.SameOrigin t')
    (hlayout : t'.layout = t.layout) (hsize : t'.fileSize = t.fileSize) : t'.Laid ∧ P t' :=
  ⟨laid_iff.2 (by rw [hlayout, hsize]; exact laid_iff.1 ht.1), hr.origin _ _ horigin ht.2⟩

theorem AllJobs.set {ts : List DownloadTask} {i : Nat} (h : AllJobs P ts) (ht : t.Laid ∧ P t) :
    AllJobs P (ts.set i t) := by
  intro u hu
  rcases List.mem_or_eq_of_mem_set hu with hu | rfl
  · exact h u hu
  · exact ht

theorem JobRule.sweep (hr : JobRule G P) {es : List Event} (hes : ∀ e ∈ es, ∃ id, e = .assigned id .failed) (h : G w) :
    G { w with log := es ++ w.log } := by
  induction es with
  | nil => exact h
  | cons e es ih =>
    obtain ⟨τ, rfl⟩ := hes e List.mem_cons_self
    exact hr.logged _ (.assigned τ .failed) (by simp) (ih fun e he => hes e (List.mem_cons_of_mem _ he))

theorem failedTask_layout (t : DownloadTask) (j : Nat) : (failedTask t j).layout = t.layout :=
  failedTask_map Chunk.blank (fun _ => rfl) t j

/-- A step of the scheduler keeps the rule. -/
theorem JobRule.schedStep (hr : JobRule G P) {cfg : SchedulerConfig} {s s' : SchedState WorkerPc} {choice : Choice}
    (h : G s.world ∧ AllJobs P s.tasks) (heff : StepEffect (chunkExecutor envs) cfg s choice s') :
    G s'.world ∧ AllJobs P s'.tasks := by
  obtain ⟨hw, hts⟩ := h
  cases heff with
  | idle ht hworld => exact ⟨hworld ▸ hw, ht ▸ hts⟩
  | retire _ _ _ _ _ _ ht hworld => exact ⟨hworld ▸ hw, ht ▸ hts⟩
  | start i j order scheduled t c _ _ hti _ hcj ht hworld =>
    rw [hworld, ht]
    refine ⟨hr.logged _ _ (by simp) hw, hts.set ?_⟩
    exact hr.restatus (hts t (List.mem_of_getElem? hti)) ⟨rfl, rfl, rfl, rfl, rfl⟩ (map_set_eq hcj rfl) rfl
  | execute k w pc i t _ hk _ hti _ =>
    obtain ⟨ht, hworld, -⟩ := execute_spec (chunkExecutor envs) (l := pc) (i := i) (t := t) hk
    have htask := hts t (List.mem_of_getElem? hti)
    have hstep : Keeps (Held G P AnyShape) ((chunkExecutor envs).step w.taskId w.chunk pc) :=
      chunkExecutor_keeps (held_stepWorker hr) _ _
    have hheld : Held G P AnyShape (executed (chunkExecutor envs) s w pc t) :=
      hstep.run { world := s.world, task := t } ⟨hw, htask.2, htask.1, trivial⟩
    rw [hworld, ht]
    exact ⟨hheld.world, hts.set ⟨hheld.laid, hheld.job⟩⟩
  | record k w i t _ _ hti _ ht hworld =>
    rw [hworld, ht]
    refine ⟨hr.logged _ _ (by simp) hw, hts.set ?_⟩
    exact hr.restatus (hts t (List.mem_of_getElem? hti)) ⟨rfl, rfl, rfl, rfl, rfl⟩ (failedTask_layout t w.chunk) rfl
  | sweep _ _ ht hworld =>
    obtain ⟨es, hes, hall⟩ := sweep_log (s := s)
    rw [hworld, hes, ht]
    refine ⟨hr.sweep hall hw, fun u hu => ?_⟩
    rcases sweep_tasks (s := s) with hsame | ⟨-, hswept⟩
    · exact hts u (hsame ▸ hu)
    · rw [hswept] at hu
      obtain ⟨t, ht, rfl⟩ := List.mem_map.1 hu
      unfold sweepTask
      split
      · exact hr.restatus (hts t ht) ⟨rfl, rfl, rfl, rfl, rfl⟩ rfl rfl
      · exact hts t ht

theorem finishTask_keeps (hr : JobRule G P) (ht : t.Laid ∧ P t) : Keeps G (finishTask envs t) := by
  intro w h
  unfold finishTask
  split
  · exact wp_mono (onTask_keeps ht h (held_download hr)) (fun _ _ h => h.1) (fun _ _ h => h) (fun _ h => h)
  · split
    · exact wp_mono (onTask_keeps ht h (held_finalize hr)) (fun _ _ h => h.1) (fun _ _ h => h) (fun _ h => h)
    · exact h

theorem finishAll_keeps (hr : JobRule G P) : ∀ ts : List DownloadTask, AllJobs P ts → Keeps G (finishAll envs ts)
  | [], _ => KeepsOr.pure _
  | t :: ts, hts => by
    have hrest : Keeps G (finishAll envs ts) := finishAll_keeps hr ts fun u hu => hts u (List.mem_cons_of_mem _ hu)
    exact (finishTask_keeps hr (hts t List.mem_cons_self)).bind fun _ => hrest.bind fun _ => KeepsOr.pure _

theorem runRunnable_keeps (hr : JobRule G P) {r : QueueRun} {ts : List DownloadTask} (hts : AllJobs P ts) :
    Keeps G (runRunnable r ts) := by
  intro w h
  unfold runRunnable
  rw [wp_bind]
  refine wp_mono (prepareAll_keeps hr ts w h hts) ?_ (fun _ _ h => h) (fun _ h => h)
  rintro prepared w₁ ⟨h₁, hprepared⟩
  have hrun : G (runs (chunkExecutor r.prepare) r.config.normalized
      { tasks := prepared, world := w₁ } r.schedule).world ∧
      AllJobs P (runs (chunkExecutor r.prepare) r.config.normalized
        { tasks := prepared, world := w₁ } r.schedule).tasks :=
    run_inv (I := fun s : SchedState WorkerPc => G s.world ∧ AllJobs P s.tasks)
      (fun s c hs => hr.schedStep hs (step_effect c)) ⟨h₁, hprepared⟩
  rw [wp_bind]
  exact wp_schedulerRun rfl (fun _ _ => finishAll_keeps hr _ hrun.2 _ hrun.1) hrun.1

/-! ## Recovery -/

theorem JobRule.trimmed (hr : JobRule G P) (h : G w) (hw : Trimmed w w') : G w' := by
  have heq : w' = { w with disk := { w.disk with parts := w'.disk.parts }, tick := w'.tick } := by
    obtain ⟨htasks, hout, hlog, -⟩ := hw
    dsimp only
    rw [← htasks, ← hout, ← hlog]
  rw [heq]
  exact hr.tick _ w'.tick (hr.parts w w'.disk.parts h)

theorem JobRule.repair (hr : JobRule G P) (ht : t.Laid ∧ P t) (h : G w) :
    wp (repairFromDisk env t) (fun t' w' => G w' ∧ t'.Laid ∧ P t') (fun _ => G) G w := by
  refine wp_mono (repairFromDisk_wp t w) ?_ (fun _ _ h' => hr.trimmed h h') (fun _ h' => hr.trimmed h h')
  rintro t' _ ⟨w₁, hw₁, hrep, rfl⟩
  refine ⟨?_, hr.restatus ht hrep.same.origin (repairs_map (fun _ _ => rfl) hrep.chunks) hrep.same.2.2.2.2.1⟩
  unfold World.noted
  split
  · exact hr.logged _ _ (by simp) (hr.trimmed h hw₁)
  · exact hr.trimmed h hw₁

/-- The tasks that are not corrupted. -/
theorem recoverLoop_keeps (hr : JobRule G P) : ∀ (ts : List DownloadTask),
    (∀ t ∈ ts, t.status ≠ .corrupted → t.Laid ∧ P t) → Keeps G (recoverLoop env ts)
  | [], _ => KeepsOr.pure _
  | t :: ts, hts => by
    have hrest : Keeps G (recoverLoop env ts) := recoverLoop_keeps hr ts fun u hu => hts u (List.mem_cons_of_mem _ hu)
    unfold recoverLoop
    split
    · exact hrest.bind fun _ => KeepsOr.pure _
    · intro w h
      rw [wp_bind]
      refine wp_mono (hr.repair (hts t List.mem_cons_self ‹_›) h) ?_ (fun _ _ h => h) (fun _ h => h)
      rintro t' w₁ ⟨h₁, ht'⟩
      exact ((hr.saveTask ht').bind fun _ => hrest.bind fun _ => KeepsOr.pure _) w₁ h₁

/-- What is loaded are jobs of `P`, and made up entries. -/
theorem StoreRule.loadsAll (hr : StoreRule G P) (h : G w) {scan : List TaskId} (ht : t ∈ w.disk.loadAllTasks env scan)
    (hst : t.status ≠ .corrupted) : t.Laid ∧ P t := by
  obtain ⟨id, -, -, hload | ⟨-, rfl⟩⟩ := mem_loadAllTasks ht
  · exact hr.loads w id t h hload
  · exact absurd rfl hst

theorem recoverTasks_keeps (hr : StoreRule G P) (scan : List TaskId) : Keeps G (recoverTasks env scan) := by
  intro w h
  unfold recoverTasks
  rw [wp_bind, wp_get]
  exact recoverLoop_keeps hr.toJobRule _ (fun t ht hst => hr.loadsAll h ht hst) w h

theorem runQueuedTasks_keeps (hr : StoreRule G P) (r : QueueRun) : Keeps G (runQueuedTasks r) := by
  refine (recoverTasks_keeps hr r.scan).bind fun _ w h => ?_
  rw [wp_bind, wp_get]
  refine ((KeepsOr.ofExcept _).bind fun _ => (runRunnable_keeps hr.toJobRule fun t ht => ?_).bind fun _ =>
    KeepsOr.pure _) w h
  obtain ⟨ht, hst⟩ := List.mem_filter.1 ht
  refine hr.loadsAll h ht ?_
  rintro heq
  rw [heq] at hst
  cases hst

/-! ## The other operations -/

theorem createTask_keeps (hr : JobRule G P) {r : CreateRequest} (hnew : P (newTask env r)) :
    Keeps G (createTask env r) := by
  unfold createTask
  refine (hr.fileOp fun d => ⟨d.parts, rfl⟩).bind fun _ w h => ?_
  rw [wp_bind, wp_modify]
  exact ((hr.saveTask ⟨.inl rfl, hnew⟩).bind fun _ => KeepsOr.pure _) _ (hr.logged w _ (by simp) h)

theorem downloadTask_keeps (hr : JobRule G P) : Keeps (Held G P AnyShape) (downloadTask env) := by
  intro s h
  unfold downloadTask
  rw [wp_bind, wp_get]
  split
  · exact h
  · split
    · exact h
    · rw [setStatus, wp_bind, wp_modify, wp_bind, wp_get, wp_bind]
      have hqueued : Held G P AnyShape (s.setStatus .queued) :=
        (h.record hr (e := .assigned s.task.id .queued) (by simp)).progress hr ⟨rfl, rfl, rfl, rfl, rfl⟩ rfl rfl
      have hsave : Keeps (Held G P AnyShape) (do let s ← get; onWorld (saveTask env s.task)) := (held_tolerates hr).save
      have hsaved := hsave _ hqueued
      rw [wp_bind, wp_get] at hsaved
      exact wp_mono hsaved (fun _ s₁ h₁ => keeps_withEngine (held_download hr) s₁ h₁) (fun _ _ h => h) (fun _ h => h)

theorem downloadStored_keeps (hr : JobRule G P) (hload : ∀ t, w.disk.loadTask id = some t → t.Laid ∧ P t) (h : G w) :
    wp (downloadStored env id) (fun _ => G) (fun _ => G) G w := by
  unfold downloadStored
  rw [wp_bind]
  refine wp_loadTask (fun t ht => ?_) fun _ => h
  exact wp_mono (onTask_keeps (hload t ht) h (downloadTask_keeps hr)) (fun _ _ h => h.1) (fun _ _ h => h) (fun _ h => h)

theorem pausedTask_layout (t : DownloadTask) : (pausedTask env t).layout = t.layout := by
  unfold pausedTask DownloadTask.layout
  rw [List.map_map]
  refine List.map_congr_left fun c _ => ?_
  dsimp only [Function.comp_apply]
  split <;> rfl

theorem pauseTask_keeps (hr : JobRule G P) (hload : ∀ t, w.disk.loadTask id = some t → t.Laid ∧ P t) (h : G w) :
    wp (pauseTask env id) (fun _ => G) (fun _ => G) G w := by
  unfold pauseTask
  rw [wp_bind]
  refine wp_loadTask (fun t ht => ?_) fun _ => h
  split
  · exact h
  · rw [wp_bind, wp_modify]
    have hpaused : (pausedTask env t).Laid ∧ P (pausedTask env t) :=
      hr.restatus (hload t ht) ⟨rfl, rfl, rfl, rfl, rfl⟩ (pausedTask_layout t) rfl
    exact hr.saveTask hpaused _ (hr.logged w _ (by simp) h)

theorem dropFile_keeps {f : Nat → Fault} {g : TaskFiles → TaskFiles}
    (htick : ∀ (w : World) n, G w → G { w with tick := n }) (hdrop : ∀ w, G w → G (w.onFiles id g)) :
    Keeps G (ignoringErrors (filesOp f id g (fun _ d => d) .fileSystemError "remove")) := by
  refine KeepsOr.tryCatch (fun w h => ?_) fun _ => KeepsOr.pure _
  have hsame : ∀ w : World, w.onFiles id (fun d => d) = w := by
    intro w
    rw [World.onFiles, Function.update_eq_self]
  rw [filesOp, wp_operation]
  split
  · exact hdrop _ (htick w _ h)
  · rw [hsame]
    exact htick w _ h
  · rw [hsame]
    exact htick w _ h

theorem removeTask_keeps (hr : JobRule G P) (hload : ∀ t, w.disk.loadTask id = some t → t.Laid ∧ P t)
    (hdrop : ∀ w g, Dropping g → G w → G (w.onFiles id g)) (h : G w) :
    wp (removeTask env id) (fun _ => G) (fun _ => G) G w := by
  unfold removeTask
  rw [wp_bind]
  refine wp_loadTask (fun t ht => ?_) fun _ => h
  rw [wp_bind, wp_modify]
  have hremoved : (removedTask env t).Laid ∧ P (removedTask env t) :=
    hr.restatus (hload t ht) ⟨rfl, rfl, rfl, rfl, rfl⟩ rfl rfl
  refine ((hr.saveTask hremoved).bind fun _ => KeepsOr.bind ?_ fun _ => ?_) _ (hr.logged w _ (by simp) h)
  · unfold removeTaskFiles
    refine KeepsOr.bind ?_ fun _ => KeepsOr.bind ?_ fun _ => ?_
    · exact dropFile_keeps hr.tick fun w => hdrop w _ fun f => ⟨.inr rfl, .inl rfl⟩
    · exact dropFile_keeps hr.tick fun w => hdrop w _ fun f => ⟨.inl rfl, .inr rfl⟩
    · exact dropFile_keeps hr.tick fun w => hdrop w _ fun f => ⟨.inl rfl, .inl rfl⟩
  · unfold removeTaskTempDir
    split
    · exact KeepsOr.throw _
    · exact hr.fileOp fun d => ⟨_, rfl⟩

/-! ## Runs -/

/-- The task an operation creates, if any, is a job of `P`. -/
def Operation.Creates (P : DownloadTask → Prop) : Operation → Prop
  | .create env r => P (newTask env r)
  | _ => True

/-- Every operation keeps the rule. -/
theorem StoreRule.step (hr : StoreRule G P) {op : Operation} (hnew : op.Creates P) (h : G w) : G (op.step w) := by
  cases op with
  | create env r => exact Keeps.run (createTask_keeps hr.toJobRule hnew) w h
  | download env id => exact wp_const.1 (downloadStored_keeps hr.toJobRule (fun t => hr.loads w id t h) h)
  | pause env id => exact wp_const.1 (pauseTask_keeps hr.toJobRule (fun t => hr.loads w id t h) h)
  | remove env id =>
    exact wp_const.1 (removeTask_keeps hr.toJobRule (fun t => hr.loads w id t h) (fun w g => hr.dropped w id g) h)
  | recover env scan => exact Keeps.run (recoverTasks_keeps hr scan) w h
  | queue r => exact Keeps.run (runQueuedTasks_keeps hr r) w h

/-- The texts in the store are those of tasks of `P` that were saved under their ids. -/
structure Filed (P : DownloadTask → Prop) (w : World) : Prop where
  saved : ∀ t, .saved t ∈ w.log → t.Laid ∧ P t
  stored : ∀ id x, (w.disk.tasks id).main = some x ∨ (w.disk.tasks id).bak = some x →
    ∃ t, x = .written t ∧ t.id = id ∧ .saved t ∈ w.log

theorem Filed.version (h : Filed P w)
    (ht : (w.disk.tasks id).main = some (.written t) ∨ (w.disk.tasks id).bak = some (.written t)) :
    t.id = id ∧ .saved t ∈ w.log := by
  obtain ⟨u, heq, hu⟩ := h.stored id _ ht
  cases heq
  exact hu

theorem Filed.job (h : Filed P w) (hload : w.disk.loadTask id = some t) : t.id = id ∧ t.Laid ∧ P t := by
  obtain ⟨hid, hsaved⟩ := h.version (load_spec hload)
  exact ⟨hid, h.saved t hsaved⟩

theorem Filed.fresh {parts out : Path → Option Bytes} : Filed P (World.fresh parts out) :=
  ⟨fun t ht => absurd ht (by simp [World.fresh]), fun id x hx => by simp [World.fresh] at hx⟩

/-- What is in a task's files after a save was written by it or was there before. -/
theorem saveTask_texts {x : TaskText}
    (h : ((w.saveTask t).disk.tasks id).main = some x ∨ ((w.saveTask t).disk.tasks id).bak = some x) :
    (id = t.id ∧ x = .written t) ∨ (w.disk.tasks id).main = some x ∨ (w.disk.tasks id).bak = some x := by
  by_cases hid : id = t.id
  · subst hid
    simp only [World.saveTask, Function.update_self, TaskFiles.commit, Option.some.injEq] at h
    rcases h with rfl | h
    · exact .inl ⟨rfl, rfl⟩
    · right
      cases hmain : (w.disk.tasks t.id).main with
      | none => exact .inr (by simpa [hmain] using h)
      | some y => exact .inl (by simpa [hmain] using h)
  · exact .inr (by simpa [World.saveTask, Function.update_of_ne hid] using h)

theorem Filed.save (h : Filed P w) (ht : t.Laid ∧ P t) : Filed P (w.saveTask t) := by
  refine ⟨fun u hu => ?_, fun id x hx => ?_⟩
  · rcases List.mem_cons.1 hu with heq | hu
    · cases heq
      exact ht
    · exact h.saved u hu
  · rcases saveTask_texts hx with ⟨rfl, rfl⟩ | hx
    · exact ⟨t, rfl, rfl, List.mem_cons_self⟩
    · obtain ⟨u, hxu, hid, hsaved⟩ := h.stored id x hx
      exact ⟨u, hxu, hid, List.mem_cons_of_mem _ hsaved⟩

/-- Removing files removes texts only. -/
theorem dropped_texts {g : TaskFiles → TaskFiles} (hg : Dropping g) {τ : TaskId} {x : TaskText}
    (h : ((w.onFiles τ g).disk.tasks id).main = some x ∨ ((w.onFiles τ g).disk.tasks id).bak = some x) :
    (w.disk.tasks id).main = some x ∨ (w.disk.tasks id).bak = some x := by
  by_cases hid : id = τ
  · subst hid
    simp only [World.onFiles, Function.update_self] at h
    refine h.imp (fun h => ?_) fun h => ?_
    · rcases (hg (w.disk.tasks id)).1 with hsame | hnone
      · rw [← hsame, h]
      · rw [hnone] at h
        cases h
    · rcases (hg (w.disk.tasks id)).2 with hsame | hnone
      · rw [← hsame, h]
      · rw [hnone] at h
        cases h
  · simpa [World.onFiles, Function.update_of_ne hid] using h

/-- What the store always keeps. -/
theorem filed_rule (horigin : ∀ t t' : DownloadTask, t.SameOrigin t' → P t → P t') : StoreRule (Filed P) P where
  origin := horigin
  tick _ _ h := ⟨h.saved, h.stored⟩
  parts _ _ h := ⟨h.saved, h.stored⟩
  logged w e he h := by
    refine ⟨fun t ht => ?_, fun id x hx => ?_⟩
    · exact h.saved t ((List.mem_cons.1 ht).resolve_left fun heq => he t heq.symm)
    · obtain ⟨u, hxu, hid, hsaved⟩ := h.stored id x hx
      exact ⟨u, hxu, hid, List.mem_cons_of_mem _ hsaved⟩
  saved w t hl hp h := h.save ⟨hl, hp⟩
  out w w' t hw _ h := ⟨by rw [hw.log]; exact h.saved, by rw [hw.tasks, hw.log]; exact h.stored⟩
  loads w id t h hload := (h.job hload).2
  dropped w id g hg h := ⟨h.saved, fun id' x hx => h.stored id' x (dropped_texts hg hx)⟩

/-- A run from a world without tasks stores tasks of `P` if it creates no others. -/
theorem run_filed_of (horigin : ∀ t t' : DownloadTask, t.SameOrigin t' → P t → P t') (parts out : Path → Option Bytes)
    {ops : List Operation} (hnew : ∀ op ∈ ops, op.Creates P) : Filed P (runOperations (.fresh parts out) ops) :=
  GuardedRun.inv (fun _ _ h hop => (filed_rule horigin).step hop h) Filed.fresh (GuardedRun.of_all hnew)

/-- Every run from a world without tasks keeps the store in order. -/
theorem run_filed (parts out : Path → Option Bytes) (ops : List Operation) :
    Filed (fun _ => True) (runOperations (.fresh parts out) ops) :=
  run_filed_of (fun _ _ _ _ => trivial) parts out fun op _ => by cases op <;> trivial

/-! ## Tilings -/

/-- The task has no chunks, or they are numbered and follow each other from the first to the
last byte of its file. -/
def DownloadTask.Tiled (t : DownloadTask) : Prop :=
  t.chunks = [] ∨ (Tiles 0 t.chunks t.fileSize ∧ t.chunks.map (·.index) = List.range t.chunks.length)

instance : DecidablePred DownloadTask.Tiled := fun t =>
  inferInstanceAs (Decidable (t.chunks = [] ∨
    (Tiles 0 t.chunks t.fileSize ∧ t.chunks.map (·.index) = List.range t.chunks.length)))

/-- Every version of a task that was ever written, and every one in the store. -/
def EachVersion (p : DownloadTask → Prop) (w : World) : Prop :=
  (∀ t, .saved t ∈ w.log → p t) ∧
    ∀ id t, (w.disk.tasks id).main = some (.written t) ∨ (w.disk.tasks id).bak = some (.written t) → p t

theorem DownloadTask.Laid.tiled {t : DownloadTask} (h : t.Laid) : t.Tiled :=
  h.imp (fun h => h) fun hlaid => ⟨hlaid.1, hlaid.2.1⟩

end Cget
