import Cget.Records
import Cget.Reloadable
import Cget.Uncorrupted
/-!
# The queue and the foreground

A task can be downloaded by `download`, or by `runQueuedTasks`: `prepareTask`, the scheduler
and `finalizePreparedTask`, or `download` once more for a task without chunks. We say for
which answers of the server both come to the ending of the task, `taskEnding`.
-/

namespace Cget

open Prog SchedState

variable {env : Env} {t u : DownloadTask} {d : Disk} {s : Session} {w : World} {info : RemoteFileInfo}

/-! ## Preparation -/

/-- The status and the task that `prepareTask` leaves. -/
def preparation (env : Env) (t : DownloadTask) : TaskStatus × DownloadTask :=
  match env.protocol.fetchMetadata t.url with
  | .error e => (failureStatus e, t)
  | .ok info =>
    if metadataChanged t info then (.metadataMismatch, t)
    else (.downloading, if ranged env (rememberMetadata t info) info then plannedTask env t info
      else rememberMetadata t info)

/-- A task is prepared as `preparation` says, or its directory could not be made. -/
def Prepares (env : Env) (t : DownloadTask) (d : Disk) (s : Session) : Prop :=
  (Poised (preparation env t).2 d s ∧ s.task.status = (preparation env t).1) ∨
    (∃ n k, env.fault n = .fail k) ∧ (preparation env t).1 = .downloading ∧ s.task.chunks = t.chunks ∧
    s.task.status = .failed ∧
      s.world.disk.parts = d.parts

theorem prepareFrom_prepares {info : RemoteFileInfo} (hp : env.Persists) (h : Poised t d s)
    (hst : s.task.status = .downloading)
    (hfetch : env.protocol.fetchMetadata t.url = .ok info) (hsame : metadataChanged t info = false) :
    wp (prepareFrom env info) (fun _ s' => Prepares env t d s')
      (fun e => wp (failWith env e) (fun _ s' => Prepares env t d s') (fun _ _ => False) fun _ =>
        ∃ n k, env.fault n = .crash k)
      (fun _ => ∃ n k, env.fault n = .crash k) s := by
  have hprep : preparation env t =
      (.downloading, if ranged env (rememberMetadata t info) info then plannedTask env t info
        else rememberMetadata t info) := by
    rw [preparation, hfetch]
    dsimp only
    rw [hsame, if_neg Bool.false_ne_true]
  have hplan : (rememberMetadata t info).SamePlan (rememberMetadata s.task info) := h.plan.remember
  have hetag : (rememberMetadata s.task info).remoteEtag = (rememberMetadata t info).remoteEtag := by
    simp only [rememberMetadata, h.etag]
  have hmodified : (rememberMetadata s.task info).remoteLastModified =
      (rememberMetadata t info).remoteLastModified := by
    simp only [rememberMetadata, h.lastModified]
  unfold Prepares
  rw [hprep]
  unfold prepareFrom prepareChunks ensureTaskTempDir
  rw [wp_bind, wp_updateTask, wp_bind, wp_bind, wp_get, hplan.ranged]
  by_cases hranged : ranged env (rememberMetadata t info) info
  · rw [if_pos hranged, if_pos hranged]
    simp only [wp_bind, onWorld, wp_focus]
    refine wp_fileOp (fun _ => ?_) (fun k hk => ?_) fun k hk => ⟨_, k, hk⟩
    · rw [wp_updateTask, wp_updateTask]
      have hplanned : (planRange env _ (rememberMetadata t info)).SamePlan
          (planRange env _ (rememberMetadata s.task info)) :=
        hplan.plan (rememberMetadata s.task info).fileSize
      have hsize : (rememberMetadata s.task info).fileSize = (rememberMetadata t info).fileSize := hplan.same.2.2.2.2.1
      rw [hsize] at hplanned ⊢
      exact hp.persistTask (.inl ⟨⟨⟨hplanned.same, hplanned.chunks, hplanned.threads⟩, h.parts, h.out, hetag,
        hmodified⟩, hst⟩)
    · exact hp.setFailure (.inr ⟨⟨_, k, hk⟩, trivial, h.plan.chunks, rfl, h.parts⟩)
  · rw [if_neg hranged, if_neg hranged, wp_pure]
    exact hp.persistTask (.inl ⟨⟨⟨hplan.same, hplan.chunks, hplan.threads⟩, h.parts, h.out, hetag, hmodified⟩, hst⟩)

/-- What `prepareTask` does when task files can be written. -/
theorem prepareTask_saved (hp : env.Persists) (h : Poised t d s) :
    wp (prepareTask env) (fun _ s' => Prepares env t d s') (fun _ _ => False)
      (fun _ => ∃ n k, env.fault n = .crash k) s := by
  unfold prepareTask
  simp only [wp_tryCatch, wp_bind]
  refine h.begin hp (fun e s₁ hfetch h₁ => ?_) fun info s₁ hfetch h₁ hst₁ => ?_
  · rw [failWith_eq]
    refine hp.setFailure (.inl ?_)
    rw [preparation, hfetch]
    exact ⟨⟨⟨h₁.plan.same, h₁.plan.chunks, h₁.plan.threads⟩, h₁.parts, h₁.out, h₁.etag, h₁.lastModified⟩, rfl⟩
  · rw [wp_get, h₁.metadata]
    by_cases hnew : metadataChanged t info
    · rw [if_pos hnew]
      refine hp.setFailure (.inl ?_)
      rw [preparation, hfetch]
      dsimp only
      rw [if_pos hnew]
      exact ⟨⟨⟨h₁.plan.same, h₁.plan.chunks, h₁.plan.threads⟩, h₁.parts, h₁.out, h₁.etag, h₁.lastModified⟩, rfl⟩
    · rw [if_neg hnew]
      exact prepareFrom_prepares hp h₁ hst₁ hfetch (Bool.eq_false_of_not_eq_true hnew)

theorem prepareTask_prepares (hf : env.Smooth) (h : Poised t d s) :
    wp (prepareTask env) (fun _ s' => Poised (preparation env t).2 d s' ∧ s'.task.status = (preparation env t).1)
      (fun _ _ => False) (fun _ => False) s := by
  refine wp_mono (prepareTask_saved hf.persists h) ?_ (fun _ _ h => h) fun s' h => ?_
  · rintro _ s' (hprepared | ⟨⟨n, k, hk⟩, -⟩)
    · exact hprepared
    · rw [(hf n).1] at hk
      cases hk
  · obtain ⟨n, k, hk⟩ := h
    rw [(hf n).1] at hk
    cases hk

theorem preparation_id : (preparation env t).2.id = t.id := by
  unfold preparation
  split
  · rfl
  · split
    · rfl
    · dsimp only
      split <;> rfl

theorem preparation_laid (h : t.Laid) : (preparation env t).2.Laid := by
  unfold preparation
  split
  · exact h
  · split
    · exact h
    · have hremembered : (rememberMetadata t _).Laid := rememberMetadata_laid h (Bool.eq_false_of_not_eq_true ‹_›)
      dsimp only
      split
      · exact planRange_laid hremembered fun _ => .inr rfl
      · exact hremembered

/-! ## The scheduler on one task -/

section Alone

variable {envs : TaskId → Env} {q : DownloadTask} {sc : SchedState WorkerPc} {b : Bytes}

theorem Returned.alone (h : Returned envs d [t] sc) : ∃ q, sc.tasks = [q] :=
  List.length_eq_one_iff.1 h.tracked.length

/-- A task with nothing to start comes back as it was. -/
theorem Returned.alone_left (h : Returned envs d [t] sc) (hnone : hasSchedulableChunk t = false) : sc.tasks = [t] := by
  obtain ⟨q, hq⟩ := h.alone
  have hti : sc.tasks[0]? = some q := by rw [hq]; rfl
  rcases (h.left (List.nodup_singleton _) (i := 0) rfl hti hnone).1 with rfl | ⟨hfailed, -⟩
  · exact hq
  · obtain ⟨i, t₀, -, hi, -, hst, ⟨c, hc, hsched, -⟩, -⟩ := h.failedChunk hfailed
    obtain rfl : t = t₀ := List.mem_singleton.1 (List.mem_of_getElem? hi) |>.symm
    have hany : t.chunks.any (·.schedulable) := List.any_eq_true.2 ⟨c, hc, hsched⟩
    rw [hasSchedulableChunk, hst, hany] at hnone
    cases hnone

/-- What the scheduler makes of a prepared task. -/
theorem Returned.alone_ends (h : Returned envs d [t] sc) (ht : Downloadable t d) (hst : t.status = .downloading) :
    ∃ q, sc.tasks = [q] ∧ t.SameRequest q ∧
      (¬ Doomed (envs t.id) d t ∧ Gathered (envs t.id) t d { world := sc.world, task := q } ∧
          (q.status = .downloading ∨ q.status = .retrying) ∨
        Doomed (envs t.id) d t ∧ allComplete q.chunks = false ∧ (q.status = .retrying ∨ q.status = .failed)) := by
  obtain ⟨q, hq⟩ := h.alone
  have hi : sc.tasks[0]? = some q := by rw [hq]; rfl
  have hfated := h.tracked.task 0 t q rfl hi
  have hstatus : q.status = .downloading ∨ q.status = .retrying ∨ q.status = .failed ∧ sc.workerFailed := by
    by_cases hw : ∃ w ∈ sc.workers, w.taskId = q.id
    · exact hfated.status hw
    · push Not at hw
      rcases hfated.untouched hw with rfl | ⟨hfailed, rfl⟩
      · exact .inl hst
      · exact .inr (.inr ⟨by rw [sweepTask_status, if_pos hst], hfailed⟩)
  refine ⟨q, hq, hfated.same, ?_⟩
  by_cases hfailed : sc.workerFailed
  · obtain ⟨i, t₀, q', hi₀, hi', -, hdoomed, c, hc, hcst⟩ := h.failedChunk hfailed
    obtain rfl : t = t₀ := List.mem_singleton.1 (List.mem_of_getElem? hi₀) |>.symm
    obtain rfl : q' = q := List.mem_singleton.1 (hq ▸ List.mem_of_getElem? hi')
    refine .inr ⟨hdoomed, ?_, ?_⟩
    · rw [allComplete, List.all_eq_false]
      exact ⟨c, hc, by simp [hcst]⟩
    · rcases hstatus with hs | hs | ⟨hs, -⟩
      · exact absurd hs (h.swept hfailed q' (by rw [hq]; exact List.mem_singleton_self _))
      · exact .inl hs
      · exact .inr hs
  · rw [Bool.not_eq_true] at hfailed
    refine .inl ⟨fun hdoomed => ?_, h.gathered hfailed (i := 0) rfl hi (by rw [hst]; rfl) fun c hc hsched => ?_, ?_⟩
    · have hset := h.failed (i := 0) rfl (by rw [hst]; rfl) hdoomed
      rw [hfailed] at hset
      cases hset
    · obtain ⟨hcst, hcount⟩ := (ht.sorted c hc).complete hsched
      exact ⟨ht.whole c hc hsched, hcount, hcst⟩
    · rcases hstatus with hs | hs | ⟨-, hset⟩
      · exact .inl hs
      · exact .inr hs
      · rw [hfailed] at hset
        cases hset

/-! ## The end of the queue -/

theorem finalize_finished (hf : env.Smooth) (hst : finishedStatus s.task.status) :
    wp (finalizePreparedTask env) (fun _ s' => s'.task.status = s.task.status ∧ s'.world.disk.out = s.world.disk.out)
      (fun _ _ => False) (fun _ => False) s := by
  unfold finalizePreparedTask
  rw [wp_bind, wp_get, if_pos hst]
  exact hf.persistTask ⟨rfl, rfl⟩

theorem finalize_incomplete (hf : env.Smooth) (hall : allComplete s.task.chunks = false)
    (hst : s.task.status = .retrying ∨ s.task.status = .failed) :
    wp (finalizePreparedTask env) (fun _ s' => s'.task.status = .failed ∧ s'.world.disk.out = s.world.disk.out)
      (fun _ _ => False) (fun _ => False) s := by
  rcases hst with hst | hst
  · unfold finalizePreparedTask
    rw [wp_bind, wp_get, hst, hall]
    exact hf.setFailure ⟨rfl, rfl⟩
  · exact wp_mono (finalize_finished hf (by rw [hst]; rfl)) (fun _ _ h => ⟨h.1.trans hst, h.2⟩) (fun _ _ h => h)
      (fun _ h => h)

theorem finalize_gathered (hf : env.Faultless) (h : Gathered env t d s) (htiles : Tiles 0 t.chunks t.fileSize)
    (hst : s.task.status = .downloading ∨ s.task.status = .retrying) :
    wp (finalizePreparedTask env) (fun _ s' =>
      EndsAs t.targetPath (committed env t (rangedBytes env t d)) s'.task s'.world)
      (fun _ _ => False) (fun _ => False) s := by
  have hunfinished : finishedStatus s.task.status = false := by rcases hst with hst | hst <;> rw [hst] <;> rfl
  unfold finalizePreparedTask
  rw [wp_bind, wp_get, hunfinished, h.allComplete]
  exact h.merge hf htiles

/-- What the queue does with a task whose preparation failed. -/
theorem finishTask_refused (hf : (envs t.id).Smooth) (hst : t.status = .failed ∨ t.status = .metadataMismatch) :
    wp (finishTask envs t) (fun t' w' => t'.status = t.status ∧ w'.disk.out = w.disk.out) (fun _ _ => False)
      (fun _ => False) w := by
  unfold finishTask
  have hfinished : finishedStatus t.status := by rcases hst with hst | hst <;> rw [hst] <;> rfl
  have hno : ¬ (t.chunks = [] ∧ t.status ≠ .failed ∧ t.status ≠ .metadataMismatch) := fun h => by
    rcases hst with hst | hst
    · exact h.2.1 hst
    · exact h.2.2 hst
  rw [if_neg hno]
  split
  · rw [wp_onTask]
    exact finalize_finished (s := { world := w, task := t }) hf hfinished
  · exact ⟨rfl, rfl⟩

end Alone

/-! ## The same server -/

/-- Engines that meet the same server, with the same settings. -/
structure SameServer (env env' : Env) : Prop where
  protocol : env'.protocol = env.protocol
  sha256 : env'.sha256 = env.sha256
  maxRetries : env'.maxRetries = env.maxRetries
  maxThreads : env'.maxThreads = env.maxThreads
  hardware : env'.hardware = env.hardware

namespace SameServer

variable {env' : Env}

theorem attemptFate (h : SameServer env env') (url : Text) (path : Except Exn Path) (c : Chunk) (left : Nat) :
    ∀ n, attemptFate env' url path c left n = attemptFate env url path c left n := by
  have htry : ∀ again n, tryFate env' url path c again n = tryFate env url path c again n := by
    intro again n
    funext part retries
    cases path with
    | error e => simp only [tryFate, caughtFate, h.maxRetries]
    | ok p => simp only [tryFate, requestFate, transferFate, closedFate, caughtFate, h.protocol, h.maxRetries]
  induction left with
  | zero => exact htry _
  | succ left ih =>
    intro n
    rw [Cget.attemptFate, Cget.attemptFate, ih, htry]

theorem chunkFate (h : SameServer env env') : chunkFate env' = chunkFate env := by
  funext t d c
  rw [Cget.chunkFate, Cget.chunkFate, h.maxRetries, h.attemptFate]

theorem ranged (h : SameServer env env') : ranged env' t info = ranged env t info := by
  unfold Cget.ranged normalizedThreadCount
  rw [h.maxThreads]

theorem plannedTask (h : SameServer env env') : plannedTask env' t info = plannedTask env t info := by
  unfold Cget.plannedTask planRange normalizedThreadCount
  rw [h.maxThreads, h.hardware]

theorem committed (h : SameServer env env') {b : Bytes} : committed env' t b = committed env t b := by
  unfold Cget.committed DownloadTask.accepts
  rw [h.sha256]

theorem referencePart (h : SameServer env env') : referencePart env' t d = referencePart env t d := by
  funext c
  unfold Cget.referencePart
  rw [h.chunkFate]

theorem gathered (h : SameServer env env') : Gathered env' t d s ↔ Gathered env t d s := by
  constructor
  · rintro ⟨hsame, hlength, hchunk⟩
    exact ⟨hsame, hlength, h.referencePart ▸ hchunk⟩
  · rintro ⟨hsame, hlength, hchunk⟩
    exact ⟨hsame, hlength, h.referencePart.symm ▸ hchunk⟩

theorem rangedBytes (h : SameServer env env') : rangedBytes env' t d = rangedBytes env t d := by
  unfold Cget.rangedBytes
  rw [h.referencePart]

theorem doomed (h : SameServer env env') : Doomed env' d t ↔ Doomed env d t := by
  unfold Doomed
  rw [h.chunkFate]

theorem preparation (h : SameServer env env') : preparation env' t = preparation env t := by
  unfold Cget.preparation
  simp only [h.protocol, h.ranged, h.plannedTask]

theorem singleEnding (h : SameServer env env') : singleEnding env' t d info = singleEnding env t d info := by
  unfold Cget.singleEnding
  simp only [h.protocol, h.committed]

end SameServer

/-! ## The queue on one task -/

/-- The answers of the server and the part files for which both paths come to the ending. -/
def PathsMeet (env : Env) (t : DownloadTask) (d : Disk) : Prop :=
  match env.protocol.fetchMetadata t.url with
  | .error e => failureStatus e = .metadataMismatch ∨ NothingLeft t
  | .ok info =>
    metadataChanged t info ∨
      if ranged env (rememberMetadata t info) info then
        (info.fileSize ≠ 0 ∨ t.chunks ≠ []) ∧ Whole t d ∧ OrdinaryRanges env (plannedTask env t info) d
      else t.chunks = []

section Congruence

variable {d' : Disk}

theorem DownloadTask.SamePlan.apart (h : t.SamePlan u) (happ : PartsApart [t]) : PartsApart [u] := by
  refine happ.of_places fun v hv j c hc => ?_
  obtain rfl := List.mem_singleton.1 hv
  exact ⟨t, by simp, h.same, c, h.chunks ▸ hc, rfl⟩

theorem DownloadTask.SamePlan.partOn (h : t.SamePlan u) (hparts : d'.parts = d.parts) (c : Chunk) :
    u.partOn d' c = t.partOn d c := by
  simp only [DownloadTask.partOn, chunkPath_congr h.same rfl, hparts]

theorem Downloadable.congr (ht : Downloadable t d) (h : t.SamePlan u) (hparts : d'.parts = d.parts) :
    Downloadable u d' := by
  refine ⟨?_, fun c hc => ?_, h.apart ht.apart, fun c hc => ht.sorted c (h.chunks ▸ hc), fun c hc hsched => ?_⟩
  · rw [h.chunks, h.same.2.2.2.2.1]
    exact ht.tiles
  · rw [chunkPath_congr h.same rfl]
    exact ht.paths c (h.chunks ▸ hc)
  · rw [h.partOn hparts]
    exact ht.whole c (h.chunks ▸ hc) hsched

theorem Gathered.congr (h : t.SamePlan u) (hparts : d'.parts = d.parts) (hgathered : Gathered env u d' s) :
    Gathered env t d s := by
  have hpart : referencePart env u d' = referencePart env t d := by
    funext c
    rw [referencePart, referencePart, chunkFate_congr h.same hparts, h.partOn hparts]
  obtain ⟨hsame, hlength, hchunk⟩ := hgathered
  rw [h.chunks] at hlength hchunk
  rw [hpart] at hchunk
  exact ⟨h.same.trans hsame, hlength, hchunk⟩

theorem doomed_congr (h : t.SamePlan u) (hparts : d'.parts = d.parts) : Doomed env d' u ↔ Doomed env d t := by
  simp only [Doomed, h.chunks, chunkFate_congr h.same hparts]

end Congruence

/-- A task of the store can be downloaded in ranges, if its complete chunks have their bytes. -/
theorem plannedTask_downloadable (hlaid : t.Laid) (hsorted : ∀ c ∈ t.chunks, c.Sorted) (hwhole : Whole t d)
    (hchanged : metadataChanged t info = false) (hranged : ranged env (rememberMetadata t info) info) :
    Downloadable (plannedTask env t info) d := by
  have hremembered : (rememberMetadata t info).Laid := rememberMetadata_laid hlaid hchanged
  have hplanned : (plannedTask env t info).Laid := planRange_laid hremembered fun _ => .inr rfl
  have hsize : (plannedTask env t info).fileSize ≠ 0 := by
    simp only [ranged, Bool.and_eq_true, decide_eq_true_eq] at hranged
    exact hranged.1.1
  have hchunks : ∀ c ∈ (plannedTask env t info).chunks, c ∈ t.chunks ∨ c.schedulable := by
    intro c hc
    simp only [plannedTask, planRange] at hc
    split at hc
    · exact .inr (plan_schedulable c hc)
    · exact .inl hc
  have htiles : Tiles 0 (plannedTask env t info).chunks (plannedTask env t info).fileSize := by
    refine hplanned.elim (fun hnone => ?_) (·.1)
    simp only [plannedTask, planRange] at hnone
    split at hnone
    · have hplan := ChunkPlanner.plan_tiles env.hardware (rememberMetadata t info).fileSize
        (normalizedThreadCount env (rememberMetadata t info))
      rw [hnone] at hplan
      exact absurd (Eq.symm hplan) hsize
    · exact absurd hnone ‹_›
  refine ⟨htiles, hplanned.paths, hplanned.apart, fun c hc => ?_, fun c hc hsched => ?_⟩
  · exact (hchunks c hc).elim (hsorted c) .inr
  · rcases hchunks c hc with hold | hfree
    · exact hwhole c hold hsched
    · rw [hsched] at hfree
      cases hfree

theorem PathsMeet.ranges (h : PathsMeet env t d) (hlaid : t.Laid) (hsorted : ∀ c ∈ t.chunks, c.Sorted)
    (hfetch : env.protocol.fetchMetadata t.url = .ok info) (hchanged : metadataChanged t info = false)
    (hranged : ranged env (rememberMetadata t info) info) : RangesMeet env t d info := by
  simp only [PathsMeet, hfetch, hchanged, Bool.false_eq_true, false_or, if_pos hranged] at h
  exact ⟨h.1, plannedTask_downloadable hlaid hsorted h.2.1 hchanged hranged, h.2.2⟩

/-- The paths of a new task meet if the server announces a size and ranges, and serves them. -/
theorem meets_of_served (hnew : t.chunks = []) (hfetch : env.protocol.fetchMetadata t.url = .ok info)
    (hchanged : metadataChanged t info = false) (hranged : ranged env (rememberMetadata t info) info)
    (hannounced : info.fileSize ≠ 0)
    (hserved : ∀ start stop n, ∃ status, (env.protocol.downloadRange t.url start stop n).result = .ok status) :
    PathsMeet env t d := by
  have hnone : ∀ c, c ∉ t.chunks := fun c hc => by simp [hnew] at hc
  have hwhole : Whole t d := fun c hc => (hnone c hc).elim
  have hplanned : Downloadable (plannedTask env t info) d :=
    plannedTask_downloadable (.inl hnew) (fun c hc => (hnone c hc).elim) hwhole hchanged hranged
  have hordinary : OrdinaryRanges env (plannedTask env t info) d := hplanned.ordinary fun c _ _ already n _ _ e he => by
    obtain ⟨status, hstatus⟩ := hserved (c.start + already) c.stop n
    rw [show (plannedTask env t info).url = t.url from rfl, hstatus] at he
    cases he
  simp only [PathsMeet, hfetch]
  exact .inr (by rw [if_pos hranged]; exact ⟨.inl hannounced, hwhole, hordinary⟩)

/-- In a run of the queue, no pass of the scheduler starts a chunk that was started before. -/
def QueueRun.StartsOnce (r : QueueRun) (runnable : List DownloadTask) (w : World) : Prop :=
  match (prepareAll r.prepare runnable).run w with
  | (.ok prepared, w₁) =>
    GuardedRun (step (chunkExecutor r.prepare) r.config.normalized) (fun s c => startsUnstarted r.config.normalized s c)
      { tasks := prepared, world := w₁ } r.schedule
  | _ => True

instance (r : QueueRun) (runnable : List DownloadTask) (w : World) : Decidable (r.StartsOnce runnable w) :=
  match h : (prepareAll r.prepare runnable).run w with
  | (.ok prepared, w₁) => decidable_of_iff
      (GuardedRun (step (chunkExecutor r.prepare) r.config.normalized)
        (fun s c => startsUnstarted r.config.normalized s c)
        { tasks := prepared, world := w₁ } r.schedule) (by simp [QueueRun.StartsOnce, h])
  | (.thrown _, _) => isTrue (by simp [QueueRun.StartsOnce, h])
  | (.stopped, _) => isTrue (by simp [QueueRun.StartsOnce, h])

/-! ## The queue comes to the same ending -/

/-- What was remembered has not changed. -/
theorem metadata_remembered : metadataChanged (rememberMetadata t info) info = false := by
  simp only [metadataChanged, rememberMetadata, Bool.or_eq_false_iff, Bool.and_eq_false_iff, bne_eq_false_iff_eq]
  refine ⟨⟨?_, ?_⟩, ?_⟩
  · by_cases hsize : info.fileSize = 0
    · exact .inl (.inr hsize)
    · exact .inr (if_neg hsize)
  · cases info.etag with
    | none => exact .inl (.inr rfl)
    | some tag => exact .inr rfl
  · cases info.lastModified with
    | none => exact .inl (.inr rfl)
    | some date => exact .inr rfl

theorem ranged_remembered : ranged env (rememberMetadata (rememberMetadata t info) info) info = ranged env
    (rememberMetadata t info) info := by
  have hsize : (rememberMetadata (rememberMetadata t info) info).fileSize = (rememberMetadata t info).fileSize := by
    by_cases hzero : info.fileSize = 0
    · exact if_pos hzero
    · rw [rememberMetadata_size hzero, rememberMetadata_size hzero]
  unfold ranged
  rw [hsize]
  rfl

section Finishing

variable {envs : TaskId → Env} {q : DownloadTask}

/-- A prepared task without chunks is left to `download`. -/
theorem finishTask_single (hf : (envs s.task.id).Faultless) (hserver : SameServer env (envs s.task.id))
    (h : Poised (rememberMetadata t info) d s) (hfetch : env.protocol.fetchMetadata t.url = .ok info)
    (hranged : ranged env (rememberMetadata t info) info = false) (hchunks : s.task.chunks = [])
    (hst : s.task.status = .downloading) :
    wp (finishTask envs s.task) (EndsAs t.targetPath (singleEnding env t d info)) (fun _ _ => False)
      (fun _ => True) s.world := by
  have hsingle : ranged (envs s.task.id) (rememberMetadata (rememberMetadata t info) info) info = false := by
    rw [hserver.ranged, ranged_remembered, hranged]
  have hfetch' : (envs s.task.id).protocol.fetchMetadata (rememberMetadata t info).url = .ok info := by
    rw [hserver.protocol]
    exact hfetch
  have hending : taskEnding (envs s.task.id) (rememberMetadata t info) d = singleEnding env t d info := by
    unfold taskEnding
    rw [hfetch']
    dsimp only
    rw [metadata_remembered, if_neg Bool.false_ne_true, hsingle, if_neg Bool.false_ne_true, hserver.singleEnding]
    rfl
  unfold finishTask
  rw [if_pos ⟨hchunks, by simp [hst], by simp [hst]⟩, wp_onTask, ← hending]
  refine download_ends hf h fun info' hinfo' _ hranged' => ?_
  obtain rfl := Except.ok.inj (hfetch'.symm.trans hinfo')
  rw [hsingle] at hranged'
  cases hranged'

/-- A task whose chunks the scheduler has been through is merged, or fails. -/
theorem finishTask_ranged (hf : (envs q.id).Faultless) (hserver : SameServer env (envs q.id)) (ht : Downloadable t d)
    (hsize : t.fileSize ≠ 0)
    (h : ¬ Doomed env d t ∧ Gathered env t d { world := w, task := q } ∧
      (q.status = .downloading ∨ q.status = .retrying) ∨
      Doomed env d t ∧ allComplete q.chunks = false ∧ (q.status = .retrying ∨ q.status = .failed))
    (hout : w.disk.out = d.out) :
    wp (finishTask envs q) (EndsAs t.targetPath (rangedEnding env t d)) (fun _ _ => False) (fun _ => True) w := by
  have hfinalize : q.chunks ≠ [] →
      wp (finishTask envs q) (EndsAs t.targetPath (rangedEnding env t d)) (fun _ _ => False)
      (fun _ => True) w = wp (finalizePreparedTask (envs q.id))
      (fun _ s' => EndsAs t.targetPath (rangedEnding env t d) s'.task s'.world)
        (fun _ _ => False) (fun _ => True) { world := w, task := q } := by
    intro hne
    unfold finishTask
    rw [if_neg fun h => hne h.1, if_pos hne, wp_onTask]
  rcases h with ⟨hcalm, hgathered, hst⟩ | ⟨hdoomed, hall, hst⟩
  · have hne : q.chunks ≠ [] := by
      rw [← List.length_pos_iff, hgathered.length, List.length_pos_iff]
      rintro hnone
      have htiles := ht.tiles
      rw [hnone] at htiles
      exact hsize htiles.symm
    rw [hfinalize hne, rangedEnding, if_neg hcalm]
    refine wp_mono (finalize_gathered hf (hserver.gathered.2 hgathered) ht.tiles hst) (fun _ _ h => ?_) (fun _ _ h => h)
      (fun _ h => h.elim)
    rw [hserver.committed, hserver.rangedBytes] at h
    exact h
  · have hne : q.chunks ≠ [] := by
      rintro hnone
      rw [hnone] at hall
      cases hall
    rw [hfinalize hne, rangedEnding, if_pos hdoomed]
    refine wp_mono (finalize_incomplete hf.smooth hall hst) (fun _ _ h => ⟨h.1, ?_⟩) (fun _ _ h => h)
      (fun _ h => h.elim)
    rw [h.2, hout]

/-- Whatever `prepareTask` made of the task, it ends as `download` ends it. -/
theorem finishTask_prepared {envs' : TaskId → Env} {p : DownloadTask} {w₁ : World} {sc : SchedState WorkerPc}
    (hlaid : t.Laid) (hsorted : ∀ c ∈ t.chunks, c.Sorted) (hmeet : PathsMeet env t d)
    (hf : (envs' t.id).Faultless) (hserver : SameServer env (envs t.id)) (hserver' : SameServer env (envs' t.id))
    (hpoised : Poised (preparation env t).2 d { world := w₁, task := p }) (hst : p.status = (preparation env t).1)
    (h : Returned envs w₁.disk [p] sc) :
    ∃ q, sc.tasks = [q] ∧ wp (finishTask envs' q) (EndsAs t.targetPath (taskEnding env t d)) (fun _ _ => False)
      (fun _ => True) sc.world := by
  have hout : sc.world.disk.out = d.out := h.out.trans hpoised.out
  have hparts : w₁.disk.parts = d.parts := hpoised.parts
  -- a task that was refused is persisted as it is
  have hrefused : p.id = t.id → hasSchedulableChunk p = false → p.status = .failed ∨ p.status = .metadataMismatch →
      ∃ q, sc.tasks = [q] ∧ wp (finishTask envs' q)
        (EndsAs t.targetPath { status := p.status, file := d.out t.targetPath })
        (fun _ _ => False) (fun _ => True) sc.world := by
    intro hid hnone hst
    refine ⟨p, h.alone_left hnone, ?_⟩
    refine wp_mono (finishTask_refused (hid ▸ hf.smooth) hst) (fun _ _ hend => ⟨hend.1, ?_⟩) (fun _ _ h => h)
      (fun _ h => h.elim)
    rw [hend.2, hout]
  unfold PathsMeet at hmeet
  unfold preparation at hpoised hst
  unfold taskEnding
  cases hfetch : env.protocol.fetchMetadata t.url with
  | error e =>
    rw [hfetch] at hmeet hpoised hst
    dsimp only at hmeet hpoised hst ⊢
    have hkind : p.status = .failed ∨ p.status = .metadataMismatch := by
      rw [hst]
      unfold failureStatus
      split <;> simp
    rw [← hst]
    refine hrefused hpoised.plan.same.1 ?_ hkind
    rcases hmeet with hmismatch | hnothing
    · rw [hasSchedulableChunk, hst, hmismatch]
      rfl
    · rw [hasSchedulableChunk, show p.chunks = t.chunks from hpoised.plan.chunks, hnothing, Bool.and_false]
  | ok info =>
    rw [hfetch] at hmeet hpoised hst
    dsimp only at hmeet hpoised hst ⊢
    by_cases hnew : metadataChanged t info
    · rw [if_pos hnew] at hpoised hst ⊢
      rw [show TaskStatus.metadataMismatch = p.status from hst.symm]
      refine hrefused hpoised.plan.same.1 ?_ (.inr hst)
      rw [hasSchedulableChunk, hst]
      rfl
    · rw [if_neg hnew] at hpoised hst ⊢
      have hmeet := hmeet.resolve_left hnew
      rw [Bool.not_eq_true] at hnew
      by_cases hranged : ranged env (rememberMetadata t info) info
      · rw [if_pos hranged] at hmeet hpoised ⊢
        obtain ⟨hannounced, hwhole, -⟩ := hmeet
        have ht : Downloadable (plannedTask env t info) d := plannedTask_downloadable hlaid hsorted hwhole hnew hranged
        obtain ⟨q, hq, hsame, hends⟩ := h.alone_ends (ht.congr hpoised.plan hparts) hst
        have hid : q.id = t.id := hsame.1.trans hpoised.plan.same.1
        have hserver₁ : SameServer env (envs p.id) := (show p.id = t.id from hpoised.plan.same.1).symm ▸ hserver
        have hsize : (plannedTask env t info).fileSize ≠ 0 := by
          simp only [ranged, Bool.and_eq_true, decide_eq_true_eq] at hranged
          exact hranged.1.1
        rw [hserver₁.doomed, hserver₁.gathered, doomed_congr hpoised.plan hparts] at hends
        refine ⟨q, hq, finishTask_ranged (hid ▸ hf) (hid ▸ hserver') ht hsize (hends.imp ?_ id) hout⟩
        exact fun hdone => ⟨hdone.1, hdone.2.1.congr hpoised.plan hparts, hdone.2.2⟩
      · rw [if_neg hranged] at hmeet hpoised ⊢
        rw [Bool.not_eq_true] at hranged
        have hnone : p.chunks = [] := hpoised.plan.chunks.trans hmeet
        have hid : p.id = t.id := hpoised.plan.same.1
        have hleft : sc.tasks = [p] := h.alone_left (by rw [hasSchedulableChunk, hnone, List.any_nil, Bool.and_false])
        have hposed : Poised (rememberMetadata t info) sc.world.disk { world := sc.world, task := p } :=
          ⟨hpoised.plan, rfl, rfl, hpoised.etag, hpoised.lastModified⟩
        have hsingle : singleEnding env t sc.world.disk info = singleEnding env t d info := by
          simp only [singleEnding, hout]
        rw [← hsingle]
        exact ⟨p, hleft, finishTask_single (hid ▸ hf) (hid ▸ hserver') hposed hfetch hranged hnone hst⟩

end Finishing

/-- However the scheduler orders its steps, if it starts no chunk again. -/
theorem runRunnable_ends {r : QueueRun} (hlaid : t.Laid) (hsorted : ∀ c ∈ t.chunks, c.Sorted)
    (hmeet : PathsMeet env t w.disk)
    (hprepare : (r.prepare t.id).Faultless) (hfinish : (r.finish t.id).Faultless)
    (hserver : SameServer env (r.prepare t.id))
    (hserver' : SameServer env (r.finish t.id)) (honce : r.StartsOnce [t] w) :
    wp (runRunnable r [t]) (fun ts w' => ∃ t', ts = [t'] ∧ EndsAs t.targetPath (taskEnding env t w.disk) t' w')
      (fun _ _ => False) (fun _ => True) w := by
  have hprepared : wp (prepareAll r.prepare [t])
      (fun ts w₁ => ∃ p, ts = [p] ∧ Poised (preparation env t).2 w.disk { world := w₁, task := p } ∧
        p.status = (preparation env t).1)
      (fun _ _ => False) (fun _ => False) w := by
    simp only [prepareAll, wp_bind, wp_onTask, wp_pure]
    rw [← hserver.preparation, withEngine_created hprepare.engine]
    exact wp_mono (prepareTask_prepares hprepare.smooth .refl) (fun _ s h => ⟨s.task, rfl, h⟩) (fun _ _ h => h)
      (fun _ h => h)
  unfold runRunnable
  rw [wp_bind]
  rcases hrun : (prepareAll r.prepare [t]).run w with ⟨prepared | e | _, w₁⟩
  · rw [wp_of_ok hrun] at hprepared ⊢
    obtain ⟨p, rfl, hpoised, hst⟩ := hprepared
    have hguard : GuardedRun (step (chunkExecutor r.prepare) r.config.normalized)
        (fun s c => startsUnstarted r.config.normalized s c) { tasks := [p], world := w₁ } r.schedule := by
      simpa [QueueRun.StartsOnce, hrun] using honce
    have happ : PartsApart [p] := hpoised.plan.apart (preparation_laid hlaid).apart
    have hids : ([p].map (·.id)).Nodup := List.nodup_singleton _
    have hsmooth : ∀ q ∈ [p], (r.prepare q.id).Smooth := by
      intro q hq
      rw [List.mem_singleton.1 hq, show p.id = t.id from hpoised.plan.same.1.trans preparation_id]
      exact hprepare.smooth
    rw [wp_bind]
    refine wp_schedulerRun rfl (fun _ hret => ?_) trivial
    have hreturned := runs_returned hids happ hsmooth hguard rfl hret
    obtain ⟨q, hq, hends⟩ := finishTask_prepared hlaid hsorted hmeet hfinish hserver hserver' hpoised hst hreturned
    rw [hq]
    simp only [finishAll, wp_bind, wp_pure]
    exact wp_mono hends (fun t' _ h => ⟨t', rfl, h⟩) (fun _ _ h => h) (fun _ h => h)
  · rw [wp_of_thrown hrun] at hprepared
    exact hprepared.elim
  · rw [wp_of_stopped hrun] at hprepared
    exact hprepared.elim

/-! ## After a recovery -/

theorem repaired_sorted {c : Chunk} {n : Nat} (h : n ≤ c.size) : (c.repaired n).Sorted := by
  rcases Nat.eq_or_lt_of_le h with rfl | hlt
  · exact .inl ⟨if_pos rfl, rfl⟩
  · right
    have hsize : (c.repaired n).size = c.size := rfl
    simp only [Chunk.schedulable, hsize, Bool.and_eq_true, decide_eq_true_eq]
    refine ⟨?_, hlt⟩
    simp only [Chunk.repaired, if_neg (Nat.ne_of_lt hlt)]
    split <;> rfl

/-- What a recovery returns can be downloaded. -/
theorem recoverLoop_sorted : ∀ (ts : List DownloadTask) (w : World),
    (∀ t ∈ ts, t.status ≠ .corrupted → t.Laid) → (∀ t ∈ ts, t.status = .corrupted → t.chunks = []) →
    wp (recoverLoop env ts) (fun ts' _ => ∀ t ∈ ts', t.Laid ∧ ∀ c ∈ t.chunks, c.Sorted) (fun _ _ => True)
      (fun _ => True) w
  | [], _, _, _ => List.forall_mem_nil _
  | t :: ts, w, hlaid, hmade => by
    have hrest : ∀ w, wp (recoverLoop env ts) (fun ts' _ => ∀ t ∈ ts', t.Laid ∧ ∀ c ∈ t.chunks, c.Sorted)
        (fun _ _ => True) (fun _ => True) w := fun w =>
      recoverLoop_sorted ts w (fun u hu => hlaid u (List.mem_cons_of_mem _ hu)) fun u hu =>
      hmade u (List.mem_cons_of_mem _ hu)
    unfold recoverLoop
    split
    · rename_i hst
      have hnone := hmade t List.mem_cons_self hst
      have ht : t.Laid ∧ ∀ c ∈ t.chunks, c.Sorted := ⟨.inl hnone, fun c hc => by rw [hnone] at hc; cases hc⟩
      rw [wp_bind]
      exact wp_mono (hrest w) (fun ts' _ h => List.forall_mem_cons.2 ⟨ht, h⟩) (fun _ _ h => h) (fun _ h => h)
    · rename_i hst
      rw [wp_bind]
      refine wp_mono (repairFromDisk_wp t w) ?_ (fun _ _ _ => trivial) (fun _ _ => trivial)
      rintro t' _ ⟨w₁, -, hrep, rfl⟩
      have ht : t'.Laid ∧ ∀ c ∈ t'.chunks, c.Sorted := by
        refine ⟨laid_iff.2 ?_, fun c' hc' => ?_⟩
        · rw [show t'.layout = t.layout from repairs_map (fun _ _ => rfl) hrep.chunks, hrep.same.2.2.2.2.1]
          exact laid_iff.1 (hlaid t List.mem_cons_self hst)
        · obtain ⟨c, -, n, hn, rfl, -⟩ := repairs_mem hrep.chunks hc'
          exact repaired_sorted hn
      rw [wp_bind]
      refine wp_saveTask (fun _ => ?_) (fun _ _ => trivial) fun _ _ => trivial
      rw [wp_bind]
      exact wp_mono (hrest _) (fun ts' _ h => List.forall_mem_cons.2 ⟨ht, h⟩) (fun _ _ h => h) (fun _ h => h)

theorem recoverTasks_sorted (parts out : Path → Option Bytes) (ops : List Operation) (scan : List TaskId) :
    wp (recoverTasks env scan) (fun ts _ => ∀ t ∈ ts, t.Laid ∧ ∀ c ∈ t.chunks, c.Sorted) (fun _ _ => True)
      (fun _ => True) (runOperations (.fresh parts out) ops) := by
  have hfiled := run_filed parts out ops
  unfold recoverTasks
  rw [wp_bind, wp_get]
  refine recoverLoop_sorted _ _ (fun t ht hst => ?_) fun t ht => (run_uncorrupted parts out ops).listed ht
  exact ((filed_rule fun _ _ _ _ => trivial).loadsAll hfiled ht hst).1

/-! ## Agreement -/

/-- The foreground and the queue meet the same server, with the same settings, and nothing
they write fails. -/
structure Alike (env : Env) (r : QueueRun) (t : DownloadTask) : Prop where
  faultless : env.Faultless
  prepare : (r.prepare t.id).Faultless
  finish : (r.finish t.id).Faultless
  server : SameServer env (r.prepare t.id)
  serverAfter : SameServer env (r.finish t.id)

/-- If both come to an end, they leave the same status and the same file at the target path. -/
def PathsAgree (env : Env) (r : QueueRun) (t : DownloadTask) (w : World) : Prop :=
  ∀ (o : Outcome Exn Unit) (s : Session) (o' : Outcome Exn (List DownloadTask)) (w' : World),
    (download env).run { world := w, task := t } = (o, s) → o ≠ .stopped →
    (runRunnable r [t]).run w = (o', w') → o' ≠ .stopped →
    o = .ok () ∧ ∃ t', o' = .ok [t'] ∧ t'.status = s.task.status ∧
    w'.disk.out t.targetPath = s.world.disk.out t.targetPath

/-- The queue and the foreground agree on every task a recovery returns, whatever ran before,
if the answers of the server and the part files let them and no chunk is started twice. -/
theorem paths_agree (parts out : Path → Option Bytes) (ops : List Operation) (recovery : Env) (scan : List TaskId)
    (ts : List DownloadTask) (w : World)
    (hrecovered : (recoverTasks recovery scan).run (runOperations (.fresh parts out) ops) = (.ok ts, w))
    (t : DownloadTask) (ht : t ∈ ts) (env : Env) (r : QueueRun) (halike : Alike env r t)
    (hmeet : PathsMeet env t w.disk) (honce : r.StartsOnce [t] w) : PathsAgree env r t w := by
  have hrecover : wp (recoverTasks recovery scan) _ _ _ (runOperations (.fresh parts out) ops) :=
    recoverTasks_sorted parts out ops scan
  rw [wp_of_ok hrecovered] at hrecover
  obtain ⟨hlaid, hsorted⟩ := hrecover t ht
  have hforeground : wp (download env) (fun _ s' => EndsAs t.targetPath (taskEnding env t w.disk) s'.task s'.world)
      (fun _ _ => False) (fun _ => True) { world := w, task := t } :=
    download_ends halike.faultless .refl fun _ hfetch hchanged hranged =>
    hmeet.ranges hlaid hsorted hfetch hchanged hranged
  have hqueued :=
    runRunnable_ends hlaid hsorted hmeet halike.prepare halike.finish halike.server halike.serverAfter honce
  intro o s o' w' hdownload ho hqueue ho'
  cases o with
  | stopped => exact absurd rfl ho
  | thrown e =>
    rw [wp_of_thrown hdownload] at hforeground
    exact hforeground.elim
  | ok u =>
    cases o' with
    | stopped => exact absurd rfl ho'
    | thrown e =>
      rw [wp_of_thrown hqueue] at hqueued
      exact hqueued.elim
    | ok ts' =>
      rw [wp_of_ok hdownload] at hforeground
      rw [wp_of_ok hqueue] at hqueued
      obtain ⟨t', rfl, hst, hfile⟩ := hqueued
      exact ⟨rfl, t', rfl, hst.trans hforeground.1.symm, hfile.trans hforeground.2.symm⟩

/-- A server of two bytes, one for each chunk. -/
def halvesEnv : Env := { bytewiseEnv with turns := List.replicate 12 0 ++ List.replicate 12 1 }

def halvesRequest : CreateRequest where
  id := text "a"
  url := text "http://host/file"
  fileName := text "file"
  targetPath := text "/out"
  requestedThreads := 2

/-- The task is created, and the store recovered. -/
def halvesRecovered : Outcome Exn (List DownloadTask) × World :=
  (recoverTasks halvesEnv [halvesRequest.id]).run
    (runOperations (.fresh (fun _ => none) fun _ => none) [.create halvesEnv halvesRequest])

/-- The queue with both workers through before the coordinator goes on. -/
def halvesRun (env : Env) : QueueRun :=
  { bytewiseRun with
    prepare := fun _ => env
    schedule := List.replicate 5 .coordinator ++ List.replicate 12 (.worker 0) ++ List.replicate 12 (.worker 1) ++
      [.coordinator, .worker 0, .worker 1] ++ List.replicate 6 .coordinator
    finish := fun _ => env }

theorem halves_recovered : halvesRecovered = (.ok [newTask halvesEnv halvesRequest], halvesRecovered.2) :=
  Prod.ext (by decide +kernel) rfl

theorem halvesEnv_faultless : halvesEnv.Faultless := ⟨fun _ => ⟨rfl, rfl⟩, rfl, rfl⟩

theorem halves_alike {env : Env} (hf : env.Faultless) {t : DownloadTask} : Alike env (halvesRun env) t :=
  ⟨hf, hf, hf, ⟨rfl, rfl, rfl, rfl, rfl⟩, ⟨rfl, rfl, rfl, rfl, rfl⟩⟩

theorem halves_meet : PathsMeet halvesEnv (newTask halvesEnv halvesRequest) d :=
  have hfetch : halvesEnv.protocol.fetchMetadata (newTask halvesEnv halvesRequest).url =
      .ok { fileSize := 2, supportsRange := true } := rfl
  meets_of_served rfl hfetch (by decide) (by decide) (by decide) fun _ _ _ => ⟨_, rfl⟩

theorem paths_agree_halves : PathsAgree halvesEnv (halvesRun halvesEnv)
    (newTask halvesEnv halvesRequest) halvesRecovered.2 :=
  paths_agree (fun _ => none) (fun _ => none) [.create halvesEnv halvesRequest] halvesEnv
    [halvesRequest.id] _ _ halves_recovered
    _ (List.mem_singleton_self _) halvesEnv (halvesRun halvesEnv) (halves_alike halvesEnv_faultless)
    halves_meet (by decide +kernel)

/-- A server that announces ranges, and refuses every request for one. -/
def unrangedEnv : Env :=
  { halvesEnv with
    protocol :=
      { halvesEnv.protocol with
        downloadRange := fun _ _ _ _ => { result := .error (.cget .rangeNotSupportedError []) }
        downloadSingle := fun _ => { blocks := [{ data := [7, 8] }] } } }

/-- The foreground falls back to a single stream and completes the task, the queue fails it. -/
theorem refused_ranges_disagree :
    ∃ (parts out : Path → Option Bytes) (ops : List Operation) (recovery : Env) (scan : List TaskId)
      (ts : List DownloadTask) (w : World) (t : DownloadTask) (env : Env) (r : QueueRun),
      (recoverTasks recovery scan).run (runOperations (.fresh parts out) ops) = (.ok ts, w) ∧ t ∈ ts ∧ Alike env r t ∧
        r.StartsOnce [t] w ∧ ((download env).run { world := w, task := t }).2.task.status = .completed ∧
        ¬ PathsAgree env r t w := by
  refine ⟨fun _ => none, fun _ => none, [.create halvesEnv halvesRequest], halvesEnv, [halvesRequest.id], _, _,
    newTask halvesEnv halvesRequest,
    unrangedEnv, halvesRun unrangedEnv, halves_recovered, List.mem_singleton_self _,
    halves_alike ⟨fun _ => ⟨rfl, rfl⟩, rfl, rfl⟩, ?_, ?_, ?_⟩
  · decide +kernel
  · decide +kernel
  · intro hagree
    obtain ⟨-, t', -, -, hfile⟩ :=
      hagree _ _ _ _ Prod.mk.eta.symm (by decide +kernel) Prod.mk.eta.symm (by decide +kernel)
    revert hfile
    decide +kernel

end Cget
