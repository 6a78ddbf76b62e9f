import Cget.Agreement
import Cget.Neighbours
/-!
# Tasks that leave each other alone

What a queue makes of one of its tasks, as a function of the task, its files and the answers
to its own requests. Where no chunk that is started ends in an exception, none is started
twice, complete chunks have their bytes and the tasks share no file, no other task comes
into it: two such runs with the task, on whatever other tasks and in whatever order of
steps, leave the same record, the same task file and the same target.
-/

namespace Cget

open Prog SchedState

variable {env env' : Env} {envs : TaskId → Env} {t u p p' : DownloadTask} {d d' : Disk} {s : Session}
  {w w' w₁ w₁' : World} {ts : List DownloadTask} {b : Bytes}

/-! ## The end of a task -/

def incompleteMessage : Text := text "not all scheduled chunks completed"

/-- What `finalizePreparedTask` makes of a task whose part files have these bytes. -/
def concluded (env : Env) (t : DownloadTask) (b : Bytes) : DownloadTask :=
  if allComplete t.chunks then finalized env t b
  else { t with status := .failed, lastError := some incompleteMessage, updatedAt := env.now }

/-- Status, error and time of a task do not outlive it. -/
theorem concluded_restamp (st : TaskStatus) (e : Option Text) (n : Nat) :
    concluded env { t with status := st, lastError := e, updatedAt := n } b = concluded env t b := by
  unfold concluded finalized
  dsimp only
  split
  · rfl
  · rfl

theorem finalize_concludes (hf : env.Faultless) (hst : Working s.task.status)
    (hgather : allComplete s.task.chunks → gatherParts s.world.disk s.task.tempDir s.task.chunks = (b, none) ∧
      b.length = s.task.fileSize) :
    wp (finalizePreparedTask env)
      (fun _ s' => s'.task = concluded env s.task b ∧
        s'.world.disk.out s.task.targetPath =
        if allComplete s.task.chunks then some b else s.world.disk.out s.task.targetPath)
      (fun _ _ => False) (fun _ => False) s := by
  have hunfinished : finishedStatus s.task.status = false := by rcases hst with hst | hst <;> rw [hst] <;> rfl
  unfold finalizePreparedTask concluded
  rw [wp_bind, wp_get, hunfinished]
  cases hall : allComplete s.task.chunks with
  | true =>
    obtain ⟨hparts, hsize⟩ := hgather hall
    exact mergeAndComplete_finalized hf hparts hsize
  | false => exact hf.smooth.setFailure ⟨rfl, rfl⟩

/-! ## Functions of the files of a task -/

section Files

variable (hpart : ∀ c, p.partOn d' c = p.partOn d c)

include hpart in
theorem calmTask_congr : calmTask env p d' = calmTask env p d := by
  have hchunk : calmChunk env p d' = calmChunk env p d := by
    funext c
    rw [calmChunk, calmChunk, chunkFate_partOn .refl (hpart c)]
  rw [calmTask, calmTask, hchunk]

include hpart in
theorem rangedBytes_congr : rangedBytes env p d' = rangedBytes env p d := by
  have hparts : referencePart env p d' = referencePart env p d := by
    funext c
    rw [referencePart, referencePart, chunkFate_partOn .refl (hpart c), hpart c]
  rw [rangedBytes, rangedBytes, hparts]

end Files

/-! ## The way of a task -/

/-- `prepareTask` makes `p` of `t`, when the files of `t` are those of `w`. -/
def PreparedFrom (env : Env) (t : DownloadTask) (w : World) (p : DownloadTask) : Prop :=
  ∃ w₁ w₂, SameFiles t w w₁ ∧ (onTask t (prepareTask env)).run w₁ = (.ok p, w₂)

/-- What a queue makes of `t` from `w` to `w'`, where `env` prepares and `env'` finishes it. -/
inductive Way (env env' : Env) (t : DownloadTask) (w w' : World) (u : DownloadTask) : Prop
  /-- The scheduler starts the chunks that need it. -/
  | scheduled (p : DownloadTask) : PreparedFrom env t w p → hasSchedulableChunk p →
      u = concluded env' (calmTask env p w.disk) (rangedBytes env p w.disk) →
      w'.disk.out t.targetPath =
        (if allComplete (calmTask env p w.disk).chunks then some
          (rangedBytes env p w.disk) else w.disk.out t.targetPath) →
      Way env env' t w w' u
  /-- The scheduler has nothing to do for it. -/
  | idle (p : DownloadTask) (w₁ w₂ : World) : PreparedFrom env t w p → hasSchedulableChunk p = false →
      SameFiles t w w₁ →
      (finishTask (fun _ => env') p).run w₁ = (.ok u, w₂) → SameFiles t w₂ w' → Way env env' t w w' u

theorem preparation_origin : t.SameOrigin (preparation env t).2 := by
  unfold preparation
  split
  · exact ⟨rfl, rfl, rfl, rfl, rfl⟩
  · split
    · exact ⟨rfl, rfl, rfl, rfl, rfl⟩
    · dsimp only
      split <;> exact ⟨rfl, rfl, rfl, rfl, rfl⟩

/-- A prepared task, as `preparation` says. -/
theorem PreparedFrom.poised (hf : env.Smooth) (h : PreparedFrom env t w p) :
    (preparation env t).2.SamePlan p ∧ p.status = (preparation env t).1 := by
  obtain ⟨w₁, w₂, -, hrun⟩ := h
  have hprepares : wp (onTask t (prepareTask env))
      (fun p _ => (preparation env t).2.SamePlan p ∧ p.status = (preparation env t).1)
      (fun _ _ => False) (fun _ => False) w₁ :=
    wp_onTask.2 (wp_mono (prepareTask_prepares hf .refl) (fun _ _ h => ⟨h.1.plan, h.2⟩) (fun _ _ h => h) (fun _ h => h))
  exact (wp_of_ok hrun).1 hprepares

theorem PreparedFrom.origin (hf : env.Smooth) (h : PreparedFrom env t w p) : t.SameOrigin p :=
  preparation_origin.trans (h.poised hf).1.same.origin

theorem PreparedFrom.unique (hf : env.Smooth) (h : PreparedFrom env t w p) (h' : PreparedFrom env t w' p')
    (hfiles : SameFiles t w w') : p' = p := by
  obtain ⟨w₁, w₂, hw, hrun⟩ := h
  obtain ⟨w₁', w₂', hw', hrun'⟩ := h'
  have hstep := inStep_onTask (u := t) (inStep_prepareTask hf) rfl rfl w₁ w₁' ((hw.symm.trans hfiles).trans hw')
  rw [hrun, hrun'] at hstep
  exact Outcome.ok.inj hstep.1

/-- A task has one way, whatever else there is in the world. -/
theorem Way.unique {u' : DownloadTask} (hf : env.Smooth) (hf' : env'.Faultless) (h : Way env env' t w w₁ u)
    (h' : Way env env' t w' w₁' u') (hfiles : SameFiles t w w') :
    u' = u ∧ w₁'.disk.out t.targetPath = w₁.disk.out t.targetPath := by
  cases h with
  | scheduled p hp hsched hu hout =>
    have hpart : ∀ c, p.partOn w'.disk c = p.partOn w.disk c :=
      (hfiles.congr (hp.origin hf).2.2.1 (hp.origin hf).2.2.2.1).partOn
    cases h' with
    | scheduled p' hp' hsched' hu' hout' =>
      obtain rfl := hp.unique hf hp' hfiles
      rw [hu, hu', hout, hout', calmTask_congr hpart, rangedBytes_congr hpart, hfiles.target]
      exact ⟨rfl, rfl⟩
    | idle p' _ _ hp' hnone =>
      obtain rfl := hp.unique hf hp' hfiles
      rw [hsched] at hnone
      cases hnone
  | idle p w₂ w₃ hp hnone hw₂ hrun hw₃ =>
    cases h' with
    | scheduled p' hp' hsched =>
      obtain rfl := hp.unique hf hp' hfiles
      rw [hsched] at hnone
      cases hnone
    | idle p' w₂' w₃' hp' _ hw₂' hrun' hw₃' =>
      obtain rfl := hp.unique hf hp' hfiles
      have horigin := hp.origin hf
      have hfinish : InStep (SameFiles t) (finishTask (fun _ => env') p') (finishTask (fun _ => env') p') :=
        inStep_finishTask hf' horigin.2.2.1 horigin.2.2.2.1
      have hstep := hfinish w₂ w₂' ((hw₂.symm.trans hfiles).trans hw₂')
      rw [hrun, hrun'] at hstep
      exact ⟨Outcome.ok.inj hstep.1, ((hw₃.symm.trans hstep.2).trans hw₃').target⟩

/-! ## Tasks that share no file -/

/-- The chunks that are complete have their bytes. -/
def DownloadTask.Backed (t : DownloadTask) (d : Disk) : Prop :=
  ∀ c ∈ t.chunks, c.status = .completed → c.downloaded = c.size → Cget.fileSize (t.partOn d c) = c.size

theorem chunkPath_ok {c : Chunk} {q : Path} (h : chunkPath t c = .ok q) :
    SafeName c.tempPath ∧ q = joinPath t.tempDir c.tempPath := by
  unfold chunkPath at h
  split at h
  · cases h
  · exact ⟨Bool.eq_false_of_not_eq_true ‹_›, (Except.ok.inj h).symm⟩

/-- Tasks of different ids share no file. -/
def AllSeparate (ts : List DownloadTask) : Prop := ∀ t ∈ ts, ∀ u ∈ ts, u.id ≠ t.id → t.Separate u

/-- No temp directory of one task is inside that of another. -/
def AllDirsApart (ts : List DownloadTask) : Prop := ∀ t ∈ ts, ∀ u ∈ ts, u.id ≠ t.id → t.DirsApart u

theorem AllSeparate.dirs (h : AllSeparate ts) : AllDirsApart ts := fun t ht u hu hid => (h t ht u hu hid).dirs

theorem AllDirsApart.apart (hdirs : AllDirsApart ts) (hids : (ts.map (·.id)).Nodup) (hlaid : ∀ t ∈ ts, t.Laid) :
    PartsApart ts := by
  intro t ht u hu j k c d q hc hd hpc hpd
  by_cases hid : u.id = t.id
  · obtain rfl := List.inj_on_of_nodup_map hids hu ht hid
    exact (hlaid u ht).apart u (List.mem_singleton_self _) u (List.mem_singleton_self _) j k c d q hc hd hpc hpd
  · obtain ⟨hsafe, hq⟩ := chunkPath_ok hpc
    obtain ⟨hsafe', hq'⟩ := chunkPath_ok hpd
    exact absurd (hq.symm.trans hq') ((hdirs t ht u hu hid).paths hsafe hsafe')

/-! ## Preparation -/

/-- `p` is `t` prepared, and the files of `t` are as they were. -/
def Readied (env : Env) (w w₁ : World) (t p : DownloadTask) : Prop := PreparedFrom env t w p ∧ SameFiles t w w₁

theorem prepareAll_readied (hf : ∀ id, (envs id).Faultless) (hids : (ts.map (·.id)).Nodup) (hsep : AllSeparate ts)
    (hlaid : ∀ t ∈ ts, t.Laid) :
    wp (prepareAll envs ts) (fun ps w₁ => List.Forall₂ (fun t p => Readied (envs t.id) w w₁ t p) ts ps)
      (fun _ _ => False) (fun _ => True) w := by
  have hprepares : ∀ (t : DownloadTask) (w₁ : World), wp (onTask t (prepareTask (envs t.id)))
      (fun _ w₂ => w₂.disk.out = w₁.disk.out ∧ w₂.disk.parts = w₁.disk.parts) (fun _ _ => False)
      (fun _ => False) w₁ := fun t w₁ =>
    wp_onTask.2 (wp_mono (prepareTask_prepares (hf t.id).smooth .refl) (fun _ _ h => ⟨h.1.out, h.1.parts⟩)
      (fun _ _ h => h) (fun _ h => h))
  rw [prepareAll_eq fun id => (hf id).engine]
  refine wp_mono (finishEach_rounds ts w hids (fun t ht u hu hid w => ?_) fun t _ w₁ _ => ?_) ?_ (fun _ _ h => h)
    (fun _ h => h)
  · exact keeps_prepareTask (hsep u hu t ht (Ne.symm hid)) hid (hlaid u hu)
  · exact wp_mono (hprepares t w₁) (fun _ _ _ => trivial) (fun _ _ h => h) (fun _ h => h.elim)
  · intro ps w₁ hrounds
    refine hrounds.imp fun t p hround => ?_
    obtain ⟨w₂, w₃, hw₂, hrun, hw₃⟩ := hround
    obtain ⟨hout, hparts⟩ := (wp_of_ok hrun).1 (hprepares t w₂)
    exact ⟨⟨w₂, w₃, hw₂, hrun⟩, (hw₂.trans (.of_disk hout hparts)).trans hw₃⟩

/-- Planned chunks claim nothing. -/
theorem preparation_backed (h : t.Backed d) : (preparation env t).2.Backed d := by
  have hplan : ∀ {size : Nat} {v : DownloadTask}, v.Backed d → (planRange env size v).Backed d := by
    intro size v hv c hc hst hcount
    simp only [planRange] at hc
    split at hc
    · rw [(ChunkPlanner.plan_fresh _ _ _ c hc).2.1] at hst
      cases hst
    · exact hv c hc hst hcount
  unfold preparation
  split
  · exact h
  · split
    · exact h
    · dsimp only
      split
      · exact hplan h
      · exact h

/-! ## After the scheduler -/

/-- What the scheduler makes of a prepared task if no worker fails. -/
def Scheduled (env : Env) (d : Disk) (p q : DownloadTask) : Prop :=
  if hasSchedulableChunk p then
    Working q.status ∧ ∃ st e n, q = { calmTask env p d with status := st, lastError := e, updatedAt := n }
  else q = p

theorem calmTask_laid (h : t.Laid) : (calmTask env t d).Laid := by
  refine laid_iff.2 ?_
  have hlayout : (calmTask env t d).layout = t.layout := by
    simp only [DownloadTask.layout, calmTask, recomputeDownloaded, List.map_map]
    refine List.map_congr_left fun c _ => ?_
    simp only [Function.comp_apply, calmChunk]
    split <;> rfl
  rw [hlayout]
  exact laid_iff.1 h

theorem Scheduled.laid (h : Scheduled env d p p') (hlaid : p.Laid) : p'.Laid := by
  unfold Scheduled at h
  split at h
  · obtain ⟨-, _, _, _, rfl⟩ := h
    exact calmTask_laid hlaid
  · rw [h]
    exact hlaid

theorem Scheduled.origin (h : Scheduled env d p p') : p.SameOrigin p' := by
  unfold Scheduled at h
  split at h
  · obtain ⟨-, _, _, _, rfl⟩ := h
    exact ⟨rfl, rfl, rfl, rfl, rfl⟩
  · rw [h]
    exact ⟨rfl, rfl, rfl, rfl, rfl⟩

theorem Scheduled.prepared (h : Scheduled env d p p') (hst : Prepared p.status) : Prepared p'.status := by
  unfold Scheduled at h
  split at h
  · exact .inl h.1
  · rw [h]
    exact hst

section Returned

variable {sc : SchedState WorkerPc} {ps : List DownloadTask} {i : Nat} {q : DownloadTask}

theorem Returned.scheduled (h : Returned envs d ps sc) (hbooks : Books d ps sc) (hids : (ps.map (·.id)).Nodup)
    (hcalm : sc.workerFailed = false) (hp : ps[i]? = some p) (hq : sc.tasks[i]? = some q) :
    Scheduled (envs p.id) d p q := by
  unfold Scheduled
  split
  · exact h.calm hbooks hcalm hp hq ‹_›
  · exact h.idle hids hcalm hp hq (Bool.eq_false_of_not_eq_true ‹_›)

/-- The part files of a task that could be scheduled and is complete are all its bytes. -/
theorem Returned.gathers (h : Returned envs d ps sc) (hcalm : sc.workerFailed = false) (hp : ps[i]? = some p)
    (hq : sc.tasks[i]? = some q) (hst : isSchedulableStatus p.status) (hlaid : p.Laid) (hbacked : p.Backed d)
    (hchunks : p.chunks ≠ []) (hall : allComplete q.chunks) :
    gatherParts sc.world.disk q.tempDir q.chunks = (rangedBytes (envs p.id) p d, none) ∧
      (rangedBytes (envs p.id) p d).length = q.fileSize := by
  refine (h.gathered hcalm hp hq hst fun c hc hsched => ?_).gathers (hlaid.resolve_left hchunks).1
  have hmem : c ∈ q.chunks := by
    rw [h.calmChunks hcalm hp hq hst]
    refine List.mem_map.2 ⟨c, hc, ?_⟩
    rw [calmChunk, hsched, if_neg Bool.false_ne_true]
  have hcomplete := List.all_eq_true.1 hall c hmem
  simp only [Bool.and_eq_true, decide_eq_true_eq] at hcomplete
  exact ⟨hbacked c hc hcomplete.1 hcomplete.2, hcomplete.2, hcomplete.1⟩

/-- The end of a task whose chunks the scheduler started, wherever its files are as the scheduler left them. -/
theorem Returned.concludes {envs' : TaskId → Env} (h : Returned envs d ps sc) (hbooks : Books d ps sc)
    (hcalm : sc.workerFailed = false)
    (hp : ps[i]? = some p) (hq : sc.tasks[i]? = some q) (hsched : hasSchedulableChunk p) (hlaid : p.Laid)
    (hbacked : p.Backed d) (hf : (envs' q.id).Faultless) (hw : SameFiles q sc.world w) :
    wp (finishTask envs' q)
      (fun u w' => u = concluded (envs' q.id) (calmTask (envs p.id) p d) (rangedBytes (envs p.id) p d) ∧
        w'.disk.out p.targetPath =
          if allComplete (calmTask (envs p.id) p d).chunks then some
            (rangedBytes (envs p.id) p d) else d.out p.targetPath)
      (fun _ _ => False) (fun _ => False) w := by
  have hst : isSchedulableStatus p.status := (Bool.and_eq_true _ _ ▸ hsched).1
  have hchunks : p.chunks ≠ [] := by
    rintro hnone
    rw [hasSchedulableChunk, hnone, List.any_nil, Bool.and_false] at hsched
    cases hsched
  have hgathers := h.gathers hcalm hp hq hst hlaid hbacked hchunks
  obtain ⟨hworking, st, e, n, rfl⟩ := h.calm hbooks hcalm hp hq hsched
  have hne : (calmTask (envs p.id) p d).chunks ≠ [] := fun hnone => hchunks (List.map_eq_nil_iff.1 hnone)
  unfold finishTask
  rw [if_neg fun hx => hne hx.1, if_pos hne, wp_onTask]
  refine wp_mono (finalize_concludes (b := rangedBytes (envs p.id) p d) hf hworking fun hall => ?_) ?_ (fun _ _ h => h)
    (fun _ h => h)
  · obtain ⟨hparts, hsize⟩ := hgathers hall
    exact ⟨hw.gathered.trans hparts, hsize⟩
  · rintro _ s' ⟨htask, hout⟩
    have htarget : w.disk.out p.targetPath = d.out p.targetPath := hw.target.trans (congrFun h.out _)
    rw [← htarget]
    exact ⟨htask.trans (concluded_restamp st e n), hout⟩

/-- The end of a task the scheduler had nothing to do for: whatever it is, it is an end. -/
theorem Returned.finishes {envs' : TaskId → Env} (h : Returned envs d ps sc) (hcalm : sc.workerFailed = false)
    (hp : ps[i]? = some p) (hq : sc.tasks[i]? = some p) (hst : p.status = .downloading ∨ Failing p.status)
    (hlaid : p.Laid) (hbacked : p.Backed d) (hf : (envs' p.id).Faultless) (hw : SameFiles p sc.world w) :
    wp (finishTask envs' p) (fun _ _ => True) (fun _ _ => False) (fun _ => True) w := by
  unfold finishTask
  split
  · exact wp_onTask.2 (wp_mono (download_over hf.savesAll) (fun _ _ _ => trivial) (fun _ _ h => h) (fun _ h => h))
  · split
    · rename_i hchunks
      rw [wp_onTask]
      rcases hst with hst | hst
      · refine wp_mono (finalize_concludes (b := rangedBytes (envs p.id) p d) hf (.inl hst) fun hall => ?_)
          (fun _ _ _ => trivial) (fun _ _ h => h) (fun _ h => h.elim)
        obtain ⟨hparts, hsize⟩ := h.gathers hcalm hp hq (by rw [hst]; rfl) hlaid hbacked hchunks hall
        exact ⟨hw.gathered.trans hparts, hsize⟩
      · have hfinished : finishedStatus p.status := by rcases hst with hst | hst <;> rw [hst] <;> rfl
        exact wp_mono (finalize_finished (s := { world := w, task := p }) hf.smooth hfinished) (fun _ _ _ => trivial)
          (fun _ _ h => h) (fun _ h => h.elim)
    · trivial

/-- The scheduler leaves the files of a task alone for which it has nothing to do. -/
theorem Books.spares (h : Books w.disk ps sc) (hout : sc.world.disk.out = w.disk.out) (hsep : AllSeparate ps)
    (hids : (ps.map (·.id)).Nodup) (hp : p ∈ ps) (hnone : hasSchedulableChunk p = false) : SameFiles p w sc.world := by
  refine ⟨by rw [hout], by rw [hout], fun n hn => h.files _ fun v hv hsched c _ hpath => ?_⟩
  obtain ⟨hsafe, hjoin⟩ := chunkPath_ok hpath
  by_cases hid : v.id = p.id
  · obtain rfl := List.inj_on_of_nodup_map hids hv hp hid
    rw [hsched] at hnone
    cases hnone
  · exact (hsep p hp v hv hid).dirs.paths hn hsafe hjoin

end Returned

/-! ## A queue that nothing disturbs -/

section Prepared

variable (hf : env.Smooth) (h : Readied env w w₁ t p)

include hf h in
theorem Readied.partOn (c : Chunk) : p.partOn w₁.disk c = (preparation env t).2.partOn w.disk c := by
  have horigin : t.SameOrigin (preparation env t).2 := preparation_origin
  have hfiles := (h.2.congr horigin.2.2.1 horigin.2.2.2.1).partOn c
  have hpath : chunkPath p c = chunkPath (preparation env t).2 c := chunkPath_congr (h.1.poised hf).1.same rfl
  rw [← hfiles]
  simp only [DownloadTask.partOn, hpath]

include hf h in
theorem Readied.doomed : Doomed env w₁.disk p ↔ Doomed env w.disk (preparation env t).2 := by
  obtain ⟨⟨hsame, hchunks, -⟩, -⟩ := h.1.poised hf
  simp only [Doomed, hchunks, chunkFate_partOn hsame (h.partOn hf _)]

include hf h in
theorem Readied.backed (ht : t.Backed w.disk) : p.Backed w₁.disk := by
  intro c hc hst hcount
  rw [h.partOn hf]
  exact preparation_backed ht c ((h.1.poised hf).1.chunks ▸ hc) hst hcount

include hf h in
theorem Readied.laid (ht : t.Laid) : p.Laid := by
  obtain ⟨⟨hsame, hchunks, -⟩, -⟩ := h.1.poised hf
  have hlayout : p.layout = (preparation env t).2.layout := by
    simp only [DownloadTask.layout, hchunks]
  have hlaid : (preparation env t).2.Laid := preparation_laid ht
  rw [laid_iff, hlayout, hsame.2.2.2.2.1]
  exact laid_iff.1 hlaid

end Prepared

/-- Every file operation of this run of the queue goes through, no chunk that it starts ends in
an exception, none is started twice, and the tasks of the list share no file. -/
structure QueueRun.Undisturbed (r : QueueRun) (ts : List DownloadTask) (w : World) : Prop where
  faultless : ∀ id, (r.prepare id).Faultless ∧ (r.finish id).Faultless
  separate : AllSeparate ts
  backed : ∀ t ∈ ts, t.Backed w.disk
  calm : ∀ t ∈ ts, isSchedulableStatus (preparation (r.prepare t.id) t).1 →
    ¬ Doomed (r.prepare t.id) w.disk (preparation (r.prepare t.id) t).2
  once : r.StartsOnce ts w

/-- Only the requests of the task itself come into its end. -/
theorem finishTask_congr {envs' : TaskId → Env} (h : envs' t.id = envs t.id) :
    finishTask envs' t = finishTask envs t := by
  simp only [finishTask, h]

section Undisturbed

variable {r r' : QueueRun} {sc : SchedState WorkerPc} {ps us : List DownloadTask}

/-- The tasks `ts` were prepared from `w` to `w₁`, and the scheduler came from there to `sc`. -/
structure Calmly (r : QueueRun) (ts : List DownloadTask) (w : World) (ps : List DownloadTask) (w₁ : World)
    (sc : SchedState WorkerPc) :
    Prop where
  ids : (ps.map (·.id)).Nodup
  readied : ∀ p ∈ ps, ∃ t ∈ ts, Readied (r.prepare t.id) w w₁ t p
  separate : AllSeparate ps
  returned : Returned r.prepare w₁.disk ps sc
  books : Books w₁.disk ps sc
  calm : sc.workerFailed = false

theorem QueueRun.Undisturbed.calmly (h : r.Undisturbed ts w) (hids : (ps.map (·.id)).Nodup) (hlaid : ∀ t ∈ ts, t.Laid)
    (hready : ∀ p ∈ ps, ∃ t ∈ ts, Readied (r.prepare t.id) w w₁ t p)
    (hrun : (prepareAll r.prepare ts).run w = (.ok ps, w₁))
    (hs : runs (chunkExecutor r.prepare) r.config.normalized { tasks := ps, world := w₁ } r.schedule = sc)
    (hret : sc.coordinator = .returned) : Calmly r ts w ps w₁ sc := by
  have hsep : AllSeparate ps := by
    intro p hp q hq hid
    obtain ⟨t, ht, hp⟩ := hready p hp
    obtain ⟨u, hu, hq⟩ := hready q hq
    have hporigin := hp.1.origin (h.faultless t.id).1.smooth
    have hqorigin := hq.1.origin (h.faultless u.id).1.smooth
    exact (h.separate t ht u hu fun heq => hid (hqorigin.1.trans (heq.trans hporigin.1.symm))).congr hporigin hqorigin
  have hpslaid : ∀ p ∈ ps, p.Laid := by
    intro p hp
    obtain ⟨t, ht, hp⟩ := hready p hp
    exact hp.laid (h.faultless t.id).1.smooth (hlaid t ht)
  have happ : PartsApart ps := hsep.dirs.apart hids hpslaid
  have hguard : GuardedRun (step (chunkExecutor r.prepare) r.config.normalized)
      (fun s c => startsUnstarted r.config.normalized s c) { tasks := ps, world := w₁ } r.schedule := by
    have honce := h.once
    unfold QueueRun.StartsOnce at honce
    rw [hrun] at honce
    exact honce
  have hf : ∀ p ∈ ps, (r.prepare p.id).Smooth := fun p _ => (h.faultless p.id).1.smooth
  have hreturned := runs_returned hids happ hf hguard hs hret
  refine ⟨hids, hready, hsep, hreturned, runs_booked hids happ hf hguard hs,
    hreturned.undoomed fun p hp hst hdoomed => ?_⟩
  obtain ⟨t, ht, hp⟩ := hready p hp
  have hid : p.id = t.id := (hp.1.origin (h.faultless t.id).1.smooth).1
  rw [hid, hp.doomed (h.faultless t.id).1.smooth] at hdoomed
  rw [(hp.1.poised (h.faultless t.id).1.smooth).2] at hst
  exact h.calm t ht hst hdoomed

/-- The status a task is prepared with. -/
theorem PreparedFrom.status (hf : env.Smooth) (h : PreparedFrom env t w p) :
    p.status = .downloading ∨ Failing p.status := by
  rw [(h.poised hf).2]
  unfold preparation
  split
  · refine .inr ?_
    unfold failureStatus Failing
    dsimp only
    split <;> simp
  · split
    · exact .inr (.inr rfl)
    · exact .inl rfl

/-- A round of the loop after the scheduler, on the task at one place. -/
theorem Calmly.way {i : Nat} {q : DownloadTask} (h : Calmly r ts w ps w₁ sc) (hund : r.Undisturbed ts w)
    (hlaid : ∀ t ∈ ts, t.Laid)
    (ht : t ∈ ts) (hp : ps[i]? = some p) (hready : Readied (r.prepare t.id) w w₁ t p) (hq : sc.tasks[i]? = some q)
    (hround : Round (finishTask r.finish) sc.world w' q u) : Way (r.prepare t.id) (r.finish t.id) t w w' u := by
  have hf := (hund.faultless t.id).1.smooth
  have hf' := (hund.faultless t.id).2
  have horigin := hready.1.origin hf
  have hfiles := hready.2.congr horigin.2.2.1 horigin.2.2.2.1
  have hid : p.id = t.id := horigin.1
  have hplaid := hready.laid hf (hlaid t ht)
  have hpbacked := hready.backed hf (hund.backed t ht)
  obtain ⟨w₂, w₃, hw₂, hrun, hw₃⟩ := hround
  by_cases hsched : hasSchedulableChunk p
  · have hqid : q.id = p.id := (h.returned.tracked.task i p q hp hq).same.1
    have hqf : (r.finish q.id).Faultless := by
      rw [hqid, hid]
      exact hf'
    have hconcludes := (wp_of_ok hrun).1 (h.returned.concludes h.books h.calm hp hq hsched hplaid hpbacked hqf hw₂)
    obtain ⟨hu, hout⟩ := hconcludes
    have hqtarget : q.targetPath = p.targetPath := (h.returned.tracked.task i p q hp hq).same.2.2.1
    rw [hqid, hid, calmTask_congr hfiles.partOn, rangedBytes_congr hfiles.partOn] at hu
    rw [hid, calmTask_congr hfiles.partOn, rangedBytes_congr hfiles.partOn, horigin.2.2.1] at hout
    refine .scheduled p hready.1 hsched hu ?_
    have hlast := hw₃.target
    rw [hqtarget, horigin.2.2.1] at hlast
    rw [hlast, hout, hready.2.target]
  · rw [Bool.not_eq_true] at hsched
    obtain rfl := h.returned.idle h.ids h.calm hp hq hsched
    have hspared := h.books.spares h.returned.out h.separate h.ids (List.mem_of_getElem? hp) hsched
    have hback : ∀ {v v' : World}, SameFiles q v v' → SameFiles t v v' :=
      fun hv => hv.congr horigin.2.2.1.symm horigin.2.2.2.1.symm
    refine .idle q w₂ w₃ hready.1 hsched ((hready.2.trans (hback hspared)).trans (hback hw₂)) ?_ (hback hw₃)
    have hsame : finishTask (fun _ => r.finish t.id) q = finishTask r.finish q := finishTask_congr (by rw [hid])
    rw [hsame, hrun]

/-- A task after the scheduler, with what it was. -/
theorem Calmly.before {q : DownloadTask} (h : Calmly r ts w ps w₁ sc) (hund : r.Undisturbed ts w)
    (hlaid : ∀ t ∈ ts, t.Laid)
    (hq : q ∈ sc.tasks) : ∃ (i : Nat) (p t : DownloadTask), ps[i]? = some p ∧ sc.tasks[i]? = some q ∧ t ∈ ts ∧
    Readied (r.prepare t.id) w w₁ t p ∧
      p.SameOrigin q ∧ q.Laid := by
  obtain ⟨i, hi⟩ := List.mem_iff_getElem?.1 hq
  obtain ⟨p, hp⟩ := getElem?_of_length h.returned.tracked.length.symm hi
  obtain ⟨t, ht, hready⟩ := h.readied p (List.mem_of_getElem? hp)
  have hsched := h.returned.scheduled h.books h.ids h.calm hp hi
  exact ⟨i, p, t, hp, hi, ht, hready, hsched.origin,
    hsched.laid (hready.laid (hund.faultless t.id).1.smooth (hlaid t ht))⟩

/-- The loop after the scheduler, one task at a time. -/
theorem Calmly.rounds (h : Calmly r ts w ps w₁ sc) (hund : r.Undisturbed ts w) (hlaid : ∀ t ∈ ts, t.Laid)
    (hids : (sc.tasks.map (·.id)).Nodup) :
    wp (finishAll r.finish sc.tasks) (fun us w' => List.Forall₂ (Round (finishTask r.finish) sc.world w') sc.tasks us)
      (fun _ _ => False) (fun _ => True) sc.world := by
  rw [finishAll_eq]
  refine finishEach_rounds sc.tasks sc.world hids (fun q hq x hx hid w => ?_) fun q hq w' hw' => ?_
  · obtain ⟨_, p, _, hp, -, -, -, horigin, -⟩ := h.before hund hlaid hq
    obtain ⟨_, y, _, hy, -, -, -, hyorigin, hxlaid⟩ := h.before hund hlaid hx
    have hsep : y.Separate p := by
      refine h.separate y (List.mem_of_getElem? hy) p (List.mem_of_getElem? hp) fun heq => hid ?_
      rw [hyorigin.1, ← heq, horigin.1]
    exact keeps_finishTask (hsep.congr hyorigin horigin) hid hxlaid
  · obtain ⟨i, p, t, hp, hqi, ht, hready, horigin, -⟩ := h.before hund hlaid hq
    have hplaid := hready.laid (hund.faultless t.id).1.smooth (hlaid t ht)
    have hpbacked := hready.backed (hund.faultless t.id).1.smooth (hund.backed t ht)
    by_cases hsched : hasSchedulableChunk p
    · exact wp_mono (h.returned.concludes h.books h.calm hp hqi hsched hplaid hpbacked (hund.faultless q.id).2 hw')
        (fun _ _ _ => trivial) (fun _ _ h => h) (fun _ h => h.elim)
    · rw [Bool.not_eq_true] at hsched
      obtain rfl := h.returned.idle h.ids h.calm hp hqi hsched
      exact h.returned.finishes h.calm hp hqi (hready.1.status (hund.faultless t.id).1.smooth) hplaid hpbacked
        (hund.faultless q.id).2 hw'

/-- The queue ended `t` with the record `u`, which is in the store. -/
structure EndedBy (r : QueueRun) (w w' : World) (t u : DownloadTask) : Prop where
  way : Way (r.prepare t.id) (r.finish t.id) t w w' u
  id : u.id = t.id
  stored : (w'.disk.tasks t.id).main = some (.written u)

/-- What the loop after the scheduler comes to. -/
theorem Calmly.ends (h : Calmly r ts w ps w₁ sc) (hund : r.Undisturbed ts w) (hlaid : ∀ t ∈ ts, t.Laid)
    (hready : List.Forall₂ (fun t p => Readied (r.prepare t.id) w w₁ t p) ts ps)
    (hprepared : ∀ p ∈ ps, Prepared p.status) (hspectated : Spectated ps sc) :
    wp (finishAll r.finish sc.tasks) (fun us w' => List.Forall₂ (EndedBy r w w') ts us) (fun _ _ => False)
      (fun _ => True) sc.world := by
  have hnodup : (sc.tasks.map (·.id)).Nodup := hspectated.ids ▸ h.ids
  have hscheduled : ∀ q ∈ sc.tasks, Prepared q.status := by
    intro q hq
    obtain ⟨i, p, t, hp, hqi, -⟩ := h.before hund hlaid hq
    exact (h.returned.scheduled h.books h.ids h.calm hp hqi).prepared (hprepared p (List.mem_of_getElem? hp))
  have hsaved : ∀ q ∈ sc.tasks, ∀ u : DownloadTask, u.id = q.id → sc.world.Keeps u → sc.world.Keeps u :=
    fun _ _ _ _ h => h
  have hfinished := finishAll_finished (fun id => (hund.faultless id).2.savesAll) _ _ hnodup hscheduled hsaved
  refine wp_mono (wp_and (h.rounds hund hlaid hnodup) hfinished) ?_ (fun _ _ h => h.1) (fun _ _ => trivial)
  rintro us w' ⟨hrounds, -, hends⟩
  have hlength := h.returned.tracked.length
  refine List.forall₂_iff_get.2 ⟨by rw [hready.length_eq, ← hlength, hrounds.length_eq], fun i hi hi' => ?_⟩
  have ht := List.getElem?_eq_getElem hi
  have hu := List.getElem?_eq_getElem hi'
  obtain ⟨q, hq⟩ := getElem?_of_length hrounds.length_eq hu
  obtain ⟨p, hp⟩ := getElem?_of_length hlength.symm hq
  have hreadied := related_at hready ht hp
  have hend := related_at hends hq hu
  have hid : q.id = (ts.get ⟨i, hi⟩).id :=
    (h.returned.tracked.task i p q hp hq).same.1.trans (hreadied.1.origin (hund.faultless _).1.smooth).1
  refine ⟨h.way hund hlaid (List.get_mem ..) hp hreadied hq (related_at hrounds hq hu), hend.id.trans hid, ?_⟩
  rw [← hid]
  by_cases hskip : Skipped q
  · -- the record that preparation saved
    obtain ⟨hsame, hkept⟩ := hend.skipped hskip
    have hnone : hasSchedulableChunk p = false := unschedulable_of_nil ((hspectated.chunks i p q hp hq).1 hskip.1)
    have hsweep := hspectated.swept i p q hp hq hnone
    rw [h.calm, if_neg Bool.false_ne_true] at hsweep
    have hqstored := hspectated.stored p (List.mem_of_getElem? hp) hnone
    have hu : us.get ⟨i, hi'⟩ = q := hsame
    rw [hu]
    rw [← hsweep] at hqstored
    exact (hkept q rfl hqstored).main
  · rw [← hend.id]
    exact (hend.keeps hskip).main

/-- Each task of an undisturbed run goes its own way. -/
theorem runRunnable_ways (hund : r.Undisturbed ts w) (hids : (ts.map (·.id)).Nodup) (hlaid : ∀ t ∈ ts, t.Laid) :
    wp (runRunnable r ts) (fun us w' => List.Forall₂ (EndedBy r w w') ts us) (fun _ _ => False) (fun _ => True) w := by
  have hprepare := wp_and (prepareAll_readied (fun id => (hund.faultless id).1) hids hund.separate hlaid)
    (prepareAll_prepared (fun id => (hund.faultless id).1.savesAll) ts w hids fun t _ => (hund.faultless t.id).1.engine)
  unfold runRunnable
  rw [wp_bind]
  rcases hrun : (prepareAll r.prepare ts).run w with ⟨ps | e | _, w₁⟩
  · rw [wp_of_ok hrun] at hprepare ⊢
    obtain ⟨hready, hpids, hprepared⟩ := hprepare
    have hpnodup : (ps.map (·.id)).Nodup := hpids ▸ hids
    have hof : ∀ p ∈ ps, ∃ t ∈ ts, Readied (r.prepare t.id) w w₁ t p := by
      intro p hp
      obtain ⟨i, hi⟩ := List.mem_iff_getElem?.1 hp
      obtain ⟨t, ht⟩ := getElem?_of_length hready.length_eq hi
      exact ⟨t, List.mem_of_getElem? ht, related_at hready ht hi⟩
    rw [wp_bind]
    refine wp_schedulerRun rfl (fun _ hret => ?_) trivial
    exact (hund.calmly hpnodup hlaid hof hrun rfl hret).ends hund hlaid hready (fun p hp => (hprepared p hp).1)
      (runs_spectated hpnodup (fun p hp => (hprepared p hp).2) rfl hret)
  · rw [wp_of_thrown hrun] at hprepare
    exact hprepare.1.elim
  · rw [wp_of_stopped hrun]
    trivial

/-- The list that `runQueuedTasks` goes through after its recovery. -/
def QueueRun.runnable (r : QueueRun) (w : World) : List DownloadTask :=
  (w.disk.loadAllTasks r.recover r.scanAgain).filter (fun t => runnableStatus t.status)

theorem runnable_laid (hfiled : Filed (fun _ => True) w) : ∀ t ∈ r.runnable w, t.Laid := by
  intro t ht
  obtain ⟨ht, hst⟩ := List.mem_filter.1 ht
  refine ((filed_rule fun _ _ _ _ => trivial).loadsAll hfiled ht ?_).1
  rintro heq
  rw [heq] at hst
  cases hst

theorem runnable_nodup (hfiled : Filed (fun _ => True) w) (hscan : r.scanAgain.Nodup) :
    ((r.runnable w).map (·.id)).Nodup :=
  (loadAllTasks_nodup (fun _ _ hload => (hfiled.job hload).1) hscan).sublist (List.filter_sublist.map _)

/-- A recovery of what operations left. -/
theorem recovered_filed {scan : List TaskId} {parts out : Path → Option Bytes} {ops : List Operation}
    {ts₀ : List DownloadTask} (hrun : (recoverTasks env scan).run
      (runOperations (.fresh parts out) ops) = (.ok ts₀, w)) :
    Filed (fun _ => True) w := by
  have hkeeps : Keeps (Filed fun _ => True) (recoverTasks env scan) :=
    recoverTasks_keeps (filed_rule fun _ _ _ _ => trivial) scan
  exact (wp_of_ok hrun).1 (hkeeps _ (run_filed parts out ops))

/-- After any operations, and a recovery of the store, `r` has the tasks `ts` to run in `w`. -/
structure QueueRun.Faces (r : QueueRun) (ts : List DownloadTask) (w : World) : Prop where
  reached : ∃ parts out ops ts₀, (recoverTasks r.recover r.scan).run
    (runOperations (.fresh parts out) ops) = (.ok ts₀, w)
  scan : r.scanAgain.Nodup
  listed : ts = r.runnable w
  undisturbed : r.Undisturbed ts w

theorem QueueRun.Faces.filed (h : r.Faces ts w) : Filed (fun _ => True) w := by
  obtain ⟨_, _, _, _, hrun⟩ := h.reached
  exact recovered_filed hrun

theorem QueueRun.Faces.laid (h : r.Faces ts w) : ∀ t ∈ ts, t.Laid := h.listed ▸ runnable_laid h.filed

theorem QueueRun.Faces.ids (h : r.Faces ts w) : (ts.map (·.id)).Nodup := h.listed ▸ runnable_nodup h.filed h.scan

/-- What a run that comes to an end leaves of a task. -/
theorem QueueRun.Faces.returns {o : Outcome Exn (List DownloadTask)} (h : r.Faces ts w) (ht : t ∈ ts)
    (hrun : (runRunnable r ts).run w = (o, w₁)) (ho : o ≠ .stopped) :
    ∃ us u, o = .ok us ∧ u ∈ us ∧ EndedBy r w w₁ t u := by
  have hways := runRunnable_ways h.undisturbed h.ids h.laid
  cases o with
  | stopped => exact absurd rfl ho
  | thrown e =>
    rw [wp_of_thrown hrun] at hways
    exact hways.elim
  | ok us =>
    rw [wp_of_ok hrun] at hways
    obtain ⟨i, hi⟩ := List.mem_iff_getElem?.1 ht
    obtain ⟨u, hu⟩ := getElem?_of_length hways.length_eq.symm hi
    exact ⟨us, u, rfl, List.mem_of_getElem? hu, related_at hways hi hu⟩

/-- What one undisturbed queue makes of a task, every other one makes of it that finds the same
files for it and gets the same answers: whatever the other tasks are and come to, and in
whatever order the steps were. -/
theorem queue_isolates {ts' : List DownloadTask} {o o' : Outcome Exn (List DownloadTask)} (h : r.Faces ts w)
    (h' : r'.Faces ts' w')
    (ht : t ∈ ts) (ht' : t ∈ ts') (hfiles : SameFiles t w w') (hprepare : r'.prepare t.id = r.prepare t.id)
    (hfinish : r'.finish t.id = r.finish t.id) (hrun : (runRunnable r ts).run w = (o, w₁))
    (hrun' : (runRunnable r' ts').run w' = (o', w₁')) (ho : o ≠ .stopped) (ho' : o' ≠ .stopped) :
    ∃ us us' u, o = .ok us ∧ o' = .ok us' ∧ u ∈ us ∧ u ∈ us' ∧ u.id = t.id ∧
    (w₁.disk.tasks t.id).main = some (.written u) ∧
      (w₁'.disk.tasks t.id).main = some (.written u) ∧ w₁'.disk.out t.targetPath = w₁.disk.out t.targetPath := by
  obtain ⟨us, u, rfl, hmem, hend⟩ := h.returns ht hrun ho
  obtain ⟨us', u', rfl, hmem', hend'⟩ := h'.returns ht' hrun' ho'
  have hway := hend'.way
  rw [hprepare, hfinish] at hway
  obtain ⟨rfl, hout⟩ := hend.way.unique (h.undisturbed.faultless t.id).1.smooth
    (h.undisturbed.faultless t.id).2 hway hfiles
  exact ⟨us, us', u', rfl, rfl, hmem, hmem', hend.id, hend.stored, hend'.stored, hout⟩

/-! ## Two tasks -/

def otherRequest : CreateRequest := { halvesRequest with id := text "b", targetPath := text "/other" }

/-- The queue on both tasks, where the answers to the second are those of `env`. -/
def besideRun (env : Env) : QueueRun :=
  { halvesRun halvesEnv with
    scan := [halvesRequest.id, otherRequest.id]
    scanAgain := [halvesRequest.id, otherRequest.id]
    prepare := fun id => if id = otherRequest.id then env else halvesEnv
    schedule := List.replicate 11 .coordinator ++ List.replicate 12 (.worker 0) ++ List.replicate 12 (.worker 1) ++
      List.replicate 12 (.worker 2) ++ List.replicate 12 (.worker 3) ++
      [.coordinator, .worker 0, .worker 1, .worker 2, .worker 3] ++ List.replicate 10 .coordinator }

def besideTasks : List DownloadTask := [newTask halvesEnv halvesRequest, newTask halvesEnv otherRequest]

def besideRecovered : Outcome Exn (List DownloadTask) × World :=
  (recoverTasks halvesEnv [halvesRequest.id, otherRequest.id]).run
    (runOperations (.fresh (fun _ => none) fun _ => none)
      [.create halvesEnv halvesRequest, .create halvesEnv otherRequest])

theorem besideRecovered_reached : ∃ parts out ops ts₀,
    (recoverTasks bytewiseRun.recover [halvesRequest.id, otherRequest.id]).run (runOperations (.fresh parts out) ops) =
      (.ok ts₀, besideRecovered.2) :=
  ⟨fun _ => none, fun _ => none, [.create halvesEnv halvesRequest, .create halvesEnv otherRequest], besideTasks,
    Prod.ext (show besideRecovered.1 = .ok besideTasks by decide +kernel) rfl⟩

theorem besideTasks_listed : besideTasks = (besideRun halvesEnv).runnable besideRecovered.2 := by
  decide +kernel

theorem besideTasks_separate : AllSeparate besideTasks := by
  unfold AllSeparate
  decide

theorem besideTasks_backed {d : Disk} : ∀ t ∈ besideTasks, t.Backed d := by
  simp [besideTasks, DownloadTask.Backed, newTask]

theorem besideRun_faces {env : Env} (hf : env.Faultless)
    (hcalm : ∀ t ∈ besideTasks, isSchedulableStatus (preparation ((besideRun env).prepare t.id) t).1 →
      ¬ Doomed ((besideRun env).prepare t.id) besideRecovered.2.disk (preparation ((besideRun env).prepare t.id) t).2)
    (honce : (besideRun env).StartsOnce besideTasks besideRecovered.2) :
    (besideRun env).Faces besideTasks besideRecovered.2 where
  reached := besideRecovered_reached
  scan := show [halvesRequest.id, otherRequest.id].Nodup by decide
  listed := besideTasks_listed
  undisturbed :=
    { faultless := by
        refine fun id => ⟨?_, fun _ => ⟨rfl, rfl⟩, rfl, rfl⟩
        unfold besideRun
        dsimp only
        split
        · exact hf
        · exact ⟨fun _ => ⟨rfl, rfl⟩, rfl, rfl⟩
      separate := besideTasks_separate
      backed := besideTasks_backed
      calm := hcalm
      once := honce }

theorem silentEnv_faultless : silentEnv.Faultless := ⟨fun _ => ⟨rfl, rfl⟩, rfl, rfl⟩

theorem besideRun_prepare {env : Env} : (besideRun env).prepare halvesRequest.id = halvesEnv := by
  unfold besideRun
  dsimp only
  rw [if_neg (by decide)]

/-- Whether the server answers for the second task or not, the first one ends the same. -/
theorem queue_isolates_beside :
    ((runRunnable (besideRun silentEnv) besideTasks).run besideRecovered.2).2.disk.out
      (newTask halvesEnv halvesRequest).targetPath =
      ((runRunnable (besideRun halvesEnv) besideTasks).run besideRecovered.2).2.disk.out
        (newTask halvesEnv halvesRequest).targetPath := by
  have hfaces : (besideRun halvesEnv).Faces besideTasks besideRecovered.2 :=
    besideRun_faces halvesEnv_faultless (by unfold Doomed; decide +kernel) (by decide +kernel)
  have hfaces' : (besideRun silentEnv).Faces besideTasks besideRecovered.2 :=
    besideRun_faces silentEnv_faultless (by unfold Doomed; decide +kernel) (by decide +kernel)
  obtain ⟨_, _, _, -, -, -, -, -, -, -, hout⟩ :=
    queue_isolates hfaces hfaces' (t := newTask halvesEnv halvesRequest) List.mem_cons_self
    List.mem_cons_self .refl (besideRun_prepare.trans besideRun_prepare.symm) rfl Prod.mk.eta.symm Prod.mk.eta.symm
      (by decide +kernel)
    (by decide +kernel)
  exact hout

end Undisturbed

end Cget
