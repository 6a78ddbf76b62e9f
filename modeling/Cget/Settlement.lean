import Cget.Conformance
import Cget.Coverage
import Cget.Destination
import Cget.QueueFrame
/-!
# What runQueuedTasks leaves

Every task that is run ends Completed, Failed or MetadataMismatch, its file says so and the
call returns, with two exceptions. A merge that throws is caught by nobody: the exception
leaves `runQueuedTasks` and the tasks after it are not finished. And when a worker fails,
the sweep after the joins sets tasks without chunks to Failed that are still to be downloaded;
nobody saves them, so their files say Downloading.
-/

namespace Cget

open Prog SchedState

variable {env : Env} {envs : TaskId → Env} {w w' : World} {id : TaskId} {t t' u : DownloadTask} {ts : List DownloadTask}
  {s s' : Session}

/-! ## Sessions that save last -/

/-- Every write of a task file goes through. -/
def Env.SavesAll (env : Env) : Prop := (∀ n, env.saveFault n = .ok) ∧ env.commit.save = .ok

theorem Env.Faultless.savesAll (h : env.Faultless) : env.SavesAll := ⟨fun n => (h.smooth n).2, by rw [h.commit]⟩

theorem Env.SavesAll.commit (h : env.SavesAll) : (env.ending env.commit.save).SavesAll := ⟨fun _ => h.2, h.2⟩

/-- The file of the task is the task. -/
structure World.Keeps (w : World) (t : DownloadTask) : Prop where
  main : (w.disk.tasks t.id).main = some (.written t)
  saved : .saved t ∈ w.log

/-- The statuses a task ends with. -/
def Terminal (st : TaskStatus) : Prop := st = .completed ∨ st = .failed ∨ st = .metadataMismatch

/-- The session is over and its task saved. -/
structure Session.Over (s : Session) : Prop where
  status : Terminal s.task.status
  keeps : s.world.Keeps s.task

theorem Failing.terminal {st : TaskStatus} (h : Failing st) : Terminal st := .inr h

theorem keeps_saveTask (w : World) (t : DownloadTask) : (w.saveTask t).Keeps t :=
  ⟨by simp [World.saveTask, TaskFiles.commit], List.mem_cons_self⟩

/-- Nothing is said of how a program ends. -/
theorem wp_trivial {α : Type} {m : EngineM α} : wp m (fun _ _ => True) (fun _ _ => True) (fun _ => True) s :=
  wp_const.2 trivial

/-- Whatever comes first. -/
theorem wp_after {α β : Type} {m : EngineM α} {f : α → EngineM β} {Q : β → Session → Prop}
    (hf : ∀ a s, wp (f a) Q (fun _ _ => True) (fun _ => True) s) :
    wp (m >>= f) Q (fun _ _ => True) (fun _ => True) s := by
  rw [wp_bind]
  exact wp_mono wp_trivial (fun a s' _ => hf a s') (fun _ _ h => h) (fun _ h => h)

section Saving

variable (hsaves : env.SavesAll)

include hsaves in
theorem persistTask_keeps :
    wp (persistTask env) (fun _ s' => s'.task.status = s.task.status ∧ s'.world.Keeps s'.task) (fun _ _ => False)
      (fun _ => False) s := by
  refine wp_persistTask (fun _ => ⟨rfl, keeps_saveTask _ _⟩) (fun k hk => ?_) (fun k hk => ?_)
  · rw [hsaves.1] at hk
    cases hk
  · rw [hsaves.1] at hk
    cases hk

include hsaves in
theorem setFailure_keeps {st : TaskStatus} {message : Text} :
    wp (setFailure env st message) (fun _ s' => s'.task.status = st ∧ s'.world.Keeps s'.task) (fun _ _ => False)
      (fun _ => False) s := by
  refine wp_setFailure (fun _ => ⟨rfl, keeps_saveTask _ _⟩) (fun k hk => ?_) (fun k hk => ?_)
  · rw [hsaves.1] at hk
    cases hk
  · rw [hsaves.1] at hk
    cases hk

include hsaves in
theorem setFailure_over {st : TaskStatus} {message : Text} (hst : Failing st) :
    wp (setFailure env st message) (fun _ => Session.Over) (fun _ _ => False) (fun _ => False) s :=
  wp_mono (setFailure_keeps hsaves) (fun _ _ h => ⟨h.1 ▸ hst.terminal, h.2⟩) (fun _ _ h => h) (fun _ h => h)

include hsaves in
theorem failWith_over (e : Exn) : wp (failWith env e) (fun _ => Session.Over) (fun _ _ => False)
    (fun _ => False) s := by
  unfold failWith
  split
  · exact setFailure_over hsaves (.inr rfl)
  · exact setFailure_over hsaves (.inl rfl)

/-- A failure that a transfer reports is saved. -/
def FailureSaved (r : TransferEnd) (s : Session) : Prop := r = .failed → s.Over

include hsaves in
/-- `setFailure` and the end of the transfer. -/
theorem fails_saved {st : TaskStatus} {message : Text} (hst : Failing st) :
    wp (do
      setFailure env st message
      pure TransferEnd.failed) FailureSaved (fun _ _ => True) (fun _ => True) s := by
  rw [wp_bind]
  exact wp_mono (setFailure_over hsaves hst) (fun _ _ h _ => h) (fun _ _ h => h.elim) (fun _ h => h.elim)

/-- A transfer that goes on to the merge. -/
theorem transferred_saved {m : EngineM Unit} :
    wp (do
      m
      pure TransferEnd.transferred) FailureSaved (fun _ _ => True) (fun _ => True) s := by
  rw [wp_bind]
  exact wp_mono wp_trivial (fun _ _ _ hr => by cases hr) (fun _ _ h => h) (fun _ h => h)

include hsaves in
theorem transferWithRange_saved (info : RemoteFileInfo) :
    wp (transferWithRange env info) FailureSaved (fun _ _ => True) (fun _ => True) s := by
  unfold transferWithRange
  refine wp_after fun _ _ => wp_after fun _ _ => wp_after fun _ _ => wp_after fun _ _ => ?_
  refine wp_after fun _ _ => wp_after fun _ _ => wp_after fun errors _ => ?_
  split
  · split
    · exact wp_after fun _ _ => wp_after fun _ _ => transferred_saved
    · refine fails_saved hsaves ?_
      split
      · exact .inr rfl
      · exact .inl rfl
  · refine wp_after fun _ _ => ?_
    split
    · exact fun hr => by cases hr
    · exact fails_saved hsaves (.inl rfl)

include hsaves in
theorem transfer_saved : wp (transfer env) FailureSaved (fun _ _ => True) (fun _ => True) s := by
  unfold transfer transferFrom
  refine wp_after fun _ _ => wp_after fun info _ => wp_after fun s _ => ?_
  split
  · exact fails_saved hsaves (.inr rfl)
  · refine wp_after fun _ _ => wp_after fun _ _ => wp_after fun s _ => ?_
    split
    · exact transferWithRange_saved hsaves info
    · exact transferred_saved

/-! ## The merge -/

/-- The part files are there and add up to the size, and the operations that `mergeChunks` does
not ignore go through. -/
def Joins (env : Env) (s : Session) : Prop :=
  assembled env s.world.disk s.task.chunks s.task.tempDir s.task.fileSize ≠ none ∧ env.commit.rename = .ok

/-- And the merged file can be read for its checksum. -/
def Merges (env : Env) (s : Session) : Prop := Joins env s ∧ s.task.hashable env

/-- `mergeChunks` throws if and only if these conditions fail. -/
theorem mergeChunks_joins :
    wp (mergeChunks env s.task.chunks s.task.tempDir s.task.targetPath s.task.fileSize)
      (fun _ w' => Joins env s ∧ ∃ b, w'.disk.out s.task.targetPath = some b) (fun _ _ => ¬ Joins env s)
      (fun _ => True) s.world := by
  refine wp_mono mergeChunks_wp ?_ ?_ (fun _ _ => trivial)
  · rintro _ w' ⟨-, hrename, b, hassembled, hb⟩
    exact ⟨⟨by simp [hassembled], hrename⟩, b, hb⟩
  · rintro e w' ⟨-, ⟨hnone, -⟩ | ⟨-, hrename, -⟩⟩ hmerges
    · exact hmerges.1 hnone
    · exact hrename hmerges.2

include hsaves in
theorem verifyChecksum_over {b : Bytes} (hb : s.world.disk.out s.task.targetPath = some b) :
    wp (verifyChecksum env) (fun ok s' => s.task.hashable env ∧ if ok then True else s'.Over)
      (fun _ _ => ¬ s.task.hashable env) (fun _ => True) s := by
  refine wp_verifyChecksum hb (fun _ h => ⟨?_, trivial⟩) (fun _ digest _ hopen _ => ?_) (fun _ k hdigest hopen hh => ?_)
    fun _ _ _ => trivial
  · cases hdigest : s.task.expectedSha256 with
    | none => exact .inl hdigest
    | some digest => exact .inr (h digest hdigest).1
  · exact wp_mono (setFailure_over hsaves (.inl rfl)) (fun _ _ h => ⟨.inr hopen, h⟩) (fun _ _ h => h.elim)
      (fun _ h => h.elim)
  · rcases hh with hnone | hok
    · exact hdigest hnone
    · cases hopen.symm.trans hok

include hsaves in
/-- The end of a task is saved, and only the merge and the open of its file throw. -/
theorem mergeAndComplete_over :
    wp (mergeAndComplete env) (fun _ s' => s'.Over ∧ Merges env s) (fun _ _ => ¬ Merges env s) (fun _ => True) s := by
  unfold mergeAndComplete
  simp only [wp_bind, wp_get, onWorld, wp_focus]
  refine wp_mono mergeChunks_joins ?_ (fun _ _ h hm => h hm.1) (fun _ h => h)
  rintro _ w' ⟨hjoins, b, hb⟩
  refine wp_mono (verifyChecksum_over hsaves (s := { s with world := w' }) hb) ?_ (fun _ _ h hm => h hm.2)
    (fun _ h => h)
  rintro ok s' ⟨hhash, hs'⟩
  cases ok with
  | false => exact ⟨hs', hjoins, hhash⟩
  | true =>
    rw [if_pos rfl, wp_bind, wp_updateTask, wp_bind, setStatus, wp_modify, wp_bind, wp_updateTask]
    refine wp_mono (persistTask_keeps hsaves.commit) (fun _ s'' h => ⟨⟨?_, h.2⟩, hjoins, hhash⟩) (fun _ _ h => h.elim)
      (fun _ h => h.elim)
    exact .inl h.1

include hsaves in
/-- `download` never throws. -/
theorem download_over : wp (download env) (fun _ => Session.Over) (fun _ _ => False) (fun _ => True) s := by
  have hcatch : ∀ e s', wp (failWith env e) (fun _ => Session.Over) (fun _ _ => False) (fun _ => True) s' := fun e s' =>
    wp_mono (failWith_over hsaves e) (fun _ _ h => h) (fun _ _ h => h) (fun _ h => h.elim)
  unfold download
  rw [wp_tryCatch, wp_bind]
  refine wp_mono (transfer_saved hsaves) (fun r s' hr => ?_) (fun e s' _ => hcatch e s') (fun _ h => h)
  cases r with
  | transferred =>
    exact wp_mono (mergeAndComplete_over hsaves) (fun _ _ h => h.1) (fun e s' _ => hcatch e s') (fun _ h => h)
  | failed => exact hr rfl

include hsaves in
theorem prepareTask_keeps :
    wp (prepareTask env) (fun _ s' => s'.world.Keeps s'.task) (fun _ _ => False) (fun _ => True) s := by
  have hcatch : ∀ e s', wp (failWith env e) (fun _ s' => s'.world.Keeps s'.task) (fun _ _ => False)
      (fun _ => True) s' := fun e s' =>
    wp_mono (failWith_over hsaves e) (fun _ _ h => h.keeps) (fun _ _ h => h) (fun _ h => h.elim)
  unfold prepareTask
  rw [wp_tryCatch]
  refine wp_mono (Q := fun _ s' => s'.world.Keeps s'.task)
    (wp_after fun _ _ => wp_after fun info _ => wp_after fun s _ => ?_) (fun _ _ h => h)
    (fun e s' _ => hcatch e s') (fun _ h => h)
  split
  · exact wp_mono (setFailure_keeps hsaves) (fun _ _ h => h.2) (fun _ _ h => h.elim) (fun _ h => h.elim)
  · unfold prepareFrom
    refine wp_after fun _ _ => wp_after fun _ _ => ?_
    exact wp_mono (persistTask_keeps hsaves) (fun _ _ h => h.2) (fun _ _ h => h.elim) (fun _ h => h.elim)

/-- The task is merged in `finalizePreparedTask`. -/
def DownloadTask.toMerge (t : DownloadTask) : Bool := !finishedStatus t.status && allComplete t.chunks

include hsaves in
theorem finalize_over (hprepared : Prepared s.task.status) :
    wp (finalizePreparedTask env) (fun _ s' => s'.Over ∧ (s.task.toMerge → Merges env s))
      (fun _ _ => s.task.toMerge ∧ ¬ Merges env s) (fun _ => True) s := by
  unfold finalizePreparedTask
  rw [wp_bind, wp_get]
  split
  · rename_i hfinished
    have hfailing : Failing s.task.status := hprepared.resolve_left fun hw => by
      rcases hw with hw | hw <;> rw [hw] at hfinished <;> cases hfinished
    refine wp_mono (persistTask_keeps hsaves) (fun _ s' h => ⟨⟨h.1 ▸ hfailing.terminal, h.2⟩, fun hm => ?_⟩)
      (fun _ _ h => h.elim) (fun _ h => h.elim)
    simp [DownloadTask.toMerge, hfinished] at hm
  · rename_i hunfinished
    split
    · rename_i hincomplete
      refine wp_mono (setFailure_over hsaves (.inl rfl)) (fun _ s' h => ⟨h, fun hm => ?_⟩) (fun _ _ h => h.elim)
        (fun _ h => h.elim)
      rw [Bool.not_eq_true'] at hincomplete
      simp [DownloadTask.toMerge, hincomplete] at hm
    · rename_i hcomplete
      have hm : s.task.toMerge := by
        simp only [Bool.not_eq_true, Bool.not_eq_false'] at hunfinished hcomplete
        simp [DownloadTask.toMerge, hunfinished, hcomplete]
      exact wp_mono (mergeAndComplete_over hsaves) (fun _ _ h => ⟨h.1, fun _ => h.2⟩) (fun _ _ h => ⟨hm, h⟩)
        (fun _ h => h)

end Saving

/-! ## Other tasks -/

theorem World.Keeps.mono (h : w.Keeps u) (hfiles : w'.disk.tasks u.id = w.disk.tasks u.id) (hlog : w.log ⊆ w'.log) :
    w'.Keeps u :=
  ⟨hfiles ▸ h.main, hlog h.saved⟩

/-- A session on another task than `u`, which is saved. -/
def Elsewhere (u : DownloadTask) : Session → Prop := Beside (·.Keeps u) (fun t => t.id ≠ u.id)

theorem elsewhere_tolerates : Tolerates (Elsewhere u) where
  tick _ _ h := ⟨h.1.mono rfl fun _ h => h, h.2⟩
  task _ _ h ht := ⟨h.1, fun heq => h.2 (ht.1.1.symm.trans heq)⟩
  status _ _ h _ := ⟨h.1.mono rfl (List.subset_cons_self _ _), h.2⟩
  saved _ h := ⟨h.1.mono (files_saveTask h.2) (List.subset_cons_self _ _), h.2⟩
  part _ _ _ h := ⟨h.1.mono rfl fun _ h => h, h.2⟩
  progress _ _ h ht := ⟨h.1, fun heq => h.2 (ht.1.symm.trans heq)⟩
  logged _ _ h _ := ⟨h.1.mono rfl (List.subset_cons_self _ _), h.2⟩

/-- What sessions on other tasks leave alone. -/
theorem elsewhere_rule (u : DownloadTask) : FinishRule (·.Keeps u) (fun t => t.id ≠ u.id) where
  toTolerates := elsewhere_tolerates
  logs _ _ h := h.mono rfl (List.subset_append_right _ _)
  out _ _ _ hw _ h := h.mono (by rw [hw.tasks]) (by rw [hw.log]; exact fun _ h => h)
  anyStatus _ _ _ h := h

/-! ## Preparation -/

/-- Every change is allowed. -/
def anyChange (_ _ : TaskStatus) : Bool := true

theorem allows_anyChange : AllowsSchedule anyChange := ⟨⟨fun _ _ _ => rfl, fun _ _ _ => rfl⟩, fun _ _ _ => rfl⟩

/-- A prepared task is at work or failed, and saved as it is. -/
theorem prepareTask_prepared (hsaves : env.SavesAll) :
    wp (prepareTask env) (fun _ s' => s'.task.id = s.task.id ∧ Prepared s'.task.status ∧ s'.world.Keeps s'.task)
      (fun _ _ => False) (fun _ => True) s := by
  have hat : At anyChange (fun _ => s.task.status) s.world.log (fun _ => s.task.status) s.task.id (fun _ => True) s :=
    ⟨rfl, trivial, by rw [Function.update_eq_self]; exact .nothing rfl⟩
  have hstatus : wp (prepareTask env) _ _ _ s := at_prepareTask allows_anyChange.toAllowsTransfer hat fun _ _ => rfl
  exact wp_mono (wp_and hstatus (prepareTask_keeps hsaves)) (fun _ _ h => ⟨h.1.id, h.1.status, h.2⟩) (fun _ _ h => h.2)
    (fun _ _ => trivial)

theorem prepareAll_prepared (hsaves : ∀ id, (envs id).SavesAll) :
    ∀ (ts : List DownloadTask) (w : World), (ts.map (·.id)).Nodup → (∀ t ∈ ts, (envs t.id).engine = .ok ()) →
    wp (prepareAll envs ts)
      (fun ts' w' => ts'.map (·.id) = ts.map (·.id) ∧ ∀ t' ∈ ts', Prepared t'.status ∧ w'.Keeps t')
      (fun _ _ => False) (fun _ => True) w
  | [], _, _, _ => ⟨rfl, List.forall_mem_nil _⟩
  | t :: ts, w, hnodup, hengine => by
    rw [List.map_cons, List.nodup_cons] at hnodup
    unfold prepareAll
    rw [wp_bind, wp_onTask]
    refine wp_withEngine (fun e he => by cases (hengine t List.mem_cons_self).symm.trans he) ?_
    refine wp_mono (prepareTask_prepared (hsaves t.id)) ?_ (fun _ _ h => h) (fun _ h => h)
    rintro _ s₁ ⟨hid, hprepared, hkeeps⟩
    dsimp only at hid
    rw [wp_bind]
    have hothers : ∀ u ∈ ts, u.id ≠ s₁.task.id := by
      rintro u hu hid'
      exact hnodup.1 (hid ▸ hid' ▸ List.mem_map_of_mem hu)
    have hrest : Keeps (fun w : World => w.Keeps s₁.task) (prepareAll envs ts) := fun w hw =>
      wp_mono (prepareAll_beside (elsewhere_rule s₁.task).toQueueRule ts w hw hothers) (fun _ _ h => h.1)
        (fun _ _ h => h) (fun _ h => h)
    refine wp_mono (wp_and (prepareAll_prepared hsaves ts s₁.world hnodup.2 fun u hu =>
      hengine u (List.mem_cons_of_mem _ hu)) (hrest s₁.world hkeeps)) ?_ (fun _ _ h => h.1) (fun _ _ => trivial)
    rintro ts' w' ⟨⟨hids, hall⟩, hkept⟩
    exact ⟨by rw [List.map_cons, List.map_cons, hids, hid], List.forall_mem_cons.2 ⟨⟨hprepared, hkept⟩, hall⟩⟩

/-! ## Tasks with nothing to start -/

/-- What the scheduler does with a task `u` of which it can start no chunk: nothing, or the sweep. -/
def Swept (failed : Bool) (u t : DownloadTask) : Prop := t = u ∨ (failed ∧ t = sweepTask u)

/-- The tasks of which no chunk can be started have no workers and stay as they were saved. -/
structure Spectating (prepared : List DownloadTask) (s : SchedState WorkerPc) : Prop where
  ids : s.tasks.map (·.id) = prepared.map (·.id)
  chunks : ∀ (i : Nat) (u t : DownloadTask), prepared[i]? = some u → s.tasks[i]? = some t →
    t.chunks.length = u.chunks.length
  idle : ∀ (i : Nat) (u t : DownloadTask), prepared[i]? = some u → s.tasks[i]? = some t →
    hasSchedulableChunk u = false → Swept s.workerFailed u t
  stored : ∀ u ∈ prepared, hasSchedulableChunk u = false → s.world.Keeps u
  workers : ∀ v ∈ s.workers, ∀ u ∈ prepared, u.id = v.taskId → hasSchedulableChunk u

variable {prepared : List DownloadTask} {cfg : SchedulerConfig} {sc sc' : SchedState WorkerPc}

theorem Swept.mono {failed failed' : Bool} (h : Swept failed u t) (hf : failed → failed') : Swept failed' u t :=
  h.imp id fun h => ⟨hf h.1, h.2⟩

theorem Swept.again {failed : Bool} (h : Swept failed u t) (hf : failed) : Swept failed u (sweepTask t) := by
  rcases h with rfl | ⟨-, rfl⟩
  · exact .inr ⟨hf, rfl⟩
  · refine .inr ⟨hf, ?_⟩
    unfold sweepTask
    split
    · rfl
    · rfl

/-- The sweep gives nothing to start. -/
theorem Swept.idle {failed : Bool} (h : Swept failed u t) (hnone : hasSchedulableChunk u = false) :
    hasSchedulableChunk t = false := by
  rcases h with rfl | ⟨-, rfl⟩
  · exact hnone
  · unfold sweepTask
    split
    · rename_i hst
      rw [hasSchedulableChunk, hst] at hnone
      rw [hasSchedulableChunk]
      exact hnone
    · exact hnone

theorem unschedulable_of_nil (h : t.chunks = []) : hasSchedulableChunk t = false := by
  rw [hasSchedulableChunk, h, List.any_nil, Bool.and_false]

theorem Spectating.was (h : Spectating prepared sc) {i : Nat} (hti : sc.tasks[i]? = some t) :
    ∃ u, prepared[i]? = some u ∧ u.id = t.id := by
  have hid : (prepared.map (·.id))[i]? = some t.id := by rw [← h.ids, List.getElem?_map, hti]; rfl
  rwa [List.getElem?_map, Option.map_eq_some_iff] at hid

/-- A task of which a chunk can be started could start one all along. -/
theorem Spectating.startable (h : Spectating prepared sc) (hnodup : (prepared.map (·.id)).Nodup) {i : Nat}
    (hti : sc.tasks[i]? = some t)
    (hsched : hasSchedulableChunk t) (hu : u ∈ prepared) (hid : u.id = t.id) : hasSchedulableChunk u := by
  obtain ⟨v, hv, hvid⟩ := h.was hti
  obtain rfl := List.inj_on_of_nodup_map hnodup (List.mem_of_getElem? hv) hu (hvid.trans hid.symm)
  by_contra hnone
  rw [(h.idle i v t hv hti (Bool.eq_false_of_not_eq_true hnone)).idle (Bool.eq_false_of_not_eq_true hnone)] at hsched
  cases hsched

/-- A step on a task that has something to start. -/
theorem Spectating.set (h : Spectating prepared sc) {i : Nat} (hti : sc.tasks[i]? = some t) (t' : DownloadTask)
    (hbusy : ∀ u ∈ prepared, u.id = t.id → hasSchedulableChunk u) (hid : t'.id = t.id)
    (hlength : t'.chunks.length = t.chunks.length)
    (htasks : sc'.tasks = sc.tasks.set i t') (hfailed : sc.workerFailed → sc'.workerFailed)
    (hstored : ∀ u : DownloadTask, u.id ≠ t.id → sc.world.Keeps u → sc'.world.Keeps u)
    (hworkers : ∀ v ∈ sc'.workers, (∃ x ∈ sc.workers, x.taskId = v.taskId) ∨ v.taskId = t.id) :
    Spectating prepared sc' := by
  have hids : (sc.tasks.set i t').map (·.id) = sc.tasks.map (·.id) := map_set_eq hti hid
  refine ⟨by rw [htasks, hids, h.ids], fun k u x hu hx => ?_, fun k u x hu hx hnone => ?_, fun u hu hnone => ?_,
    fun v hv u hu huid => ?_⟩
  · rw [htasks] at hx
    rcases getElem?_set_some hx with ⟨rfl, rfl⟩ | ⟨-, hx⟩
    · exact hlength.trans (h.chunks k u t hu hti)
    · exact h.chunks k u x hu hx
  · rw [htasks] at hx
    rcases getElem?_set_some hx with ⟨rfl, rfl⟩ | ⟨-, hx⟩
    · obtain ⟨v, hv, hvid⟩ := h.was hti
      obtain rfl := Option.some.inj (hu.symm.trans hv)
      rw [hbusy u (List.mem_of_getElem? hu) hvid] at hnone
      cases hnone
    · exact (h.idle k u x hu hx hnone).mono hfailed
  · refine hstored u (fun heq => ?_) (h.stored u hu hnone)
    rw [hbusy u hu heq] at hnone
    cases hnone
  · rcases hworkers v hv with ⟨y, hy, hyid⟩ | hvid
    · exact h.workers y hy u hu (huid.trans hyid.symm)
    · exact hbusy u hu (huid.trans hvid)

theorem Spectating.step (h : Spectating prepared sc) (hnodup : (prepared.map (·.id)).Nodup) {choice : Choice}
    (heff : StepEffect (chunkExecutor envs) cfg sc choice sc') : Spectating prepared sc' := by
  have hfailed : sc.workerFailed → sc'.workerFailed := heff.failed
  have hrecorded : ∀ {e : Event} {x : TaskId}, sc'.world = sc.world.record e → ∀ u : DownloadTask, u.id ≠ x →
      sc.world.Keeps u → sc'.world.Keeps u := by
    intro e x hw u _ hkept
    rw [hw]
    exact hkept.mono rfl (List.subset_cons_self _ _)
  cases heff with
  | idle ht hw hws hf =>
    exact ⟨by rw [ht]; exact h.ids, by rw [ht]; exact h.chunks, by rw [ht, hf]; exact h.idle,
      by rw [hw]; exact h.stored, by rw [hws]; exact h.workers⟩
  | retire k w p hk _ _ ht hw hws hf =>
    refine ⟨by rw [ht]; exact h.ids, by rw [ht]; exact h.chunks, by rw [ht, hf]; exact h.idle,
      by rw [hw]; exact h.stored, fun v hv => ?_⟩
    rw [hws] at hv
    obtain ⟨x, hx, hid, -⟩ := mem_set_phase hk hv
    rw [← hid]
    exact h.workers x hx
  | start i j order scheduled t c _ _ hti hpick hcj ht hw hws hf =>
    have hsched : hasSchedulableChunk t := by
      obtain ⟨hst, d, hd, hdsched⟩ := pick_spec hpick
      rw [hasSchedulableChunk, hst, Bool.true_and]
      exact List.any_eq_true.2 ⟨d, List.mem_of_getElem? hd, hdsched⟩
    refine h.set hti (startedTask t j c) (fun u hu => h.startable hnodup hti hsched hu) rfl ?_ ht (by rw [hf]; exact id)
      (hrecorded hw) fun v hv => ?_
    · exact List.length_set
    · rw [hws] at hv
      rcases List.mem_append.1 hv with hv | hv
      · exact .inl ⟨v, hv, rfl⟩
      · exact .inr (by rw [List.mem_singleton.1 hv])
  | execute k w pc i t _ hk hp hti hid =>
    obtain ⟨ht, hw, hws⟩ := execute_spec (chunkExecutor envs) (l := pc) (i := i) (t := t) hk
    have hsame : t.SameRequest (executed (chunkExecutor envs) sc w pc t).task := chunkExecutor_workedOn.request
    refine h.set hti _ (fun u hu huid => h.workers w (List.mem_of_getElem? hk) u hu
      (huid.trans hid)) hsame.1 chunkExecutor_length ht hfailed
      (fun u hne hkept => ?_) fun v hv => ?_
    · rw [hw]
      have helse : Keeps (Elsewhere u) ((chunkExecutor envs).step w.taskId w.chunk pc) :=
        elsewhere_tolerates.chunkExecutor _ _ _
      exact (helse.run { world := sc.world, task := t } ⟨hkept, Ne.symm hne⟩).1
    · obtain ⟨x, hx, hxid, -⟩ := hws v hv
      exact .inl ⟨x, hx, hxid⟩
  | record k w i t hk _ hti hid ht hw hws hf =>
    refine h.set hti (failedTask t w.chunk)
      (fun u hu huid => h.workers w (List.mem_of_getElem? hk) u hu (huid.trans hid)) rfl ?_ ht
      (by rw [hf]; exact id) (hrecorded hw) fun v hv => ?_
    · exact List.length_modify ..
    · rw [hws] at hv
      obtain ⟨x, hx, hxid, -⟩ := mem_set_phase hk hv
      exact .inl ⟨x, hx, hxid⟩
  | sweep _ _ ht hw hws hf =>
    have hswept : ∀ (i : Nat) (x : DownloadTask), sc'.tasks[i]? = some x →
        ∃ t, sc.tasks[i]? = some t ∧ x.chunks = t.chunks ∧ (x = t ∨ (sc.workerFailed ∧ x = sweepTask t)) := by
      intro i x hx
      rw [ht] at hx
      rcases sweep_tasks (s := sc) with hsame | ⟨hfail, hmap⟩
      · exact ⟨x, hsame ▸ hx, rfl, .inl rfl⟩
      · rw [hmap, List.getElem?_map, Option.map_eq_some_iff] at hx
        obtain ⟨t, hti, rfl⟩ := hx
        exact ⟨t, hti, (sweepTask_same t).2.1, .inr ⟨hfail, rfl⟩⟩
    have hids : sc'.tasks.map (·.id) = sc.tasks.map (·.id) := by
      rw [ht]
      rcases sweep_tasks (s := sc) with hsame | ⟨-, hmap⟩
      · rw [hsame]
      · rw [hmap, List.map_map]
        exact List.map_congr_left fun t _ => (sweepTask_same t).1
    refine ⟨hids.trans h.ids, fun i u x hu hx => ?_, fun i u x hu hx hnone => ?_, fun u hu hnone => ?_,
      fun v hv => h.workers v (hws ▸ hv)⟩
    · obtain ⟨t, hti, hchunks, -⟩ := hswept i x hx
      rw [hchunks]
      exact h.chunks i u t hu hti
    · obtain ⟨t, hti, -, hcase⟩ := hswept i x hx
      rw [hf]
      rcases hcase with rfl | ⟨hfail, rfl⟩
      · exact h.idle i u x hu hti hnone
      · exact (h.idle i u t hu hti hnone).again hfail
    · obtain ⟨es, hes, -⟩ := sweep_log (s := sc)
      rw [hw, hes]
      exact (h.stored u hu hnone).mono rfl (List.subset_append_right _ _)

/-- After the joins nobody moves, and if a worker failed no task is Downloading. -/
def Joined (s : SchedState WorkerPc) : Prop :=
  s.coordinator = .returned → (∀ v ∈ s.workers, v.phase = .exited) ∧
  (s.workerFailed → ∀ t ∈ s.tasks, t.status ≠ .downloading)

theorem sweep_settles (hfailed : sc.workerFailed) (ht : t ∈ sc.sweep.tasks) : t.status ≠ .downloading := by
  unfold SchedState.sweep at ht
  rw [if_pos hfailed] at ht
  obtain ⟨u, -, rfl⟩ := List.mem_map.1 ht
  unfold sweepTask
  split
  · simp
  · assumption

theorem Joined.step (h : Joined sc) (ex : Executor WorkerPc) (choice : Choice) :
    Joined (SchedState.step ex cfg sc choice) := by
  unfold SchedState.step
  split
  · exact h
  · cases choice with
    | worker k =>
      intro hout
      dsimp only at hout ⊢
      rw [work_coordinator] at hout
      rw [work_exited (h hout).1]
      exact h hout
    | coordinator =>
      dsimp only
      unfold SchedState.coordinate
      split
      · split <;> exact fun hout => by cases hout
      · exact fun hout => by dsimp only at hout; split at hout <;> cases hout
      · intro hout
        exfalso
        revert hout
        unfold SchedState.visit
        repeat' split
        all_goals simp
      · exact fun hout => by cases hout
      · split
        · rename_i hall
          intro _
          refine ⟨fun v hv => ?_, fun hfailed t ht => ?_⟩
          · have hexited := List.all_eq_true.1 hall v (by simpa [(sweep_same (s := sc)).1] using hv)
            split at hexited
            · assumption
            · cases hexited
          · exact sweep_settles ((sweep_same (s := sc)).2.1 ▸ hfailed) ht
        · exact h
      · exact h

/-! ## After the scheduler -/

/-- `finishTask` does nothing for the task. -/
def Skipped (t : DownloadTask) : Prop := t.chunks = [] ∧ Failing t.status

/-- What `finishTask` makes of `t`: it ends saved, if it is not skipped. -/
structure Finished (w w' : World) (t t' : DownloadTask) : Prop where
  id : t'.id = t.id
  status : Terminal t'.status
  keeps : ¬ Skipped t → w'.Keeps t'
  skipped : Skipped t → t' = t ∧ ∀ u : DownloadTask, u.id = t.id → w.Keeps u → w'.Keeps u

/-- The merge of this task, if there is one, goes through. -/
def FinishesMerge (env : Env) (w : World) (t : DownloadTask) : Prop :=
  t.chunks ≠ [] → t.toMerge → Merges env { world := w, task := t }

/-- No merge that `finalizePreparedTask` makes on the way through the tasks throws. -/
def Unbroken (envs : TaskId → Env) : List DownloadTask → World → Prop
  | [], _ => True
  | t :: ts, w =>
    FinishesMerge (envs t.id) w t ∧ ∀ t' w', (finishTask envs t).run w = (.ok t', w') → Unbroken envs ts w'

/-- The session on a task that `finishTask` hands to its engine. -/
theorem onTask_id {m : EngineM Unit} (hm : Keeps (fun s : Session => s.task.id = t.id) m) :
    wp (onTask t m) (fun t' _ => t'.id = t.id) (fun _ _ => True) (fun _ => True) w :=
  wp_onTask.2 (wp_mono (hm _ rfl) (fun _ _ h => h) (fun _ _ _ => trivial) (fun _ _ => trivial))

theorem finishTask_finished (hsaves : (envs t.id).SavesAll) (hprepared : Prepared t.status) :
    wp (finishTask envs t) (fun t' w' => Finished w w' t t' ∧ FinishesMerge (envs t.id) w t)
      (fun _ _ => ¬ FinishesMerge (envs t.id) w t) (fun _ => True) w := by
  unfold finishTask
  split
  · rename_i hempty
    have hrun : ¬ Skipped t := fun h => by
      rcases h.2 with hst | hst
      · exact hempty.2.1 hst
      · exact hempty.2.2 hst
    have hid : wp (onTask t (download (envs t.id))) (fun t' _ => t'.id = t.id) (fun _ _ => True) (fun _ => True) w :=
      onTask_id (keeps_download tolerates_id.transfer mergeAndComplete_id tolerates_id.failWith)
    have hover : wp (onTask t (download (envs t.id))) (fun t' w' => Terminal t'.status ∧ w'.Keeps t') (fun _ _ => False)
        (fun _ => True) w :=
      wp_onTask.2 (wp_mono (download_over hsaves) (fun _ _ h => ⟨h.status, h.keeps⟩) (fun _ _ h => h) (fun _ h => h))
    refine wp_mono (wp_and hid hover)
      (fun t' w' h => ⟨⟨h.1, h.2.1, fun _ => h.2.2, fun hskip => absurd hskip hrun⟩, ?_⟩)
      (fun _ _ h => h.2.elim) (fun _ _ => trivial)
    exact fun hchunks => absurd hempty.1 hchunks
  · split
    · rename_i hchunks
      have hid : wp (onTask t (finalizePreparedTask (envs t.id))) (fun t' _ => t'.id = t.id) (fun _ _ => True)
          (fun _ => True) w :=
        onTask_id (keeps_finalize tolerates_id.persistTask (tolerates_id.setFailure (by decide)) mergeAndComplete_id)
      have hover : wp (onTask t (finalizePreparedTask (envs t.id)))
          (fun t' w' => (Terminal t'.status ∧ w'.Keeps t') ∧ FinishesMerge (envs t.id) w t)
          (fun _ _ => ¬ FinishesMerge (envs t.id) w t) (fun _ => True) w :=
        wp_onTask.2 (wp_mono (finalize_over hsaves hprepared) (fun _ _ h => ⟨⟨h.1.status, h.1.keeps⟩, fun _ => h.2⟩)
          (fun _ _ h hfinishes => h.2 (hfinishes hchunks h.1)) (fun _ h => h))
      refine wp_mono (wp_and hid hover) (fun t' w' h => ⟨⟨h.1, h.2.1.1, fun _ => h.2.1.2, ?_⟩, h.2.2⟩)
        (fun _ _ h => h.2) (fun _ _ => trivial)
      exact fun hskip => absurd hskip.1 hchunks
    · rename_i hfailed hchunks
      have hnone : t.chunks = [] := not_not.1 hchunks
      have hfailing : Failing t.status := hprepared.resolve_left fun hworking => hfailed ⟨hnone, by
        rcases hworking with hst | hst <;> simp [hst]⟩
      exact ⟨⟨rfl, hfailing.terminal, fun hrun => absurd ⟨hnone, hfailing⟩ hrun, fun _ => ⟨rfl, fun _ _ h => h⟩⟩,
        fun hne => absurd hnone hne⟩

/-- `w₀` is a world before, of which the saved tasks are still saved. -/
theorem finishAll_finished (hsaves : ∀ id, (envs id).SavesAll) {w₀ : World} :
    ∀ (ts : List DownloadTask) (w : World), (ts.map (·.id)).Nodup →
    (∀ t ∈ ts, Prepared t.status) → (∀ t ∈ ts, ∀ u : DownloadTask, u.id = t.id → w₀.Keeps u → w.Keeps u) →
    wp (finishAll envs ts) (fun ts' w' => Unbroken envs ts w ∧ List.Forall₂ (Finished w₀ w') ts ts')
      (fun _ _ => ¬ Unbroken envs ts w) (fun _ => True) w
  | [], _, _, _, _ => ⟨trivial, .nil⟩
  | t :: ts, w, hnodup, hprepared, hbefore => by
    rw [List.map_cons, List.nodup_cons] at hnodup
    rw [List.forall_mem_cons] at hprepared hbefore
    have hothers : ∀ u ∈ ts, u.id ≠ t.id := fun u hu hid => hnodup.1 (hid ▸ List.mem_map_of_mem hu)
    have hfinish : wp (finishTask envs t) _ _ _ w := finishTask_finished (hsaves t.id) hprepared.1
    unfold finishAll
    rw [wp_bind, Unbroken]
    rcases hrun : (finishTask envs t).run w with ⟨t' | e | _, w₁⟩
    · rw [wp_of_ok hrun] at hfinish ⊢
      obtain ⟨hfinished, hmerge⟩ := hfinish
      have hstill : ∀ x ∈ ts, ∀ u : DownloadTask, u.id = x.id → w₀.Keeps u → w₁.Keeps u := fun x hx u hid hu => by
        have hid' : t.id ≠ u.id := by
          rw [hid]
          exact (hothers x hx).symm
        exact (wp_of_ok hrun).1 (finishTask_beside (elsewhere_rule u) hid' w (hbefore.2 x hx u hid hu))
      have hrest := finishAll_finished hsaves ts w₁ hnodup.2 hprepared.2 hstill
      rw [wp_bind]
      rcases hrun' : (finishAll envs ts).run w₁ with ⟨ts' | e | _, w'⟩
      · rw [wp_of_ok hrun'] at hrest ⊢
        -- the tasks after this one leave its file alone
        have hkept : ∀ u : DownloadTask, u.id = t.id → w₁.Keeps u → w'.Keeps u := fun u hid hu => by
          have hlater : Keeps (fun w : World => w.Keeps u) (finishAll envs ts) :=
            finishAll_beside (elsewhere_rule u) ts fun x hx => hid ▸ hothers x hx
          exact (wp_of_ok hrun').1 (hlater w₁ hu)
        refine ⟨⟨hmerge, fun t'' w'' h => ?_⟩,
          .cons ⟨hfinished.id, hfinished.status, fun hrun => ?_, fun hskip => ?_⟩ hrest.2⟩
        · obtain ⟨-, rfl⟩ := Prod.mk.inj h
          exact hrest.1
        · exact hkept _ hfinished.id (hfinished.keeps hrun)
        · obtain ⟨hsame, hkeeps⟩ := hfinished.skipped hskip
          exact ⟨hsame, fun u hid hu => hkept u hid (hkeeps u hid (hbefore.1 u hid hu))⟩
      · rw [wp_of_thrown hrun'] at hrest ⊢
        exact fun h => hrest (h.2 _ _ rfl)
      · rw [wp_of_stopped hrun']
        trivial
    · rw [wp_of_thrown hrun] at hfinish ⊢
      exact fun h => hfinish h.1
    · rw [wp_of_stopped hrun]
      trivial

/-! ## The whole queue -/

/-- The tasks with nothing to start, when the scheduler has returned. -/
structure Spectated (prepared : List DownloadTask) (s : SchedState WorkerPc) : Prop where
  ids : s.tasks.map (·.id) = prepared.map (·.id)
  chunks : ∀ (i : Nat) (u t : DownloadTask), prepared[i]? = some u → s.tasks[i]? = some t →
    (t.chunks = [] ↔ u.chunks = [])
  stored : ∀ u ∈ prepared, hasSchedulableChunk u = false → s.world.Keeps u
  /-- They failed with the workers, or are as they were. -/
  swept : ∀ (i : Nat) (u t : DownloadTask), prepared[i]? = some u → s.tasks[i]? = some t →
    hasSchedulableChunk u = false → t = if s.workerFailed then sweepTask u else u

theorem Spectating.returned (h : Spectating prepared sc) (hjoined : Joined sc)
    (hreturned : sc.coordinator = .returned) :
    Spectated prepared sc := by
  refine ⟨h.ids, fun i u t hu ht => ?_, h.stored, fun i u t hu ht hnone => ?_⟩
  · rw [← List.length_eq_zero_iff, ← List.length_eq_zero_iff, h.chunks i u t hu ht]
  · rcases h.idle i u t hu ht hnone with rfl | ⟨hfailed, rfl⟩
    · split
      · rename_i hfailed
        rw [sweepTask, if_neg ((hjoined hreturned).2 hfailed _ (List.mem_of_getElem? ht))]
      · rfl
    · rw [if_pos hfailed]

theorem runs_spectated (hnodup : (prepared.map (·.id)).Nodup) (hstored : ∀ u ∈ prepared, w.Keeps u)
    {schedule : List Choice} {s₁ : SchedState WorkerPc}
    (hrun : runs (chunkExecutor envs) cfg { tasks := prepared, world := w } schedule = s₁)
    (hreturned : s₁.coordinator = .returned) :
    Spectated prepared s₁ := by
  have hstart : Spectating prepared ({ tasks := prepared, world := w } : SchedState WorkerPc) := by
    refine ⟨rfl, fun i u t hu ht => ?_, fun i u t hu ht _ => ?_, fun u hu _ => hstored u hu,
      fun v hv => absurd hv List.not_mem_nil⟩
    · rw [Option.some.inj (hu.symm.trans ht)]
    · exact .inl (Option.some.inj (ht.symm.trans hu))
  have hinv : Spectating prepared s₁ ∧ Joined s₁ := by
    rw [← hrun]
    refine run_inv (I := fun s : SchedState WorkerPc => Spectating prepared s ∧ Joined s) (fun s c h => ?_)
      ⟨hstart, fun h => by cases h⟩
    exact ⟨h.1.step hnodup (step_effect c), h.2.step _ c⟩
  exact hinv.1.returned hinv.2 hreturned

/-- What two lists that are related place by place have at a place. -/
theorem related_at {α β : Type} {R : α → β → Prop} {xs : List α} {ys : List β} (h : List.Forall₂ R xs ys) {i : Nat}
    {x : α} {y : β} (hx : xs[i]? = some x) (hy : ys[i]? = some y) : R x y := by
  obtain ⟨hi, rfl⟩ := List.getElem?_eq_some_iff.1 hx
  obtain ⟨hj, rfl⟩ := List.getElem?_eq_some_iff.1 hy
  exact (List.forall₂_iff_get.1 h).2 i hi hj

theorem getElem?_of_length {α β : Type} {xs : List α} {ys : List β} (h : xs.length = ys.length) {i : Nat} {y : β}
    (hy : ys[i]? = some y) :
    ∃ x, xs[i]? = some x := by
  have hi : i < xs.length := h ▸ (List.getElem?_eq_some_iff.1 hy).1
  exact ⟨xs[i], List.getElem?_eq_getElem hi⟩

theorem finished_ids {ts' : List DownloadTask} (h : List.Forall₂ (Finished w w') ts ts') :
    ts'.map (·.id) = ts.map (·.id) := by
  induction h with
  | nil => rfl
  | cons h _ ih => rw [List.map_cons, List.map_cons, h.id, ih]

end Cget
