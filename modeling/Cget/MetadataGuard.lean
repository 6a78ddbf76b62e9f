import Cget.Frame
import Cget.Manager
/-!
# Requests follow the metadata

`download` asks for bytes only after it has found the metadata unchanged. In
`runQueuedTasks` the same holds for a task whose `prepareTask` gets its answer. If
`prepareTask` fails before it, the task is Failed, which the scheduler takes for a status
to schedule: chunks left from earlier sessions are then requested without any metadata.
-/

namespace Cget

open Prog SchedState

variable {env : Env} {s : Session} {id τ : TaskId} {L : List Event}

/-- In a log, newest entry first: every request for the task comes after its metadata was
fetched and found unchanged. -/
def Guarded (id : TaskId) : List Event → Prop
  | [] => True
  | .requested id' _ :: es => (id' = id → .fetched id true ∈ es) ∧ Guarded id es
  | _ :: es => Guarded id es

instance Guarded.decide (id : TaskId) : ∀ log, Decidable (Guarded id log)
  | [] => isTrue trivial
  | .requested id' _ :: es =>
    have := Guarded.decide id es
    inferInstanceAs (Decidable ((id' = id → .fetched id true ∈ es) ∧ Guarded id es))
  | .saved _ :: es | .fetched _ _ :: es | .assigned _ _ :: es => Guarded.decide id es

/-- The log of a session on the task `τ`: it extends `L`, and all requests are guarded. -/
def Logged (L : List Event) (τ : TaskId) (s : Session) : Prop :=
  (∀ id, Guarded id s.world.log) ∧ L ⊆ s.world.log ∧ s.task.id = τ

/-- The metadata of `τ` was found unchanged. -/
def Checked (L : List Event) (τ : TaskId) (s : Session) : Prop :=
  Logged L τ s ∧ .fetched τ true ∈ s.world.log

theorem Logged.quiet {s' : Session} {e : Event} (h : Logged L τ s) (he : ∀ id r, e ≠ .requested id r)
    (hlog : s'.world.log = e :: s.world.log) (hid : s'.task.id = s.task.id) : Logged L τ s' := by
  refine ⟨fun id => ?_, ?_, hid.trans h.2.2⟩
  · rw [hlog]
    cases e with
    | requested id' r => exact absurd rfl (he id' r)
    | _ => exact h.1 id
  · rw [hlog]
    exact List.subset_cons_of_subset _ h.2.1

theorem logged_tolerates : ToleratesSaves (Logged L τ) where
  tick _ _ h := h
  task _ _ h hj := ⟨h.1, h.2.1, hj.1.1.trans h.2.2⟩
  status _ _ h _ := h.quiet (e := .assigned _ _) (by simp) rfl rfl
  saved _ h := h.quiet (e := .saved _) (by simp) rfl rfl

theorem checked_tolerates : Tolerates (Checked L τ) where
  tick _ _ h := h
  part _ _ _ h := h
  task s t h hj := ⟨logged_tolerates.task s t h.1 hj, h.2⟩
  progress s t h hj := ⟨⟨h.1.1, h.1.2.1, hj.1.trans h.1.2.2⟩, h.2⟩
  status s st h hst := ⟨logged_tolerates.status s st h.1 hst, List.mem_cons_of_mem _ h.2⟩
  saved s h := ⟨logged_tolerates.saved s h.1, List.mem_cons_of_mem _ h.2⟩
  logged s e h he := by
    refine ⟨⟨fun id => ?_, List.subset_cons_of_subset _ h.1.2.1, h.1.2.2⟩, List.mem_cons_of_mem _ h.2⟩
    cases e with
    | requested id' r =>
      obtain rfl : id' = τ := (show id' = s.task.id from he).trans h.1.2.2
      exact ⟨fun hid => by rw [← hid]; exact h.2, h.1.1 id⟩
    | _ => exact h.1.1 id

/-! ## download -/

/-- A fetch that finds the metadata unchanged checks the task; any other only logs. -/
theorem logged_fetched (h : Logged L τ s) (b : Bool) :
    Logged L τ (s.record (.fetched s.task.id b)) ∧ (b → Checked L τ (s.record (.fetched s.task.id b))) := by
  have hl : Logged L τ (s.record (.fetched s.task.id b)) := h.quiet (e := .fetched _ _) (by simp) rfl rfl
  refine ⟨hl, fun hb => ⟨hl, ?_⟩⟩
  subst hb
  rw [h.2.2]
  exact List.mem_cons_self

theorem transfer_logged : Keeps (Logged L τ) (transfer env) := by
  unfold transfer
  refine logged_tolerates.beginTask.bind fun _ s hs => ?_
  rw [wp_bind]
  refine wp_fetchMetadata (fun e _ => (logged_fetched hs false).1) (fun info _ => ?_)
  have hf := logged_fetched hs (!metadataChanged s.task info)
  rw [wp_bind, wp_get]
  split
  · exact (logged_tolerates.setFailure (by decide) _).bind (fun _ => KeepsOr.pure _) _ hf.1
  · rename_i hun
    refine wp_mono (checked_tolerates.transferFrom info _ (hf.2 ?_)) (fun _ _ h => h.1) (fun _ _ h => h.1)
      (fun _ h => h.1)
    simpa [Session.record] using hun

theorem merge_logged : Keeps (Logged L τ) (mergeAndComplete env) := by
  refine logged_tolerates.mergeAndComplete (fun s w' hw h => ?_) (fun s h => ?_)
  · have hlog : w'.log = s.world.log := hw.log
    exact ⟨fun id => by rw [hlog]; exact h.1 id, by rw [hlog]; exact h.2.1, h.2.2⟩
  · exact h.quiet (e := .assigned _ _) (by simp) rfl rfl

theorem download_logged : Keeps (Logged L τ) (download env) :=
  keeps_download transfer_logged merge_logged logged_tolerates.failWith

theorem finalize_logged : Keeps (Logged L τ) (finalizePreparedTask env) :=
  keeps_finalize logged_tolerates.persistTask (logged_tolerates.setFailure (by decide)) merge_logged

/-! ## prepareTask -/

/-- No chunk of the task is left to download. -/
def NothingLeft (t : DownloadTask) : Prop := t.chunks.any (·.schedulable) = false

/-- The scheduler starts nothing for the task, or its metadata was found unchanged. -/
def Cleared (log : List Event) (t : DownloadTask) : Prop :=
  .fetched t.id true ∈ log ∨ t.status = .metadataMismatch ∨ NothingLeft t

/-- The task has nothing left to download, or its `prepareTask`, from operation `n` on, gets an
answer from the server and can write the task file before and after it. -/
def Answered (env : Env) (t : DownloadTask) (n : Nat) : Prop :=
  NothingLeft t ∨ ∃ info, env.protocol.fetchMetadata t.url = .ok info ∧ (∀ k, env.saveFault n ≠ .fail k) ∧
    (metadataChanged t info → ∀ k, env.saveFault (n + 1) ≠ .fail k)

/-- How `prepareTask` leaves its body with an exception. -/
def Excused (L : List Event) (t : DownloadTask) (s : Session) : Prop :=
  Logged L t.id s ∧ (.fetched t.id true ∈ s.world.log ∨ s.task.chunks = t.chunks ∧ NothingLeft t)

theorem failWith_excused (e : Exn) {t : DownloadTask} (h : Excused L t s) :
    wp (failWith env e) (fun _ s' => Logged L t.id s' ∧ Cleared s'.world.log s'.task) (fun _ => Logged L t.id)
      (Logged L t.id) s := by
  obtain ⟨hl, hchecked⟩ := h
  have hfailed : ∀ st, Logged L t.id (s.failed env st e.what) := fun st =>
    hl.quiet (e := .assigned _ _) (by simp) rfl rfl
  refine wp_failWith (fun st _ => ⟨?_, ?_⟩) (fun st _ _ _ => hfailed st) (fun st _ _ _ => hfailed st)
  · exact (hfailed st).quiet (e := .saved _) (by simp) rfl rfl
  · rcases hchecked with hf | ⟨hcs, hnone⟩
    · left
      have hid : (s.failed env st e.what).saved.task.id = t.id := hl.2.2
      rw [hid]
      exact List.mem_cons_of_mem _ (List.mem_cons_of_mem _ hf)
    · right; right
      change s.task.chunks.any (·.schedulable) = false
      rw [hcs]
      exact hnone

/-- The body of `prepareTask`, of a task that is answered. -/
theorem prepareBody_cleared (h : Logged L s.task.id s) (hans : Answered env s.task s.world.tick) :
    wp (do
      beginTask env
      let info ← fetchMetadata env
      let s ← get
      if metadataChanged s.task info then setFailure env .metadataMismatch metadataMismatchMessage
      else prepareFrom env info) (fun _ s' => Logged L s.task.id s' ∧ Cleared s'.world.log s'.task)
      (fun _ => Excused L s.task) (Logged L s.task.id) s := by
  have hbegun : Logged L s.task.id (s.begun env) := h.quiet (e := .assigned _ _) (by simp) rfl rfl
  have hsaved : Logged L s.task.id (s.begun env).saved := hbegun.quiet (e := .saved _) (by simp) rfl rfl
  rw [wp_bind]
  refine wp_beginTask (fun _ => ?_) (fun k hk => ⟨hbegun, .inr ⟨rfl, hans.resolve_right fun ⟨_, _, hr, _⟩ => hr k hk⟩⟩)
    (fun _ _ => hbegun)
  rw [wp_bind]
  refine wp_fetchMetadata (fun e he => ⟨(logged_fetched hsaved false).1, .inr ⟨rfl, ?_⟩⟩) (fun info hinfo => ?_)
  · exact hans.resolve_right fun ⟨info, hi, _⟩ => by
      have : env.protocol.fetchMetadata s.task.url = .error e := he
      simp [hi] at this
  have hf := logged_fetched hsaved (!metadataChanged (s.begun env).saved.task info)
  rw [wp_bind, wp_get]
  split
  · rename_i hnew
    have hm : Logged L s.task.id (Session.failed env .metadataMismatch metadataMismatchMessage _) :=
      hf.1.quiet (e := .assigned _ _) (by simp) rfl rfl
    refine wp_setFailure (fun _ => ⟨hm.quiet (e := .saved _) (by simp) rfl rfl, .inr (.inl rfl)⟩) (fun k hk => ?_)
      (fun _ _ => hm)
    refine ⟨hm, .inr ⟨rfl, hans.resolve_right fun ⟨info', hi, _, hr⟩ => ?_⟩⟩
    obtain rfl : info' = info := Except.ok.inj (hi.symm.trans hinfo)
    exact hr hnew k hk
  · rename_i hun
    refine wp_mono (checked_tolerates.prepareFrom info _ (hf.2 ?_)) ?_ (fun _ _ h => ⟨h.1, .inl h.2⟩) (fun _ h => h.1)
    · simpa [Session.record] using hun
    · exact fun _ s' h => ⟨h.1, .inl (by rw [h.1.2.2]; exact h.2)⟩

theorem prepare_cleared (h : Logged L s.task.id s) (hans : Answered env s.task s.world.tick) :
    wp (prepareTask env) (fun _ s' => Logged L s.task.id s' ∧ Cleared s'.world.log s'.task)
      (fun _ => Logged L s.task.id) (Logged L s.task.id) s := by
  unfold prepareTask
  rw [wp_tryCatch]
  exact wp_mono (prepareBody_cleared h hans) (fun _ _ h => h) (fun e s' h => failWith_excused e h) (fun _ h => h)

/-! ## The scheduler -/

/-- All requests so far are guarded, and what can still be requested is checked. -/
structure RunsChecked (L : List Event) (s : SchedState WorkerPc) : Prop where
  guarded : ∀ id, Guarded id s.world.log
  extends_ : L ⊆ s.world.log
  cleared : ∀ t ∈ s.tasks, Cleared s.world.log t
  workers : ∀ w ∈ s.workers, .fetched w.taskId true ∈ s.world.log

theorem Cleared.mono {log log' : List Event} {t : DownloadTask} (h : Cleared log t) (hsub : log ⊆ log') :
    Cleared log' t := h.imp (fun h => hsub h) id

/-- The scheduler picks checked tasks only. -/
theorem Cleared.checked {log : List Event} {t : DownloadTask} {c : Chunk} {j : Nat} (h : Cleared log t)
    (hst : isSchedulableStatus t.status) (hc : t.chunks[j]? = some c) (hs : c.schedulable) :
    .fetched t.id true ∈ log := by
  rcases h with h | h | h
  · exact h
  · rw [h] at hst
    cases hst
  · have : t.chunks.any (·.schedulable) = true := List.any_eq_true.2 ⟨c, List.mem_of_getElem? hc, hs⟩
    rw [NothingLeft, this] at h
    cases h

theorem guarded_assigned {log : List Event} (h : Guarded id log) (τ : TaskId) (st : TaskStatus) :
    Guarded id (.assigned τ st :: log) := h

theorem guarded_assigned_all {es log : List Event} (hes : ∀ e ∈ es, ∃ τ, e = .assigned τ .failed)
    (h : Guarded id log) : Guarded id (es ++ log) := by
  induction es with
  | nil => exact h
  | cons e es ih =>
    obtain ⟨τ, rfl⟩ := hes e List.mem_cons_self
    exact ih fun e he => hes e (List.mem_cons_of_mem _ he)

theorem Cleared.sweep {log : List Event} {t : DownloadTask} (h : Cleared log t) : Cleared log (sweepTask t) := by
  obtain ⟨hid, hcs, hst⟩ := sweepTask_same t
  rcases h with h | h | h
  · exact .inl (by rwa [hid])
  · rcases hst with hst | ⟨hd, -⟩
    · exact .inr (.inl (by rwa [hst]))
    · rw [h] at hd
      cases hd
  · exact .inr (.inr (by rwa [NothingLeft, hcs]))

theorem RunsChecked.step {envs : TaskId → Env} {cfg : SchedulerConfig} {s s' : SchedState WorkerPc} {choice : Choice}
    (h : RunsChecked L s) (heff : StepEffect (chunkExecutor envs) cfg s choice s') : RunsChecked L s' := by
  cases heff with
  | idle ht hw hws =>
    exact ⟨by rw [hw]; exact h.guarded, by rw [hw]; exact h.extends_, by rw [ht, hw]; exact h.cleared,
      by rw [hws, hw]; exact h.workers⟩
  | retire k w p hk _ hp ht hw hws =>
    refine ⟨by rw [hw]; exact h.guarded, by rw [hw]; exact h.extends_, by rw [ht, hw]; exact h.cleared, ?_⟩
    intro v hv
    rw [hws] at hv
    obtain ⟨u, hu, hid, -⟩ := mem_set_phase hk hv
    rw [hw, ← hid]
    exact h.workers u hu
  | start i j order scheduled t c _ hc hti hpick hcj ht hw hws =>
    have hlog : s'.world.log = .assigned t.id .downloading :: s.world.log := by rw [hw]; rfl
    have hsub : s.world.log ⊆ s'.world.log := by rw [hlog]; exact List.subset_cons_self _ _
    obtain ⟨hst, d, hd, hsched⟩ := pick_spec hpick
    have hchecked := (h.cleared t (List.mem_of_getElem? hti)).checked hst hd hsched
    refine ⟨fun id => by rw [hlog]; exact guarded_assigned (h.guarded id) _ _,
      List.Subset.trans h.extends_ hsub, fun u hu => ?_, fun v hv => ?_⟩
    · rw [ht] at hu
      rcases List.mem_or_eq_of_mem_set hu with hu | rfl
      · exact (h.cleared u hu).mono hsub
      · exact .inl (hsub hchecked)
    · rw [hws] at hv
      rcases List.mem_append.1 hv with hv | hv
      · exact hsub (h.workers v hv)
      · obtain rfl := List.mem_singleton.1 hv
        exact hsub hchecked
  | execute k w pc i t _ hk hp hti hid =>
    obtain ⟨ht, hw, hws⟩ := execute_spec (chunkExecutor envs) (l := pc) (i := i) (t := t) hk
    have hfetched := h.workers w (List.mem_of_getElem? hk)
    have hkept : Keeps _ ((chunkExecutor envs).step w.taskId w.chunk pc) :=
      (checked_tolerates (L := s.world.log) (τ := w.taskId)).chunkExecutor w.taskId w.chunk pc
    obtain ⟨⟨hg, hsub, hid'⟩, hf⟩ :=
      hkept.run { world := s.world, task := t } ⟨⟨h.guarded, List.Subset.refl _, hid⟩, hfetched⟩
    refine ⟨by rw [hw]; exact hg, by rw [hw]; exact List.Subset.trans h.extends_ hsub, fun u hu => ?_, fun v hv => ?_⟩
    · rw [ht] at hu
      rw [hw]
      rcases List.mem_or_eq_of_mem_set hu with hu | rfl
      · exact (h.cleared u hu).mono hsub
      · left
        have : (executed (chunkExecutor envs) s w pc t).task.id = w.taskId := hid'
        rw [this]
        exact hf
    · obtain ⟨u, hu, huid, -⟩ := hws v hv
      rw [hw, ← huid]
      exact hsub (h.workers u hu)
  | record k w i t hk hp hti hid ht hw hws =>
    have hlog : s'.world.log = .assigned t.id .failed :: s.world.log := by rw [hw]; rfl
    have hsub : s.world.log ⊆ s'.world.log := by rw [hlog]; exact List.subset_cons_self _ _
    refine ⟨fun id => by rw [hlog]; exact guarded_assigned (h.guarded id) _ _,
      List.Subset.trans h.extends_ hsub, fun u hu => ?_, fun v hv => ?_⟩
    · rw [ht] at hu
      rcases List.mem_or_eq_of_mem_set hu with hu | rfl
      · exact (h.cleared u hu).mono hsub
      · left
        have := h.workers w (List.mem_of_getElem? hk)
        rw [← hid] at this
        exact hsub this
    · rw [hws] at hv
      obtain ⟨u, hu, hid', -⟩ := mem_set_phase hk hv
      rw [← hid']
      exact hsub (h.workers u hu)
  | sweep _ _ ht hw hws =>
    obtain ⟨es, hworld, hes⟩ := sweep_log (s := s)
    have hlog : s'.world.log = es ++ s.world.log := by rw [hw, hworld]
    have hsub : s.world.log ⊆ s'.world.log := by rw [hlog]; exact List.subset_append_right _ _
    refine ⟨fun id => by rw [hlog]; exact guarded_assigned_all hes (h.guarded id),
      List.Subset.trans h.extends_ hsub, fun u hu => ?_, fun v hv => hsub (h.workers v (by rwa [← hws]))⟩
    rw [ht] at hu
    rcases sweep_tasks (s := s) with hsame | ⟨-, hswept⟩
    · exact (h.cleared u (by rwa [← hsame])).mono hsub
    · rw [hswept] at hu
      obtain ⟨t, ht, rfl⟩ := List.mem_map.1 hu
      exact ((h.cleared t ht).mono hsub).sweep

/-! ## runQueuedTasks -/

/-- Each task of the list is answered when its turn comes. -/
def AnsweredAll (envs : TaskId → Env) : List DownloadTask → World → Prop
  | [], _ => True
  | t :: ts, w => Answered (envs t.id) t w.tick ∧
      ∀ t' w', (onTask t (withEngine (envs t.id) (prepareTask (envs t.id)))).run w = (.ok t', w') →
      AnsweredAll envs ts w'

/-- The log of a whole call: it extends `L`, and all requests are guarded. -/
def RunLogged (L : List Event) (w : World) : Prop := (∀ id, Guarded id w.log) ∧ L ⊆ w.log

theorem prepareAll_cleared {envs : TaskId → Env} : ∀ (ts : List DownloadTask) (L : List Event) (w : World),
    RunLogged L w → AnsweredAll envs ts w →
    wp (prepareAll envs ts) (fun ts' w' => RunLogged L w' ∧ ∀ t ∈ ts', Cleared w'.log t) (fun _ => RunLogged L)
      (RunLogged L) w
  | [], L, w, h, _ => ⟨h, by simp⟩
  | t :: ts, L, w, h, hans => by
    have hweak : ∀ {w₁ w₂ : World}, RunLogged L w₁ → RunLogged w₁.log w₂ → RunLogged L w₂ :=
      fun h₁ h₂ => ⟨h₂.1, List.Subset.trans h₁.2 h₂.2⟩
    have hone : wp (onTask t (withEngine (envs t.id) (prepareTask (envs t.id))))
        (fun t' w' => RunLogged L w' ∧ Cleared w'.log t') (fun _ => RunLogged L)
        (RunLogged L) w := by
      rw [wp_onTask]
      refine wp_withEngine (fun _ _ => h) ?_
      exact wp_mono (prepare_cleared (s := { world := w, task := t }) ⟨h.1, h.2, rfl⟩ hans.1)
        (fun _ s h => ⟨⟨h.1.1, h.1.2.1⟩, h.2⟩) (fun _ s h => ⟨h.1, h.2.1⟩) (fun s h => ⟨h.1, h.2.1⟩)
    unfold prepareAll
    rw [wp_bind]
    rcases hrun : (onTask t (withEngine (envs t.id) (prepareTask (envs t.id)))).run w with ⟨t' | e | _, w'⟩
    · rw [wp_of_ok hrun] at hone ⊢
      obtain ⟨hs, hclear⟩ := hone
      rw [wp_bind]
      refine wp_mono (prepareAll_cleared ts w'.log w' ⟨hs.1, List.Subset.refl _⟩ (hans.2 t' w' hrun)) ?_
        (fun _ _ h => hweak hs h) (fun _ h => hweak hs h)
      rintro ts' w'' ⟨hw'', hts'⟩
      refine ⟨hweak hs hw'', fun u hu => ?_⟩
      rcases List.mem_cons.1 hu with rfl | hu
      · exact hclear.mono hw''.2
      · exact hts' u hu
    · rw [wp_of_thrown hrun] at hone ⊢
      exact hone
    · rw [wp_of_stopped hrun] at hone ⊢
      exact hone

theorem finishAll_guarded {envs : TaskId → Env} : ∀ (ts : List DownloadTask),
    Keeps (fun w : World => ∀ id, Guarded id w.log) (finishAll envs ts)
  | [] => KeepsOr.pure _
  | t :: ts => by
    refine KeepsOr.bind (fun w hw => ?_) fun _ => (finishAll_guarded ts).bind fun _ => KeepsOr.pure _
    have hl : Logged [] t.id { world := w, task := t } := ⟨hw, List.nil_subset _, rfl⟩
    unfold finishTask
    split
    · exact wp_onTask.2 (wp_mono (download_logged _ hl) (fun _ _ h => h.1) (fun _ _ h => h.1) (fun _ h => h.1))
    · split
      · exact wp_onTask.2 (wp_mono (finalize_logged _ hl) (fun _ _ h => h.1) (fun _ _ h => h.1) (fun _ h => h.1))
      · exact hw

theorem runRunnable_guarded {r : QueueRun} {runnable : List DownloadTask} {w : World}
    (h : ∀ id, Guarded id w.log) (hans : AnsweredAll r.prepare runnable w) (id : TaskId) :
    Guarded id ((runRunnable r runnable).run w).2.log := by
  have hall : wp (runRunnable r runnable) (fun _ w' => ∀ id, Guarded id w'.log) (fun _ w' => ∀ id, Guarded id w'.log)
      (fun w' => ∀ id, Guarded id w'.log) w := by
    unfold runRunnable
    rw [wp_bind]
    refine wp_mono (prepareAll_cleared runnable [] w ⟨h, List.nil_subset _⟩ hans) ?_ (fun _ _ h => h.1) (fun _ h => h.1)
    rintro prepared w₁ ⟨hg, hclear⟩
    have hrun : RunsChecked [] (SchedState.runs (chunkExecutor r.prepare) r.config.normalized
        { tasks := prepared, world := w₁ } r.schedule) :=
      run_inv (fun s c hs => hs.step (step_effect c)) ⟨hg.1, List.nil_subset _, hclear, by simp⟩
    rw [wp_bind]
    exact wp_schedulerRun rfl (fun _ _ => finishAll_guarded _ _ hrun.guarded) hrun.guarded
  exact wp_const.1 hall id

/-- In every session of `download`, and in every call of `runQueuedTasks` whose tasks with
something left to download are all answered in `prepareTask`, requests follow a successful
fetch that found the metadata unchanged. -/
theorem requests_follow_metadata (env : Env) (s : Session) (hs : s.world.log = []) (r : QueueRun)
    (runnable : List DownloadTask) (w : World) (hw : w.log = [])
    (hans : AnsweredAll r.prepare runnable w) (id : TaskId) :
    Guarded id ((download env).run s).2.world.log ∧ Guarded id ((runRunnable r runnable).run w).2.log := by
  refine ⟨?_, runRunnable_guarded (fun id => by simp [hw, Guarded]) hans id⟩
  have h0 : Logged [] s.task.id s := ⟨fun id => by simp [hs, Guarded], List.nil_subset _, rfl⟩
  exact (download_logged.run s h0).1 id

/-- A server that is down for metadata requests. -/
def silentEnv : Env where
  protocol :=
    { fetchMetadata := fun _ => .error (.cget .networkError (text "unreachable"))
      downloadRange := fun _ _ _ _ => { blocks := [{ data := [2] }] }
      downloadSingle := fun _ => {} }

/-- A task of which an earlier session left half a chunk. -/
def halfTask : DownloadTask where
  id := text "a"
  tempDir := text "/t/a"
  status := .failed
  fileSize := 2
  chunks := [{ stop := 1, downloaded := 1, status := .paused, tempPath := text "chunk_0.part" }]

def silentRun : QueueRun where
  recover := silentEnv
  scan := [text "a"]
  scanAgain := [text "a"]
  prepare := fun _ => silentEnv
  schedule := List.replicate 3 .coordinator ++ List.replicate 5 (.worker 0)
  finish := fun _ => silentEnv

def answeringEnv : Env :=
  { silentEnv with
    protocol := { silentEnv.protocol with fetchMetadata := fun _ => .ok { fileSize := 2, supportsRange := true } } }

/-- A schedule in which the leftover half is downloaded and the call returns. -/
def answeredRun : QueueRun :=
  { silentRun with
    prepare := fun _ => answeringEnv
    finish := fun _ => answeringEnv
    schedule := List.replicate 3 .coordinator ++ List.replicate 24 (.worker 0) ++ List.replicate 5 .coordinator }

theorem requests_guarded_when_answered :
    Guarded (text "a") ((download answeringEnv).run { task := halfTask }).2.world.log ∧
      Guarded (text "a") ((runRunnable answeredRun [halfTask]).run {}).2.log :=
  requests_follow_metadata _ _ rfl _ _ _ rfl
    (show AnsweredAll answeredRun.prepare [halfTask] {} from
      ⟨.inr ⟨{ fileSize := 2, supportsRange := true }, rfl, fun _ h => (by cases h), fun _ _ h => (by cases h)⟩,
        fun _ _ _ => trivial⟩) _

example : ((runRunnable answeredRun [halfTask]).run {}).1 ≠ .stopped := by decide +kernel

/-- `prepareTask` has failed before its answer, and the leftover chunk is requested. -/
theorem request_without_metadata :
    ∃ (env : Env) (s : Session) (r : QueueRun) (runnable : List DownloadTask) (w : World) (id : TaskId),
      s.world.log = [] ∧ w.log = [] ∧
        ¬ (Guarded id ((download env).run s).2.world.log ∧ Guarded id ((runRunnable r runnable).run w).2.log) :=
  ⟨silentEnv, { task := halfTask }, silentRun, [halfTask], {}, text "a", rfl, rfl, by decide +kernel⟩

end Cget
