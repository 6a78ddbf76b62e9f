import Cget.Transitions
import Cget.Selection
/-!
# Operations and the transition table

The changes of whole operations: of the scheduler with its workers, of `runQueuedTasks` over
all its tasks, of recovery. What is kept along each of them is the list of tasks in memory,
every one with the status the log ends with for it.
-/

namespace Cget

open Prog SchedState

variable {env : Env} {envs : TaskId → Env} {allowed : TaskStatus → TaskStatus → Bool} {start cur : TaskId → TaskStatus}
  {L : List Event} {w w' : World} {id : TaskId} {t t' : DownloadTask} {ts : List DownloadTask} {s : Session}

/-! ## Tasks in memory -/

/-- The log ends with the status of each task of the list. -/
def Tracked (allowed : TaskStatus → TaskStatus → Bool) (start : TaskId → TaskStatus) (L : List Event)
    (ts : List DownloadTask) (w : World) : Prop :=
  ∃ cur, Recorded allowed start L w cur ∧ ∀ t ∈ ts, cur t.id = t.status

theorem other_id {i j : Nat} {u : DownloadTask} (hnodup : (ts.map (·.id)).Nodup) (ht : ts[i]? = some t)
    (hu : ts[j]? = some u) (hij : j ≠ i) : u.id ≠ t.id := fun hid => hij (index_unique hnodup hu ht hid)

/-- One task of the list moves on. -/
theorem Tracked.set (h : Tracked allowed start L ts w) (hnodup : (ts.map (·.id)).Nodup) {i : Nat} (ht : ts[i]? = some t)
    (hid : t'.id = t.id)
    (hmove : ∀ cur, Recorded allowed start L w (Function.update cur t.id t.status) →
      Recorded allowed start L w' (Function.update cur t.id t'.status)) : Tracked allowed start L (ts.set i t') w' := by
  obtain ⟨cur, hrec, hcur⟩ := h
  refine ⟨Function.update cur t.id t'.status, hmove cur ?_, fun u hu => ?_⟩
  · rw [← hcur t (List.mem_of_getElem? ht), Function.update_eq_self]
    exact hrec
  · obtain ⟨j, hj⟩ := List.mem_iff_getElem?.1 hu
    rcases getElem?_set_some hj with ⟨-, rfl⟩ | ⟨hij, hj⟩
    · rw [hid, Function.update_self]
    · rw [Function.update_of_ne (other_id hnodup ht hj hij)]
      exact hcur u (List.mem_of_getElem? hj)

/-- A change of its status. -/
theorem Tracked.assign (h : Tracked allowed start L ts w) (hnodup : (ts.map (·.id)).Nodup) {i : Nat}
    (ht : ts[i]? = some t) (hid : t'.id = t.id) (hst : allowed t.status t'.status) :
    Tracked allowed start L (ts.set i t') (w.record (.assigned t.id t'.status)) := by
  refine h.set hnodup ht hid fun cur hrec => ?_
  have hassign := hrec.assign t.id t'.status (by rw [Function.update_self]; exact hst)
  rwa [Function.update_idem] at hassign

/-! ## The scheduler -/

/-- The changes of `runQueuedTasks` after its recovery. -/
structure AllowsSchedule (allowed : TaskStatus → TaskStatus → Bool) : Prop extends AllowsTransfer allowed where
  schedule : ∀ a b, scheduleExceeds a b → allowed a b

/-- A task that workers may be at work on. -/
def Running (st : TaskStatus) : Prop := Working st ∨ st = .failed

theorem Running.prepared {st : TaskStatus} (h : Running st) : Prepared st := h.imp id .inl

theorem Prepared.running {st : TaskStatus} (h : Prepared st) (hne : st ≠ .metadataMismatch) : Running st :=
  h.imp id fun h => h.resolve_right hne

theorem AllowsSchedule.downloading (hallowed : AllowsSchedule allowed) {a : TaskStatus} (h : Running a) :
    allowed a .downloading := by
  rcases h with (rfl | rfl) | rfl
  · exact hallowed.table _ _ rfl
  · exact hallowed.table _ _ rfl
  · exact hallowed.schedule _ _ rfl

theorem AllowsSchedule.retrying (hallowed : AllowsSchedule allowed) {a : TaskStatus} (h : Running a) :
    allowed a .retrying := by
  rcases h with (rfl | rfl) | rfl
  · exact hallowed.table _ _ rfl
  · exact hallowed.table _ _ rfl
  · exact hallowed.schedule _ _ rfl

theorem AllowsSchedule.failing (hallowed : AllowsSchedule allowed) {a : TaskStatus} (h : Running a) :
    allowed a .failed := by
  rcases h with (rfl | rfl) | rfl <;> exact hallowed.table _ _ rfl

/-- The tasks the scheduler holds: prepared, tracked, and none with a mismatch has a worker. -/
structure Scheduling (allowed : TaskStatus → TaskStatus → Bool) (start : TaskId → TaskStatus) (L : List Event)
    (s : SchedState WorkerPc) : Prop where
  nodup : (s.tasks.map (·.id)).Nodup
  tracked : Tracked allowed start L s.tasks s.world
  prepared : ∀ t ∈ s.tasks, Prepared t.status
  workers : ∀ w ∈ s.workers, ∀ t ∈ s.tasks, t.id = w.taskId → t.status ≠ .metadataMismatch

theorem Running.ne_mismatch {st : TaskStatus} (h : Running st) : st ≠ .metadataMismatch := by
  rcases h with (rfl | rfl) | rfl <;> simp

/-- A step that moves one running task on to a running one, and starts at most a worker for it. -/
theorem Scheduling.set {sc sc' : SchedState WorkerPc} (h : Scheduling allowed start L sc) {i : Nat}
    (hti : sc.tasks[i]? = some t)
    (t' : DownloadTask) (hid : t'.id = t.id) (hrun : Running t'.status) (htasks : sc'.tasks = sc.tasks.set i t')
    (htracked : Tracked allowed start L (sc.tasks.set i t') sc'.world)
    (hworkers : ∀ v ∈ sc'.workers, (∃ u ∈ sc.workers, u.taskId = v.taskId) ∨ v.taskId = t.id) :
    Scheduling allowed start L sc' := by
  have hids : (sc.tasks.set i t').map (·.id) = sc.tasks.map (·.id) := map_set_eq hti hid
  refine ⟨by rw [htasks, hids]; exact h.nodup, by rw [htasks]; exact htracked, fun u hu => ?_, fun v hv u hu huid => ?_⟩
  · rw [htasks] at hu
    rcases List.mem_or_eq_of_mem_set hu with hu | rfl
    · exact h.prepared u hu
    · exact hrun.prepared
  · rw [htasks] at hu
    obtain ⟨j, hj⟩ := List.mem_iff_getElem?.1 hu
    rcases getElem?_set_some hj with ⟨-, rfl⟩ | ⟨hij, hj⟩
    · exact hrun.ne_mismatch
    · rcases hworkers v hv with ⟨x, hx, hxid⟩ | hvid
      · exact h.workers x hx u (List.mem_of_getElem? hj) (huid.trans hxid.symm)
      · exact absurd (huid.trans hvid) (other_id h.nodup hti hj hij)

/-- The sweep records a failure for each task that is still Downloading. -/
theorem recorded_sweep : ∀ (us : List DownloadTask) (w : World)
    (cur : TaskId → TaskStatus), Recorded allowed start L w cur →
    (∀ u ∈ us, allowed (cur u.id) .failed) → allowed .failed .failed →
    Recorded allowed start L (us.foldl (fun w t => w.record (.assigned t.id .failed)) w)
      (fun id => if id ∈ us.map (·.id) then .failed else cur id)
  | [], w, cur, h, _, _ => by simpa using h
  | u :: us, w, cur, h, hus, hff => by
    have hassign := h.assign _ _ (hus u List.mem_cons_self)
    have hrest := recorded_sweep us _ _ hassign (fun v hv => ?_) hff
    · rw [List.foldl_cons]
      convert hrest using 2 with id
      by_cases hid : id = u.id
      · subst hid
        simp
      · simp [hid]
    · by_cases hid : v.id = u.id
      · rw [hid, Function.update_self]
        exact hff
      · rw [Function.update_of_ne hid]
        exact hus v (List.mem_cons_of_mem _ hv)

theorem Tracked.sweep (hallowed : AllowsSchedule allowed) {sc : SchedState WorkerPc}
    (h : Tracked allowed start L sc.tasks sc.world)
    (hnodup : (sc.tasks.map (·.id)).Nodup) : Tracked allowed start L sc.sweep.tasks sc.sweep.world := by
  unfold SchedState.sweep
  split
  · obtain ⟨cur, hrec, hcur⟩ := h
    refine ⟨_, recorded_sweep _ _ cur hrec (fun u hu => ?_) (hallowed.table _ _ rfl), fun u hu => ?_⟩
    · obtain ⟨hu, hst⟩ := List.mem_filter.1 hu
      rw [hcur u hu, of_decide_eq_true hst]
      exact hallowed.table _ _ rfl
    · obtain ⟨t, ht, rfl⟩ := List.mem_map.1 hu
      rw [(sweepTask_same t).1]
      by_cases hst : t.status = .downloading
      · have hmem : t.id ∈ (sc.tasks.filter (·.status = .downloading)).map (·.id) :=
          List.mem_map_of_mem (List.mem_filter.2 ⟨ht, by simpa using hst⟩)
        rw [if_pos hmem, sweepTask, if_pos hst]
      · have hmem : t.id ∉ (sc.tasks.filter (·.status = .downloading)).map (·.id) := by
          intro hmem
          obtain ⟨u, hu, hid⟩ := List.mem_map.1 hmem
          obtain ⟨hu, hust⟩ := List.mem_filter.1 hu
          obtain rfl : u = t := List.inj_on_of_nodup_map hnodup hu ht hid
          exact hst (of_decide_eq_true hust)
        rw [if_neg hmem, sweepTask, if_neg hst]
        exact hcur t ht
  · exact h

theorem Scheduling.step (hallowed : AllowsSchedule allowed) {cfg : SchedulerConfig} {sc sc' : SchedState WorkerPc}
    {choice : Choice}
    (h : Scheduling allowed start L sc) (heff : StepEffect (chunkExecutor envs) cfg sc choice sc') :
    Scheduling allowed start L sc' := by
  cases heff with
  | idle ht hw hws =>
    exact ⟨by rw [ht]; exact h.nodup, by rw [ht, hw]; exact h.tracked, by rw [ht]; exact h.prepared,
      by rw [ht, hws]; exact h.workers⟩
  | retire k w p hk _ _ ht hw hws =>
    refine ⟨by rw [ht]; exact h.nodup, by rw [ht, hw]; exact h.tracked, by rw [ht]; exact h.prepared, fun v hv => ?_⟩
    rw [hws] at hv
    obtain ⟨u, hu, hid, -⟩ := mem_set_phase hk hv
    rw [ht, ← hid]
    exact h.workers u hu
  | start i j order scheduled t c _ _ hti hpick _ ht hw hws =>
    have hmem := List.mem_of_getElem? hti
    have hrun : Running t.status := (h.prepared t hmem).running fun hst => by
      have hsched := (pick_spec hpick).1
      rw [hst] at hsched
      cases hsched
    refine h.set hti (startedTask t j c) rfl (.inl (.inl rfl)) ht ?_ fun v hv => ?_
    · rw [hw]
      exact h.tracked.assign h.nodup hti rfl (hallowed.downloading hrun)
    · rw [hws] at hv
      rcases List.mem_append.1 hv with hv | hv
      · exact .inl ⟨v, hv, rfl⟩
      · exact .inr (by rw [List.mem_singleton.1 hv])
  | execute k w pc i t _ hk _ hti hid =>
    obtain ⟨ht, hw, hws⟩ := execute_spec (chunkExecutor envs) (l := pc) (i := i) (t := t) hk
    have hmem := List.mem_of_getElem? hti
    have hrun : Running t.status := (h.prepared t hmem).running (h.workers w (List.mem_of_getElem? hk) t hmem hid)
    have hstep : ∀ cur, At allowed start L cur t.id Running { world := sc.world, task := t } →
        At allowed start L cur t.id Running (executed (chunkExecutor envs) sc w pc t) := by
      intro cur hat
      have hkeeps : Keeps (At allowed start L cur t.id Running) ((chunkExecutor envs).step w.taskId w.chunk pc) :=
        chunkExecutor_keeps (at_stepWorker (.inl (.inl rfl)) (.inl (.inr rfl)) (fun a => hallowed.downloading) fun a =>
          hallowed.retrying) _ _
      exact hkeeps.run _ hat
    obtain ⟨cur, hrec, hcur⟩ := h.tracked
    have hhere : At allowed start L cur t.id Running { world := sc.world, task := t } := by
      refine ⟨rfl, hrun, ?_⟩
      rw [← hcur t hmem, Function.update_eq_self]
      exact hrec
    have hthere := hstep cur hhere
    refine h.set hti _ hthere.id hthere.status ht ?_ fun v hv => ?_
    · rw [hw]
      exact h.tracked.set h.nodup hti hthere.id fun cur hrec => (hstep cur ⟨rfl, hrun, hrec⟩).recorded
    · obtain ⟨u, hu, huid, -⟩ := hws v hv
      exact .inl ⟨u, hu, huid⟩
  | record k w i t hk _ hti hid ht hw hws =>
    have hmem := List.mem_of_getElem? hti
    have hrun : Running t.status := (h.prepared t hmem).running (h.workers w (List.mem_of_getElem? hk) t hmem hid)
    refine h.set hti (failedTask t w.chunk) rfl (.inr rfl) ht ?_ fun v hv => ?_
    · rw [hw]
      exact h.tracked.assign h.nodup hti rfl (hallowed.failing hrun)
    · rw [hws] at hv
      obtain ⟨u, hu, huid, -⟩ := mem_set_phase hk hv
      exact .inl ⟨u, hu, huid⟩
  | sweep _ _ ht hw hws =>
    have hswept : ∀ u ∈ sc.sweep.tasks, ∃ t ∈ sc.tasks, u.id = t.id ∧
        (u.status = t.status ∨ t.status = .downloading ∧ u.status = .failed) := by
      intro u hu
      rcases sweep_tasks (s := sc) with hsame | ⟨-, hmap⟩
      · exact ⟨u, hsame ▸ hu, rfl, .inl rfl⟩
      · rw [hmap] at hu
        obtain ⟨t, ht, rfl⟩ := List.mem_map.1 hu
        exact ⟨t, ht, (sweepTask_same t).1, (sweepTask_same t).2.2⟩
    have hids : sc.sweep.tasks.map (·.id) = sc.tasks.map (·.id) := by
      rcases sweep_tasks (s := sc) with hsame | ⟨-, hmap⟩
      · rw [hsame]
      · rw [hmap, List.map_map]
        exact List.map_congr_left fun t _ => (sweepTask_same t).1
    refine ⟨by rw [ht, hids]; exact h.nodup, by rw [ht, hw]; exact h.tracked.sweep hallowed h.nodup, fun u hu => ?_,
      fun v hv u hu huid => ?_⟩
    · obtain ⟨t, ht, -, hst | ⟨-, hst⟩⟩ := hswept u (ht ▸ hu)
      · rw [hst]
        exact h.prepared t ht
      · exact .inr (.inl hst)
    · obtain ⟨t, ht, hid, hst | ⟨-, hst⟩⟩ := hswept u (ht ▸ hu)
      · rw [hst]
        exact h.workers v (hws ▸ hv) t ht (hid.symm.trans huid)
      · simp [hst]

/-! ## The list of runnable tasks -/

section Sessions

/-- The changes so far are allowed, wherever they lead. -/
def Conforms (allowed : TaskStatus → TaskStatus → Bool) (start : TaskId → TaskStatus) (L : List Event)
    (w : World) : Prop :=
  ∃ cur, Recorded allowed start L w cur

theorem Conforms.same (h : Conforms allowed start L w) (hlog : w'.log = w.log) : Conforms allowed start L w' := by
  obtain ⟨cur, hrec⟩ := h
  exact ⟨cur, hrec.same hlog⟩

theorem At.conforms {A : TaskStatus → Prop} {τ : TaskId} (h : At allowed start L cur τ A s) :
    Conforms allowed start L s.world :=
  ⟨_, h.recorded⟩

/-- A session on a task of which the log ends with the status. -/
theorem Recorded.at {A : TaskStatus → Prop} (h : Recorded allowed start L w cur) (hcur : cur t.id = t.status)
    (hA : A t.status) :
    At allowed start L cur t.id A { world := w, task := t } := by
  refine ⟨rfl, hA, ?_⟩
  rw [← hcur, Function.update_eq_self]
  exact h

/-- The log ends with the status of each task of the list, and with `cur` for all others. -/
def TrackedFrom (allowed : TaskStatus → TaskStatus → Bool) (start : TaskId → TaskStatus) (L : List Event)
    (cur : TaskId → TaskStatus) (ids : List TaskId) (ts : List DownloadTask) (w : World) : Prop :=
  ∃ cur', Recorded allowed start L w cur' ∧ (∀ t ∈ ts, cur' t.id = t.status) ∧ ∀ id ∉ ids, cur' id = cur id

theorem prepareAll_tracked (hallowed : AllowsSchedule allowed) :
    ∀ (ts : List DownloadTask) (w : World) (cur : TaskId → TaskStatus),
    (ts.map (·.id)).Nodup → Recorded allowed start L w cur → (∀ t ∈ ts, cur t.id = t.status ∧ runnableStatus t.status) →
    wp (prepareAll envs ts)
      (fun ts' w' => ts'.map (·.id) = ts.map (·.id) ∧ (∀ t ∈ ts', Prepared t.status) ∧
        TrackedFrom allowed start L cur (ts.map (·.id)) ts' w')
      (fun _ => Conforms allowed start L) (Conforms allowed start L) w
  | [], _, cur, _, h, _ => ⟨rfl, List.forall_mem_nil _, cur, h, List.forall_mem_nil _, fun _ _ => rfl⟩
  | t :: ts, w, cur, hnodup, h, hts => by
    obtain ⟨hcur, hrun⟩ := hts t List.mem_cons_self
    rw [List.map_cons, List.nodup_cons] at hnodup
    have hbegin : ∀ a, runnableStatus a → allowed a .downloading := by
      intro a ha
      cases a <;> first | exact hallowed.table _ _ rfl | exact hallowed.schedule _ _ rfl | cases ha
    unfold prepareAll
    rw [wp_bind, wp_onTask]
    refine wp_withEngine (fun _ _ => ⟨cur, h⟩) ?_
    refine wp_mono (at_prepareTask hallowed.toAllowsTransfer (h.at hcur hrun) hbegin) ?_ (fun _ _ h => h.conforms)
      (fun _ h => h.conforms)
    intro _ s₁ h₁
    rw [wp_bind]
    have hrest : ∀ u ∈ ts, Function.update cur t.id s₁.task.status u.id = u.status ∧ runnableStatus u.status := by
      intro u hu
      have hne : u.id ≠ t.id := fun hid => hnodup.1 (hid ▸ List.mem_map_of_mem hu)
      rw [Function.update_of_ne hne]
      exact hts u (List.mem_cons_of_mem _ hu)
    refine wp_mono (prepareAll_tracked hallowed ts s₁.world _ hnodup.2 h₁.recorded hrest) ?_ (fun _ _ h => h)
      (fun _ h => h)
    rintro ts' w₂ ⟨hids, hprepared, cur', hrec, htracked, hothers⟩
    refine ⟨by rw [List.map_cons, List.map_cons, hids, h₁.id], List.forall_mem_cons.2 ⟨h₁.status, hprepared⟩, cur',
      hrec, ?_, ?_⟩
    · refine List.forall_mem_cons.2 ⟨?_, htracked⟩
      rw [h₁.id, hothers _ hnodup.1, Function.update_self]
    · intro id hid
      rw [List.map_cons, List.mem_cons, not_or] at hid
      rw [hothers id hid.2, Function.update_of_ne hid.1]

theorem finishTask_recording (hallowed : AllowsTransfer allowed) (h : Recorded allowed start L w cur)
    (hcur : cur t.id = t.status) (hprepared : Prepared t.status) :
    wp (finishTask envs t) (fun t' w' => t'.id = t.id ∧
      Recorded allowed start L w' (Function.update cur t.id t'.status))
      (fun _ => Conforms allowed start L) (Conforms allowed start L) w := by
  have hback : ∀ {m : EngineM Unit}, Recording allowed start L cur t.id ((m.run { world := w, task := t }).2) →
      wp (onTask t m) (fun t' w' => t'.id = t.id ∧ Recorded allowed start L w' (Function.update cur t.id t'.status))
        (fun _ => Conforms allowed start L) (Conforms allowed start L) w := fun hm =>
    wp_onTask.2 (wp_mono (wp_const.2 hm) (fun _ _ h => ⟨h.id, h.recorded⟩) (fun _ _ h => h.conforms)
      (fun _ h => h.conforms))
  unfold finishTask
  split
  · rename_i hempty
    have hworking : Working t.status := hprepared.resolve_right fun hf => by
      rcases hf with hf | hf
      · exact hempty.2.1 hf
      · exact hempty.2.2 hf
    refine hback (at_download hallowed (h.at hcur hworking) fun a ha => ?_)
    rcases ha with rfl | rfl <;> exact hallowed.table _ _ rfl
  · split
    · exact hback (at_finalize hallowed (h.at hcur hprepared))
    · refine ⟨rfl, ?_⟩
      rw [← hcur, Function.update_eq_self]
      exact h

theorem finishAll_conforms (hallowed : AllowsTransfer allowed) :
    ∀ (ts : List DownloadTask) (w : World) (cur : TaskId → TaskStatus),
    (ts.map (·.id)).Nodup → Recorded allowed start L w cur → (∀ t ∈ ts, cur t.id = t.status ∧ Prepared t.status) →
    wp (finishAll envs ts) (fun _ => Conforms allowed start L) (fun _ => Conforms allowed start L)
      (Conforms allowed start L) w
  | [], _, cur, _, h, _ => ⟨cur, h⟩
  | t :: ts, w, cur, hnodup, h, hts => by
    obtain ⟨hcur, hprepared⟩ := hts t List.mem_cons_self
    rw [List.map_cons, List.nodup_cons] at hnodup
    unfold finishAll
    rw [wp_bind]
    refine wp_mono (finishTask_recording hallowed h hcur hprepared) ?_ (fun _ _ h => h) (fun _ h => h)
    rintro t' w₁ ⟨-, h₁⟩
    rw [wp_bind]
    refine wp_mono (finishAll_conforms hallowed ts w₁ _ hnodup.2 h₁ fun u hu => ?_) (fun _ _ h => h) (fun _ _ h => h)
      (fun _ h => h)
    have hne : u.id ≠ t.id := fun hid => hnodup.1 (hid ▸ List.mem_map_of_mem hu)
    rw [Function.update_of_ne hne]
    exact hts u (List.mem_cons_of_mem _ hu)

theorem runRunnable_conforms (hallowed : AllowsSchedule allowed) {r : QueueRun} (hnodup : (ts.map (·.id)).Nodup)
    (h : Recorded allowed start L w cur) (hts : ∀ t ∈ ts, cur t.id = t.status ∧ runnableStatus t.status) :
    wp (runRunnable r ts) (fun _ => Conforms allowed start L) (fun _ => Conforms allowed start L)
      (Conforms allowed start L) w := by
  unfold runRunnable
  rw [wp_bind]
  refine wp_mono (prepareAll_tracked hallowed ts w cur hnodup h hts) ?_ (fun _ _ h => h) (fun _ h => h)
  rintro prepared w₁ ⟨hids, hprepared, cur₁, hrec, htracked, -⟩
  have hrun : Scheduling allowed start L
      (runs (chunkExecutor r.prepare) r.config.normalized { tasks := prepared, world := w₁ } r.schedule) :=
    run_inv (fun s c hs => hs.step hallowed (step_effect c))
      ⟨by rw [hids]; exact hnodup, ⟨cur₁, hrec, htracked⟩, hprepared, by simp⟩
  obtain ⟨cur₂, hrec₂, hcur₂⟩ := hrun.tracked
  rw [wp_bind]
  refine wp_schedulerRun rfl (fun _ _ => ?_) ⟨cur₂, hrec₂⟩
  exact finishAll_conforms hallowed.toAllowsTransfer _ _ cur₂ hrun.nodup hrec₂ fun t ht =>
    ⟨hcur₂ t ht, hrun.prepared t ht⟩

end Sessions

/-! ## Recovery -/

/-- Every file of the store is the task it is named for. -/
def World.Named (w : World) : Prop := ∀ id t, w.disk.loadTask id = some t → t.id = id

/-- The log ends with the statuses of the store. -/
structure Stored (allowed : TaskStatus → TaskStatus → Bool) (start : TaskId → TaskStatus) (L : List Event) (w : World)
    (cur : TaskId → TaskStatus) : Prop where
  recorded : Recorded allowed start L w cur
  loads : ∀ id t, w.disk.loadTask id = some t → t.id = id ∧ cur id = t.status

theorem repair_allowed (htable : ∀ a b, isValidTransition a b → allowed a b)
    (hrecover : ∀ a b, recoverExceeds a b → allowed a b)
    (h : repairsStatus t) (sizes : List Nat) : allowed t.status (repairedStatus t sizes) := by
  rw [repairedStatus, if_pos h]
  unfold repairsStatus at h
  split at h
  · rename_i hempty
    rw [if_pos hempty]
    cases hst : t.status <;> simp [hst] at h <;> split <;> exact htable _ _ rfl
  · rename_i hchunks
    rw [if_neg hchunks]
    cases hst : t.status <;> simp [hst, unfinishedStatus] at h <;> split <;>
      first | exact htable _ _ rfl | exact hrecover _ _ rfl

theorem Stored.save (h : Recorded allowed start L w cur)
    (hothers : ∀ id ≠ t.id, ∀ u, w.disk.loadTask id = some u → u.id = id ∧ cur id = u.status)
    (hcur : cur t.id = t.status) (hfits : t.Fits) : Stored allowed start L (w.saveTask t) cur := by
  refine ⟨h.quiet (e := .saved t) (by simp) rfl, fun id u hu => ?_⟩
  by_cases hid : id = t.id
  · subst hid
    have hload : (w.saveTask t).disk.loadTask t.id = some t := by
      simp [Disk.loadTask, TaskFiles.load, World.saveTask, TaskFiles.commit, taskFromJson_written hfits]
    rw [hload, Option.some.injEq] at hu
    subst hu
    exact ⟨rfl, hcur⟩
  · rw [Disk.loadTask, files_saveTask (Ne.symm hid)] at hu
    exact hothers id hid u hu

/-- The repair of a task, and what the log ends with then. -/
theorem Recorded.repair (htable : ∀ a b, isValidTransition a b → allowed a b)
    (hrecover : ∀ a b, recoverExceeds a b → allowed a b)
    (h : Recorded allowed start L w cur) (hcur : cur t.id = t.status) {sizes : List Nat} {d : Disk}
    (hrep : Repaired t sizes d t')
    (hlog : w'.log = w.log) : Recorded allowed start L (w'.noted t t') (Function.update cur t.id t'.status) := by
  unfold World.noted
  split
  · rename_i hst
    refine (h.same hlog).assign _ _ ?_
    rw [hcur, hrep.status]
    exact repair_allowed htable hrecover hst sizes
  · rename_i hst
    have hsame : t'.status = t.status := by
      rw [hrep.status, repairedStatus_kept (Bool.eq_false_iff.2 hst)]
    rw [hsame, ← hcur, Function.update_eq_self]
    exact h.same hlog

theorem recoverLoop_stored (htable : ∀ a b, isValidTransition a b → allowed a b)
    (hrecover : ∀ a b, recoverExceeds a b → allowed a b) :
    ∀ (ts : List DownloadTask) (w : World) (cur : TaskId → TaskStatus), (ts.map (·.id)).Nodup →
      Stored allowed start L w cur →
    (∀ t ∈ ts, t.status ≠ .corrupted → cur t.id = t.status ∧ t.Fits) →
    wp (recoverLoop env ts) (fun _ w' => ∃ cur', Stored allowed start L w' cur') (fun _ => Conforms allowed start L)
      (Conforms allowed start L) w
  | [], _, cur, _, h, _ => ⟨cur, h⟩
  | t :: ts, w, cur, hnodup, h, hts => by
    rw [List.map_cons, List.nodup_cons] at hnodup
    have htail : ∀ u ∈ ts, u.status ≠ .corrupted → cur u.id = u.status ∧ u.Fits :=
      fun u hu => hts u (List.mem_cons_of_mem _ hu)
    unfold recoverLoop
    split
    · rw [wp_bind]
      exact wp_mono (recoverLoop_stored htable hrecover ts w cur hnodup.2 h htail) (fun _ _ h => h) (fun _ _ h => h)
        (fun _ h => h)
    · rename_i hok
      obtain ⟨hcur, hfits⟩ := hts t List.mem_cons_self hok
      have hcut : ∀ w', Trimmed w w' → Conforms allowed start L w' := fun w' hw' => ⟨cur, h.recorded.same hw'.log⟩
      rw [wp_bind]
      refine wp_mono (repairFromDisk_wp t w) ?_ (fun _ => hcut) hcut
      rintro t' _ ⟨w₁, hw₁, hrep, rfl⟩
      have hid : t'.id = t.id := hrep.same.1
      have hnoted := h.recorded.repair htable hrecover hcur hrep hw₁.log
      rw [wp_bind]
      refine wp_saveTask (fun _ => ?_) (fun _ _ => ⟨_, hnoted.same rfl⟩) (fun _ _ => ⟨_, hnoted.same rfl⟩)
      have hsaved : Stored allowed start L (World.saveTask { w₁.noted t t' with tick := (w₁.noted t t').tick + 1 } t')
          (Function.update cur t.id t'.status) := by
        refine Stored.save (hnoted.same rfl) (fun id hne u hu => ?_) (by rw [hid, Function.update_self])
          (repaired_fits hrep hfits)
        rw [Disk.loadTask, files_noted hw₁] at hu
        rw [hid] at hne
        rw [Function.update_of_ne hne]
        exact h.loads id u hu
      rw [wp_bind]
      refine wp_mono (recoverLoop_stored htable hrecover ts _ _ hnodup.2 hsaved fun u hu hst => ?_) (fun _ _ h => h)
        (fun _ _ h => h) (fun _ h => h)
      have hne : u.id ≠ t.id := fun hid => hnodup.1 (hid ▸ List.mem_map_of_mem hu)
      rw [Function.update_of_ne hne]
      exact htail u hu hst

/-- A scan that meets no file twice loads no id twice. -/
theorem loadAllTasks_nodup {d : Disk} (hnamed : ∀ id t, d.loadTask id = some t → t.id = id) {scan : List TaskId}
    (hscan : scan.Nodup) :
    ((d.loadAllTasks env scan).map (·.id)).Nodup := by
  have hname : (fun t : DownloadTask => t.id) ∘ (fun id => (d.loadTask id).getD (corruptedTask env id)) = id := by
    funext τ
    cases hload : d.loadTask τ with
    | none => simp [hload, corruptedTask]
    | some t => simp [hload, hnamed τ t hload]
  unfold Disk.loadAllTasks
  rw [((List.perm_insertionSort _ _).map _).nodup_iff, List.map_map, hname, List.map_id]
  exact hscan.filter _

theorem Stored.listed (h : Stored allowed start L w cur) {scan : List TaskId} (ht : t ∈ w.disk.loadAllTasks env scan)
    (hst : t.status ≠ .corrupted) : cur t.id = t.status ∧ t.Fits := by
  obtain ⟨id, -, -, hload | ⟨-, rfl⟩⟩ := mem_loadAllTasks ht
  · obtain ⟨rfl, hcur⟩ := h.loads id t hload
    exact ⟨hcur, load_fits hload⟩
  · exact absurd rfl hst

theorem recoverTasks_stored (htable : ∀ a b, isValidTransition a b → allowed a b)
    (hrecover : ∀ a b, recoverExceeds a b → allowed a b)
    (h : Stored allowed start L w cur) {scan : List TaskId} (hscan : scan.Nodup) :
    wp (recoverTasks env scan) (fun _ w' => ∃ cur', Stored allowed start L w' cur') (fun _ => Conforms allowed start L)
      (Conforms allowed start L) w := by
  unfold recoverTasks
  rw [wp_bind, wp_get]
  exact recoverLoop_stored htable hrecover _ w cur (loadAllTasks_nodup (fun id t ht => (h.loads id t ht).1) hscan) h
    fun t ht hst => h.listed ht hst

theorem runQueuedTasks_conforms (hallowed : AllowsSchedule allowed) (hrecover : ∀ a b, recoverExceeds a b → allowed a b)
    (h : Stored allowed start L w cur) {r : QueueRun} (hscan : r.scan.Nodup ∧ r.scanAgain.Nodup) :
    wp (runQueuedTasks r) (fun _ => Conforms allowed start L) (fun _ => Conforms allowed start L)
      (Conforms allowed start L) w := by
  unfold runQueuedTasks
  rw [wp_bind]
  refine wp_mono (recoverTasks_stored hallowed.table hrecover h hscan.1) ?_ (fun _ _ h => h) (fun _ h => h)
  rintro _ w₁ ⟨cur₁, h₁⟩
  have hlisted : ((w₁.disk.loadAllTasks r.recover r.scanAgain).map (·.id)).Nodup :=
    loadAllTasks_nodup (fun id t ht => (h₁.loads id t ht).1) hscan.2
  rw [wp_bind, wp_get, wp_bind]
  refine wp_ofExcept (fun _ _ => ?_) fun _ _ => ⟨_, h₁.recorded⟩
  rw [wp_bind]
  refine wp_mono (runRunnable_conforms hallowed (hlisted.sublist (List.filter_sublist.map _)) h₁.recorded
    fun t ht => ?_) (fun _ _ h => h) (fun _ _ h => h) (fun _ h => h)
  obtain ⟨ht, hrun⟩ := List.mem_filter.1 ht
  refine ⟨(h₁.listed ht ?_).1, hrun⟩
  rintro heq
  rw [heq] at hrun
  cases hrun

/-! ## Single operations -/

theorem Operation.allows_table (op : Operation) (a b : TaskStatus) (h : isValidTransition a b) : op.allows a b := by
  rw [Operation.allows, h]
  rfl

theorem Operation.allows_exceeds (op : Operation) (a b : TaskStatus) (h : op.exceeds a b) : op.allows a b := by
  rw [Operation.allows, h]
  exact Bool.or_true _

theorem createTask_conforms {r : CreateRequest} :
    wp (createTask env r) (fun _ => Conforms (Operation.create env r).allows (fun _ => .created) w.log)
      (fun _ => Conforms (Operation.create env r).allows (fun _ => .created) w.log)
      (Conforms (Operation.create env r).allows (fun _ => .created) w.log) w := by
  have hnothing : ∀ w' : World, w'.log = w.log → Recorded (Operation.create env r).allows (fun _ => .created) w.log w'
      fun _ => .created :=
    fun w' hlog => .nothing hlog
  unfold createTask ensureTaskTempDir
  rw [wp_bind]
  refine wp_fileOp (fun _ => ?_) (fun _ _ => ⟨_, hnothing _ rfl⟩) (fun _ _ => ⟨_, hnothing _ rfl⟩)
  have hnew := (hnothing { disk := w.disk, tick := w.tick + 1, log := w.log } rfl).assign r.id (newTask env r).status
    (by
    unfold newTask
    dsimp only
    split <;> exact Operation.allows_table _ _ _ rfl)
  rw [wp_bind, wp_modify, wp_bind]
  exact wp_saveTask (fun _ => ⟨_, hnew.quiet (e := .saved (newTask env r)) (by simp) rfl⟩)
    (fun _ _ => ⟨_, hnew.same rfl⟩) (fun _ _ => ⟨_, hnew.same rfl⟩)

theorem downloadTask_conforms (hallowed : AllowsTransfer allowed)
    (hqueue : ∀ a, a ≠ .completed → refusedStatus a = false → allowed a .queued) (h : Recorded allowed start L w cur)
    (hcur : cur t.id = t.status) : Conforms allowed start L ((onTask t (downloadTask env)).run w).2 := by
  have hat : At allowed start L cur t.id (· = t.status) { world := w, task := t } := h.at hcur rfl
  refine wp_const.1 (wp_onTask.2 ?_)
  unfold downloadTask
  rw [wp_bind, wp_get]
  split
  · exact hat.conforms
  · split
    · exact hat.conforms
    · rename_i hnew hrefused
      have hqueued := hat.setStatus .queued fun a ha => by
        rw [ha]
        exact hqueue _ hnew (Bool.eq_false_iff.2 hrefused)
      rw [setStatus, wp_bind, wp_modify, wp_bind, wp_get, wp_bind]
      have hkeeps : Keeps (At allowed start L cur t.id (· = .queued)) (do let s ← get; onWorld (saveTask env s.task)) :=
        at_tolerates.save
      have hsave := hkeeps _ hqueued
      rw [wp_bind, wp_get] at hsave
      refine wp_mono hsave (fun _ s₁ h₁ => wp_withEngine (fun _ _ => h₁.conforms) ?_) (fun _ _ h => h.conforms)
        (fun _ h => h.conforms)
      have hdone : Recording allowed start L cur t.id ((download env).run s₁).2 :=
        at_download hallowed h₁ fun a ha => ha ▸ hallowed.table _ _ rfl
      exact wp_mono (wp_const.2 hdone) (fun _ _ h => h.conforms) (fun _ _ h => h.conforms) (fun _ h => h.conforms)

theorem Operation.loaded_of {op : Operation} (hop : ∀ env r, op ≠ .create env r) (hload : w.disk.loadTask id = some t) :
    op.loaded w id = t.status := by
  cases op with
  | create env r => exact absurd rfl (hop env r)
  | _ => simp [Operation.loaded, hload]

/-- A change of a stored task, and its save. -/
theorem Recorded.changed (h : Recorded allowed start L w cur) (env : Env) (t : DownloadTask) {st : TaskStatus}
    (hst : allowed (cur id) st) :
    wp (do
      modify (·.record (.assigned id st))
      saveTask env t) (fun _ => Conforms allowed start L) (fun _ => Conforms allowed start L)
        (Conforms allowed start L) w := by
  have hchanged := h.assign _ _ hst
  rw [wp_bind, wp_modify]
  exact wp_saveTask (fun _ => ⟨_, hchanged.quiet (e := .saved t) (by simp) rfl⟩) (fun _ _ => ⟨_, hchanged.same rfl⟩)
    (fun _ _ => ⟨_, hchanged.same rfl⟩)

/-- Removing a task's files changes no status. -/
theorem removeFiles_conforms {τ : TaskId} : Keeps (Conforms allowed start L) (do
    removeTaskFiles env τ
    removeTaskTempDir env τ) := by
  have hdrop : ∀ g : TaskFiles → TaskFiles,
      Keeps (Conforms allowed start L)
        (ignoringErrors (filesOp env.fault τ g (fun _ d => d) .fileSystemError "remove")) := by
    intro g
    refine KeepsOr.tryCatch (fun w h => ?_) fun _ => KeepsOr.pure _
    rw [filesOp, wp_operation]
    split <;> exact h.same rfl
  unfold removeTaskFiles
  refine KeepsOr.bind ((hdrop _).bind fun _ => (hdrop _).bind fun _ => hdrop _) fun _ => ?_
  unfold removeTaskTempDir
  split
  · exact KeepsOr.throw _
  · exact fun w h => wp_fileOp (fun _ => h.same rfl) (fun _ _ => h.same rfl) fun _ _ => h.same rfl

theorem Operation.conforms (hnamed : w.Named) {op : Operation} (hscan : op.ScansOnce) :
    Conforms op.allows (op.loaded w) w.log (op.step w) := by
  have hnothing : Recorded op.allows (op.loaded w) w.log w (op.loaded w) := .nothing rfl
  have hstored : (∀ env r, op ≠ .create env r) → Stored op.allows (op.loaded w) w.log w (op.loaded w) := fun hop =>
    ⟨hnothing, fun id t ht => ⟨hnamed id t ht, Operation.loaded_of hop ht⟩⟩
  cases op with
  | create env r => exact wp_const.1 createTask_conforms
  | download env id =>
    have hexceeds : ∀ a b, downloadExceeds a b → (Operation.download env id).allows a b := fun a b h =>
      Operation.allows_exceeds _ a b (by rw [Operation.exceeds, h, Bool.or_true])
    refine wp_const.1 ?_
    rw [downloadStored, wp_bind]
    refine wp_loadTask (fun t ht => ?_) fun _ => ⟨_, hnothing⟩
    obtain ⟨rfl, hcur⟩ := (hstored (by simp)).loads id t ht
    refine wp_const.2 (downloadTask_conforms ⟨Operation.allows_table _, hexceeds⟩
      (fun a hnew hrefused => ?_) hnothing hcur)
    cases a <;> first
      | exact Operation.allows_table _ _ _ rfl
      | exact Operation.allows_exceeds _ _ _ rfl
      | exact absurd rfl hnew
      | cases hrefused
  | pause env id =>
    refine wp_const.1 ?_
    rw [pauseTask, wp_bind]
    refine wp_loadTask (fun t ht => ?_) fun _ => ⟨_, hnothing⟩
    obtain ⟨rfl, hcur⟩ := (hstored (by simp)).loads id t ht
    split
    · exact ⟨_, hnothing⟩
    · rename_i hpausable
      refine hnothing.changed env _ ?_
      rw [hcur]
      cases hst : t.status <;> first
        | exact Operation.allows_table _ _ _ rfl
        | exact Operation.allows_exceeds _ _ _ rfl
        | exact absurd (by rw [hst]; rfl) hpausable
  | remove env id =>
    refine wp_const.1 ?_
    rw [removeTask, wp_bind]
    refine wp_loadTask (fun t ht => ?_) fun _ => ⟨_, hnothing⟩
    obtain ⟨rfl, hcur⟩ := (hstored (by simp)).loads id t ht
    have hremoved : (Operation.remove env t.id).allows ((Operation.remove env t.id).loaded w t.id) .removed := by
      rw [hcur]
      cases t.status <;> first | exact Operation.allows_table _ _ _ rfl | exact Operation.allows_exceeds _ _ _ rfl
    have hsaved := hnothing.changed env (removedTask env t) hremoved
    rw [wp_bind, wp_modify] at hsaved
    rw [wp_bind, wp_modify, wp_bind]
    exact wp_mono hsaved (fun _ w₁ h₁ => removeFiles_conforms w₁ h₁) (fun _ _ h => h) (fun _ h => h)
  | recover env scan =>
    have hrecover : ∀ a b, recoverExceeds a b → (Operation.recover env scan).allows a b :=
      fun a b h => Operation.allows_exceeds _ a b h
    refine wp_const.1 (wp_mono (recoverTasks_stored (Operation.allows_table _) hrecover (hstored (by simp)) hscan) ?_
      (fun _ _ h => h) (fun _ h => h))
    rintro _ w₁ ⟨cur, h⟩
    exact ⟨cur, h.recorded⟩
  | queue r =>
    have hexceeds : ∀ a b, recoverExceeds a b ∨ scheduleExceeds a b ∨ downloadExceeds a b →
        (Operation.queue r).allows a b := fun a b h =>
      Operation.allows_exceeds _ a b (by simpa [Operation.exceeds, or_assoc] using h)
    refine wp_const.1 (runQueuedTasks_conforms ⟨⟨Operation.allows_table _, fun a b h => hexceeds a b (.inr (.inr h))⟩,
      fun a b h => hexceeds a b (.inr (.inl h))⟩ (fun a b h => hexceeds a b (.inl h)) (hstored (by simp)) hscan)

/-! ## The changes of an operation -/

/-- Every reachable store is named. -/
theorem Filed.named {P : DownloadTask → Prop} (h : Filed P w) : w.Named := fun _ _ ht => (h.job ht).1

/-- Every change of status of every operation, whatever it meets, is in the table or among
the exceptions of the operation. -/
theorem status_changes_conform (w : World) (hnamed : w.Named) (op : Operation) (hscan : op.ScansOnce) :
    ∃ es, (op.step w).log = es ++ w.log ∧ EachChange op.allows (op.loaded w) es := by
  obtain ⟨cur, hrec⟩ := Operation.conforms hnamed hscan
  obtain ⟨es, hlog, heach, -⟩ := hrec.since
  exact ⟨es, hlog, heach⟩

theorem status_changes_conform_created :
    ∃ es, (runOperations (runOperations (.fresh (fun _ => none) fun _ => none) createdRun) [.queue silentRun]).log =
        es ++ (runOperations (.fresh (fun _ => none) fun _ => none) createdRun).log ∧
      EachChange (Operation.queue silentRun).allows
        ((Operation.queue silentRun).loaded (runOperations (.fresh (fun _ => none) fun _ => none) createdRun)) es :=
  status_changes_conform _ (run_filed _ _ _).named (.queue silentRun) ⟨List.nodup_singleton _, List.nodup_singleton _⟩

/-! ## The exceptions -/

/-- A store with one task, and with these bytes in every part file. -/
def World.holding (t : DownloadTask) (b : Option Bytes) : World :=
  { disk := { tasks := Function.update (fun _ => {}) t.id { main := some (.written t) }, parts := fun _ => b } }

theorem holding_named {b : Option Bytes} : (World.holding t b).Named := by
  intro id u hu
  by_cases hid : id = t.id
  · subst hid
    simp only [Disk.loadTask, World.holding, Function.update_self, TaskFiles.load, Option.bind_some, Option.bind_none,
      Option.or_none] at hu
    have := (taskFromJson_some hu).1
    cases this
    rfl
  · simp [Disk.loadTask, World.holding, Function.update_of_ne hid, TaskFiles.load] at hu

/-- A task with two chunks of one byte. -/
def twoChunkTask (st : TaskStatus) : DownloadTask :=
  { halfTask with
    status := st
    chunks := [{ stop := 0, tempPath := text "chunk_0.part" },
      { index := 1, start := 1, stop := 1, tempPath := text "chunk_1.part" }] }

def chunklessTask (st : TaskStatus) : DownloadTask := { halfTask with status := st, chunks := [] }

/-- The first byte arrives with an error, after the transfer of the second has ended. -/
def retryEnv (second : Except Exn Unit) : Env :=
  { answeringEnv with
    protocol := { answeringEnv.protocol with
      downloadRange := fun _ start _ _ =>
        if start = 0 then { blocks := [{ data := [7] }], result := .error (.cget .networkError []) }
        else { blocks := [{ data := [8] }], result := second } }
    turns := List.replicate 11 1 ++ List.replicate 15 0 }

def mismatchError : Exn := .cget .metadataMismatchError []

/-- The completed task cannot be saved. -/
def Env.failingSave (env : Env) : Env := { env with commit := { save := .fail 0 } }

/-- The first worker sets its status when the second has ended. -/
def retryRun (second : Except Exn Unit) : QueueRun :=
  { silentRun with
    prepare := fun _ => retryEnv second
    schedule := List.replicate 6 .coordinator ++ List.replicate 3 (.worker 0) ++ List.replicate 11 (.worker 1) ++
      List.replicate 11 (.worker 0) ++ List.replicate 3 .coordinator
    finish := fun _ => retryEnv second }

/-- The server has ranges only when it is asked again. -/
def laterRun (finish : Env) : QueueRun :=
  { silentRun with
    prepare := fun _ => { answeringEnv with
      protocol :=
        { answeringEnv.protocol with fetchMetadata := fun _ => .ok { fileSize := 2, supportsRange := false } } }
    schedule := List.replicate 2 .coordinator
    finish := fun _ => finish }

/-- `prepareTask` takes a task that waits from Pending to Downloading. -/
theorem pending_to_downloading :
    ∃ (w : World) (op : Operation), w.Named ∧ op.ScansOnce ∧
      ¬ ∃ es, (op.step w).log = es ++ w.log ∧ EachChange isValidTransition (op.loaded w) es := by
  refine ⟨.holding (chunklessTask .pending) none, .queue silentRun, holding_named,
    ⟨List.nodup_singleton _, List.nodup_singleton _⟩, ?_⟩
  rintro ⟨es, hlog, heach⟩
  obtain rfl : _ = es := hlog.trans (List.append_nil es)
  revert heach
  decide +kernel

theorem exceeds_off_table {op : Operation} {a b : TaskStatus} (h : op.exceeds a b) : isValidTransition a b = false := by
  cases op <;> cases a <;> cases b <;> first | rfl | cases h

theorem downloadExceeds_cases {a b : TaskStatus} (h : downloadExceeds a b) :
    (a = .retrying ∧ b = .completed) ∨ (a = .retrying ∧ b = .metadataMismatch) ∨ (a = .completed ∧ b = .failed) := by
  simpa [downloadExceeds, and_or_left, or_assoc] using h

theorem scheduleExceeds_cases {a b : TaskStatus} (h : scheduleExceeds a b) :
    (a = .pending ∧ b = .downloading) ∨ (a = .failed ∧ b = .downloading) ∨ (a = .failed ∧ b = .retrying) := by
  simpa [scheduleExceeds, or_and_right, or_assoc] using h

/-- Each exception is a change that some call of the operation makes. -/
theorem exceptions_made (op : Operation) (a b : TaskStatus) (h : op.exceeds a b) :
    ∃ (w : World) (op' : Operation), w.Named ∧ op'.ScansOnce ∧ op'.exceeds = op.exceeds ∧
      ∃ es, (op'.step w).log = es ++ w.log ∧ (a, b) ∈ changes (op'.loaded w) es := by
  have hmake : ∀ (t : DownloadTask) (bytes : Option Bytes) (op' : Operation), op'.ScansOnce → op'.exceeds = op.exceeds →
      (a, b) ∈ changes (op'.loaded (.holding t bytes)) (op'.step (.holding t bytes)).log →
      ∃ (w : World) (op' : Operation), w.Named ∧ op'.ScansOnce ∧ op'.exceeds = op.exceeds ∧
        ∃ es, (op'.step w).log = es ++ w.log ∧ (a, b) ∈ changes (op'.loaded w) es := fun t bytes op' hscan hsame hmem =>
    ⟨.holding t bytes, op', holding_named, hscan, hsame, _, (List.append_nil _).symm, hmem⟩
  have honce : silentRun.scan.Nodup ∧ silentRun.scanAgain.Nodup := ⟨List.nodup_singleton _, List.nodup_singleton _⟩
  cases op with
  | create env r => cases h
  | download env id =>
    rw [Operation.exceeds, Bool.or_eq_true] at h
    rcases h with h | h
    · refine hmake (twoChunkTask a) none (.download silentEnv (text "a")) trivial rfl ?_
      cases a <;> cases b <;> first | (cases h; done) | decide +kernel
    · rcases downloadExceeds_cases h with ⟨rfl, rfl⟩ | ⟨rfl, rfl⟩ | ⟨rfl, rfl⟩
      · exact hmake (twoChunkTask .failed) none (.download (retryEnv (.ok ())) (text "a")) trivial rfl
          (by decide +kernel)
      · exact hmake (twoChunkTask .failed) none (.download (retryEnv (.error mismatchError)) (text "a")) trivial rfl
          (by decide +kernel)
      · exact hmake (twoChunkTask .failed) none (.download ((retryEnv (.ok ())).failingSave) (text "a")) trivial rfl
          (by decide +kernel)
  | pause env id =>
    refine hmake (twoChunkTask a) none (.pause silentEnv (text "a")) trivial rfl ?_
    cases a <;> cases b <;> first | (cases h; done) | decide +kernel
  | remove env id =>
    refine hmake (twoChunkTask a) none (.remove silentEnv (text "a")) trivial rfl ?_
    cases a <;> cases b <;> first | (cases h; done) | decide +kernel
  | recover env scan =>
    refine hmake (twoChunkTask a) (some [1]) (.recover silentEnv [text "a"]) (List.nodup_singleton _) rfl ?_
    cases a <;> cases b <;> first | (cases h; done) | decide +kernel
  | queue r =>
    rw [Operation.exceeds, Bool.or_eq_true, Bool.or_eq_true] at h
    rcases h with (h | h) | h
    · refine hmake (twoChunkTask a) (some [1]) (.queue silentRun) honce rfl ?_
      cases a <;> cases b <;> first | (cases h; done) | decide +kernel
    · rcases scheduleExceeds_cases h with ⟨rfl, rfl⟩ | ⟨rfl, rfl⟩ | ⟨rfl, rfl⟩
      · exact hmake (chunklessTask .pending) none (.queue silentRun) honce rfl (by decide +kernel)
      · exact hmake (chunklessTask .failed) none (.queue silentRun) honce rfl (by decide +kernel)
      · exact hmake (twoChunkTask .failed) none (.queue (retryRun (.error mismatchError))) honce rfl (by decide +kernel)
    · rcases downloadExceeds_cases h with ⟨rfl, rfl⟩ | ⟨rfl, rfl⟩ | ⟨rfl, rfl⟩
      · exact hmake (twoChunkTask .failed) none (.queue (retryRun (.ok ()))) honce rfl (by decide +kernel)
      · exact hmake (chunklessTask .failed) none (.queue (laterRun (retryEnv (.error mismatchError)))) honce rfl
          (by decide +kernel)
      · exact hmake (chunklessTask .failed) none (.queue (laterRun ((retryEnv (.ok ())).failingSave))) honce rfl
          (by decide +kernel)

end Cget
