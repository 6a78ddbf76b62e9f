import Cget.Coverage
import Cget.Lib.Sorting
/-!
# The passes of the scheduler

`Scheduler::run` seen pass by pass. An observer notes each visit of a pass with the state it finds
and the chunk it starts; what workers do in between is theirs. If executors only complete their own
chunk, a pass visits the tasks in the order of the policy, starts each on its first schedulable
chunk at most, and passes over a task before it starts another one only if that task is held up by
its own limit or that of the tasks. The coordinator waits only with no worker to spare or with
every task held up.
-/

namespace Cget

open SchedState

variable {L : Type} {ex : Executor L} {cfg : SchedulerConfig} {s s' : SchedState L} {ids : List TaskId}

/-! ## An observer of the passes -/

/-- A visit: the state it finds, the task it is to, and the chunks it starts. -/
structure Visit (L : Type) where
  found : SchedState L
  task : Nat
  started : List (TaskId × Nat)

/-- A pass, from the state in which it begins to the one in which it has ended. -/
structure Pass (L : Type) where
  begun : SchedState L
  visits : List (Visit L) := []
  ended : Option (SchedState L) := none

/-- A run with its passes, the last one first. -/
structure Observed (L : Type) where
  state : SchedState L
  passes : List (Pass L) := []

/-- The chunks that a step gives to a worker. -/
def newPlaces (s s' : SchedState L) : List (TaskId × Nat) := (s'.workers.drop s.workers.length).map (·.place)

/-- The passes after a step of the coordinator from `s` to `s'`. -/
def note (s s' : SchedState L) : List (Pass L) → List (Pass L)
  | [] => if s'.passing then [{ begun := s }] else []
  | p :: ps =>
    match s.coordinator with
    | .visiting (i :: _) _ =>
      { p with visits := p.visits ++ [{ found := s, task := i, started := newPlaces s s' }] } :: ps
    | .visiting [] _ => { p with ended := some s' } :: ps
    | _ => if s'.passing then { begun := s } :: p :: ps else p :: ps

def Observed.step (ex : Executor L) (cfg : SchedulerConfig) (o : Observed L) (c : Choice) : Observed L where
  state := SchedState.step ex cfg o.state c
  passes := match c with
    | .coordinator => if o.state.crashed then o.passes else note o.state (SchedState.step ex cfg o.state c) o.passes
    | .worker _ => o.passes

def observe (ex : Executor L) (cfg : SchedulerConfig) (s : SchedState L) (schedule : List Choice) : Observed L :=
  schedule.foldl (Observed.step ex cfg) { state := s }

/-- The observer changes nothing. -/
theorem observe_state (s : SchedState L) (schedule : List Choice) :
    (observe ex cfg s schedule).state = SchedState.runs ex cfg s schedule := by
  have hall : ∀ o : Observed L, (schedule.foldl (Observed.step ex cfg) o).state =
      schedule.foldl (SchedState.step ex cfg) o.state := by
    induction schedule with
    | nil => exact fun _ => rfl
    | cons c cs ih => exact fun o => ih (o.step ex cfg c)
  exact hall { state := s }

/-! ## Fair passes -/

namespace SchedState

def sizeAt (s : SchedState L) (i : Nat) : Nat := (s.tasks[i]?.map (·.fileSize)).getD 0

/-- Task `i` is considered before task `j`: first come, first served, or the smaller file first. -/
def ComesBefore (cfg : SchedulerConfig) (s : SchedState L) (i j : Nat) : Prop :=
  match cfg.policy with
  | .fifo => i < j
  | .smallTaskFirst => s.sizeAt i < s.sizeAt j ∨ s.sizeAt i = s.sizeAt j ∧ i < j

/-- All tasks, in the order of the policy. -/
structure InOrder (cfg : SchedulerConfig) (s : SchedState L) (order : List Nat) : Prop where
  all : order.Perm (List.range s.tasks.length)
  sorted : order.Pairwise (s.ComesBefore cfg)

/-- The task is at its own limit, or has no live worker while the active tasks are at theirs. -/
def HeldUp (cfg : SchedulerConfig) (s : SchedState L) (t : DownloadTask) : Prop :=
  t.chunkLimit cfg ≤ s.liveOf t.id ∨ s.liveOf t.id = 0 ∧ cfg.maxConcurrentTasks ≤ s.activeTasks

/-- Task `i` has no schedulable chunk, or is held up. -/
def Idle (cfg : SchedulerConfig) (s : SchedState L) (i : Nat) : Prop :=
  ∀ t, s.tasks[i]? = some t → hasSchedulableChunk t = true → s.HeldUp cfg t

end SchedState

/-- Chunk `j` is schedulable, in a schedulable task, and none before it is. -/
def FirstSchedulable (t : DownloadTask) (j : Nat) : Prop :=
  isSchedulableStatus t.status = true ∧ (∃ c, t.chunks[j]? = some c ∧ c.schedulable = true) ∧
    ∀ k < j, ∀ c, t.chunks[k]? = some c → c.schedulable = false

structure Pass.Fair (cfg : SchedulerConfig) (p : Pass L) : Prop where
  /-- Tasks are visited in the order of the policy, up to where the pass is or stopped. -/
  inOrder : ∃ order, p.begun.InOrder cfg order ∧ p.visits.map (·.task) <+: order
  /-- No task is started on two chunks. -/
  once : ((p.visits.flatMap (·.started)).map (·.1)).Nodup
  /-- A task is started on its first schedulable chunk. -/
  first : ∀ v ∈ p.visits, ∀ x ∈ v.started, ∃ t, v.found.tasks[v.task]? = some t ∧ t.id = x.1 ∧ FirstSchedulable t x.2
  /-- Who is passed over before another one is started was idle. -/
  passedOver : p.visits.Pairwise fun v u => u.started ≠ [] → v.started = [] → v.found.Idle cfg v.task
  /-- The coordinator waits with no worker to spare, or with all tasks idle. -/
  conserving : ∀ s ∈ p.ended, s.coordinator = .waiting → cfg.maxGlobalWorkers ≤ s.busyWorkers ∨ ∀ i, s.Idle cfg i

/-- A step on chunk `j` of task `t` that at most completes this chunk. -/
def OnlyCompletes (j : Nat) (t : DownloadTask) : Outcome Exn (Option L) × Session → Prop
  | (.ok _, e) =>
    e.task.id = t.id ∧ e.task.status = t.status ∧ e.task.schedulerMaxChunks = t.schedulerMaxChunks ∧
      ∃ c, e.task.chunks = t.chunks.set j c ∧ (c.status = .downloading ∨ c.status = .completed)
  | _ => False

/-- If an executor makes the step, it at most completes its chunk. -/
def CompletesOwn (ex : Executor L) (s : SchedState L) (choice : Choice) : Prop :=
  ∀ (k : Nat) (w : Worker L) (l : L) (i : Nat) (t : DownloadTask), choice = .worker k → s.workers[k]? = some w →
    w.phase = .executing l → s.tasks[i]? = some t → t.id = w.taskId →
    OnlyCompletes w.chunk t ((ex.step w.taskId w.chunk l).run { world := s.world, task := t })

/-! ## The order of a pass -/

theorem taskOrder_inOrder (cfg : SchedulerConfig) (s : SchedState L) : s.InOrder cfg (s.taskOrder cfg) := by
  unfold taskOrder
  cases hpolicy : cfg.policy with
  | fifo =>
    refine ⟨.refl _, List.pairwise_lt_range.imp fun {i j} hlt => ?_⟩
    simp only [SchedState.ComesBefore, hpolicy]
    exact hlt
  | smallTaskFirst =>
    have hstable : ((List.range s.tasks.length).mergeSort fun i j => s.sizeAt i ≤ s.sizeAt j).Pairwise
        fun i j => s.sizeAt i < s.sizeAt j ∨ s.sizeAt i = s.sizeAt j ∧ i < j :=
      SortBy.mergeSort_stable List.nodup_range List.pairwise_lt_range
    refine ⟨List.mergeSort_perm _ _, hstable.imp fun {i j} hbefore => ?_⟩
    simp only [SchedState.ComesBefore, hpolicy]
    exact hbefore

/-! ## What holds in every state -/

/-- What holds as long as executors only complete their own chunks. -/
structure Orderly (cfg : SchedulerConfig) (ids : List TaskId) (s : SchedState L) : Prop where
  ids : s.tasks.map (·.id) = ids
  limits : ∀ t ∈ s.tasks, (s.quotas t.id).taskId = [] ∨ (s.quotas t.id).maxConcurrentChunks = t.chunkLimit cfg
  counts : Tallied cfg s
  quiet : ∀ v ∈ s.workers, v.phase ≠ .recording
  calm : s.workerFailed = false
  alive : s.crashed = false

/-- A task after a step: it has no other limit, and nothing schedulable that was not. -/
structure TaskKept (t t' : DownloadTask) : Prop where
  id : t'.id = t.id
  limit : t'.schedulerMaxChunks = t.schedulerMaxChunks
  schedulable : hasSchedulableChunk t' = true → hasSchedulableChunk t = true

/-- Every task comes from one before the step. -/
def TasksKept (s s' : SchedState L) : Prop := ∀ (i : Nat) (t' : DownloadTask), s'.tasks[i]? = some t' →
  ∃ t, s.tasks[i]? = some t ∧ TaskKept t t'

section Steps

variable {t t' : DownloadTask} {i j k : Nat} {c : Chunk}

theorem TaskKept.refl (t : DownloadTask) : TaskKept t t := ⟨rfl, rfl, fun h => h⟩

/-- Writing a chunk that is downloading or complete makes nothing schedulable. -/
theorem schedulable_set (hc : c.status = .downloading ∨ c.status = .completed)
    (h : (t.chunks.set j c).any (·.schedulable) = true) : t.chunks.any (·.schedulable) = true := by
  obtain ⟨d, hd, hs⟩ := List.any_eq_true.1 h
  rcases List.mem_or_eq_of_mem_set hd with hold | rfl
  · exact List.any_eq_true.2 ⟨d, hold, hs⟩
  · rcases hc with hc | hc <;> simp [Chunk.schedulable, hc] at hs

theorem TasksKept.of_set (hi : s.tasks[i]? = some t) (hkept : TaskKept t t') (htasks : s'.tasks = s.tasks.set i t') :
    TasksKept s s' := by
  intro n u hu
  rw [htasks] at hu
  rcases getElem?_set_some hu with ⟨rfl, rfl⟩ | ⟨-, hu⟩
  · exact ⟨t, hi, hkept⟩
  · exact ⟨u, hu, .refl u⟩

theorem TasksKept.of_eq (htasks : s'.tasks = s.tasks) : TasksKept s s' := fun _ u hu => ⟨u, htasks ▸ hu, .refl u⟩

/-- A step whose executor only completes its own chunk. -/
theorem execute_kept {w : Worker L} {l : L}
    (honly : OnlyCompletes w.chunk t ((ex.step w.taskId w.chunk l).run { world := s.world, task := t })) :
    TaskKept t (executed ex s w l t).task ∧ (s.execute ex k w l i t).workerFailed = s.workerFailed ∧
      (s.execute ex k w l i t).crashed = s.crashed ∧
      ∀ v ∈ (s.execute ex k w l i t).workers, v ∈ s.workers ∨ v.phase ≠ .recording := by
  unfold execute executed
  revert honly
  rcases (ex.step w.taskId w.chunk l).run { world := s.world, task := t } with ⟨out, e⟩
  intro honly
  cases out with
  | thrown x => exact honly.elim
  | stopped => exact honly.elim
  | ok next =>
    obtain ⟨hid, hstatus, hlimit, c, hchunks, hc⟩ := honly
    have hkept : TaskKept t e.task := by
      refine ⟨hid, hlimit, fun h => ?_⟩
      simp only [hasSchedulableChunk, hstatus, hchunks, Bool.and_eq_true] at h ⊢
      exact ⟨h.1, schedulable_set hc h.2⟩
    have hphase : ∀ p : Phase L, p ≠ .recording → ∀ v ∈ s.workers.set k { w with phase := p }, v ∈ s.workers ∨
      v.phase ≠ .recording := by
      intro p hp v hv
      rcases List.mem_or_eq_of_mem_set hv with hold | rfl
      · exact .inl hold
      · exact .inr hp
    cases next with
    | none => exact ⟨hkept, rfl, rfl, hphase .leaving (by rintro ⟨⟩)⟩
    | some l' => exact ⟨hkept, rfl, rfl, hphase (.executing l') (by rintro ⟨⟩)⟩

theorem sweep_calm (hcalm : s.workerFailed = false) : s.sweep = s := by
  unfold sweep
  rw [if_neg (by simp [hcalm])]

theorem startedTask_kept (hpick : s.pick cfg t = some j) : TaskKept t (startedTask t j c) := by
  obtain ⟨hstatus, d, hj, hd⟩ := pick_spec hpick
  refine ⟨rfl, rfl, fun _ => ?_⟩
  rw [hasSchedulableChunk, Bool.and_eq_true]
  exact ⟨hstatus, List.any_eq_true.2 ⟨d, List.mem_of_getElem? hj, hd⟩⟩

theorem Orderly.tasksKept (h : Orderly cfg ids s) {choice : Choice} (hok : CompletesOwn ex s choice)
    (heff : StepEffect ex cfg s choice s') : TasksKept s s' := by
  cases heff with
  | idle ht => exact .of_eq ht
  | retire _ _ _ _ _ _ ht => exact .of_eq ht
  | start i j _ _ t c _ _ hi hpick _ ht => exact .of_set hi (startedTask_kept hpick) ht
  | execute k w l i t hchoice hk hp hi hid =>
    exact .of_set hi (execute_kept (k := k) (i := i) (hok k w l i t hchoice hk hp hi hid)).1 (execute_spec ex hk).1
  | record _ w _ _ hk hp => exact absurd hp (h.quiet w (List.mem_of_getElem? hk))
  | sweep _ _ ht =>
    rw [sweep_calm h.calm] at ht
    exact .of_eq ht

theorem TasksKept.sameIds (h : TasksKept s s') (hlength : s'.tasks.length = s.tasks.length) :
    s'.tasks.map (·.id) = s.tasks.map (·.id) := by
  apply List.ext_getElem?
  intro i
  rw [List.getElem?_map, List.getElem?_map]
  rcases hi : s'.tasks[i]? with _ | t'
  · have hnone : s.tasks[i]? = none := by
      rw [List.getElem?_eq_none_iff] at hi ⊢
      exact hlength ▸ hi
    rw [hnone]
  · obtain ⟨t, ht, hkept⟩ := h i t' hi
    rw [ht]
    exact congrArg some hkept.id

theorem Orderly.unique (h : Orderly cfg ids s) (hids : ids.Nodup) (hi : s.tasks[i]? = some t)
    (hj : s.tasks[j]? = some t') (heq : t.id = t'.id) : t = t' := by
  have hnodup : (s.tasks.map (·.id)).Nodup := by rw [h.ids]; exact hids
  obtain rfl := index_unique hnodup hi hj heq
  exact Option.some.inj (hi.symm.trans hj)

/-- What a visit finds as the limit of a task. -/
theorem Orderly.visitQuota (h : Orderly cfg ids s) (hi : s.tasks[i]? = some t) :
    (s.visitQuota cfg t).maxConcurrentChunks = t.chunkLimit cfg := by
  unfold SchedState.visitQuota
  dsimp only
  split
  · rfl
  · exact (h.limits t (List.mem_of_getElem? hi)).resolve_left ‹_›

theorem Orderly.limits_step (h : Orderly cfg ids s) (hids : ids.Nodup) (hi : s.tasks[i]? = some t) {q : TaskQuota}
    (hstep : QuotaStep cfg s t.id q) : q.taskId = [] ∨ q.maxConcurrentChunks = t.chunkLimit cfg := by
  cases hstep with
  | same => exact h.limits t (List.mem_of_getElem? hi)
  | visit n u hu heq =>
    obtain rfl := h.unique hids hu hi heq
    exact .inr (h.visitQuota hu)
  | start n u hu heq =>
    obtain rfl := h.unique hids hu hi heq
    exact .inr (h.visitQuota hu)
  | leave => exact h.limits t (List.mem_of_getElem? hi)

theorem Orderly.step (h : Orderly cfg ids s) (hids : ids.Nodup) {choice : Choice} (hok : CompletesOwn ex s choice) :
    Orderly cfg ids (SchedState.step ex cfg s choice) := by
  have heff : StepEffect ex cfg s choice (SchedState.step ex cfg s choice) := step_effect choice
  have hkept := h.tasksKept hok heff
  have hcounters : CounterEffect cfg s (SchedState.step ex cfg s choice) := step_counters choice
  generalize SchedState.step ex cfg s choice = s' at heff hkept hcounters
  have hrest : (∀ v ∈ s'.workers, v.phase ≠ .recording) ∧ s'.workerFailed = s.workerFailed ∧ s'.crashed =
      s.crashed := by
    have hset : ∀ {k : Nat} {w : Worker L} {p : Phase L}, p ≠ .recording → ∀ v ∈ s.workers.set k { w with phase := p },
        v.phase ≠ .recording := by
      intro k w p hp v hv
      rcases List.mem_or_eq_of_mem_set hv with hold | rfl
      · exact h.quiet v hold
      · exact hp
    cases heff with
    | idle _ _ hw hfailed hcrashed => exact ⟨hw ▸ h.quiet, hfailed, hcrashed⟩
    | retire _ _ p _ _ hp _ _ hw hfailed hcrashed =>
      refine ⟨?_, hfailed, hcrashed⟩
      rw [hw]
      rcases hp with rfl | rfl <;> exact hset nofun
    | start _ _ _ _ _ _ _ _ _ _ _ _ _ hw hfailed hcrashed =>
      refine ⟨fun v hv => ?_, hfailed, hcrashed⟩
      rw [hw] at hv
      rcases List.mem_append.1 hv with hold | hnew
      · exact h.quiet v hold
      · rw [List.mem_singleton.1 hnew]
        exact nofun
    | execute k w l i t hchoice hk hp hi hid =>
      obtain ⟨-, hfailed, hcrashed, hworkers⟩ := execute_kept (k := k) (i := i) (hok k w l i t hchoice hk hp hi hid)
      exact ⟨fun v hv => (hworkers v hv).elim (h.quiet v) fun hq => hq, hfailed, hcrashed⟩
    | record _ w _ _ hk hp => exact absurd hp (h.quiet w (List.mem_of_getElem? hk))
    | sweep _ _ _ _ hw hfailed hcrashed => exact ⟨hw ▸ h.quiet, hfailed, hcrashed⟩
  refine ⟨(TasksKept.sameIds hkept heff.length).trans h.ids, ?_, h.counts.step hcounters, hrest.1,
    hrest.2.1.trans h.calm, hrest.2.2.trans h.alive⟩
  intro t' ht'
  obtain ⟨i, hi⟩ := List.getElem?_of_mem ht'
  obtain ⟨t, ht, hsame⟩ := hkept i t' hi
  rw [hsame.id, DownloadTask.chunkLimit, hsame.limit]
  exact h.limits_step hids ht (hcounters.quota t.id)

/-! ## What a pass has looked at -/

/-- The counters are as they were, and the tasks kept. -/
structure KeepsStanding (s s' : SchedState L) : Prop where
  tasks : TasksKept s s'
  live : ∀ id, s'.liveOf id = s.liveOf id
  active : s'.activeTasks = s.activeTasks
  busy : s'.busyWorkers = s.busyWorkers

theorem KeepsStanding.idle (h : KeepsStanding s s') (hidle : s.Idle cfg i) : s'.Idle cfg i := by
  intro t' hi hschedulable
  obtain ⟨t, ht, hkept⟩ := h.tasks i t' hi
  have hheld := hidle t ht (hkept.schedulable hschedulable)
  rw [SchedState.HeldUp, DownloadTask.chunkLimit, hkept.id, hkept.limit, h.live, h.active]
  exact hheld

/-- Workers do not leave while a pass is going on. -/
theorem work_standing (hpassing : s.passing = true) (hkept : TasksKept s (s.work ex k)) :
    KeepsStanding s (s.work ex k) := by
  have hcounters : (∀ P, liveIn P (s.work ex k).workers = liveIn P s.workers) ∧ (s.work ex k).activeTasks =
      s.activeTasks ∧ (s.work ex k).busyWorkers = s.busyWorkers := by
    unfold work
    split
    · exact ⟨fun _ => rfl, rfl, rfl⟩
    · rename_i w hk
      split
      · rename_i l hp
        have hlive : w.live := by simp [Worker.live, hp]
        split
        · exact ⟨fun P => liveIn_set P hk hlive.symm, rfl, rfl⟩
        · split
          · exact ⟨fun P => liveIn_set P hk hlive.symm, rfl, rfl⟩
          · unfold execute
            dsimp only
            split
            · exact ⟨fun P => liveIn_set P hk hlive.symm, rfl, rfl⟩
            · exact ⟨fun P => liveIn_set P hk hlive.symm, rfl, rfl⟩
            · exact ⟨fun P => liveIn_set P hk hlive.symm, rfl, rfl⟩
            · exact ⟨fun _ => rfl, rfl, rfl⟩
      · rename_i hp
        have hlive : w.live := by simp [Worker.live, hp]
        unfold recordFailure
        split
        · exact ⟨fun P => liveIn_set P hk hlive.symm, rfl, rfl⟩
        · split
          · exact ⟨fun P => liveIn_set P hk hlive.symm, rfl, rfl⟩
          · exact ⟨fun P => liveIn_set P hk hlive.symm, rfl, rfl⟩
      · rw [if_pos hpassing]
        exact ⟨fun _ => rfl, rfl, rfl⟩
      · exact ⟨fun _ => rfl, rfl, rfl⟩
  exact ⟨hkept, fun id => hcounters.1 _, hcounters.2.1, hcounters.2.2⟩

/-- What a visit can come to. -/
inductive Visited (cfg : SchedulerConfig) (s : SchedState L) (i : Nat) (order : List Nat) (scheduled : Bool) :
    SchedState L → Prop
  /-- No worker is to spare, and the pass stops. -/
  | full {s' : SchedState L} : cfg.maxGlobalWorkers ≤ s.busyWorkers → s'.coordinator = .visiting [] scheduled →
      KeepsStanding s s' → s'.workers = s.workers → Visited cfg s i order scheduled s'
  | passed {s' : SchedState L} : s.Idle cfg i → s'.coordinator = .visiting order scheduled → KeepsStanding s s' →
      s'.workers = s.workers → Visited cfg s i order scheduled s'
  | started {s' : SchedState L} (t : DownloadTask) (j : Nat) (v : Worker L) :
      s.tasks[i]? = some t → FirstSchedulable t j →
      s'.coordinator = .visiting order true → s'.workers = s.workers ++ [v] → v.place = (t.id, j) →
      Visited cfg s i order scheduled s'

theorem firstSchedulable_of_pick (hpick : s.pick cfg t = some j) : FirstSchedulable t j := by
  obtain ⟨hstatus, hchunk⟩ := pick_spec hpick
  refine ⟨hstatus, hchunk, fun k hk c hc => ?_⟩
  unfold pick at hpick
  dsimp only at hpick
  split at hpick
  · cases hpick
  · split at hpick
    · cases hpick
    · obtain ⟨hlt, -, hbefore⟩ := List.findIdx?_eq_some_iff_getElem.1 hpick
      obtain ⟨hlen, rfl⟩ := List.getElem?_eq_some_iff.1 hc
      simpa using hbefore k hk

theorem Orderly.idle_of_pick (h : Orderly cfg ids s) (hi : s.tasks[i]? = some t) (hpick : s.pick cfg t = none) :
    s.Idle cfg i := by
  intro u hu hschedulable
  obtain rfl := Option.some.inj (hi.symm.trans hu)
  unfold pick at hpick
  dsimp only at hpick
  rw [h.visitQuota hi, visitQuota_running, h.counts.running] at hpick
  split at hpick
  · rename_i hq
    simp only [hschedulable, Bool.not_true, Bool.false_or, decide_eq_true_eq] at hq
    exact .inl hq
  · split at hpick
    · rename_i ha
      simp only [Bool.and_eq_true, decide_eq_true_eq] at ha
      exact .inr ha
    · simp only [hasSchedulableChunk, Bool.and_eq_true, List.any_eq_true] at hschedulable
      obtain ⟨-, c, hc, hsched⟩ := hschedulable
      exact absurd hsched (by simpa using List.findIdx?_eq_none_iff.1 hpick c hc)

theorem Orderly.visited (h : Orderly cfg ids s) (i : Nat) (order : List Nat) (scheduled : Bool) :
    Visited cfg s i order scheduled (s.visit ex cfg i order scheduled) := by
  unfold visit
  split
  · exact .full ‹_› rfl ⟨.of_eq rfl, fun _ => rfl, rfl, rfl⟩ rfl
  · split
    · rename_i hnone
      exact .passed (fun t ht => by rw [hnone] at ht; cases ht) rfl ⟨.of_eq rfl, fun _ => rfl, rfl, rfl⟩ rfl
    · rename_i t hi
      split
      · rename_i hpick
        exact .passed (h.idle_of_pick hi hpick) rfl ⟨.of_eq rfl, fun _ => rfl, rfl, rfl⟩ rfl
      · rename_i j hpick
        obtain ⟨-, c, hj, -⟩ := pick_spec hpick
        rw [hj]
        exact .started t j _ hi (firstSchedulable_of_pick hpick) rfl rfl rfl

end Steps

/-! ## A pass as it goes on -/

/-- What holds between the visits of pass `p`, with `order` still to visit, as long as workers are to spare. -/
structure Going (cfg : SchedulerConfig) (s : SchedState L) (order : List Nat) (scheduled : Bool)
    (p : Pass L) : Prop where
  whole : p.begun.InOrder cfg (p.visits.map (·.task) ++ order)
  length : p.begun.tasks.length = s.tasks.length
  passed : ∀ v ∈ p.visits, v.started = [] → v.found.Idle cfg v.task
  idle : scheduled = false → ∀ v ∈ p.visits, s.Idle cfg v.task

/-- The passes so far are fair, and the last one is going on if the coordinator is in it. -/
structure Watched (cfg : SchedulerConfig) (ids : List TaskId) (o : Observed L) : Prop where
  orderly : Orderly cfg ids o.state
  fair : ∀ p ∈ o.passes, p.Fair cfg
  seen : ∀ p ∈ o.passes, ∀ v ∈ p.visits, v.found.tasks.map (·.id) = ids
  going : ∀ order scheduled, o.state.coordinator = .visiting order scheduled → ∃ p ps, o.passes = p :: ps ∧
    (Going cfg o.state order scheduled p ∨ order = [] ∧ cfg.maxGlobalWorkers ≤ o.state.busyWorkers)

section Watching

variable {o : Observed L} {p : Pass L} {ps : List (Pass L)} {i j k : Nat} {order : List Nat} {scheduled : Bool}
  {t : DownloadTask}

theorem newPlaces_nil (h : s'.workers = s.workers) : newPlaces s s' = [] := by rw [newPlaces, h, List.drop_length]; rfl

theorem newPlaces_one {v : Worker L} (h : s'.workers = s.workers ++ [v]) : newPlaces s s' = [v.place] := by
  rw [newPlaces, h, List.drop_left]
  rfl

theorem note_outside (h : s.passing = false) : note s s' ps = if s'.passing then { begun := s } :: ps else ps := by
  cases ps with
  | nil => rfl
  | cons p ps =>
    unfold note
    cases hc : s.coordinator with
    | visiting order scheduled => simp [passing, hc] at h
    | _ => rfl

/-- What has been looked at stays as it is while the state moves on. -/
theorem Going.standing (h : Going cfg s order scheduled p) (hstanding : KeepsStanding s s')
    (hlength : s'.tasks.length = s.tasks.length) :
    Going cfg s' order scheduled p :=
  ⟨h.whole, h.length.trans hlength.symm, h.passed, fun hnone v hv => hstanding.idle (h.idle hnone v hv)⟩

/-- The task that is visited next has not been started in this pass. -/
theorem Going.unstarted (hgoing : Going cfg s (i :: order) scheduled p) (hids : ids.Nodup)
    (horderly : Orderly cfg ids s)
    (h : p.Fair cfg) (hseen : ∀ v ∈ p.visits, v.found.tasks.map (·.id) = ids) (hi : s.tasks[i]? = some t) :
    ∀ id ∈ (p.visits.flatMap (·.started)).map (·.1), id ≠ t.id := by
  rintro _ hmem rfl
  obtain ⟨x, hx, hid⟩ := List.mem_map.1 hmem
  obtain ⟨v, hv, hxv⟩ := List.mem_flatMap.1 hx
  obtain ⟨u, hu, hux, -⟩ := h.first v hv x hxv
  have hfirst : ids[v.task]? = some t.id := by
    rw [← hseen v hv, List.getElem?_map, hu, Option.map_some, hux, hid]
  have hsecond : ids[i]? = some t.id := by
    rw [← horderly.ids, List.getElem?_map, hi, Option.map_some]
  have hsame : v.task = i :=
    (List.getElem?_inj (List.getElem?_eq_some_iff.1 hfirst).1 hids).1 (hfirst.trans hsecond.symm)
  have hnodup : (p.visits.map (·.task) ++ i :: order).Nodup := hgoing.whole.all.nodup_iff.2 List.nodup_range
  exact (List.nodup_append.1 hnodup).2.2 v.task (List.mem_map_of_mem hv) i List.mem_cons_self hsame

/-- One visit more. -/
theorem Pass.Fair.extend (h : p.Fair cfg) (hgoing : Going cfg s (i :: order) scheduled p) (hids : ids.Nodup)
    (horderly : Orderly cfg ids s) (hseen : ∀ v ∈ p.visits, v.found.tasks.map (·.id) = ids)
    {started : List (TaskId × Nat)}
    (hstarted : started = [] ∨ ∃ t j, s.tasks[i]? = some t ∧ FirstSchedulable t j ∧ started = [(t.id, j)]) :
    ({ p with visits := p.visits ++ [{ found := s, task := i, started := started }] } : Pass L).Fair cfg := by
  constructor
  · refine ⟨_, hgoing.whole, ?_⟩
    exact ⟨order, by simp⟩
  · rcases hstarted with rfl | ⟨t, j, hi, -, rfl⟩
    · simpa using h.once
    · rw [List.flatMap_append, List.map_append, List.flatMap_singleton, List.map_singleton, List.nodup_append]
      refine ⟨h.once, List.nodup_singleton _, fun id hid id' hid' => ?_⟩
      rw [List.mem_singleton.1 hid']
      exact hgoing.unstarted hids horderly h hseen hi id hid
  · intro v hv x hx
    rcases List.mem_append.1 hv with hold | hlast
    · exact h.first v hold x hx
    · rw [List.mem_singleton] at hlast
      subst hlast
      rcases hstarted with rfl | ⟨t, j, hi, hfirst, rfl⟩
      · cases hx
      · rw [List.mem_singleton] at hx
        subst hx
        exact ⟨t, hi, rfl, hfirst⟩
  · rw [List.pairwise_append]
    refine ⟨h.passedOver, List.pairwise_singleton _ _, fun v hv u hu hsome hnone => ?_⟩
    exact hgoing.passed v hv hnone
  · exact h.conserving

/-- A pass that is through. -/
theorem Pass.Fair.close (h : p.Fair cfg)
    (hconserving : s'.coordinator = .waiting → cfg.maxGlobalWorkers ≤ s'.busyWorkers ∨ ∀ i, s'.Idle cfg i) :
    ({ p with ended := some s' } : Pass L).Fair cfg :=
  { h with conserving := by rintro _ ⟨⟩; exact hconserving }

/-- After all visits of a pass that started nothing, every task is idle. -/
theorem Going.all_idle (h : Going cfg s [] false p) (i : Nat) : s.Idle cfg i := by
  intro t hi
  have hlt : i < p.begun.tasks.length := by
    rw [h.length]
    exact (List.getElem?_eq_some_iff.1 hi).1
  have hmem : i ∈ p.visits.map (·.task) := by
    have := h.whole.all.mem_iff.2 (List.mem_range.2 hlt)
    rwa [List.append_nil] at this
  obtain ⟨v, hv, rfl⟩ := List.mem_map.1 hmem
  exact h.idle rfl v hv t hi

theorem Going.begin (hlength : s.tasks.length = s'.tasks.length) :
    Going cfg s' (s.taskOrder cfg) false ({ begun := s } : Pass L) :=
  ⟨taskOrder_inOrder cfg s, hlength, fun v hv => (by cases hv), fun _ v hv => (by cases hv)⟩

theorem Pass.Fair.begin : ({ begun := s } : Pass L).Fair cfg :=
  ⟨⟨_, taskOrder_inOrder cfg s, List.nil_prefix⟩, List.nodup_nil, fun v hv => (by cases hv), .nil,
    fun s hs => (by cases hs)⟩

/-- One visit of the coordinator. -/
theorem Watched.visit (h : Watched cfg ids o) (hids : ids.Nodup)
    (hc : o.state.coordinator = .visiting (i :: order) scheduled)
    (hvisited : Visited cfg o.state i order scheduled s') (horderly : Orderly cfg ids s')
    (hlength : s'.tasks.length = o.state.tasks.length) :
    Watched cfg ids { state := s', passes := note o.state s' o.passes } := by
  obtain ⟨p, ps, hpasses, hgoing⟩ := h.going _ _ hc
  have hgoing : Going cfg o.state (i :: order) scheduled p := hgoing.resolve_right fun hcut => by cases hcut.1
  have hmem : p ∈ o.passes := hpasses ▸ List.mem_cons_self
  have hnote : note o.state s' o.passes =
      { p with visits := p.visits ++ [{ found := o.state, task := i, started := newPlaces o.state s' }] } :: ps := by
    rw [hpasses, note, hc]
  have hwhole : ∀ v : Visit L, v.task = i → p.begun.InOrder cfg ((p.visits ++ [v]).map (·.task) ++ order) := by
    rintro v rfl
    rw [List.map_append, List.append_assoc]
    exact hgoing.whole
  have hstarted : newPlaces o.state s' = [] ∨
      ∃ t j, o.state.tasks[i]? = some t ∧ FirstSchedulable t j ∧ newPlaces o.state s' = [(t.id, j)] := by
    cases hvisited with
    | full _ _ _ hworkers => exact .inl (newPlaces_nil hworkers)
    | passed _ _ _ hworkers => exact .inl (newPlaces_nil hworkers)
    | started t j v hi hfirst _ hworkers hplace => exact .inr ⟨t, j, hi, hfirst, by rw [newPlaces_one hworkers, hplace]⟩
  rw [hnote]
  refine ⟨horderly, fun p' hp' => ?_, fun p' hp' v hv => ?_, fun order' scheduled' hc' => ⟨_, ps, rfl, ?_⟩⟩
  · rcases List.mem_cons.1 hp' with rfl | hold
    · exact (h.fair p hmem).extend hgoing hids h.orderly (h.seen p hmem) hstarted
    · exact h.fair p' (hpasses ▸ List.mem_cons_of_mem _ hold)
  · rcases List.mem_cons.1 hp' with rfl | hold
    · rcases List.mem_append.1 hv with hold | hlast
      · exact h.seen p hmem v hold
      · rw [List.mem_singleton] at hlast
        subst hlast
        exact h.orderly.ids
    · exact h.seen p' (hpasses ▸ List.mem_cons_of_mem _ hold) v hv
  · cases hvisited with
    | full hbusy hcoordinator hstanding _ =>
      cases hcoordinator.symm.trans hc'
      exact .inr ⟨rfl, hstanding.busy.symm ▸ hbusy⟩
    | passed hidle hcoordinator hstanding _ =>
      cases hcoordinator.symm.trans hc'
      refine .inl ⟨hwhole _ rfl, hgoing.length.trans hlength.symm, fun v hv hnone => ?_, fun hnone v hv => ?_⟩
      · rcases List.mem_append.1 hv with hold | hlast
        · exact hgoing.passed v hold hnone
        · rw [List.mem_singleton] at hlast
          subst hlast
          exact hidle
      · rcases List.mem_append.1 hv with hold | hlast
        · exact hstanding.idle (hgoing.idle hnone v hold)
        · rw [List.mem_singleton] at hlast
          subst hlast
          exact hstanding.idle hidle
    | started t j v hi _ hcoordinator hworkers _ =>
      cases hcoordinator.symm.trans hc'
      refine .inl ⟨hwhole _ rfl, hgoing.length.trans hlength.symm, fun u hu hnone => ?_, fun hnone => by cases hnone⟩
      rcases List.mem_append.1 hu with hold | hlast
      · exact hgoing.passed u hold hnone
      · rw [List.mem_singleton] at hlast
        subst hlast
        rw [newPlaces_one hworkers] at hnone
        cases hnone

theorem passing_iff : s.passing = true ↔ ∃ order scheduled, s.coordinator = .visiting order scheduled := by
  unfold passing
  cases s.coordinator <;> simp

/-- The coordinator begins a pass, or stays outside. -/
theorem Watched.outside (h : Watched cfg ids o) (hpassing : o.state.passing = false) (horderly : Orderly cfg ids s')
    (hlength : o.state.tasks.length = s'.tasks.length)
    (hbegins : s'.passing = true → s'.coordinator = .visiting (o.state.taskOrder cfg) false) :
    Watched cfg ids { state := s', passes := note o.state s' o.passes } := by
  rw [note_outside hpassing]
  split
  · rename_i hpass
    refine ⟨horderly, fun p hp => ?_, fun p hp v hv => ?_, fun order scheduled hc => ⟨_, _, rfl, .inl ?_⟩⟩
    · rcases List.mem_cons.1 hp with rfl | hold
      · exact .begin
      · exact h.fair p hold
    · rcases List.mem_cons.1 hp with rfl | hold
      · cases hv
      · exact h.seen p hold v hv
    · cases (hbegins hpass).symm.trans hc
      exact .begin hlength
  · rename_i hpass
    exact ⟨horderly, h.fair, h.seen, fun order scheduled hc => absurd (passing_iff.2 ⟨_, _, hc⟩) hpass⟩

/-- The last pass has ended. -/
theorem Watched.close (h : Watched cfg ids o) (hc : o.state.coordinator = .visiting [] scheduled)
    (horderly : Orderly cfg ids s')
    (hstanding : KeepsStanding o.state s') (hc' : s'.coordinator = if scheduled then .top else .waiting) :
    Watched cfg ids { state := s', passes := note o.state s' o.passes } := by
  obtain ⟨p, ps, hpasses, hgoing⟩ := h.going _ _ hc
  have hnote : note o.state s' o.passes = { p with ended := some s' } :: ps := by rw [hpasses, note, hc]
  have hmem : p ∈ o.passes := hpasses ▸ List.mem_cons_self
  rw [hnote]
  refine ⟨horderly, fun p' hp' => ?_, fun p' hp' v hv => ?_, fun order scheduled' hvisiting => ?_⟩
  · rcases List.mem_cons.1 hp' with rfl | hold
    · refine (h.fair p hmem).close fun hwaits => ?_
      have hnone : scheduled = false := by
        cases scheduled with
        | false => rfl
        | true => cases hc'.symm.trans hwaits
      subst hnone
      rcases hgoing with hgoing | ⟨-, hbusy⟩
      · exact .inr fun i => hstanding.idle (hgoing.all_idle i)
      · exact .inl (hstanding.busy.symm ▸ hbusy)
    · exact h.fair p' (hpasses ▸ List.mem_cons_of_mem _ hold)
  · rcases List.mem_cons.1 hp' with rfl | hold
    · exact h.seen p hmem v hv
    · exact h.seen p' (hpasses ▸ List.mem_cons_of_mem _ hold) v hv
  · have hboth := hc'.symm.trans hvisiting
    split at hboth <;> cases hboth

theorem Watched.coordinate (h : Watched cfg ids o) (hids : ids.Nodup)
    (horderly : Orderly cfg ids (o.state.coordinate ex cfg)) :
    Watched cfg ids
      { state := o.state.coordinate ex cfg, passes := note o.state (o.state.coordinate ex cfg) o.passes } := by
  have hlength : (o.state.coordinate ex cfg).tasks.length = o.state.tasks.length := coordinate_effect.length
  cases hc : o.state.coordinator with
  | visiting order scheduled =>
    cases order with
    | nil =>
      refine h.close hc horderly ?_ ?_ <;> simp only [SchedState.coordinate, hc]
      exact ⟨.of_eq rfl, fun _ => rfl, rfl, rfl⟩
    | cons i order =>
      have hs' : o.state.coordinate ex cfg = o.state.visit ex cfg i order scheduled := by
        simp only [SchedState.coordinate, hc]
      exact h.visit hids hc (hs' ▸ h.orderly.visited i order scheduled) horderly hlength
  | top =>
    refine h.outside (by simp [passing, hc]) horderly hlength.symm ?_
    simp only [SchedState.coordinate, hc]
    split <;> simp [passing]
  | joining =>
    refine h.outside (by simp [passing, hc]) horderly hlength.symm ?_
    simp only [SchedState.coordinate, hc]
    split <;> simp [passing, hc]
  | waiting =>
    refine h.outside (by simp [passing, hc]) horderly hlength.symm ?_
    simp [SchedState.coordinate, hc, passing]
  | returned =>
    refine h.outside (by simp [passing, hc]) horderly hlength.symm ?_
    simp [SchedState.coordinate, hc, passing]

theorem Watched.step (h : Watched cfg ids o) (hids : ids.Nodup) {choice : Choice}
    (hok : CompletesOwn ex o.state choice) :
    Watched cfg ids (o.step ex cfg choice) := by
  have horderly : Orderly cfg ids (SchedState.step ex cfg o.state choice) := h.orderly.step hids hok
  have hkept : TasksKept o.state (SchedState.step ex cfg o.state choice) := h.orderly.tasksKept hok (step_effect choice)
  unfold Observed.step
  simp only [SchedState.step, h.orderly.alive, Bool.false_eq_true, if_false] at horderly hkept ⊢
  cases choice with
  | coordinator => exact h.coordinate hids horderly
  | worker k =>
    refine ⟨horderly, h.fair, h.seen, fun order scheduled hc => ?_⟩
    rw [show (o.state.work ex k).coordinator = o.state.coordinator from work_coordinator k] at hc
    obtain ⟨p, ps, hpasses, hgoing⟩ := h.going _ _ hc
    have hstanding := work_standing (passing_iff.2 ⟨_, _, hc⟩) hkept
    have heffect : StepEffect ex cfg o.state (.worker k) (o.state.work ex k) := work_effect k
    have hlength := heffect.length
    refine ⟨p, ps, hpasses, hgoing.imp (·.standing hstanding hlength) ?_⟩
    rintro ⟨hnil, hbusy⟩
    exact ⟨hnil, hstanding.busy.symm ▸ hbusy⟩

end Watching

/-- In every pass of `Scheduler::run` the tasks are considered in the order of the policy, each is
started on its first schedulable chunk at most, and who is passed over before another is started
was idle; and the coordinator waits only if no worker is to spare or all tasks are idle. -/
theorem passes_fair (ex : Executor L) (config : SchedulerConfig) (tasks : List DownloadTask) (w : World)
    (schedule : List Choice) (hids : (tasks.map (·.id)).Nodup)
    (honly : GuardedRun (SchedState.step ex config.normalized) (CompletesOwn ex) { tasks, world := w } schedule) :
    ∀ p ∈ (observe ex config.normalized { tasks, world := w } schedule).passes, p.Fair config.normalized := by
  have hobserved : ∀ (o : Observed L) (cs : List Choice),
      GuardedRun (SchedState.step ex config.normalized) (CompletesOwn ex) o.state cs →
      GuardedRun (Observed.step ex config.normalized) (fun o c => CompletesOwn ex o.state c) o cs := by
    intro o cs
    induction cs generalizing o with
    | nil => exact fun _ => trivial
    | cons c cs ih => exact fun h => ⟨h.1, ih (o.step ex config.normalized c) h.2⟩
  have hwatched : Watched config.normalized (tasks.map (·.id))
      (observe ex config.normalized { tasks, world := w } schedule) := by
    refine GuardedRun.inv (fun o c h hok => h.step hids hok) ?_
      (hobserved { state := { tasks, world := w } } schedule honly)
    refine ⟨⟨rfl, fun t _ => .inl rfl, .initial _ _ _, fun v hv => (by cases hv), rfl, rfl⟩, ?_, ?_, ?_⟩
    · exact fun p hp => by cases hp
    · exact fun p hp => by cases hp
    · exact fun order scheduled hc => by cases hc
  exact hwatched.fair

theorem completing_completesOwn (s : SchedState Unit) (choice : Choice) : CompletesOwn completing s choice := by
  intro k w l i t hchoice hk hp hi hid
  obtain ⟨-, -, c, hchunks, hc, -⟩ := completing_promises s choice k w l i t hchoice hk hp hi hid
  exact ⟨rfl, rfl, rfl, c, hchunks, hc⟩

/-- A task of two chunks, and one of one chunk. -/
def twoTasks : List DownloadTask :=
  [{ id := text "a", status := .queued, fileSize := 20,
     chunks := [{ stop := 9 }, { index := 1, start := 10, stop := 19 }] },
   { id := text "b", status := .queued, fileSize := 10, chunks := [{ stop := 9 }] }]

/-- Each task gets one of the two workers; the second pass finds none to spare. -/
theorem passes_fair_twoTasks :
    let config : SchedulerConfig := { maxGlobalWorkers := 2 }
    let o := observe completing config.normalized { tasks := twoTasks, world := {} } (List.replicate 6 .coordinator)
    o.passes.map (fun p => p.visits.map fun v => (v.task, v.started)) =
    [[(0, [])], [(0, [(text "a", 0)]), (1, [(text "b", 0)])]] ∧
      ∀ p ∈ o.passes, p.Fair config.normalized := by
  intro config o
  refine ⟨by decide +kernel, ?_⟩
  exact passes_fair completing config twoTasks {} _ (by decide +kernel) (.always completing_completesOwn)

end Cget
