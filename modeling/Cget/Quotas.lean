import Cget.Scheduler
import Mathlib.Data.Finset.Card
/-!
# The scheduler's limits

`busyWorkers`, `activeTasks` and the quotas count workers, whatever the executor does: a
worker is counted from its start to its last critical section. A pass looks at the counters
before it starts a worker, so they stay within the limits.
-/

namespace Cget

open SchedState

variable {L : Type} {ex : Executor L} {cfg : SchedulerConfig} {s s' : SchedState L}

/-- Started, and not yet exited. -/
def Worker.live (w : Worker L) : Bool := match w.phase with | .exited => false | _ => true

/-- The live workers of the tasks in `P`. -/
def liveIn (P : TaskId → Bool) (workers : List (Worker L)) : Nat := workers.countP (fun w => w.live && P w.taskId)

namespace SchedState

def liveWorkers (s : SchedState L) : Nat := liveIn (fun _ => true) s.workers

/-- The live workers of one task. -/
def liveOf (s : SchedState L) (id : TaskId) : Nat := liveIn (fun i => i = id) s.workers

/-- The tasks with a live worker. -/
def liveTasks (s : SchedState L) : Finset TaskId := ((s.workers.filter (·.live)).map (·.taskId)).toFinset

theorem mem_liveTasks {id : TaskId} : id ∈ s.liveTasks ↔ 0 < s.liveOf id := by
  simp only [liveTasks, liveOf, liveIn, List.mem_toFinset, List.mem_map, List.mem_filter, List.countP_pos_iff,
    Bool.and_eq_true, decide_eq_true_eq, and_assoc]

/-- Tasks have the same live workers if every id has. -/
theorem liveTasks_congr (h : ∀ id, s'.liveOf id = s.liveOf id) : s'.liveTasks = s.liveTasks := by
  ext id
  rw [mem_liveTasks, mem_liveTasks, h id]

end SchedState

theorem liveIn_append (P : TaskId → Bool) (workers : List (Worker L)) (id : TaskId) (j : Nat) (l : L) :
    liveIn P (workers ++ [{ taskId := id, chunk := j, phase := .executing l }]) =
      liveIn P workers + if P id then 1 else 0 := by
  rw [liveIn, List.countP_append, List.countP_singleton]
  rfl

/-- A worker that goes on is counted as before. -/
theorem liveIn_set (P : TaskId → Bool) {k : Nat} {w : Worker L} {p : Phase L} (hk : s.workers[k]? = some w)
    (hlive : ({ w with phase := p } : Worker L).live = w.live) :
    liveIn P (s.workers.set k { w with phase := p }) = liveIn P s.workers := by
  obtain ⟨hlt, hget⟩ := List.getElem?_eq_some_iff.1 hk
  rw [liveIn, List.countP_set hlt, hget]
  dsimp only
  rw [hlive]
  have hle : (if w.live && P w.taskId then 1 else 0) ≤ liveIn P s.workers := by
    split
    · exact List.countP_pos_iff.2 ⟨w, List.mem_of_getElem? hk, ‹_›⟩
    · exact Nat.zero_le _
  exact Nat.sub_add_cancel hle

/-- A worker that exits is not counted any more. -/
theorem liveIn_exit (P : TaskId → Bool) {k : Nat} {w : Worker L} (hk : s.workers[k]? = some w) (hlive : w.live) :
    liveIn P (s.workers.set k { w with phase := .exited }) + (if P w.taskId then 1 else 0) = liveIn P s.workers := by
  obtain ⟨hlt, hget⟩ := List.getElem?_eq_some_iff.1 hk
  rw [liveIn, List.countP_set hlt, hget, hlive]
  have hle : (if P w.taskId then 1 else 0) ≤ liveIn P s.workers := by
    split
    · exact List.countP_pos_iff.2 ⟨w, List.mem_of_getElem? hk, by simp_all⟩
    · exact Nat.zero_le _
  exact Nat.sub_add_cancel hle

/-! ## What a step does to the counters -/

/-- Every step, by what it does to the counters. -/
inductive CounterEffect (cfg : SchedulerConfig) (s : SchedState L) : SchedState L → Prop
  | same {s' : SchedState L} : s'.quotas = s.quotas → s'.busyWorkers = s.busyWorkers → s'.activeTasks = s.activeTasks →
      (∀ P, liveIn P s'.workers = liveIn P s.workers) → CounterEffect cfg s s'
  /-- A pass looks at a task. -/
  | visit {s' : SchedState L} (i : Nat) (t : DownloadTask) : s.tasks[i]? = some t →
      s'.quotas = Function.update s.quotas t.id (s.visitQuota cfg t) → s'.busyWorkers = s.busyWorkers →
      s'.activeTasks = s.activeTasks → s'.workers = s.workers → CounterEffect cfg s s'
  /-- And starts a worker. -/
  | start {s' : SchedState L} (i : Nat) (t : DownloadTask) :
      s.tasks[i]? = some t → s.busyWorkers < cfg.maxGlobalWorkers →
      (s.visitQuota cfg t).runningChunks < (s.visitQuota cfg t).maxConcurrentChunks →
      ((s.visitQuota cfg t).runningChunks = 0 → s.activeTasks < cfg.maxConcurrentTasks) →
      s'.quotas = Function.update s.quotas t.id
        { s.visitQuota cfg t with runningChunks := (s.visitQuota cfg t).runningChunks + 1 } →
      s'.busyWorkers = s.busyWorkers + 1 →
      s'.activeTasks = (if (s.visitQuota cfg t).runningChunks = 0 then s.activeTasks + 1 else s.activeTasks) →
      (∀ P, liveIn P s'.workers = liveIn P s.workers + if P t.id then 1 else 0) → CounterEffect cfg s s'
  | leave (k : Nat) (w : Worker L) : s.workers[k]? = some w → w.phase = .leaving → CounterEffect cfg s (s.leave k w)

namespace SchedState

@[simp] theorem visitQuota_running (t : DownloadTask) :
    (s.visitQuota cfg t).runningChunks = (s.quotas t.id).runningChunks := by
  unfold visitQuota
  dsimp only
  split <;> rfl

/-- What a pass has looked at when it starts a worker. -/
theorem pick_limits {t : DownloadTask} {j : Nat} (h : s.pick cfg t = some j) :
    (s.visitQuota cfg t).runningChunks < (s.visitQuota cfg t).maxConcurrentChunks ∧
      ((s.visitQuota cfg t).runningChunks = 0 → s.activeTasks < cfg.maxConcurrentTasks) := by
  unfold pick at h
  dsimp only at h
  split at h
  · cases h
  · rename_i hq
    split at h
    · cases h
    · rename_i ha
      simp only [Bool.or_eq_true, Bool.and_eq_true, decide_eq_true_eq, not_or, not_and, not_le] at hq ha
      exact ⟨hq.2, ha⟩

theorem coordinate_counters : CounterEffect cfg s (s.coordinate ex cfg) := by
  unfold coordinate
  split
  · split <;> exact .same rfl rfl rfl fun _ => rfl
  · exact .same rfl rfl rfl fun _ => rfl
  · rename_i i order scheduled _
    unfold visit
    split
    · exact .same rfl rfl rfl fun _ => rfl
    · rename_i hbusy
      split
      · exact .same rfl rfl rfl fun _ => rfl
      · rename_i t hti
        split
        · exact .visit i t hti rfl rfl rfl rfl
        · rename_i j hpick
          split
          · exact .visit i t hti rfl rfl rfl rfl
          · obtain ⟨hmax, hactive⟩ := pick_limits hpick
            exact .start i t hti (not_le.1 hbusy) hmax hactive rfl rfl rfl fun P => liveIn_append P _ _ _ _
  · exact .same rfl rfl rfl fun _ => rfl
  · split
    · unfold sweep
      split <;> exact .same rfl rfl rfl fun _ => rfl
    · exact .same rfl rfl rfl fun _ => rfl
  · exact .same rfl rfl rfl fun _ => rfl

theorem execute_counters {k i : Nat} {w : Worker L} {l : L} {t : DownloadTask} (hk : s.workers[k]? = some w)
    (hp : w.phase = .executing l) : CounterEffect cfg s (s.execute ex k w l i t) := by
  have hlive : w.live := by simp [Worker.live, hp]
  unfold execute
  dsimp only
  split
  · exact .same rfl rfl rfl fun P => liveIn_set P hk hlive.symm
  · exact .same rfl rfl rfl fun P => liveIn_set P hk hlive.symm
  · exact .same rfl rfl rfl fun P => liveIn_set P hk hlive.symm
  · exact .same rfl rfl rfl fun _ => rfl

theorem work_counters (k : Nat) : CounterEffect cfg s (s.work ex k) := by
  unfold work
  split
  · exact .same rfl rfl rfl fun _ => rfl
  · rename_i w hk
    split
    · rename_i l hp
      have hlive : w.live := by simp [Worker.live, hp]
      split
      · exact .same rfl rfl rfl fun P => liveIn_set P hk hlive.symm
      · split
        · exact .same rfl rfl rfl fun P => liveIn_set P hk hlive.symm
        · exact execute_counters hk hp
    · rename_i hp
      have hlive : w.live := by simp [Worker.live, hp]
      unfold recordFailure
      split
      · exact .same rfl rfl rfl fun P => liveIn_set P hk hlive.symm
      · split
        · exact .same rfl rfl rfl fun P => liveIn_set P hk hlive.symm
        · exact .same rfl rfl rfl fun P => liveIn_set P hk hlive.symm
    · rename_i hp
      split
      · exact .same rfl rfl rfl fun _ => rfl
      · exact .leave k w hk hp
    · exact .same rfl rfl rfl fun _ => rfl

theorem step_counters (c : Choice) : CounterEffect cfg s (step ex cfg s c) := by
  unfold step
  split
  · exact .same rfl rfl rfl fun _ => rfl
  · cases c with
    | coordinator => exact coordinate_counters
    | worker k => exact work_counters k

end SchedState

/-! ## The counters count -/

/-- The counters are what they are meant to count, within the limits. -/
structure Tallied (cfg : SchedulerConfig) (s : SchedState L) : Prop where
  busy : s.busyWorkers = s.liveWorkers
  busy_le : s.busyWorkers ≤ cfg.maxGlobalWorkers
  running : ∀ id, (s.quotas id).runningChunks = s.liveOf id
  active : s.activeTasks = s.liveTasks.card
  active_le : s.activeTasks ≤ cfg.maxConcurrentTasks

/-- No counter is zero when a worker comes to decrement it. -/
theorem Tallied.leaving (h : Tallied cfg s) {k : Nat} {w : Worker L} (hk : s.workers[k]? = some w) (hlive : w.live) :
    0 < s.busyWorkers ∧ 0 < (s.quotas w.taskId).runningChunks ∧ 0 < s.activeTasks := by
  have hof : 0 < s.liveOf w.taskId := List.countP_pos_iff.2 ⟨w, List.mem_of_getElem? hk, by simp [hlive]⟩
  refine ⟨?_, ?_, ?_⟩
  · rw [h.busy]
    exact List.countP_pos_iff.2 ⟨w, List.mem_of_getElem? hk, by simp [hlive]⟩
  · rw [h.running]
    exact hof
  · rw [h.active]
    exact Finset.card_pos.2 ⟨_, mem_liveTasks.2 hof⟩

theorem Tallied.start (h : Tallied cfg s) {t : DownloadTask} (hbusy : s.busyWorkers < cfg.maxGlobalWorkers)
    (hactive : (s.quotas t.id).runningChunks = 0 → s.activeTasks < cfg.maxConcurrentTasks)
    (hq : ∀ id, (s'.quotas id).runningChunks = (s.quotas id).runningChunks + if t.id = id then 1 else 0)
    (hb : s'.busyWorkers = s.busyWorkers + 1)
    (ha : s'.activeTasks = if (s.quotas t.id).runningChunks = 0 then s.activeTasks + 1 else s.activeTasks)
    (hlive : ∀ P, liveIn P s'.workers = liveIn P s.workers + if P t.id then 1 else 0) : Tallied cfg s' := by
  have hof : ∀ id, s'.liveOf id = s.liveOf id + if t.id = id then 1 else 0 := by
    intro id
    simpa only [decide_eq_true_eq, liveOf] using hlive (fun i => i = id)
  have htasks : s'.liveTasks = insert t.id s.liveTasks := by
    ext id
    rw [Finset.mem_insert, mem_liveTasks, mem_liveTasks, hof]
    by_cases he : t.id = id
    · simp [he]
    · simp [he, Ne.symm he]
  constructor
  · rw [hb, h.busy]
    exact (hlive fun _ => true).symm
  · omega
  · intro id
    rw [hq, hof, h.running]
  · rw [ha, htasks]
    split
    · rename_i hzero
      have hnew : t.id ∉ s.liveTasks := by
        rw [mem_liveTasks, ← h.running]
        omega
      rw [Finset.card_insert_of_notMem hnew, h.active]
    · rename_i hpos
      have hold : t.id ∈ s.liveTasks := by
        rw [mem_liveTasks, ← h.running]
        omega
      rw [Finset.insert_eq_of_mem hold, h.active]
  · have := h.active_le
    rw [ha]
    split
    · exact hactive ‹_›
    · exact h.active_le

theorem Tallied.leave (h : Tallied cfg s) {k : Nat} {w : Worker L} (hk : s.workers[k]? = some w)
    (hp : w.phase = .leaving) :
    Tallied cfg (s.leave k w) := by
  have hlive : w.live := by simp [Worker.live, hp]
  obtain ⟨hbpos, hqpos, hapos⟩ := h.leaving hk hlive
  have hcount : ∀ P, liveIn P (s.leave k w).workers + (if P w.taskId then 1 else 0) = liveIn P s.workers :=
    fun P => liveIn_exit P hk hlive
  have hof : ∀ id, (s.leave k w).liveOf id + (if w.taskId = id then 1 else 0) = s.liveOf id := by
    intro id
    simpa only [decide_eq_true_eq, liveOf] using hcount (fun i => i = id)
  have hbusy : (s.leave k w).busyWorkers = s.busyWorkers - 1 := rfl
  have hactive : (s.leave k w).activeTasks =
      if (s.quotas w.taskId).runningChunks - 1 = 0 then s.activeTasks - 1 else s.activeTasks := by
    simp [SchedState.leave, hqpos, hapos]
  have hself := hof w.taskId
  rw [if_pos rfl, ← h.running] at hself
  constructor
  · have := hcount fun _ => true
    rw [if_pos rfl] at this
    change _ = liveIn (fun _ => true) (s.leave k w).workers
    have hb : s.busyWorkers = liveIn (fun _ => true) s.workers := h.busy
    omega
  · have := h.busy_le
    omega
  · intro id
    by_cases he : id = w.taskId
    · subst he
      simp only [SchedState.leave, Function.update_self] at hself ⊢
      omega
    · have := hof id
      rw [if_neg (Ne.symm he)] at this
      simp only [SchedState.leave, Function.update_of_ne he]
      rw [h.running, ← this]
      rfl
  · rw [hactive]
    split
    · -- the last worker of its task
      have htasks : (s.leave k w).liveTasks = s.liveTasks.erase w.taskId := by
        ext id
        rw [Finset.mem_erase, mem_liveTasks, mem_liveTasks]
        have := hof id
        by_cases he : id = w.taskId
        · subst he
          simp
          omega
        · rw [if_neg (Ne.symm he)] at this
          simp [he]
          omega
      rw [htasks, Finset.card_erase_of_mem (mem_liveTasks.2 (by rw [← h.running]; exact hqpos)), h.active]
    · rw [h.active]
      congr 1
      ext id
      rw [mem_liveTasks, mem_liveTasks]
      have := hof id
      by_cases he : id = w.taskId
      · subst he
        omega
      · rw [if_neg (Ne.symm he)] at this
        omega
  · have := h.active_le
    rw [hactive]
    split <;> omega

theorem Tallied.step (h : Tallied cfg s) (heff : CounterEffect cfg s s') : Tallied cfg s' := by
  cases heff with
  | same hq hb ha hlive =>
    have hof : ∀ id, s'.liveOf id = s.liveOf id := fun id => hlive _
    constructor
    · rw [hb, h.busy]
      exact (hlive _).symm
    · exact hb ▸ h.busy_le
    · intro id
      rw [hq, h.running, hof]
    · rw [ha, h.active, liveTasks_congr hof]
    · exact ha ▸ h.active_le
  | visit i t hti hq hb ha hw =>
    have hof : ∀ id, s'.liveOf id = s.liveOf id := fun id => by rw [liveOf, hw]; rfl
    constructor
    · rw [hb, h.busy, liveWorkers, liveWorkers, hw]
    · exact hb ▸ h.busy_le
    · intro id
      rw [hq, hof, ← h.running]
      by_cases he : id = t.id
      · subst he
        rw [Function.update_self, visitQuota_running]
      · rw [Function.update_of_ne he]
    · rw [ha, h.active, liveTasks_congr hof]
    · exact ha ▸ h.active_le
  | start i t hti hbusy hmax hactive hq hb ha hlive =>
    rw [visitQuota_running] at hactive ha
    refine h.start hbusy hactive ?_ hb ha hlive
    intro id
    rw [hq]
    by_cases he : id = t.id
    · subst he
      simp
    · simp [Function.update_of_ne he, Ne.symm he]
  | leave k w hk hp => exact h.leave hk hp

theorem Tallied.initial (cfg : SchedulerConfig) (tasks : List DownloadTask) (w : World) :
    Tallied cfg ({ tasks, world := w } : SchedState L) := by
  constructor
  · rfl
  · exact Nat.zero_le _
  · intro id
    rfl
  · rfl
  · exact Nat.zero_le _

/-! ## The limit of a task -/

/-- How many chunks of the task may be worked on at once. -/
def DownloadTask.chunkLimit (cfg : SchedulerConfig) (t : DownloadTask) : Nat :=
  if t.schedulerMaxChunks ≠ 0 then t.schedulerMaxChunks else cfg.maxChunksPerTask

/-- The executor does not give its task another id. -/
def Executor.KeepsIds (ex : Executor L) : Prop :=
  ∀ id j l e, ((ex.step id j l).run e).2.task.id = e.task.id

/-- The executor does not change the limit of its task. -/
def Executor.KeepsLimits (ex : Executor L) : Prop :=
  ∀ id j l e, ((ex.step id j l).run e).2.task.schedulerMaxChunks = e.task.schedulerMaxChunks

/-- What a step can do to a quota. -/
inductive QuotaStep (cfg : SchedulerConfig) (s : SchedState L) (id : TaskId) : TaskQuota → Prop
  | same : QuotaStep cfg s id (s.quotas id)
  | visit (i : Nat) (t : DownloadTask) : s.tasks[i]? = some t → t.id = id → QuotaStep cfg s id (s.visitQuota cfg t)
  | start (i : Nat) (t : DownloadTask) : s.tasks[i]? = some t → t.id = id →
      (s.visitQuota cfg t).runningChunks < (s.visitQuota cfg t).maxConcurrentChunks →
      QuotaStep cfg s id { s.visitQuota cfg t with runningChunks := (s.visitQuota cfg t).runningChunks + 1 }
  | leave : QuotaStep cfg s id { s.quotas id with runningChunks := (s.quotas id).runningChunks - 1 }

theorem CounterEffect.quota (heff : CounterEffect cfg s s') (id : TaskId) : QuotaStep cfg s id (s'.quotas id) := by
  cases heff with
  | same hq =>
    rw [hq]
    exact .same
  | visit i t hti hq =>
    rw [hq]
    by_cases he : id = t.id
    · subst he
      rw [Function.update_self]
      exact .visit i t hti rfl
    · rw [Function.update_of_ne he]
      exact .same
  | start i t hti _ hmax _ hq =>
    rw [hq]
    by_cases he : id = t.id
    · subst he
      rw [Function.update_self]
      exact .start i t hti rfl hmax
    · rw [Function.update_of_ne he]
      exact .same
  | leave k w hk hp =>
    by_cases he : id = w.taskId
    · subst he
      simp only [SchedState.leave, Function.update_self]
      exact .leave
    · simp only [SchedState.leave, Function.update_of_ne he]
      exact .same

/-- The quota of an id stays within the limit it was opened with. -/
def TaskQuota.Within (q : TaskQuota) : Prop :=
  q.runningChunks ≤ q.maxConcurrentChunks ∧ (q.taskId = [] → q.runningChunks = 0)

theorem QuotaStep.within {id : TaskId} {q : TaskQuota} (hstep : QuotaStep cfg s id q) (hid : id ≠ [])
    (h : (s.quotas id).Within) :
    q.Within := by
  obtain ⟨hle, hopen⟩ := h
  cases hstep with
  | same => exact ⟨hle, hopen⟩
  | visit i t hti he =>
    subst he
    unfold visitQuota
    dsimp only
    split
    · rename_i hnew
      exact ⟨by simp [hopen hnew], fun h => absurd h hid⟩
    · exact ⟨hle, hopen⟩
  | start i t hti he hmax =>
    subst he
    refine ⟨hmax, ?_⟩
    unfold visitQuota
    dsimp only
    split
    · exact fun h => absurd h hid
    · exact fun h => absurd h ‹_›
  | leave => exact ⟨(Nat.sub_le _ _).trans hle, fun h => by simp [hopen h]⟩

/-- The quota `q` of a task that was `t₀` and is now `t`. A task with an empty id has its
quota opened again at each visit. -/
structure KeepsToLimit (cfg : SchedulerConfig) (ex : Executor L) (t₀ t : DownloadTask) (q : TaskQuota) : Prop where
  opened : q.taskId = [] → t₀.id = [] ∨ q.runningChunks = 0
  limit : q.taskId ≠ [] → q.maxConcurrentChunks = t₀.chunkLimit cfg
  same : q.taskId = [] ∨ ex.KeepsLimits → t.schedulerMaxChunks = t₀.schedulerMaxChunks
  le : q.runningChunks ≤ t₀.chunkLimit cfg

/-- What a visit finds as the limit. -/
theorem KeepsToLimit.visitQuota {t₀ t : DownloadTask} (h : KeepsToLimit cfg ex t₀ t (s.quotas t.id)) :
    (s.visitQuota cfg t).maxConcurrentChunks = t₀.chunkLimit cfg := by
  unfold SchedState.visitQuota
  dsimp only
  split
  · rename_i hnew
    simp only [DownloadTask.chunkLimit, h.same (.inl hnew)]
  · exact h.limit ‹_›

theorem KeepsToLimit.step {t₀ t t' : DownloadTask} {q : TaskQuota} (h : KeepsToLimit cfg ex t₀ t (s.quotas t.id))
    (hid : t.id = t₀.id) (hstep : QuotaStep cfg s t.id q)
    (hunique : ∀ (i : Nat) (u : DownloadTask), s.tasks[i]? = some u → u.id = t.id → u = t)
    (hlimit : t₀.id ≠ [] ∨ ex.KeepsLimits)
    (hsame : t'.schedulerMaxChunks = t.schedulerMaxChunks ∨ 0 < (s.quotas t.id).runningChunks ∧ ¬ ex.KeepsLimits) :
    KeepsToLimit cfg ex t₀ t' q := by
  -- the quota stays open once it is
  have hopen : q.taskId = [] → (s.quotas t.id).taskId = [] := by
    intro hq
    by_contra hne
    cases hstep with
    | same => exact hne hq
    | visit i u hi he =>
      obtain rfl := hunique i u hi he
      simp only [SchedState.visitQuota, if_neg hne] at hq
      exact hne hq
    | start i u hi he =>
      obtain rfl := hunique i u hi he
      simp only [SchedState.visitQuota, if_neg hne] at hq
      exact hne hq
    | leave => exact hne hq
  have hmax : q.taskId = [] ∨ ex.KeepsLimits → t'.schedulerMaxChunks = t₀.schedulerMaxChunks := by
    intro hq
    rcases hsame with hsame | ⟨hrun, hno⟩
    · exact hsame.trans (h.same (hq.imp_left hopen))
    · rcases hq with hq | hkeeps
      · rcases h.opened (hopen hq) with hempty | hzero
        · exact absurd (hlimit.resolve_left (fun hne => hne hempty)) hno
        · omega
      · exact absurd hkeeps hno
  cases hstep with
  | same => exact ⟨h.opened, h.limit, hmax, h.le⟩
  | visit i u hi he =>
    obtain rfl := hunique i u hi he
    refine ⟨fun hq => ?_, fun _ => h.visitQuota, hmax, ?_⟩
    · rw [visitQuota_running]
      exact h.opened (hopen hq)
    · rw [visitQuota_running]
      exact h.le
  | start i u hi he hlt =>
    obtain rfl := hunique i u hi he
    refine ⟨fun hq => ?_, fun _ => h.visitQuota, hmax, ?_⟩
    · simp only [SchedState.visitQuota, if_pos (hopen hq)] at hq
      exact .inl (hid ▸ hq)
    · rw [h.visitQuota] at hlt
      exact hlt
  | leave =>
    exact ⟨fun hq => (h.opened hq).imp_right fun hz => by simp [hz], h.limit, hmax, (Nat.sub_le _ _).trans h.le⟩

theorem sweepTask_limit (t : DownloadTask) : (sweepTask t).schedulerMaxChunks = t.schedulerMaxChunks := by
  unfold sweepTask
  split <;> rfl

/-- Where a task after a step comes from. -/
theorem SchedState.StepEffect.task {c : Choice} (heff : StepEffect ex cfg s c s') (hids : ex.KeepsIds) {i : Nat}
    {t' : DownloadTask} (h : s'.tasks[i]? = some t') :
    ∃ t, s.tasks[i]? = some t ∧ t'.id = t.id ∧
      (t'.schedulerMaxChunks = t.schedulerMaxChunks ∨ 0 < s.liveOf t.id ∧ ¬ ex.KeepsLimits) := by
  have hset : ∀ {k : Nat} {t u : DownloadTask}, s.tasks[k]? = some t → u.id = t.id →
      (u.schedulerMaxChunks = t.schedulerMaxChunks ∨ 0 < s.liveOf t.id ∧ ¬ ex.KeepsLimits) →
      (s.tasks.set k u)[i]? = some t' → ∃ t, s.tasks[i]? = some t ∧ t'.id = t.id ∧
        (t'.schedulerMaxChunks = t.schedulerMaxChunks ∨ 0 < s.liveOf t.id ∧ ¬ ex.KeepsLimits) := by
    intro k t u hk hid hmax hi
    rcases getElem?_set_some hi with ⟨rfl, rfl⟩ | ⟨_, hi⟩
    · exact ⟨t, hk, hid, hmax⟩
    · exact ⟨t', hi, rfl, .inl rfl⟩
  cases heff with
  | idle ht => exact ⟨t', ht ▸ h, rfl, .inl rfl⟩
  | retire _ _ _ _ _ _ ht => exact ⟨t', ht ▸ h, rfl, .inl rfl⟩
  | start k j _ _ t c _ _ hti _ _ ht =>
    rw [ht] at h
    have hid : (startedTask t j c).id = t.id := rfl
    exact hset hti hid (.inl rfl) h
  | execute k w l n t _ hk hp hti hid =>
    rw [(execute_spec ex hk).1] at h
    have hlive : 0 < s.liveOf t.id := List.countP_pos_iff.2 ⟨w, List.mem_of_getElem? hk, by simp [Worker.live, hp, hid]⟩
    by_cases hkeeps : ex.KeepsLimits
    · exact hset hti (hids _ _ _ _) (.inl (hkeeps _ _ _ _)) h
    · exact hset hti (hids _ _ _ _) (.inr ⟨hlive, hkeeps⟩) h
  | record k w n t hk hp hti _ ht =>
    rw [ht] at h
    have hid : (failedTask t w.chunk).id = t.id := rfl
    exact hset hti hid (.inl rfl) h
  | sweep _ _ ht =>
    rcases sweep_tasks (s := s) with hsame | ⟨_, hmap⟩
    · rw [ht, hsame] at h
      exact ⟨t', h, rfl, .inl rfl⟩
    · rw [ht, hmap, List.getElem?_map, Option.map_eq_some_iff] at h
      obtain ⟨t, hti, rfl⟩ := h
      exact ⟨t, hti, (sweepTask_same t).1, .inl (sweepTask_limit t)⟩

theorem SchedState.StepEffect.length {c : Choice} (heff : StepEffect ex cfg s c s') :
    s'.tasks.length = s.tasks.length := by
  cases heff with
  | idle ht => rw [ht]
  | retire _ _ _ _ _ _ ht => rw [ht]
  | start _ _ _ _ _ _ _ _ _ _ _ ht => rw [ht, List.length_set]
  | execute k w l n t _ hk => rw [(execute_spec ex hk).1, List.length_set]
  | record _ _ _ _ _ _ _ _ ht => rw [ht, List.length_set]
  | sweep _ _ ht =>
    rcases sweep_tasks (s := s) with hsame | ⟨_, hmap⟩
    · rw [ht, hsame]
    · rw [ht, hmap, List.length_map]

/-- All tasks of `tasks₀` keep to the limits they had there. -/
structure AllKeep (cfg : SchedulerConfig) (ex : Executor L) (tasks₀ : List DownloadTask) (s : SchedState L) : Prop where
  ids : ∀ (i : Nat) (t : DownloadTask), s.tasks[i]? = some t → ∃ t₀, tasks₀[i]? = some t₀ ∧ t.id = t₀.id
  still : ∀ (i : Nat) (t₀ : DownloadTask), tasks₀[i]? = some t₀ → ∃ t, s.tasks[i]? = some t
  keep : ∀ (i : Nat) (t₀ t : DownloadTask), tasks₀[i]? = some t₀ → s.tasks[i]? = some t → t₀.id ≠ [] ∨ ex.KeepsLimits →
    KeepsToLimit cfg ex t₀ t (s.quotas t.id)

theorem AllKeep.step {tasks₀ : List DownloadTask} (h : AllKeep cfg ex tasks₀ s) (hnodup : (tasks₀.map (·.id)).Nodup)
    (hcount : Tallied cfg s) (hids : ex.KeepsIds) (c : Choice) :
    AllKeep cfg ex tasks₀ (SchedState.step ex cfg s c) := by
  have hfrom : ∀ (i : Nat) (t' : DownloadTask), (SchedState.step ex cfg s c).tasks[i]? = some t' → _ :=
    fun i t' hi => (step_effect c).task hids hi
  have hunique : ∀ (i j : Nat) (t u : DownloadTask), s.tasks[i]? = some t → s.tasks[j]? = some u → u.id =
      t.id → u = t := by
    intro i j t u hi hj he
    obtain ⟨t₀, hi₀, ht₀⟩ := h.ids i t hi
    obtain ⟨u₀, hj₀, hu₀⟩ := h.ids j u hj
    obtain rfl : j = i := index_unique hnodup hj₀ hi₀ (hu₀.symm.trans (he.trans ht₀))
    exact Option.some.inj (hj.symm.trans hi)
  constructor
  · intro i t' hi
    obtain ⟨t, ht, hid, _⟩ := hfrom i t' hi
    obtain ⟨t₀, hi₀, ht₀⟩ := h.ids i t ht
    exact ⟨t₀, hi₀, hid.trans ht₀⟩
  · intro i t₀ hi
    obtain ⟨t, ht⟩ := h.still i t₀ hi
    have hlt := (List.getElem?_eq_some_iff.1 ht).1
    have hlen : (SchedState.step ex cfg s c).tasks.length = s.tasks.length := (step_effect c).length
    exact ⟨_, List.getElem?_eq_getElem (hlen.symm ▸ hlt)⟩
  · intro i t₀ t' hi₀ hi hlimit
    obtain ⟨t, ht, hid, hsame⟩ := hfrom i t' hi
    obtain ⟨u₀, hu₀, hid₀⟩ := h.ids i t ht
    obtain rfl := Option.some.inj (hi₀.symm.trans hu₀)
    rw [hid]
    rw [← hcount.running] at hsame
    exact (h.keep i t₀ t hi₀ ht hlimit).step hid₀ ((step_counters c).quota t.id)
      (fun j u hj he => hunique i j t u ht hj he) hlimit hsame

theorem AllKeep.initial (cfg : SchedulerConfig) (ex : Executor L) (tasks : List DownloadTask) (w : World) :
    AllKeep cfg ex tasks ({ tasks, world := w } : SchedState L) := by
  constructor
  · intro i t hi
    exact ⟨t, hi, rfl⟩
  · intro i t hi
    exact ⟨t, hi⟩
  · intro i t₀ t hi₀ hi _
    obtain rfl := Option.some.inj (hi₀.symm.trans hi)
    constructor
    · exact fun _ => .inr rfl
    · exact fun h => absurd rfl h
    · exact fun _ => rfl
    · exact Nat.zero_le _

/-- The counters of `Scheduler::run` in every state: they count the live workers and the tasks
that have one, they stay within the limits, and are never zero when a worker decrements them. -/
theorem scheduler_limits (ex : Executor L) (config : SchedulerConfig) (tasks : List DownloadTask) (w : World)
    (schedule : List Choice) (hids : (tasks.map (·.id)).Nodup) :
    let s := SchedState.runs ex config.normalized { tasks, world := w } schedule
    (s.busyWorkers = s.liveWorkers ∧ s.busyWorkers ≤ max 1 config.maxGlobalWorkers) ∧
      (s.activeTasks = s.liveTasks.card ∧ s.activeTasks ≤ max 1 config.maxConcurrentTasks) ∧
      (∀ id, (s.quotas id).runningChunks = s.liveOf id ∧
        (id ≠ [] → (s.quotas id).runningChunks ≤ (s.quotas id).maxConcurrentChunks)) ∧
      (∀ v ∈ s.workers, v.live → 0 < s.busyWorkers ∧ 0 < (s.quotas v.taskId).runningChunks ∧ 0 < s.activeTasks) ∧
      (ex.KeepsIds → ∀ t ∈ tasks, t.id ≠ [] ∨ ex.KeepsLimits →
        (s.quotas t.id).runningChunks ≤
          if t.schedulerMaxChunks ≠ 0 then t.schedulerMaxChunks else max 1 config.maxChunksPerTask) := by
  intro s
  have hcount : Tallied config.normalized s :=
    run_inv (fun s c h => h.step (step_counters c)) (Tallied.initial _ _ _)
  have hwithin : ∀ id, id ≠ [] → (s.quotas id).Within := by
    intro id hid
    have hzero : ((({ tasks, world := w } : SchedState L).quotas id).Within) := ⟨le_refl _, fun _ => rfl⟩
    have hstep : ∀ (s : SchedState L) (c : Choice), (s.quotas id).Within →
        ((step ex config.normalized s c).quotas id).Within :=
      fun s c h => ((step_counters c).quota id).within hid h
    exact run_inv hstep hzero
  refine ⟨⟨hcount.busy, hcount.busy_le⟩, ⟨hcount.active, hcount.active_le⟩, ?_, ?_, ?_⟩
  · intro id
    exact ⟨hcount.running id, fun hid => (hwithin id hid).1⟩
  · intro v hv hlive
    obtain ⟨k, hk⟩ := List.getElem?_of_mem hv
    exact hcount.leaving hk hlive
  · intro hkeeps t ht hlimit
    have hall : Tallied config.normalized s ∧ AllKeep config.normalized ex tasks s :=
      run_inv (I := fun s => Tallied config.normalized s ∧ AllKeep config.normalized ex tasks s)
        (fun s c h => ⟨h.1.step (step_counters c), h.2.step hids h.1 hkeeps c⟩)
        ⟨Tallied.initial _ _ _, AllKeep.initial _ _ _ _⟩
    obtain ⟨i, hi⟩ := List.getElem?_of_mem ht
    obtain ⟨t', ht'⟩ := hall.2.still i t hi
    obtain ⟨t₀, hi₀, hid⟩ := hall.2.ids i t' ht'
    obtain rfl := Option.some.inj (hi.symm.trans hi₀)
    have hle := (hall.2.keep i t t' hi ht' hlimit).le
    rw [hid] at hle
    exact hle

/-- An executor that throws at once. -/
def throwing : Executor Unit where
  start := ()
  step _ _ _ := throw (.other (text "broken"))

/-- Two chunks of one task, with room for one worker. -/
theorem scheduler_limits_throwing :
    let chunk : Chunk := { stop := 9 }
    let tasks : List DownloadTask := [{ id := text "a", status := .queued, fileSize := 20, chunks := [chunk, chunk] }]
    let s := SchedState.runs throwing ({ maxGlobalWorkers := 1 } : SchedulerConfig).normalized { tasks, world := {} }
      [.coordinator, .coordinator, .worker 0]
    s.workerFailed ∧ s.busyWorkers = 1 ∧ s.busyWorkers ≤ max 1 1 := by
  refine ⟨by decide +kernel, by decide +kernel, ?_⟩
  exact (scheduler_limits throwing { maxGlobalWorkers := 1 } _ {} [.coordinator, .coordinator, .worker 0]
    (by decide +kernel)).1.2

end Cget
