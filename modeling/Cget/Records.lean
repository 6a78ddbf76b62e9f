import Cget.Endings
/-!
# What the scheduler makes of a record

Its workers write status, error, counters and time of a task, chunks and part files of their
own. When a run of the scheduler ends in which no worker failed and no chunk was started
twice, the chunks and the total of a task are functions of the record it began with, of the
part files and of the server: `calmTask`. Files that belong to no task with something to
start are as they were.
-/

namespace Cget

open SchedState

variable {env : Env} {envs : TaskId → Env} {cfg : SchedulerConfig} {d d₀ : Disk} {t t' t₀ : DownloadTask}
  {c c' c₀ : Chunk} {prepared : List DownloadTask} {s s' : SchedState WorkerPc} {id : TaskId} {pc : WorkerPc}

/-! ## The total -/

/-- A step that completes the chunk recomputes the total, and the steps after it leave both alone. -/
theorem workerMove_stores {url : Text} {path : Except Exn Path} {part : Option Bytes} (hin : pc.within env.maxRetries)
    (h : (workerMove env url path .ok .ok c part pc).next.stores) :
    (workerMove env url path .ok .ok c part pc).action = .recompute ∨
      pc.stores ∧ (workerMove env url path .ok .ok c part pc).chunk = c ∧
        ((workerMove env url path .ok .ok c part pc).action = .none ∨
          (workerMove env url path .ok .ok c part pc).action = .persist true) := by
  cases pc with
  | attempt n =>
    cases path with
    | error e => cases h
    | ok p =>
      simp only [workerMove] at h ⊢
      split
      · exact .inl rfl
      · rename_i hlong
        rw [if_neg hlong] at h
        split
        · exact .inl rfl
        · rw [if_neg ‹_›] at h
          cases h
  | receiving n blocks result =>
    cases blocks with
    | nil => cases result <;> cases h
    | cons b bs =>
      simp only [workerMove] at h
      split at h <;> cases h
  | closing n =>
    simp only [workerMove] at h ⊢
    split
    · rw [if_pos ‹_›] at h
      cases h
    · exact .inl rfl
  | storing n => exact .inr ⟨rfl, rfl, .inr rfl⟩
  | caught n e =>
    cases e with
    | other what => cases h
    | cget code what =>
      simp only [workerMove] at h
      split at h <;> cases h
  | sleeping n =>
    have hlt : n < env.maxRetries := hin
    simp only [workerMove, if_pos hlt] at h
    cases h
  | returned => exact .inr ⟨rfl, rfl, .inl rfl⟩
  | _ => cases h

/-- The total is right when a worker has completed its chunk, if it was or the worker just did. -/
theorem stepped_total {e : Session} {i : Nat} (hf : env.Smooth) (hin : pc.within env.maxRetries)
    (hc : e.task.chunks[i]? = some c)
    (h : (e.workerMove env c pc).next.stores) (hwas : pc.stores → e.task.downloaded = e.task.chunkTotal) :
    (e.stepped env i c pc).task.downloaded = (e.stepped env i c pc).task.chunkTotal := by
  unfold Session.workerMove at h
  rw [(hf _).1, (hf _).2] at h
  have hmove := workerMove_stores hin h
  unfold Session.stepped Session.workerMove
  rw [(hf _).1, (hf _).2]
  generalize hm : workerMove env e.task.url (chunkPath e.task c) .ok .ok c (e.part c) pc = m at hmove
  rcases hmove with haction | ⟨hstores, hchunk, haction⟩
  · rw [haction]
    rfl
  · have hsame : (e.moved i c m).task = e.task := by
      simp only [Session.moved, DownloadTask.setChunk, hchunk, set_self hc]
    rcases haction with haction | haction <;> rw [haction]
    · change (e.moved i c m).task.downloaded = (e.moved i c m).task.chunkTotal
      rw [hsame]
      exact hwas hstores
    · change (e.moved i c m).task.downloaded = (e.moved i c m).task.chunkTotal
      rw [hsame]
      exact hwas hstores

/-! ## The records of a run -/

/-- A worker of the task has not completed its chunk. -/
def Pending (s : SchedState WorkerPc) (id : TaskId) : Prop :=
  ∃ w ∈ s.workers, w.taskId = id ∧ ∃ pc, w.phase = .executing pc ∧ pc.stores = false

/-- The record of a task that was `t₀`. Its total is right once nobody works on it. -/
structure Booked (s : SchedState WorkerPc) (t₀ t : DownloadTask) : Prop where
  record : t₀.WorkedOn t
  total : (∃ w ∈ s.workers, w.taskId = t.id) → s.workerFailed ∨ Pending s t.id ∨ t.downloaded = t.chunkTotal

/-- A path that is the part file of no chunk of a task with something to start. -/
def Unclaimed (prepared : List DownloadTask) (p : Path) : Prop :=
  ∀ t₀ ∈ prepared, hasSchedulableChunk t₀ → ∀ c₀ ∈ t₀.chunks, chunkPath t₀ c₀ ≠ .ok p

/-- The records of all tasks, and the files of none of them. -/
structure Books (d₀ : Disk) (prepared : List DownloadTask) (s : SchedState WorkerPc) : Prop where
  task : ∀ (i : Nat) (t₀ t : DownloadTask), prepared[i]? = some t₀ → s.tasks[i]? = some t → Booked s t₀ t
  files : ∀ p, Unclaimed prepared p → s.world.disk.parts p = d₀.parts p

theorem Booked.keep (h : Booked s t₀ t) (hback : (∃ v ∈ s'.workers, v.taskId = t.id) → ∃ v ∈ s.workers, v.taskId = t.id)
    (hpending : Pending s t.id → Pending s' t.id) (hflag : s.workerFailed → s'.workerFailed) : Booked s' t₀ t :=
  ⟨h.record, fun hw => (h.total (hback hw)).imp hflag (.imp hpending id)⟩

/-- The workers but for one, which was not pending. -/
theorem Pending.setPhase {k : Nat} {w : Worker WorkerPc} {p : Phase WorkerPc} (h : Pending s id)
    (hk : s.workers[k]? = some w)
    (hws : s'.workers = s.workers.set k { w with phase := p })
    (hw : w.taskId = id → ∀ pc, w.phase = .executing pc → pc.stores) :
    Pending s' id := by
  obtain ⟨v, hv, hid, pc, hp, hstores⟩ := h
  obtain ⟨n, hn⟩ := List.getElem?_of_mem hv
  by_cases hnk : k = n
  · subst hnk
    obtain rfl := Option.some.inj (hk.symm.trans hn)
    rw [hw hid pc hp] at hstores
    cases hstores
  · refine ⟨v, ?_, hid, pc, hp, hstores⟩
    rw [hws]
    exact List.mem_of_getElem? (by rw [List.getElem?_set_ne hnk, hn])

/-- A step of worker `k` on task `i`. -/
theorem Books.advance (h : Books d₀ prepared s) {i k : Nat} {w : Worker WorkerPc} {p : Phase WorkerPc}
    (hids : (s.tasks.map (·.id)).Nodup) (hti : s.tasks[i]? = some t) (hk : s.workers[k]? = some w)
    (hid : t.id = w.taskId)
    (ht : s'.tasks = s.tasks.set i t') (hws : s'.workers = s.workers.set k { w with phase := p })
    (hrecord : t.WorkedOn t') (hflag : s.workerFailed → s'.workerFailed)
    (htotal : s.workerFailed ∨ Pending s t.id ∨ t.downloaded = t.chunkTotal →
      s'.workerFailed ∨ Pending s' t.id ∨ t'.downloaded = t'.chunkTotal)
    (hfiles : ∀ p, Unclaimed prepared p → s'.world.disk.parts p = s.world.disk.parts p) : Books d₀ prepared s' := by
  have hsame : t'.id = t.id := by
    obtain ⟨_, _, _, _, _, rfl⟩ := hrecord
    rfl
  refine ⟨fun j t₀ u ht₀ hu => ?_, fun p hp => (hfiles p hp).trans (h.files p hp)⟩
  rw [ht] at hu
  rcases getElem?_set_some hu with ⟨rfl, rfl⟩ | ⟨hne, hu⟩
  · have hbooked := h.task j t₀ t ht₀ hti
    refine ⟨hbooked.record.trans hrecord, fun _ => ?_⟩
    rw [hsame]
    exact htotal (hbooked.total ⟨w, List.mem_of_getElem? hk, hid.symm⟩)
  · have hother : w.taskId ≠ u.id := fun heq => hne (index_unique hids hu hti (heq.symm.trans hid.symm))
    refine (h.task j t₀ u ht₀ hu).keep ?_ (fun hp => hp.setPhase hk hws fun heq => absurd heq hother) hflag
    rintro ⟨v, hv, hvid⟩
    rw [hws] at hv
    obtain ⟨x, hx, hxid, -⟩ := mem_set_phase hk hv
    exact ⟨x, hx, hxid.trans hvid⟩

/-- A step that changes no counter and no worker. -/
theorem Books.remap (h : Books d₀ prepared s) (f : DownloadTask → DownloadTask)
    (hf : ∀ t : DownloadTask, t.WorkedOn (f t) ∧ (f t).downloaded = t.downloaded ∧ (f t).chunks = t.chunks)
    (ht : s'.tasks = s.tasks.map f) (hw : s'.world.disk.parts = s.world.disk.parts) (hws : s'.workers = s.workers)
    (hflag : s'.workerFailed = s.workerFailed) : Books d₀ prepared s' := by
  refine ⟨fun i t₀ t ht₀ hti => ?_, fun p hp => by rw [hw]; exact h.files p hp⟩
  rw [ht, List.getElem?_map, Option.map_eq_some_iff] at hti
  obtain ⟨u, hu, rfl⟩ := hti
  obtain ⟨hrecord, htotal⟩ := h.task i t₀ u ht₀ hu
  obtain ⟨hworked, hcount, hchunks⟩ := hf u
  have hid : (f u).id = u.id := by
    obtain ⟨_, _, _, _, _, heq⟩ := hworked
    rw [heq]
  refine ⟨hrecord.trans hworked, ?_⟩
  rw [hid, hws, hflag, hcount, DownloadTask.chunkTotal, hchunks]
  unfold Pending at htotal ⊢
  rw [hws]
  exact htotal

theorem Books.same (h : Books d₀ prepared s) (ht : s'.tasks = s.tasks) (hw : s'.world.disk.parts = s.world.disk.parts)
    (hws : s'.workers = s.workers) (hflag : s'.workerFailed = s.workerFailed) : Books d₀ prepared s' :=
  h.remap id (fun _ => ⟨.refl, rfl, rfl⟩) (by simpa using ht) hw hws hflag

/-- A step of an executor. -/
theorem Books.execute (h : Books d₀ prepared s) (hfated : Fated envs d₀ prepared s) (hids : (prepared.map (·.id)).Nodup)
    (hf : ∀ t₀ ∈ prepared, (envs t₀.id).Smooth) {k i : Nat} {w : Worker WorkerPc} (hk : s.workers[k]? = some w)
    (hp : w.phase = .executing pc) (hti : s.tasks[i]? = some t) (hid : t.id = w.taskId) :
    Books d₀ prepared (s.execute (chunkExecutor envs) k w pc i t) := by
  have hnodup : (s.tasks.map (·.id)).Nodup := hfated.ids ▸ hids
  obtain ⟨t₀, c₀, c, hi₀, hc₀, hc, ht, hown⟩ := hfated.worker hids (List.mem_of_getElem? hk) hti hid
  obtain ⟨hst, hsched, hway⟩ := hown.taken w (List.mem_of_getElem? hk) (place_eq.2 ⟨hid.symm, rfl⟩)
  rw [hp] at hway
  have hklen := (List.getElem?_eq_some_iff.1 hk).1
  unfold SchedState.execute
  rcases chunkExecutor_run envs w.taskId (e := { world := s.world, task := t }) hc pc with
    ⟨rfl, hr⟩ | ⟨x, rfl, hr⟩ | hr <;> rw [hr]
  · refine h.advance hnodup hti hk hid rfl rfl .refl id (.imp id (.imp (fun hpending => ?_) id)) fun _ _ => rfl
    refine hpending.setPhase hk rfl fun _ pc hexec => ?_
    rw [hp] at hexec
    cases hexec
    rfl
  · exact h.advance hnodup hti hk hid rfl rfl .refl (fun _ => rfl) (fun _ => .inl rfl) fun _ _ => rfl
  · have henv : envs t₀.id = envs w.taskId := by rw [← ht.same.1, hid]
    have hsmooth : (envs w.taskId).Smooth := henv ▸ hf t₀ (List.mem_of_getElem? hi₀)
    have hran : (Session.workerMove (envs w.taskId) { world := s.world, task := t } c pc).crashed = false :=
      henv ▸ (hway.step (n := s.world.tick) (henv ▸ hsmooth) ht.same).2
    rw [if_neg (by simp [hran])]
    refine h.advance hnodup hti hk hid rfl rfl stepped_workedOn id (fun htotal => ?_) fun p hp => ?_
    · by_cases hstores : ((Session.workerMove (envs w.taskId) { world := s.world, task := t } c pc).next).stores
      · -- the worker is through with its counters
        refine htotal.imp id fun htotal => ?_
        by_cases hwas : pc.stores
        · rcases htotal with hpending | hright
          · refine .inl (hpending.setPhase hk rfl fun _ pc' hexec => ?_)
            rw [hp] at hexec
            cases hexec
            exact hwas
          · exact .inr (stepped_total hsmooth (henv ▸ hway.within) hc hstores fun _ => hright)
        · exact .inr (stepped_total hsmooth (henv ▸ hway.within) hc hstores fun hx => absurd hx hwas)
      · exact .inr (.inl ⟨_, List.mem_set hklen _, hid.symm, _, rfl, by simpa using hstores⟩)
    · -- an unclaimed file is not that of the worker
      refine stepped_parts fun hpath => ?_
      rw [chunkPath_congr ht.same hown.place.2.2.2] at hpath
      have hhas : hasSchedulableChunk t₀ := by
        rw [hasSchedulableChunk, hst, Bool.true_and]
        exact List.any_eq_true.2 ⟨c₀, List.mem_of_getElem? hc₀, hsched⟩
      exact hp t₀ (List.mem_of_getElem? hi₀) hhas c₀ (List.mem_of_getElem? hc₀) hpath

theorem Books.step {choice : Choice} (h : Books d₀ prepared s) (hfated : Fated envs d₀ prepared s)
    (hids : (prepared.map (·.id)).Nodup) (hf : ∀ t₀ ∈ prepared, (envs t₀.id).Smooth)
    (heff : StepEffect (chunkExecutor envs) cfg s choice s') : Books d₀ prepared s' := by
  have hnodup : (s.tasks.map (·.id)).Nodup := hfated.ids ▸ hids
  cases heff with
  | idle ht hw hws hflag _ => exact h.same ht (by rw [hw]) hws hflag
  | retire k w p hk hthrough hp ht hw hws hflag _ =>
    obtain ⟨t₀, c₀, ht₀, hid₀, -⟩ := hfated.home w (List.mem_of_getElem? hk)
    have hin : w.taskId ∈ s.tasks.map (·.id) := hfated.ids ▸ List.mem_map.2 ⟨t₀, ht₀, hid₀⟩
    obtain ⟨t, hmt, hid⟩ := List.mem_map.1 hin
    obtain ⟨i, hti⟩ := List.getElem?_of_mem hmt
    have hleaving : w.phase = .leaving := hthrough.resolve_right fun hnone => hnone t hmt hid
    refine h.advance hnodup hti hk hid (ht.trans (set_self hti).symm) hws .refl (fun hx => hflag ▸ hx)
      (.imp (fun hx => hflag ▸ hx) (.imp (fun hpending => ?_) id)) fun _ _ => by rw [hw]
    refine hpending.setPhase hk hws fun _ pc hexec => ?_
    rw [hleaving] at hexec
    cases hexec
  | start i j order scheduled t c _ _ hti _ _ ht hw hws hflag _ =>
    refine ⟨fun n t₀ u ht₀ hu => ?_, fun p hp => by rw [hw]; exact h.files p hp⟩
    have hkept : ∀ {id}, Pending s id → Pending s' id := by
      rintro id ⟨v, hv, hrest⟩
      exact ⟨v, by rw [hws]; exact List.mem_append_left _ hv, hrest⟩
    rw [ht] at hu
    rcases getElem?_set_some hu with ⟨rfl, rfl⟩ | ⟨hne, hu⟩
    · refine ⟨(h.task n t₀ t ht₀ hti).record.trans ⟨_, _, _, _, _, rfl⟩, fun _ => .inr (.inl ?_)⟩
      exact ⟨_, by rw [hws]; exact List.mem_append_right _ (List.mem_singleton_self _), rfl, _, rfl, rfl⟩
    · have hother : t.id ≠ u.id := fun heq => hne (index_unique hnodup hu hti heq.symm)
      refine (h.task n t₀ u ht₀ hu).keep ?_ hkept fun hx => hflag ▸ hx
      rintro ⟨v, hv, hvid⟩
      rw [hws] at hv
      rcases List.mem_append.1 hv with hv | hv
      · exact ⟨v, hv, hvid⟩
      · rw [List.mem_singleton.1 hv] at hvid
        exact absurd hvid hother
  | execute k w pc i t _ hk hp hti hid => exact h.execute hfated hids hf hk hp hti hid
  | record k w i t hk hp hti hid ht hw hws hflag _ =>
    obtain ⟨t₀, c₀, c, -, -, -, -, hown⟩ := hfated.worker hids (List.mem_of_getElem? hk) hti hid
    have hway := (hown.taken w (List.mem_of_getElem? hk) (place_eq.2 ⟨hid.symm, rfl⟩)).2.2
    rw [hp] at hway
    exact h.advance hnodup hti hk hid ht hws ⟨_, _, _, _, _, rfl⟩ (fun hx => hflag ▸ hx)
      (fun _ => .inl (hflag ▸ hway.2)) fun _ _ => by rw [hw]; rfl
  | sweep _ _ ht hw hws hflag _ =>
    obtain ⟨es, hes, -⟩ := sweep_log (s := s)
    have hparts : s'.world.disk.parts = s.world.disk.parts := by rw [hw, hes]
    rcases sweep_tasks (s := s) with hs | ⟨-, hs⟩ <;> rw [hs] at ht
    · exact h.same ht hparts hws hflag
    · refine h.remap sweepTask (fun t => ⟨sweepTask_workedOn, ?_, (sweepTask_same t).2.1⟩) ht hparts hws hflag
      unfold sweepTask
      split <;> rfl

theorem runs_booked {w : World} {schedule : List Choice} (hids : (prepared.map (·.id)).Nodup)
    (happ : PartsApart prepared) (hf : ∀ t₀ ∈ prepared, (envs t₀.id).Smooth)
    (hguard : GuardedRun (SchedState.step (chunkExecutor envs) cfg) (fun s c => startsUnstarted cfg s c)
      { tasks := prepared, world := w } schedule)
    (hs : SchedState.runs (chunkExecutor envs) cfg { tasks := prepared, world := w } schedule = s) :
    Books w.disk prepared s := by
  have hstart : Books w.disk prepared { tasks := prepared, world := w } := by
    refine ⟨fun i t₀ t ht₀ ht => ?_, fun _ _ => rfl⟩
    obtain rfl := Option.some.inj (ht₀.symm.trans ht)
    exact ⟨.refl, fun ⟨w, hw, _⟩ => by cases hw⟩
  have hrun : Fated envs w.disk prepared s ∧ Books w.disk prepared s := by
    rw [← hs]
    refine GuardedRun.inv (I := fun s : SchedState WorkerPc => Fated envs w.disk prepared s ∧
      Books w.disk prepared s) ?_
      ⟨.initial happ, hstart⟩ hguard
    rintro s c ⟨hfated, hbooks⟩ hok
    exact ⟨hfated.step hids hf hok (step_effect c), hbooks.step hfated hids hf (step_effect c)⟩
  exact hrun.2

/-! ## Runs without a failure -/

/-- The chunk when its worker is through. -/
def calmChunk (env : Env) (t : DownloadTask) (d : Disk) (c : Chunk) : Chunk :=
  if c.schedulable then
    { c with downloaded := c.size, status := .completed, retryCount := (chunkFate env t d c).retries }
  else c

/-- The task when all its workers are through, but for status, error and time. -/
def calmTask (env : Env) (t : DownloadTask) (d : Disk) : DownloadTask :=
  recomputeDownloaded { t with chunks := t.chunks.map (calmChunk env t d) }

theorem Chunk.SamePlace.eq (h : c.SamePlace c') :
    c' = { c with downloaded := c'.downloaded, status := c'.status, retryCount := c'.retryCount } := by
  obtain ⟨hindex, hstart, hstop, hpath⟩ := h
  rw [← hindex, ← hstart, ← hstop, ← hpath]

namespace Returned

variable {i : Nat}

/-- No worker fails if no chunk that can be started ends in an exception. -/
theorem undoomed (h : Returned envs d₀ prepared s)
    (hcalm : ∀ t₀ ∈ prepared, isSchedulableStatus t₀.status → ¬ Doomed (envs t₀.id) d₀ t₀) :
    s.workerFailed = false := by
  rw [← Bool.not_eq_true]
  intro hfailed
  obtain ⟨i, t₀, -, hi₀, -, hst, hdoomed, -⟩ := h.failedChunk hfailed
  exact hcalm t₀ (List.mem_of_getElem? hi₀) hst hdoomed

/-- The chunks of a task that could be scheduled. -/
theorem calmChunks (h : Returned envs d₀ prepared s) (hcalm : s.workerFailed = false) (hi₀ : prepared[i]? = some t₀)
    (hi : s.tasks[i]? = some t) (hst : isSchedulableStatus t₀.status) :
    t.chunks = t₀.chunks.map (calmChunk (envs t₀.id) t₀ d₀) := by
  have ht := h.tracked.task i t₀ t hi₀ hi
  apply List.ext_getElem?
  intro j
  rw [List.getElem?_map]
  by_cases hj : j < t₀.chunks.length
  · have hc₀ := List.getElem?_eq_getElem hj
    have hc := List.getElem?_eq_getElem (ht.length.symm ▸ hj)
    rw [hc₀, hc, Option.map_some, calmChunk]
    by_cases hsched : t₀.chunks[j].schedulable
    · obtain ⟨-, hretries, hfilled⟩ := h.complete hcalm hi₀ hi hst hc₀ hc hsched
      have hplace := (ht.chunk j _ _ hc₀ hc).place
      rw [if_pos hsched, hplace.eq, hfilled.count, hfilled.status, hretries, hplace.size_eq]
    · rw [Bool.not_eq_true] at hsched
      rw [if_neg (by simp [hsched]), (h.unstarted hi₀ hi hc₀ hc hsched).1]
  · have hlong := Nat.le_of_not_lt hj
    rw [List.getElem?_eq_none (ht.length.symm ▸ hlong), List.getElem?_eq_none hlong]
    rfl

/-- The record of a task with something to start. -/
theorem calm (h : Returned envs d₀ prepared s) (hbooks : Books d₀ prepared s) (hcalm : s.workerFailed = false)
    (hi₀ : prepared[i]? = some t₀) (hi : s.tasks[i]? = some t) (hsched : hasSchedulableChunk t₀) :
    Working t.status ∧ ∃ st e u, t =
    { calmTask (envs t₀.id) t₀ d₀ with status := st, lastError := e, updatedAt := u } := by
  have ht := h.tracked.task i t₀ t hi₀ hi
  obtain ⟨hrecord, htotal⟩ := hbooks.task i t₀ t hi₀ hi
  rw [hasSchedulableChunk, Bool.and_eq_true, List.any_eq_true] at hsched
  obtain ⟨hst, c₀, hmem, hc⟩ := hsched
  obtain ⟨j, hj⟩ := List.getElem?_of_mem hmem
  have hworker : ∃ w ∈ s.workers, w.taskId = t.id := by
    obtain ⟨w, hw, hplace⟩ := h.started.resolve_left (by simp [hcalm]) t₀ (List.mem_of_getElem? hi₀) hst j c₀ hj hc
    exact ⟨w, hw, (place_eq.1 hplace).1.trans ht.same.1.symm⟩
  have hchunks := h.calmChunks hcalm hi₀ hi hst
  have hsum : t.downloaded = t.chunkTotal := by
    rcases htotal hworker with hfailed | ⟨w, hw, -, pc, hexec, -⟩ | hsum
    · rw [hcalm] at hfailed
      cases hfailed
    · rw [h.exited w hw] at hexec
      cases hexec
    · exact hsum
  refine ⟨?_, ?_⟩
  · rcases ht.status hworker with hs | hs | ⟨-, hfailed⟩
    · exact .inl hs
    · exact .inr hs
    · rw [hcalm] at hfailed
      cases hfailed
  · obtain ⟨st, e, n, cs, u, rfl⟩ := hrecord
    obtain rfl : cs = t₀.chunks.map (calmChunk (envs t₀.id) t₀ d₀) := hchunks
    obtain rfl : n = ((t₀.chunks.map (calmChunk (envs t₀.id) t₀ d₀)).map (·.downloaded)).sum := hsum
    exact ⟨st, e, u, rfl⟩

/-- A task with nothing to start is as it was. -/
theorem idle (h : Returned envs d₀ prepared s) (hids : (prepared.map (·.id)).Nodup) (hcalm : s.workerFailed = false)
    (hi₀ : prepared[i]? = some t₀) (hi : s.tasks[i]? = some t) (hnone : hasSchedulableChunk t₀ = false) : t = t₀ := by
  rcases (h.left hids hi₀ hi hnone).1 with hsame | ⟨hfailed, -⟩
  · exact hsame
  · rw [hcalm] at hfailed
    cases hfailed

/-- The chunks of a task are there, if those are that needed no worker. -/
theorem gathered (h : Returned envs d₀ prepared s) (hcalm : s.workerFailed = false) (hi₀ : prepared[i]? = some t₀)
    (hi : s.tasks[i]? = some t) (hst : isSchedulableStatus t₀.status)
    (hrest : ∀ c ∈ t₀.chunks, c.schedulable = false → Filled c (t₀.partOn d₀ c)) :
    Gathered (envs t₀.id) t₀ d₀ { world := s.world, task := t } := by
  have ht := h.tracked.task i t₀ t hi₀ hi
  refine ⟨ht.same, ht.length, fun j c₀ c hc₀ hc => ⟨(ht.chunk j c₀ c hc₀ hc).place, ?_⟩⟩
  by_cases hsched : c₀.schedulable
  · obtain ⟨hpart, -, hfilled⟩ := h.complete hcalm hi₀ hi hst hc₀ hc hsched
    rw [referencePart, if_pos hsched]
    exact ⟨hpart, hfilled⟩
  · rw [Bool.not_eq_true] at hsched
    obtain ⟨rfl, hpart⟩ := h.unstarted hi₀ hi hc₀ hc hsched
    dsimp only
    rw [hpart, referencePart, hsched, if_neg Bool.false_ne_true]
    exact ⟨rfl, hrest c (List.mem_of_getElem? hc₀) hsched⟩

end Returned

end Cget
