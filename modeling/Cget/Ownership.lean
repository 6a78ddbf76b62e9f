import Cget.ChunkRule
/-!
# Who works on a chunk

A chunk may be started when its status is Pending, Paused or Failed. The worker that
downloads it keeps it Downloading, with one exception: between a failed attempt and the
next, and after its last one, the chunk reads Failed while the worker is still there. As
long as no pass starts a chunk in such a pause, each chunk has one worker at most, and
every rule for chunks is kept.
-/

namespace Cget

open SchedState

variable {m : Nat} {env : Env} {envs : TaskId → Env} {cfg : SchedulerConfig} {s s' : SchedState WorkerPc}

/-! ## The status of a chunk that is worked on -/

/-- The chunk may read Failed although its worker is still in `downloadChunkWithRetry`. -/
def WorkerPc.pausing : WorkerPc → Bool
  | .attempt n | .opening n _ | .starting n _ | .caught n _ => 0 < n
  | .recording _ | .sleeping _ | .threw _ => true
  | _ => false

/-- The attempts stay within the configured retries. -/
def WorkerPc.within (m : Nat) : WorkerPc → Prop
  | .attempt n | .opening n _ | .starting n _ | .announcing n _ | .requesting n _ | .receiving n _ _
  | .flushing n _ _ | .closing n | .storing n | .caught n _ => n ≤ m
  | .recording n | .sleeping n => n < m
  | .returned | .threw _ => True

/-- A worker at `pc` is visible in the status of its chunk, unless it pauses. -/
def Occupies (m : Nat) (c : Chunk) (pc : WorkerPc) : Prop :=
  pc.within m ∧ (pc.pausing = false → c.status = .downloading ∨ c.status = .completed)

theorem persistMove_within {c : Chunk} {part : Option Bytes} {f : Fault} {pc next failed : WorkerPc}
    (hnext : next.within m) (hfailed : failed.within m) (hran : (persistMove f c part pc next failed).crashed = false) :
    (persistMove f c part pc next failed).next.within m := by
  cases f with
  | ok => exact hnext
  | fail k => exact hfailed
  | crash k => cases hran

/-- No step leaves the configured retries. -/
theorem workerMove_within {url : Text} {path : Except Exn Path} {f g : Fault} {c : Chunk} {part : Option Bytes}
    {pc : WorkerPc}
    (h : pc.within env.maxRetries) (hran : (workerMove env url path f g c part pc).crashed = false) :
    (workerMove env url path f g c part pc).next.within env.maxRetries := by
  cases pc with
  | attempt n =>
    cases path with
    | error e => exact h
    | ok p =>
      simp only [workerMove]
      split
      · cases f with
        | ok => trivial
        | fail k => exact h
        | crash k => exact h
      · split
        · trivial
        · exact h
  | opening n start => cases f <;> exact h
  | starting n start => exact h
  | announcing n start => exact persistMove_within h h hran
  | requesting n start => exact h
  | receiving n blocks result =>
    cases blocks with
    | nil => cases result <;> exact h
    | cons b bs =>
      cases f with
      | ok =>
        simp only [workerMove]
        split <;> exact h
      | fail k => exact h
      | crash k => exact h
  | flushing n blocks result => exact persistMove_within h h hran
  | closing n =>
    simp only [workerMove]
    split <;> exact h
  | storing n => exact persistMove_within trivial h hran
  | caught n e =>
    cases e with
    | other what => trivial
    | cget code what =>
      simp only [workerMove]
      split
      · trivial
      · rename_i hretry
        simp only [Bool.or_eq_true, decide_eq_true_eq, not_or] at hretry
        exact lt_of_le_of_ne h hretry.2
  | recording n => exact persistMove_within h trivial hran
  | sleeping n =>
    have hlt : n < env.maxRetries := h
    simp only [workerMove, if_pos hlt]
    exact hlt
  | returned => trivial
  | threw e => trivial

/-- A step of a worker keeps it visible. -/
theorem workerMove_occupies {url : Text} {path : Except Exn Path} {f g : Fault} {c : Chunk} {part : Option Bytes}
    {pc : WorkerPc} (h : Occupies env.maxRetries c pc)
    (hran : (workerMove env url path f g c part pc).crashed = false) :
    Occupies env.maxRetries (workerMove env url path f g c part pc).chunk
      (workerMove env url path f g c part pc).next := by
  refine ⟨workerMove_within h.1 hran, ?_⟩
  have hst := h.2
  cases pc with
  | attempt n =>
    cases path with
    | error e => exact hst
    | ok p =>
      simp only [workerMove]
      split
      · cases f with
        | ok => exact fun _ => .inr rfl
        | fail k => exact hst
        | crash k => exact hst
      · split
        · exact fun _ => .inr rfl
        · exact hst
  | opening n start => cases f <;> exact hst
  | starting n start => exact fun _ => .inl rfl
  | announcing n start => cases g <;> exact fun _ => hst rfl
  | requesting n start => exact hst
  | receiving n blocks result =>
    cases blocks with
    | nil => cases result <;> exact fun _ => hst rfl
    | cons b bs => cases f <;> exact fun _ => hst rfl
  | flushing n blocks result => cases g <;> exact fun _ => hst rfl
  | closing n =>
    simp only [workerMove]
    split
    · exact fun _ => hst rfl
    · exact fun _ => .inr rfl
  | storing n => cases g <;> exact fun _ => hst rfl
  | caught n e =>
    cases e with
    | other what => simp [workerMove, WorkerPc.pausing]
    | cget code what =>
      simp only [workerMove]
      split <;> simp [WorkerPc.pausing]
  | recording n => cases g <;> simp [workerMove, persistMove, WorkerPc.pausing]
  | sleeping n =>
    have hlt : n < env.maxRetries := h.1
    simp [workerMove, hlt, WorkerPc.pausing]
  | returned => exact hst
  | threw e => simp [workerMove, WorkerPc.pausing]

/-! ## Owned chunks -/

/-- The worker may still write the status of its chunk. -/
def Worker.active (w : Worker WorkerPc) : Bool :=
  match w.phase with | .executing _ | .recording => true | _ => false

/-- The worker is active, but its chunk may read Failed. -/
def Worker.pausing (w : Worker WorkerPc) : Bool :=
  match w.phase with | .executing pc => pc.pausing | .recording => true | _ => false

/-- Where an active worker stands; the exception it records is not kept. -/
def Worker.At (w : Worker WorkerPc) (pc : WorkerPc) : Prop :=
  w.phase = .executing pc ∨ w.phase = .recording ∧ ∃ e, pc = .threw e

/-- If the step starts a worker on a chunk, no worker of that chunk is in a pause. -/
def startsNoPaused (cfg : SchedulerConfig) (s : SchedState WorkerPc) (c : Choice) : Bool :=
  match c, s.coordinator with
  | .coordinator, .visiting (i :: _) _ =>
    match s.tasks[i]? with
    | none => true
    | some t =>
      match s.pick cfg t with
      | none => true
      | some j => s.workers.all (fun w => !(w.taskId = t.id && w.chunk = j && w.pausing))
  | _, _ => true

/-- Each chunk has at most one active worker, which is visible in its status, and the rule
holds of all of them. -/
structure Owned (R : ChunkRule envs) (s : SchedState WorkerPc) : Prop where
  ids : (s.tasks.map (·.id)).Nodup
  apart : R.sees → PartsApart s.tasks
  idle : ∀ t ∈ s.tasks, ∀ (j : Nat) (c : Chunk), t.chunks[j]? = some c →
    (∀ w ∈ s.workers, w.active → w.taskId = t.id → w.chunk ≠ j) → R.idle t j c (t.partOn s.world.disk c)
  busy : ∀ w ∈ s.workers, w.active → ∃ t ∈ s.tasks, t.id = w.taskId ∧ ∃ c pc, t.chunks[w.chunk]? = some c ∧ w.At pc ∧
    Occupies (envs w.taskId).maxRetries c pc ∧ R.busy t w.chunk c (t.partOn s.world.disk c) pc
  alone : ∀ (j k : Nat) (v w : Worker WorkerPc), s.workers[j]? = some v → s.workers[k]? = some w →
    v.active → w.active → v.taskId = w.taskId → v.chunk = w.chunk → j = k
  failed : ∀ w ∈ s.workers, w.phase = .recording → s.workerFailed

theorem task_unique {tasks : List DownloadTask} (hids : (tasks.map (·.id)).Nodup) {t u : DownloadTask}
    (ht : t ∈ tasks) (hu : u ∈ tasks) (h : t.id = u.id) : t = u := List.inj_on_of_nodup_map hids ht hu h

/-! ## Steps on one chunk -/

/-- Between `s` and `s'`, nothing is written but chunk `j` of task `i`, with its part file. -/
structure Rewrites (R : ChunkRule envs) (s s' : SchedState WorkerPc) (i j : Nat) (t t' : DownloadTask) (c c' : Chunk) :
    Prop where
  task : s.tasks[i]? = some t
  tasks : s'.tasks = s.tasks.set i t'
  same : t.SameRequest t'
  chunk : t.chunks[j]? = some c
  chunks : t'.chunks = t.chunks.set j c'
  place : c.SamePlace c'
  parts : R.sees → ∀ p, chunkPath t c ≠ .ok p → s'.world.disk.parts p = s.world.disk.parts p

namespace Rewrites

variable {R : ChunkRule envs} {i j k : Nat} {t t' u : DownloadTask} {c c' d : Chunk}

theorem mem (hr : Rewrites R s s' i j t t' c c') : t ∈ s.tasks := List.mem_of_getElem? hr.task

theorem mem' (hr : Rewrites R s s' i j t t' c c') : t' ∈ s'.tasks := by
  rw [hr.tasks]
  exact List.mem_set (List.getElem?_eq_some_iff.1 hr.task).1 _

theorem ids (hr : Rewrites R s s' i j t t' c c') : s'.tasks.map (·.id) = s.tasks.map (·.id) := by
  rw [hr.tasks, map_set_eq hr.task hr.same.1]

theorem own (hr : Rewrites R s s' i j t t' c c') : t'.chunks[j]? = some c' := by
  rw [hr.chunks, List.getElem?_set_self (List.getElem?_eq_some_iff.1 hr.chunk).1]

theorem other (hr : Rewrites R s s' i j t t' c c') (h : k ≠ j) : t'.chunks[k]? = t.chunks[k]? := by
  rw [hr.chunks, List.getElem?_set_ne (Ne.symm h)]

/-- Where a task of `s'` comes from. -/
theorem old (hr : Rewrites R s s' i j t t' c c') (hids : (s.tasks.map (·.id)).Nodup) (hu : u ∈ s'.tasks) :
    u = t' ∨ u ∈ s.tasks ∧ u.id ≠ t.id := by
  rw [hr.tasks] at hu
  obtain ⟨n, hn⟩ := List.getElem?_of_mem hu
  by_cases h : i = n
  · subst h
    rw [List.getElem?_set_self (List.getElem?_eq_some_iff.1 hr.task).1] at hn
    exact .inl (Option.some.inj hn).symm
  · rw [List.getElem?_set_ne h] at hn
    exact .inr ⟨List.mem_of_getElem? hn, fun hid => h (index_unique hids hr.task hn hid.symm)⟩

theorem kept (hr : Rewrites R s s' i j t t' c c') (hu : u ∈ s.tasks) (h : u.id ≠ t.id) : u ∈ s'.tasks := by
  rw [hr.tasks]
  obtain ⟨n, hn⟩ := List.getElem?_of_mem hu
  have hne : i ≠ n := by
    rintro rfl
    rw [hr.task] at hn
    exact h (by rw [Option.some.inj hn])
  exact List.mem_of_getElem? (by rw [List.getElem?_set_ne hne, hn])

/-- All other chunks have the part files they had. -/
theorem partOn_other (hr : Rewrites R s s' i j t t' c c') (happ : PartsApart s.tasks) (hs : R.sees) (hu : u ∈ s.tasks)
    (hd : u.chunks[k]? = some d) (hne : u.id = t.id → k ≠ j) : u.partOn s'.world.disk d = u.partOn s.world.disk d := by
  refine partOn_congr .refl rfl fun p hp => hr.parts hs p fun hc => ?_
  obtain ⟨hid, hk⟩ := happ u hu t hr.mem k j d c p hd hr.chunk hp hc
  exact hne hid hk

theorem apart (hr : Rewrites R s s' i j t t' c c') (hids : (s.tasks.map (·.id)).Nodup) (happ : PartsApart s.tasks) :
    PartsApart s'.tasks := by
  refine happ.of_places fun u hu k d hd => ?_
  rcases hr.old hids hu with rfl | ⟨hu, -⟩
  · refine ⟨t, hr.mem, hr.same, ?_⟩
    by_cases hk : k = j
    · subst hk
      obtain rfl : c' = d := by simpa [hr.own] using hd
      exact ⟨c, hr.chunk, hr.place.2.2.2.symm⟩
    · exact ⟨d, by rw [← hr.other hk, hd], rfl⟩
  · exact ⟨u, hu, .refl, d, hd, rfl⟩

/-- Another chunk that was idle still is. -/
theorem idle_other (hr : Rewrites R s s' i j t t' c c') (h : Owned R s) (hu : u ∈ s'.tasks) (hd : u.chunks[k]? = some d)
    (hne : u.id = t.id → k ≠ j) (hfree : ∀ w ∈ s.workers, w.active → w.taskId = u.id → w.chunk ≠ k) :
    R.idle u k d (u.partOn s'.world.disk d) := by
  rcases hr.old h.ids hu with rfl | ⟨hu, hid⟩
  · have hk := hne hr.same.1
    have hd' : t.chunks[k]? = some d := by rw [← hr.other hk, hd]
    refine R.idle_frame hr.same (fun hs => ?_) (h.idle t hr.mem k d hd' (by rwa [← hr.same.1]))
    rw [← hr.partOn_other (h.apart hs) hs hr.mem hd' (fun _ => hk)]
    exact partOn_congr hr.same rfl fun _ _ => rfl
  · refine R.idle_frame .refl (fun hs => ?_) (h.idle u hu k d hd hfree)
    exact hr.partOn_other (h.apart hs) hs hu hd hne

/-- Another chunk that was worked on still is. -/
theorem busy_other (hr : Rewrites R s s' i j t t' c c') (h : Owned R s) {w : Worker WorkerPc} (hw : w ∈ s.workers)
    (ha : w.active) (hne : w.taskId = t.id → w.chunk ≠ j) :
    ∃ u ∈ s'.tasks, u.id = w.taskId ∧ ∃ d pc, u.chunks[w.chunk]? = some d ∧ w.At pc ∧
      Occupies (envs w.taskId).maxRetries d pc ∧ R.busy u w.chunk d (u.partOn s'.world.disk d) pc := by
  obtain ⟨u, hu, hid, d, pc, hd, hat, hocc, hb⟩ := h.busy w hw ha
  by_cases ht : u.id = t.id
  · obtain rfl := task_unique h.ids hu hr.mem ht
    have hk := hne hid.symm
    refine ⟨t', hr.mem', hr.same.1.trans hid, d, pc, by rw [hr.other hk, hd], hat, hocc, ?_⟩
    refine R.busy_frame hr.same (fun hs => ?_) hb
    rw [← hr.partOn_other (h.apart hs) hs hr.mem hd (fun _ => hk)]
    exact partOn_congr hr.same rfl fun _ _ => rfl
  · refine ⟨u, hr.kept hu ht, hid, d, pc, hd, hat, hocc, R.busy_frame .refl (fun hs => ?_) hb⟩
    exact hr.partOn_other (h.apart hs) hs hu hd fun hid' => absurd hid' ht

end Rewrites

/-! ## Steps -/

namespace Owned

variable {R : ChunkRule envs}

/-- An active worker rewrites its chunk, and stays active on it or leaves it idle. -/
theorem advance {i k : Nat} {w : Worker WorkerPc} {p : Phase WorkerPc} {t t' : DownloadTask} {c c' : Chunk}
    (h : Owned R s) (hr : Rewrites R s s' i w.chunk t t' c c') (hk : s.workers[k]? = some w) (hw : w.active)
    (hid : t.id = w.taskId) (hws : s'.workers = s.workers.set k { w with phase := p })
    (hidle : ({ w with phase := p } : Worker WorkerPc).active = false →
      R.idle t' w.chunk c' (t'.partOn s'.world.disk c'))
    (hbusy : ({ w with phase := p } : Worker WorkerPc).active → ∃ pc, ({ w with phase := p } : Worker WorkerPc).At pc ∧
      Occupies (envs w.taskId).maxRetries c' pc ∧ R.busy t' w.chunk c' (t'.partOn s'.world.disk c') pc)
    (hfailed : p = .recording → s'.workerFailed) (hflag : s.workerFailed → s'.workerFailed) : Owned R s' := by
  have hklen := (List.getElem?_eq_some_iff.1 hk).1
  have hmem : ({ w with phase := p } : Worker WorkerPc) ∈ s'.workers := by rw [hws]; exact List.mem_set hklen _
  -- the workers of `s'`: worker `k`, and all others as they were
  have hold : ∀ (n : Nat) (v : Worker WorkerPc), s'.workers[n]? = some v →
      n = k ∧ v = { w with phase := p } ∨ n ≠ k ∧ s.workers[n]? = some v := by
    intro n v hn
    rw [hws] at hn
    exact getElem?_set_some hn
  have hkept : ∀ v ∈ s.workers, v ∈ s'.workers ∨ v = w := by
    intro v hv
    obtain ⟨n, hn⟩ := List.getElem?_of_mem hv
    by_cases hnk : k = n
    · subst hnk
      exact .inr (Option.some.inj (hn.symm.trans hk))
    · exact .inl (List.mem_of_getElem? (by rw [hws, List.getElem?_set_ne hnk, hn]))
  refine ⟨by rw [hr.ids]; exact h.ids, fun hs => hr.apart h.ids (h.apart hs), ?_, ?_, ?_, ?_⟩
  · intro u hu j d hd hfree
    by_cases hown : u.id = t.id ∧ j = w.chunk
    · obtain ⟨huid, rfl⟩ := hown
      obtain rfl : u = t' := by
        rcases hr.old h.ids hu with rfl | ⟨-, hne⟩
        exacts [rfl, absurd huid hne]
      obtain rfl : c' = d := by simpa [hr.own] using hd
      refine hidle ?_
      by_contra hact
      exact hfree _ hmem (by simpa using hact) (by rw [huid, hid]) rfl
    · refine hr.idle_other h hu hd (fun huid hj => hown ⟨huid, hj⟩) fun v hv ha hvid hvj => ?_
      rcases hkept v hv with hv | rfl
      · exact hfree v hv ha hvid hvj
      · exact hown ⟨by rw [hid, hvid], hvj.symm⟩
  · intro v hv ha
    obtain ⟨n, hn⟩ := List.getElem?_of_mem hv
    rcases hold n v hn with ⟨-, rfl⟩ | ⟨hnk, hn⟩
    · obtain ⟨pc, hat, hocc, hb⟩ := hbusy ha
      exact ⟨t', hr.mem', hr.same.1.trans hid, c', pc, hr.own, hat, hocc, hb⟩
    · refine hr.busy_other h (List.mem_of_getElem? hn) ha fun hvid hvj => hnk ?_
      exact h.alone n k v w hn hk ha hw (hvid.trans hid) hvj
  · have hactive : ∀ (n : Nat) (v : Worker WorkerPc), s'.workers[n]? = some v → v.active →
        ∃ v', s.workers[n]? = some v' ∧ v'.active ∧ v'.taskId = v.taskId ∧ v'.chunk = v.chunk := by
      intro n v hn hv
      rcases hold n v hn with ⟨rfl, rfl⟩ | ⟨-, hn⟩
      exacts [⟨w, hk, hw, rfl, rfl⟩, ⟨v, hn, hv, rfl, rfl⟩]
    intro a b v u ha hb hv hu hvu hchunk
    obtain ⟨v', ha', hv', hvid, hvc⟩ := hactive a v ha hv
    obtain ⟨u', hb', hu', huid, huc⟩ := hactive b u hb hu
    exact h.alone a b v' u' ha' hb' hv' hu' (by rw [hvid, huid, hvu]) (by rw [hvc, huc, hchunk])
  · intro v hv hrec
    obtain ⟨n, hn⟩ := List.getElem?_of_mem hv
    rcases hold n v hn with ⟨-, rfl⟩ | ⟨-, hn⟩
    · exact hfailed hrec
    · exact hflag (h.failed v (List.mem_of_getElem? hn) hrec)

/-- Workers that are not active do not matter, nor do the status and the other progress of a task. -/
theorem remap (h : Owned R s) (f : DownloadTask → DownloadTask)
    (hf : ∀ t, t.SameRequest (f t) ∧ (f t).chunks = t.chunks)
    (ht : s'.tasks = s.tasks.map f) (hw : s'.world.disk.parts = s.world.disk.parts)
    (hws : ∀ (k : Nat) (w : Worker WorkerPc), w.active → (s'.workers[k]? = some w ↔ s.workers[k]? = some w))
    (hflag : s'.workerFailed = s.workerFailed) : Owned R s' := by
  have hmem : ∀ w : Worker WorkerPc, w.active → (w ∈ s'.workers ↔ w ∈ s.workers) := by
    intro w ha
    simp only [List.mem_iff_getElem?, hws _ w ha]
  have hpart : ∀ (t : DownloadTask) (c : Chunk), (f t).partOn s'.world.disk c = t.partOn s.world.disk c :=
    fun t c => partOn_congr (hf t).1 rfl fun p _ => by rw [hw]
  refine ⟨?_, fun hs => ?_, ?_, ?_, ?_, ?_⟩
  · have hids : (fun t : DownloadTask => t.id) ∘ f = fun t => t.id := funext fun t => (hf t).1.1
    rw [ht, List.map_map, hids]
    exact h.ids
  · refine (h.apart hs).of_places fun u hu j d hd => ?_
    rw [ht] at hu
    obtain ⟨t, hmt, rfl⟩ := List.mem_map.1 hu
    exact ⟨t, hmt, (hf t).1, d, by rw [← (hf t).2, hd], rfl⟩
  · rw [ht]
    intro t hmt j c hc hfree
    obtain ⟨t, hmt', rfl⟩ := List.mem_map.1 hmt
    rw [(hf t).2] at hc
    rw [hpart]
    exact R.idle_frame (hf t).1 (fun _ => rfl)
      (h.idle t hmt' j c hc fun w hw ha hid => hfree w ((hmem w ha).2 hw) ha (by rw [hid, (hf t).1.1]))
  · intro w hw ha
    obtain ⟨t, hmt, hid, c, pc, hc, hat, hocc, hb⟩ := h.busy w ((hmem w ha).1 hw) ha
    refine ⟨f t, by rw [ht]; exact List.mem_map_of_mem hmt, by rw [(hf t).1.1, hid], c, pc, by rw [(hf t).2, hc],
      hat, hocc, ?_⟩
    rw [hpart]
    exact R.busy_frame (hf t).1 (fun _ => rfl) hb
  · exact fun j k v w hj hk hv hw => h.alone j k v w ((hws j v hv).1 hj) ((hws k w hw).1 hk) hv hw
  · intro w hw hrec
    rw [hflag]
    exact h.failed w ((hmem w (by simp [Worker.active, hrec])).1 hw) hrec

/-- A step that changes no chunk and no worker. -/
theorem same (h : Owned R s) (ht : s'.tasks = s.tasks) (hw : s'.world.disk.parts = s.world.disk.parts)
    (hws : s'.workers = s.workers) (hflag : s'.workerFailed = s.workerFailed) : Owned R s' :=
  h.remap id (fun _ => ⟨.refl, rfl⟩) (by simpa using ht) hw (fun _ _ _ => by rw [hws]) hflag

/-- A worker that is through with its chunk. -/
theorem retire {k : Nat} {w : Worker WorkerPc} {p : Phase WorkerPc} (h : Owned R s) (hk : s.workers[k]? = some w)
    (hw : w.phase = .leaving ∨ ∀ t ∈ s.tasks, t.id ≠ w.taskId) (hp : p = .leaving ∨ p = .exited)
    (ht : s'.tasks = s.tasks) (hd : s'.world = s.world) (hws : s'.workers = s.workers.set k { w with phase := p })
    (hflag : s'.workerFailed = s.workerFailed) : Owned R s' := by
  have hinactive : w.active = false := by
    rcases hw with hw | hw
    · simp [Worker.active, hw]
    · by_contra hact
      obtain ⟨t, ht, hid, -⟩ := h.busy w (List.mem_of_getElem? hk) (by simpa using hact)
      exact hw t ht hid
  have hinactive' : ({ w with phase := p } : Worker WorkerPc).active = false := by
    rcases hp with rfl | rfl <;> rfl
  refine h.remap id (fun _ => ⟨.refl, rfl⟩) (by simpa using ht) (by rw [hd]) (fun n v ha => ?_) hflag
  rw [hws]
  by_cases hn : k = n
  · subst hn
    have hv : v ≠ w := by rintro rfl; rw [ha] at hinactive; cases hinactive
    have hv' : v ≠ { w with phase := p } := by rintro rfl; rw [ha] at hinactive'; cases hinactive'
    rw [List.getElem?_set_self (List.getElem?_eq_some_iff.1 hk).1, hk]
    simp [Ne.symm hv, Ne.symm hv']
  · rw [List.getElem?_set_ne hn]

theorem sweep (h : Owned R s) (ht : s'.tasks = s.sweep.tasks) (hw : s'.world = s.sweep.world)
    (hws : s'.workers = s.workers) (hflag : s'.workerFailed = s.workerFailed) : Owned R s' := by
  obtain ⟨es, hes, -⟩ := sweep_log (s := s)
  have hparts : s'.world.disk.parts = s.world.disk.parts := by rw [hw, hes]
  rcases sweep_tasks (s := s) with hs | ⟨-, hs⟩ <;> rw [hs] at ht
  · exact h.same ht hparts hws hflag
  · refine h.remap sweepTask (fun t => ⟨?_, (sweepTask_same t).2.1⟩) ht hparts (fun _ _ _ => by rw [hws]) hflag
    unfold sweepTask
    split <;> exact ⟨rfl, rfl, rfl, rfl, rfl, rfl⟩

/-- A new worker on an idle chunk that nobody is active on. -/
theorem start {i j : Nat} {t : DownloadTask} {c : Chunk} (h : Owned R s)
    (hti : s.tasks[i]? = some t) (hc : t.chunks[j]? = some c) (hsched : c.schedulable)
    (hfree : ∀ w ∈ s.workers, w.active → w.taskId = t.id → w.chunk ≠ j)
    (ht : s'.tasks = s.tasks.set i (startedTask t j c)) (hw : s'.world.disk = s.world.disk)
    (hws : s'.workers = s.workers ++ [{ taskId := t.id, chunk := j, phase := .executing (.attempt 0) }])
    (hflag : s'.workerFailed = s.workerFailed) : Owned R s' := by
  have hr : Rewrites R s s' i j t (startedTask t j c) c { c with status := .downloading } :=
    ⟨hti, ht, ⟨rfl, rfl, rfl, rfl, rfl, rfl⟩, hc, rfl, ⟨rfl, rfl, rfl, rfl⟩, fun _ _ _ => by rw [hw]⟩
  have hold : ∀ (k : Nat) (v : Worker WorkerPc), s'.workers[k]? = some v → s.workers[k]? = some v ∨
      (k = s.workers.length ∧ v = { taskId := t.id, chunk := j, phase := .executing (.attempt 0) }) := by
    intro k v hk
    rw [hws, List.getElem?_append] at hk
    split at hk
    · exact .inl hk
    · obtain ⟨hlen, hv⟩ := List.getElem?_eq_some_iff.1 hk
      simp only [List.length_singleton] at hlen
      exact .inr ⟨by omega, by simpa using hv.symm⟩
  have hmem : ∀ v ∈ s'.workers, v ∈ s.workers ∨ v =
      { taskId := t.id, chunk := j, phase := .executing (.attempt 0) } := by
    simp [hws]
  refine ⟨by rw [hr.ids]; exact h.ids, fun hs => hr.apart h.ids (h.apart hs), ?_, ?_, ?_, ?_⟩
  · intro u hu k d hd hfree'
    refine hr.idle_other h hu hd (fun hid hk => ?_) fun v hv => hfree' v (by simp [hws, hv])
    exact hfree' { taskId := t.id, chunk := j, phase := .executing (.attempt 0) } (by simp [hws]) rfl hid.symm hk.symm
  · intro v hv ha
    rcases hmem v hv with hv | rfl
    · exact hr.busy_other h hv ha (hfree v hv ha)
    · simp only [Chunk.schedulable, Bool.and_eq_true, decide_eq_true_eq] at hsched
      refine ⟨_, hr.mem', rfl, _, .attempt 0, hr.own, .inl rfl, ⟨Nat.zero_le _, fun _ => .inl rfl⟩, ?_⟩
      have hidle := h.idle t hr.mem j c hc hfree
      refine R.busy_frame hr.same (fun _ => ?_) (R.start hidle (by rintro hst; simp [hst] at hsched) hsched.2).2
      exact partOn_congr hr.same rfl fun _ _ => by rw [hw]
  · intro a b v u ha hb hv hu hid hchunk
    rcases hold a v ha with ha | ⟨rfl, rfl⟩ <;> rcases hold b u hb with hb | ⟨rfl, rfl⟩
    · exact h.alone a b v u ha hb hv hu hid hchunk
    · exact absurd hchunk (hfree v (List.mem_of_getElem? ha) hv hid)
    · exact absurd hchunk.symm (hfree u (List.mem_of_getElem? hb) hu hid.symm)
    · rfl
  · intro v hv hrec
    rcases hmem v hv with hv | rfl
    · rw [hflag]; exact h.failed v hv hrec
    · cases hrec

/-- The task and the place of an active worker. -/
theorem busy_at (h : Owned R s) {w : Worker WorkerPc} {t : DownloadTask} (hw : w ∈ s.workers) (ha : w.active)
    (ht : t ∈ s.tasks)
    (hid : t.id = w.taskId) : ∃ c pc, t.chunks[w.chunk]? = some c ∧ w.At pc ∧ Occupies (envs w.taskId).maxRetries c pc ∧
      R.busy t w.chunk c (t.partOn s.world.disk c) pc := by
  obtain ⟨u, hu, huid, hb⟩ := h.busy w hw ha
  obtain rfl := task_unique h.ids ht hu (by rw [hid, huid])
  exact hb

/-- A step of an executor, unless the process dies in it. -/
theorem execute (h : Owned R s) {k i : Nat} {w : Worker WorkerPc} {pc : WorkerPc} {t : DownloadTask}
    (hk : s.workers[k]? = some w) (hp : w.phase = .executing pc) (hti : s.tasks[i]? = some t) (hid : t.id = w.taskId)
    (hran : (s.execute (chunkExecutor envs) k w pc i t).crashed = false) :
    Owned R (s.execute (chunkExecutor envs) k w pc i t) := by
  have hw : w.active := by simp [Worker.active, hp]
  obtain ⟨c, pc', hc, hat, hocc, hb⟩ := h.busy_at (List.mem_of_getElem? hk) hw (List.mem_of_getElem? hti) hid
  obtain rfl : pc = pc' := by
    rcases hat with hat | ⟨hat, -⟩ <;> rw [hp] at hat
    · exact Phase.executing.inj hat
    · cases hat
  have hself : ∀ s' : SchedState WorkerPc, s'.tasks = s.tasks.set i t → s'.world = s.world →
      Rewrites R s s' i w.chunk t t c c := fun s' ht hw =>
    ⟨hti, ht, .refl, hc, (set_self hc).symm, .refl, fun _ _ _ => by rw [hw]⟩
  revert hran
  unfold SchedState.execute
  rcases chunkExecutor_run envs w.taskId (e := { world := s.world, task := t }) hc pc with
    ⟨rfl, hr⟩ | ⟨x, rfl, hr⟩ | hr <;> rw [hr]
  · intro _
    exact h.advance (hself _ rfl rfl) hk hw hid rfl (fun _ => R.finish hb) (by simp [Worker.active]) (by simp) id
  · intro _
    exact h.advance (hself _ rfl rfl) hk hw hid rfl (by simp [Worker.active])
      (fun _ => ⟨_, .inr ⟨rfl, x, rfl⟩, hocc, hb⟩) (fun _ => rfl) (fun _ => rfl)
  · cases hcr : (Session.workerMove (envs w.taskId) { world := s.world, task := t } c pc).crashed with
    | true => exact fun hran => by cases hran
    | false =>
      intro _
      refine h.advance ⟨hti, rfl, stepped_same, hc, stepped_chunks, workerMove_place,
        fun _ p hp => stepped_parts hp⟩ hk hw hid
        rfl (by simp [Worker.active]) (fun _ => ⟨_, .inl rfl, workerMove_occupies hocc hcr, ?_⟩) (by simp) id
      rw [← hid] at hcr
      have hmove := R.move s.world.tick hb hcr
      rw [hid] at hmove
      exact R.busy_frame stepped_same (fun _ => stepped_part) hmove

/-- A worker puts its exception on the task. -/
theorem record (h : Owned R s) {k i : Nat} {w : Worker WorkerPc} {t : DownloadTask} (hk : s.workers[k]? = some w)
    (hp : w.phase = .recording) (hti : s.tasks[i]? = some t) (hid : t.id = w.taskId) (hfails : R.fails)
    (ht : s'.tasks = s.tasks.set i (failedTask t w.chunk)) (hd : s'.world.disk = s.world.disk)
    (hws : s'.workers = s.workers.set k { w with phase := .leaving }) (hflag : s'.workerFailed = s.workerFailed) :
    Owned R s' := by
  have hw : w.active := by simp [Worker.active, hp]
  obtain ⟨c, pc, hc, hat, -, hb⟩ := h.busy_at (List.mem_of_getElem? hk) hw (List.mem_of_getElem? hti) hid
  obtain ⟨e, rfl⟩ : ∃ e, pc = .threw e := by
    rcases hat with hat | ⟨-, hat⟩
    · rw [hp] at hat; cases hat
    · exact hat
  have hr : Rewrites R s s' i w.chunk t (failedTask t w.chunk) c { c with status := .failed } := by
    refine ⟨hti, ht, ⟨rfl, rfl, rfl, rfl, rfl, rfl⟩, hc, ?_, ⟨rfl, rfl, rfl, rfl⟩, fun _ _ _ => by rw [hd]⟩
    simp only [failedTask]
    rw [List.modify_eq_set_getElem?, hc]
    rfl
  refine h.advance hr hk hw hid hws (fun _ => ?_) (by simp [Worker.active]) (by simp) (fun h => by rwa [hflag])
  refine R.idle_frame hr.same (fun _ => ?_) (R.fail hfails hb).2
  exact partOn_congr hr.same rfl fun _ _ => by rw [hd]

/-! ## Runs -/

theorem pick_schedulable {t : DownloadTask} {j : Nat} {c : Chunk} (h : s.pick cfg t = some j)
    (hc : t.chunks[j]? = some c) : c.schedulable := by
  obtain ⟨-, d, hd, hsched⟩ := pick_spec h
  obtain rfl : c = d := by simpa [hc] using hd
  exact hsched

/-- A pass that starts no chunk in a pause starts one nobody is active on. -/
theorem free (h : Owned R s) {t : DownloadTask} {i j : Nat} {c : Chunk} (hti : s.tasks[i]? = some t)
    (hpick : s.pick cfg t = some j) (hc : t.chunks[j]? = some c)
    (hsafe : ∀ w ∈ s.workers, w.taskId = t.id → w.chunk = j → w.pausing = false) :
    ∀ w ∈ s.workers, w.active → w.taskId = t.id → w.chunk ≠ j := by
  intro w hw ha hid hj
  have hnot := hsafe w hw hid hj
  obtain ⟨d, pc, hd, hat, ⟨-, hst⟩, -⟩ := h.busy_at hw ha (List.mem_of_getElem? hti) hid.symm
  obtain rfl : c = d := by simpa [hj, hc] using hd
  have hsched := pick_schedulable hpick hc
  rcases hat with hp | ⟨hp, -⟩
  · have := hst (by simpa [Worker.pausing, hp] using hnot)
    rcases this with hs | hs <;> simp [Chunk.schedulable, hs] at hsched
  · simp [Worker.pausing, hp] at hnot

end Owned

/-- The rule holds of all tasks. -/
theorem Owned.holds {R : ChunkRule envs} (h : Owned R s) {t : DownloadTask} (ht : t ∈ s.tasks) :
    R.Holds t s.world.disk := by
  intro j c hc
  by_cases hfree : ∀ w ∈ s.workers, w.active → w.taskId = t.id → w.chunk ≠ j
  · exact .inl (h.idle t ht j c hc hfree)
  · push Not at hfree
    obtain ⟨w, hw, ha, hid, rfl⟩ := hfree
    obtain ⟨d, pc, hd, -, -, hb⟩ := h.busy_at hw ha ht hid.symm
    obtain rfl : c = d := by simpa [hc] using hd
    exact .inr ⟨pc, hb⟩

/-- Up to here the rule covers the run. -/
def ChunkRule.Covers (R : ChunkRule envs) (s : SchedState WorkerPc) : Prop :=
  s.crashed = false ∧ (s.workerFailed = true → R.fails)

/-- A step from a state the rule holds of, unless it leaves what the rule covers. -/
theorem Owned.step {R : ChunkRule envs} {choice : Choice} (h : Owned R s) (hsafe : startsNoPaused cfg s choice)
    (heff : StepEffect (chunkExecutor envs) cfg s choice s') (hcovers : R.Covers s') : Owned R s' := by
  cases heff with
  | idle ht hw hws hflag _ => exact h.same ht (by rw [hw]) hws hflag
  | retire k w p hk hthrough hp ht hw hws hflag _ => exact h.retire hk hthrough hp ht hw hws hflag
  | start i j order scheduled t c hcoord hc hti hpick hcj ht hw hws hflag _ =>
    subst hcoord
    refine h.start hti hcj (Owned.pick_schedulable hpick hcj) (h.free hti hpick hcj fun w hw hid hj => ?_) ht
      (by rw [hw]; rfl) hws hflag
    simp only [startsNoPaused, hc, hti, hpick, List.all_eq_true] at hsafe
    simpa [hid, hj] using hsafe w hw
  | execute k w pc i t _ hk hp hti hid => exact h.execute hk hp hti hid hcovers.1
  | record k w i t hk hp hti hid ht hw hws hflag _ =>
    have hfailed := h.failed w (List.mem_of_getElem? hk) hp
    exact h.record hk hp hti hid (hcovers.2 (by rwa [hflag])) ht (by rw [hw]; rfl) hws hflag
  | sweep _ _ ht hw hws hflag _ => exact h.sweep ht hw hws hflag

theorem SchedState.StepEffect.failed {L : Type} {ex : Executor L} {s s' : SchedState L} {c : Choice}
    (heff : StepEffect ex cfg s c s') (h : s.workerFailed = true) : s'.workerFailed = true := by
  cases heff with
  | execute k w l i t =>
    unfold SchedState.execute
    dsimp only
    split
    exacts [h, h, rfl, h]
  | idle _ _ _ hflag => rwa [hflag]
  | retire _ _ _ _ _ _ _ _ _ hflag => rwa [hflag]
  | start _ _ _ _ _ _ _ _ _ _ _ _ _ _ hflag => rwa [hflag]
  | record _ _ _ _ _ _ _ _ _ _ _ hflag => rwa [hflag]
  | sweep _ _ _ _ _ hflag => rwa [hflag]

/-- A crash and the failure of a worker are never undone. -/
theorem covers_step {R : ChunkRule envs} {c : Choice} (h : R.Covers (step (chunkExecutor envs) cfg s c)) :
    R.Covers s := by
  cases hcr : s.crashed with
  | true => simpa [SchedState.step, hcr] using h
  | false => exact ⟨hcr, fun hf => h.2 ((step_effect c).failed hf)⟩

/-- The rule holds at the end of a run, as far as it covers it. -/
theorem owned_run {R : ChunkRule envs} {schedule : List Choice} (h : Owned R s)
    (hsafe : GuardedRun (step (chunkExecutor envs) cfg) (fun s c => startsNoPaused cfg s c) s schedule) :
    R.Covers (runs (chunkExecutor envs) cfg s schedule) → Owned R (runs (chunkExecutor envs) cfg s schedule) :=
  GuardedRun.inv (I := fun s => R.Covers s → Owned R s)
    (fun _ c h hok hcovers => (h (covers_step hcovers)).step hok (step_effect c) hcovers) (fun _ => h) hsafe

/-! ## Tasks keep their requests -/

/-- A step of the executor leaves the session alone, or is a step of the chunk's worker. -/
theorem chunkExecutor_session (id : TaskId) (j : Nat) (pc : WorkerPc) (e : Session) :
    (((chunkExecutor envs).step id j pc).run e).2 = e ∨
      ∃ c, e.task.chunks[j]? = some c ∧ (((chunkExecutor envs).step id j pc).run e).2 = e.stepped (envs id) j c pc := by
  cases hc : e.task.chunks[j]? with
  | some c =>
    rcases chunkExecutor_run envs id hc pc with ⟨-, hr⟩ | ⟨x, -, hr⟩ | hr <;> rw [hr]
    exacts [.inl rfl, .inl rfl, .inr ⟨c, rfl, rfl⟩]
  | none =>
    left
    have hstep : ∀ pc, ((Prog.bind (stepWorker (envs id) j pc) (fun n => Pure.pure (some n))).run e).2 = e := by
      intro pc
      simp only [Prog.bind, stepWorker, hc]
      rfl
    unfold chunkExecutor
    cases pc with
    | returned => rfl
    | threw x => rfl
    | _ => exact hstep _

theorem chunkExecutor_workedOn {id : TaskId} {j : Nat} {pc : WorkerPc} {e : Session} :
    e.task.WorkedOn (((chunkExecutor envs).step id j pc).run e).2.task := by
  rcases chunkExecutor_session id j pc e with h | ⟨c, -, h⟩ <;> rw [h]
  exacts [.refl, stepped_workedOn]

theorem sweepTask_workedOn {t : DownloadTask} : t.WorkedOn (sweepTask t) := by
  unfold sweepTask
  split <;> exact ⟨_, _, _, _, _, rfl⟩

theorem chunkExecutor_length {id : TaskId} {j : Nat} {pc : WorkerPc} {e : Session} :
    (((chunkExecutor envs).step id j pc).run e).2.task.chunks.length = e.task.chunks.length := by
  rcases chunkExecutor_session id j pc e with h | ⟨c, -, h⟩ <;> rw [h]
  rw [stepped_chunks, List.length_set]

/-- After a step, each task is one of before with other progress. -/
theorem step_records {choice : Choice} (heff : StepEffect (chunkExecutor envs) cfg s choice s') :
    s'.tasks.map (·.id) = s.tasks.map (·.id) ∧ ∀ u ∈ s'.tasks, ∃ t ∈ s.tasks, t.WorkedOn u := by
  have hset : ∀ (i : Nat) (t t' : DownloadTask), s.tasks[i]? = some t → t.WorkedOn t' →
      (s.tasks.set i t').map (·.id) = s.tasks.map (·.id) ∧ ∀ u ∈ s.tasks.set i t', ∃ t ∈ s.tasks, t.WorkedOn u := by
    intro i t t' hti hsame
    refine ⟨map_set_eq hti hsame.request.1, fun u hu => ?_⟩
    rcases List.mem_or_eq_of_mem_set hu with hu | rfl
    exacts [⟨u, hu, .refl⟩, ⟨t, List.mem_of_getElem? hti, hsame⟩]
  have hself : s'.tasks = s.tasks → s'.tasks.map (·.id) = s.tasks.map (·.id) ∧
      ∀ u ∈ s'.tasks, ∃ t ∈ s.tasks, t.WorkedOn u :=
    fun ht => by rw [ht]; exact ⟨rfl, fun u hu => ⟨u, hu, .refl⟩⟩
  cases heff with
  | idle ht => exact hself ht
  | retire _ _ _ _ _ _ ht => exact hself ht
  | start i j order scheduled t c _ _ hti _ _ ht =>
    rw [ht]
    exact hset i t _ hti ⟨_, _, _, _, _, rfl⟩
  | execute k w l i t _ hk _ hti _ =>
    rw [(execute_spec _ hk).1]
    exact hset i t _ hti chunkExecutor_workedOn
  | record k w i t _ _ hti _ ht =>
    rw [ht]
    exact hset i t _ hti ⟨_, _, _, _, _, rfl⟩
  | sweep _ _ ht =>
    rcases sweep_tasks (s := s) with hs | ⟨-, hs⟩ <;> rw [hs] at ht
    · exact hself ht
    · rw [ht]
      have hid : (fun t : DownloadTask => t.id) ∘ sweepTask = fun t => t.id := funext fun t => (sweepTask_same t).1
      refine ⟨by rw [List.map_map, hid], fun u hu => ?_⟩
      obtain ⟨t, ht, rfl⟩ := List.mem_map.1 hu
      exact ⟨t, ht, sweepTask_workedOn⟩

theorem run_records (schedule : List Choice) :
    (runs (chunkExecutor envs) cfg s schedule).tasks.map (·.id) = s.tasks.map (·.id) ∧
      ∀ u ∈ (runs (chunkExecutor envs) cfg s schedule).tasks, ∃ t ∈ s.tasks, t.WorkedOn u := by
  refine run_inv (I := fun s₁ : SchedState WorkerPc => s₁.tasks.map (·.id) = s.tasks.map (·.id) ∧
    ∀ u ∈ s₁.tasks, ∃ t ∈ s.tasks, t.WorkedOn u) (fun s₁ c h => ?_) ⟨rfl, fun u hu => ⟨u, hu, .refl⟩⟩
  have heff : StepEffect (chunkExecutor envs) cfg s₁ c (step (chunkExecutor envs) cfg s₁ c) := step_effect c
  obtain ⟨hids, hreq⟩ := step_records heff
  refine ⟨hids.trans h.1, fun u hu => ?_⟩
  obtain ⟨t, ht, htu⟩ := hreq u hu
  obtain ⟨t₀, ht₀, htt⟩ := h.2 t ht
  exact ⟨t₀, ht₀, htt.trans htu⟩

end Cget
