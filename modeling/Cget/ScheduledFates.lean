import Cget.Fate
import Cget.Settlement
/-!
# The scheduler and the fates of its chunks

In a run of the scheduler that starts no chunk twice and in which no file operation fails,
each chunk is as it was, on the way to its fate, or there. So what the run makes of the
chunks it starts depends on the chunks, their part files and the server alone.
-/

namespace Cget

open SchedState

variable {env : Env} {envs : TaskId → Env} {cfg : SchedulerConfig} {d₀ : Disk} {t₀ t t' : DownloadTask}
  {c₀ c c' : Chunk} {prepared : List DownloadTask} {s s' : SchedState WorkerPc}

/-- What becomes of the chunk `c` of `t` if a thread is started on it. -/
def chunkFate (env : Env) (t : DownloadTask) (d : Disk) (c : Chunk) : Fate :=
  attemptFate env t.url (chunkPath t c) c env.maxRetries 0 (t.partOn d c) c.retryCount

theorem onTrack_start (hplace : c.SamePlace c') (hretries : c'.retryCount = c.retryCount) :
    OnTrack env t.url (chunkPath t c) c (chunkFate env t d₀ c) c' (t.partOn d₀ c) (.attempt 0) := by
  refine ⟨hplace, ?_, Nat.zero_le _, fun h => by cases h⟩
  rw [hretries, chunkFate, fateAt]
  exact (attemptFate_eq (n := 0) _ _).symm

/-- A step of a thread on its track, in a session in which no operation fails. -/
theorem OnTrack.step {f : Fate} {part : Option Bytes} {pc : WorkerPc} {n : Nat} (hf : env.Smooth)
    (hsame : t₀.SameRequest t) (h : OnTrack env t₀.url (chunkPath t₀ c₀) c₀ f c part pc) :
    OnTrack env t₀.url (chunkPath t₀ c₀) c₀ f (t.move env n c part pc).chunk
      ((t.move env n c part pc).file (chunkPath t c) part)
        (t.move env n c part pc).next ∧ (t.move env n c part pc).crashed = false := by
  have hpath : chunkPath t c = chunkPath t₀ c₀ := chunkPath_congr hsame h.place.2.2.2
  unfold DownloadTask.move
  rw [hpath, hsame.2.1, (hf n).1, (hf n).2]
  exact ⟨h.move, workerMove_ran⟩

/-- A chunk whose thread came to `f`, or failed on the way. -/
def Arrived (f : Fate) (failed : Bool) (c : Chunk) (part : Option Bytes) : Prop :=
  f.error = none ∧ part = f.part ∧ c.retryCount = f.retries ∧ Filled c part ∨ f.error.isSome ∧
  c.status = .failed ∧ failed

/-- Where the chunk `c` of a worker in some phase is on its way to `f`. -/
def OnWay (env : Env) (t₀ : DownloadTask) (c₀ : Chunk) (f : Fate) (failed : Bool) (c : Chunk) (part : Option Bytes) :
    Phase WorkerPc → Prop
  | .executing pc => OnTrack env t₀.url (chunkPath t₀ c₀) c₀ f c part pc
  | .recording => f.error.isSome ∧ failed
  | .leaving | .exited => Arrived f failed c part

/-- The chunk `j` of a task, which was `c₀` when the scheduler began. -/
structure FatedChunk (envs : TaskId → Env) (d₀ : Disk) (t₀ : DownloadTask) (s : SchedState WorkerPc)
    (t : DownloadTask) (j : Nat) (c₀ c : Chunk) : Prop where
  place : c₀.SamePlace c
  fresh : (∀ w ∈ s.workers, w.place ≠ (t.id, j)) → c = c₀ ∧ t.partOn s.world.disk c = t₀.partOn d₀ c₀
  taken : ∀ w ∈ s.workers, w.place = (t.id, j) → isSchedulableStatus t₀.status ∧ c₀.schedulable ∧
    OnWay (envs t₀.id) t₀ c₀ (chunkFate (envs t₀.id) t₀ d₀ c₀) s.workerFailed c (t.partOn s.world.disk c) w.phase

/-- A task that was `t₀` when the scheduler began. -/
structure FatedTask (envs : TaskId → Env) (d₀ : Disk) (s : SchedState WorkerPc) (t₀ t : DownloadTask) : Prop where
  same : t₀.SameRequest t
  length : t.chunks.length = t₀.chunks.length
  chunk : ∀ (j : Nat) (c₀ c : Chunk), t₀.chunks[j]? = some c₀ → t.chunks[j]? = some c → FatedChunk envs d₀ t₀ s t j c₀ c
  untouched : (∀ w ∈ s.workers, w.taskId ≠ t.id) → t = t₀ ∨ s.workerFailed ∧ t = sweepTask t₀
  status : (∃ w ∈ s.workers, w.taskId = t.id) →
    t.status = .downloading ∨ t.status = .retrying ∨ t.status = .failed ∧ s.workerFailed

/-- The task and the chunk at a place when the scheduler began. -/
def FoundAt (prepared : List DownloadTask) (place : TaskId × Nat) (t₀ : DownloadTask) (c₀ : Chunk) : Prop :=
  t₀ ∈ prepared ∧ t₀.id = place.1 ∧ t₀.chunks[place.2]? = some c₀

/-- No chunk has been started twice, and all are on their way. -/
structure Fated (envs : TaskId → Env) (d₀ : Disk) (prepared : List DownloadTask) (s : SchedState WorkerPc) : Prop where
  apart : PartsApart s.tasks
  once : (s.workers.map (·.place)).Nodup
  home : ∀ w ∈ s.workers, ∃ t₀ c₀, FoundAt prepared w.place t₀ c₀
  length : s.tasks.length = prepared.length
  task : ∀ (i : Nat) (t₀ t : DownloadTask), prepared[i]? = some t₀ → s.tasks[i]? = some t → FatedTask envs d₀ s t₀ t
  failed : s.workerFailed → ∃ w ∈ s.workers, ∃ t₀ c₀, FoundAt prepared w.place t₀ c₀ ∧
    (chunkFate (envs t₀.id) t₀ d₀ c₀).error.isSome

/-- The step starts no chunk that has been started before. -/
def startsUnstarted (cfg : SchedulerConfig) (s : SchedState WorkerPc) (c : Choice) : Bool :=
  match c, s.coordinator with
  | .coordinator, .visiting (i :: _) _ =>
    match s.tasks[i]? with
    | none => true
    | some t =>
      match s.pick cfg t with
      | none => true
      | some j => s.workers.all (fun w => w.place ≠ (t.id, j))
  | _, _ => true

/-! ## Steps -/

section Steps

/-- A rule that only asks for the part files to be left alone. -/
def leaveParts (envs : TaskId → Env) : ChunkRule envs where
  sees := True
  fails := True
  idle _ _ _ _ := True
  busy _ _ _ _ _ := True
  idle_frame _ _ _ := trivial
  busy_frame _ _ _ := trivial
  start _ _ _ := ⟨trivial, trivial⟩
  move _ _ _ := trivial
  finish _ := trivial
  fail _ _ _ _ _ _ _ := ⟨trivial, trivial⟩

theorem OnWay.mono {f : Fate} {failed failed' : Bool} {part : Option Bytes} {p : Phase WorkerPc}
    (h : OnWay env t₀ c₀ f failed c part p) (hflag : failed → failed') : OnWay env t₀ c₀ f failed' c part p := by
  cases p with
  | executing pc => exact h
  | recording => exact ⟨h.1, hflag h.2⟩
  | leaving => exact h.imp id fun ⟨he, hst, hfailed⟩ => ⟨he, hst, hflag hfailed⟩
  | exited => exact h.imp id fun ⟨he, hst, hfailed⟩ => ⟨he, hst, hflag hfailed⟩

theorem Fated.ids (h : Fated envs d₀ prepared s) : s.tasks.map (·.id) = prepared.map (·.id) := by
  refine List.ext_getElem? fun i => ?_
  rw [List.getElem?_map, List.getElem?_map]
  by_cases hi : i < s.tasks.length
  · have ht := List.getElem?_eq_getElem hi
    have ht₀ := List.getElem?_eq_getElem (h.length ▸ hi)
    rw [ht, ht₀, Option.map_some, Option.map_some, (h.task i _ _ ht₀ ht).same.1]
  · rw [List.getElem?_eq_none (by omega), List.getElem?_eq_none (by rw [← h.length]; omega)]

/-- A chunk that the step does not touch. -/
theorem FatedChunk.other {j : Nat} (h : FatedChunk envs d₀ t₀ s t j c₀ c) (hid : t'.id = t.id)
    (hpart : t'.partOn s'.world.disk c = t.partOn s.world.disk c)
    (hback : ∀ w ∈ s'.workers, w.place = (t.id, j) → w ∈ s.workers)
    (hkept : ∀ w ∈ s.workers, w.place = (t.id, j) → ∃ v ∈ s'.workers, v.place = (t.id, j))
    (hflag : s.workerFailed → s'.workerFailed) : FatedChunk envs d₀ t₀ s' t' j c₀ c := by
  refine ⟨h.place, fun hfree => ?_, fun w hw hplace => ?_⟩
  · rw [hpart]
    refine h.fresh fun w hw hplace => ?_
    obtain ⟨v, hv, hvplace⟩ := hkept w hw hplace
    exact hfree v hv (hid ▸ hvplace)
  · rw [hid] at hplace
    rw [hpart]
    obtain ⟨hst, hsched, hway⟩ := h.taken w (hback w hw hplace) hplace
    exact ⟨hst, hsched, hway.mono hflag⟩

/-- The place of a worker is its task and its chunk. -/
theorem place_eq {w : Worker WorkerPc} {id : TaskId} {j : Nat} : w.place = (id, j) ↔ w.taskId = id ∧ w.chunk = j := by
  simp [Worker.place]

/-- Worker `k` makes a step on its chunk. -/
theorem Fated.advance (h : Fated envs d₀ prepared s) (hids : (prepared.map (·.id)).Nodup) {i k : Nat}
    {w : Worker WorkerPc}
    {p : Phase WorkerPc} (hr : Rewrites (leaveParts envs) s s' i w.chunk t t' c c') (hk : s.workers[k]? = some w)
    (hid : t.id = w.taskId) (hws : s'.workers = s.workers.set k { w with phase := p })
    (hway : ∀ t₀ c₀, t₀.SameRequest t → c₀.SamePlace c →
      OnWay (envs t₀.id) t₀ c₀ (chunkFate (envs t₀.id) t₀ d₀ c₀) s.workerFailed c (t.partOn s.world.disk c) w.phase →
      OnWay (envs t₀.id) t₀ c₀ (chunkFate (envs t₀.id) t₀ d₀ c₀) s'.workerFailed c' (t'.partOn s'.world.disk c') p)
    (hstatus : t'.status = t.status ∨ t'.status = .downloading ∨ t'.status = .retrying ∨ t'.status = .failed ∧
      s'.workerFailed)
    (hflag : s.workerFailed → s'.workerFailed)
    (hfailed : s'.workerFailed → s.workerFailed ∨ ∀ t₀ c₀, t₀.SameRequest t → c₀.SamePlace c →
      OnWay (envs t₀.id) t₀ c₀ (chunkFate (envs t₀.id) t₀ d₀ c₀) s.workerFailed c (t.partOn s.world.disk c) w.phase →
      (chunkFate (envs t₀.id) t₀ d₀ c₀).error.isSome) : Fated envs d₀ prepared s' := by
  have hnodup : (s.tasks.map (·.id)).Nodup := h.ids ▸ hids
  have hklen := (List.getElem?_eq_some_iff.1 hk).1
  have hmem : w ∈ s.workers := List.mem_of_getElem? hk
  have hplaces : s'.workers.map (·.place) = s.workers.map (·.place) := by
    rw [hws, map_set_eq (b := { w with phase := p }) hk rfl]
  -- the workers of `s'` are those of `s`, but for the phase of `w`
  have hback : ∀ v ∈ s'.workers, v = { w with phase := p } ∨ v ∈ s.workers ∧ v.place ≠ w.place := by
    intro v hv
    obtain ⟨n, hn⟩ := List.getElem?_of_mem hv
    rw [hws] at hn
    rcases getElem?_set_some hn with ⟨-, rfl⟩ | ⟨hne, hn⟩
    · exact .inl rfl
    · exact .inr ⟨List.mem_of_getElem? hn, fun hp => hne (index_unique h.once hn hk hp)⟩
  have hforth : ∀ v ∈ s.workers, ∃ u ∈ s'.workers, u.place = v.place := by
    intro v hv
    have hin : v.place ∈ s'.workers.map (·.place) := hplaces ▸ List.mem_map_of_mem hv
    exact List.mem_map.1 hin
  have hfrom : ∀ v ∈ s'.workers, ∃ u ∈ s.workers, u.place = v.place := by
    intro v hv
    have hin : v.place ∈ s.workers.map (·.place) := hplaces ▸ List.mem_map_of_mem hv
    exact List.mem_map.1 hin
  have hwp : w.place = (t.id, w.chunk) := place_eq.2 ⟨hid.symm, rfl⟩
  have hmem' : ({ w with phase := p } : Worker WorkerPc) ∈ s'.workers := by rw [hws]; exact List.mem_set hklen _
  obtain ⟨t₀, hi₀⟩ : ∃ t₀, prepared[i]? = some t₀ :=
    ⟨_, List.getElem?_eq_getElem (h.length ▸ (List.getElem?_eq_some_iff.1 hr.task).1)⟩
  have ht := h.task i t₀ t hi₀ hr.task
  obtain ⟨c₀, hc₀⟩ : ∃ c₀, t₀.chunks[w.chunk]? = some c₀ :=
    ⟨_, List.getElem?_eq_getElem (ht.length ▸ (List.getElem?_eq_some_iff.1 hr.chunk).1)⟩
  have hown := ht.chunk _ _ _ hc₀ hr.chunk
  obtain ⟨hst₀, hsched, hwas⟩ := hown.taken w hmem hwp
  -- a chunk other than that of `w`
  have hother : ∀ (u₀ u u' : DownloadTask) (j : Nat) (d₀' d : Chunk), FatedChunk envs d₀ u₀ s u j d₀' d → u ∈ s.tasks →
      u.chunks[j]? = some d → (u.id = t.id → j ≠ w.chunk) → u.SameRequest u' → FatedChunk envs d₀ u₀ s' u' j d₀' d := by
    intro u₀ u u' j d₀' d hd hu hj hne hsame
    refine hd.other hsame.1 ?_ (fun v hv hplace => ?_) (fun v hv hplace => ?_) hflag
    · rw [← hr.partOn_other h.apart trivial hu hj hne]
      exact partOn_congr hsame rfl fun _ _ => rfl
    · rcases hback v hv with rfl | ⟨hv, -⟩
      · rw [place_eq] at hplace
        exact absurd hplace.2.symm (hne (hplace.1.symm.trans hid.symm))
      · exact hv
    · obtain ⟨x, hx, hxv⟩ := hforth v hv
      exact ⟨x, hx, hxv.trans hplace⟩
  refine ⟨hr.apart hnodup h.apart, hplaces ▸ h.once, fun v hv => ?_, ?_, fun i' u₀ u hu₀ hu => ?_, fun hf => ?_⟩
  · obtain ⟨x, hx, hxv⟩ := hfrom v hv
    exact hxv ▸ h.home x hx
  · rw [hr.tasks, List.length_set, h.length]
  · rw [hr.tasks] at hu
    rcases getElem?_set_some hu with ⟨rfl, rfl⟩ | ⟨hne, hu⟩
    · obtain rfl := Option.some.inj (hi₀.symm.trans hu₀)
      refine ⟨ht.same.trans hr.same, ?_, fun j d₀' d hd₀ hd => ?_, fun hfree => ?_, fun hw => ?_⟩
      · rw [hr.chunks, List.length_set, ht.length]
      · rw [hr.chunks] at hd
        rcases getElem?_set_some hd with ⟨rfl, rfl⟩ | ⟨hj, hd⟩
        · obtain rfl := Option.some.inj (hc₀.symm.trans hd₀)
          refine ⟨hown.place.trans hr.place, fun hfree => ?_, fun v hv hplace => ?_⟩
          · exact absurd (hwp.trans (by rw [hr.same.1])) (hfree { w with phase := p } hmem')
          · rcases hback v hv with rfl | ⟨-, hvw⟩
            · exact ⟨hst₀, hsched, hway t₀ c₀ ht.same hown.place hwas⟩
            · exact absurd (hplace.trans (by rw [hwp, hr.same.1])) hvw
        · exact hother t₀ t _ j d₀' d (ht.chunk j d₀' d hd₀ hd) hr.mem hd (fun _ => hj) hr.same
      · exact absurd (hid.symm.trans hr.same.1.symm) (hfree { w with phase := p } hmem')
      · have hwas := ht.status ⟨w, hmem, hid.symm⟩
        rcases hstatus with hs | hs
        · rw [hs]
          exact hwas.imp id (.imp id fun hf => ⟨hf.1, hflag hf.2⟩)
        · exact hs
    · have hu' := h.task i' u₀ u hu₀ hu
      have hmem'' : u ∈ s.tasks := List.mem_of_getElem? hu
      have hut : u.id ≠ t.id := fun huid => hne (index_unique hnodup hu hr.task huid)
      refine ⟨hu'.same, hu'.length, fun j d₀' d hd₀ hd => ?_, fun hfree => ?_, fun hw => ?_⟩
      · exact hother u₀ u u j d₀' d (hu'.chunk j d₀' d hd₀ hd) hmem'' hd (fun huid => absurd huid hut) .refl
      · refine (hu'.untouched fun v hv hvid => ?_).imp id fun hf => ⟨hflag hf.1, hf.2⟩
        obtain ⟨x, hx, hxv⟩ := hforth v hv
        exact hfree x hx ((Prod.mk.inj hxv).1.trans hvid)
      · obtain ⟨v, hv, hvid⟩ := hw
        obtain ⟨x, hx, hxv⟩ := hfrom v hv
        exact (hu'.status ⟨x, hx, (Prod.mk.inj hxv).1.trans hvid⟩).imp id (.imp id fun hf => ⟨hf.1, hflag hf.2⟩)
  · rcases hfailed hf with hf | hfails
    · obtain ⟨v, hv, hfound⟩ := h.failed hf
      obtain ⟨x, hx, hxv⟩ := hforth v hv
      exact ⟨x, hx, hxv ▸ hfound⟩
    · refine ⟨_, hmem', t₀, c₀, ⟨List.mem_of_getElem? hi₀, ?_, hc₀⟩, hfails t₀ c₀ ht.same hown.place hwas⟩
      exact ht.same.1.symm.trans hid

theorem sweepTask_status (t : DownloadTask) :
    (sweepTask t).status = if t.status = .downloading then .failed else t.status := by
  unfold sweepTask
  split
  · rfl
  · rfl

/-- The task, the chunk and the way of a worker. -/
theorem Fated.worker (h : Fated envs d₀ prepared s) (hids : (prepared.map (·.id)).Nodup) {w : Worker WorkerPc} {i : Nat}
    (hw : w ∈ s.workers) (hti : s.tasks[i]? = some t) (hid : t.id = w.taskId) :
    ∃ t₀ c₀ c, prepared[i]? = some t₀ ∧ t₀.chunks[w.chunk]? = some c₀ ∧ t.chunks[w.chunk]? = some c ∧
      FatedTask envs d₀ s t₀ t ∧ FatedChunk envs d₀ t₀ s t w.chunk c₀ c := by
  obtain ⟨t₀, c₀, ht₀, hid₀, hc₀⟩ := h.home w hw
  obtain ⟨i', hi'⟩ := List.getElem?_of_mem ht₀
  obtain ⟨u₀, hi₀⟩ : ∃ u₀, prepared[i]? = some u₀ :=
    ⟨_, List.getElem?_eq_getElem (h.length ▸ (List.getElem?_eq_some_iff.1 hti).1)⟩
  have ht := h.task i u₀ t hi₀ hti
  have hsame : t₀.id = u₀.id := hid₀.trans (hid.symm.trans ht.same.1)
  obtain rfl := index_unique hids hi' hi₀ hsame
  obtain rfl := Option.some.inj (hi'.symm.trans hi₀)
  obtain ⟨c, hc⟩ : ∃ c, t.chunks[w.chunk]? = some c :=
    ⟨_, List.getElem?_eq_getElem (ht.length ▸ (List.getElem?_eq_some_iff.1 hc₀).1)⟩
  exact ⟨t₀, c₀, c, hi₀, hc₀, hc, ht, ht.chunk _ _ _ hc₀ hc⟩

/-- A task that can be scheduled could be when the scheduler began. -/
theorem Fated.schedulable (h : Fated envs d₀ prepared s) (hids : (prepared.map (·.id)).Nodup) {i : Nat}
    (hti : s.tasks[i]? = some t) (hi₀ : prepared[i]? = some t₀) (hst : isSchedulableStatus t.status) :
    isSchedulableStatus t₀.status := by
  by_cases hw : ∃ w ∈ s.workers, w.taskId = t.id
  · obtain ⟨w, hw, hid⟩ := hw
    obtain ⟨u₀, c₀, c, hu₀, -, -, -, hc⟩ := h.worker hids hw hti hid.symm
    obtain rfl := Option.some.inj (hi₀.symm.trans hu₀)
    exact (hc.taken w hw (place_eq.2 ⟨hid, rfl⟩)).1
  · push Not at hw
    rcases (h.task i t₀ t hi₀ hti).untouched hw with rfl | ⟨-, rfl⟩
    · exact hst
    · rw [sweepTask_status] at hst
      split at hst
      · rename_i hdown
        rw [hdown]
        rfl
      · exact hst

/-- A worker is started on a chunk that had none. -/
theorem Fated.start (h : Fated envs d₀ prepared s) (hids : (prepared.map (·.id)).Nodup) {i j : Nat}
    (hti : s.tasks[i]? = some t) (hc : t.chunks[j]? = some c) (hst : isSchedulableStatus t.status)
    (hsched : c.schedulable)
    (hfree : ∀ w ∈ s.workers, w.place ≠ (t.id, j)) (ht : s'.tasks = s.tasks.set i (startedTask t j c))
    (hw : s'.world.disk = s.world.disk)
    (hws : s'.workers = s.workers ++ [{ taskId := t.id, chunk := j, phase := .executing (.attempt 0) }])
    (hflag : s'.workerFailed = s.workerFailed) : Fated envs d₀ prepared s' := by
  have hnodup : (s.tasks.map (·.id)).Nodup := h.ids ▸ hids
  have hr : Rewrites (leaveParts envs) s s' i j t (startedTask t j c) c { c with status := .downloading } :=
    ⟨hti, ht, ⟨rfl, rfl, rfl, rfl, rfl, rfl⟩, hc, rfl, ⟨rfl, rfl, rfl, rfl⟩, fun _ _ _ => by rw [hw]⟩
  obtain ⟨t₀, hi₀⟩ : ∃ t₀, prepared[i]? = some t₀ :=
    ⟨_, List.getElem?_eq_getElem (h.length ▸ (List.getElem?_eq_some_iff.1 hti).1)⟩
  have hfated := h.task i t₀ t hi₀ hti
  obtain ⟨c₀, hc₀⟩ : ∃ c₀, t₀.chunks[j]? = some c₀ :=
    ⟨_, List.getElem?_eq_getElem (hfated.length ▸ (List.getElem?_eq_some_iff.1 hc).1)⟩
  have hown := hfated.chunk _ _ _ hc₀ hc
  -- the chunk is as it was
  obtain ⟨rfl, hpart⟩ := hown.fresh hfree
  have hstarted : ∀ v ∈ s'.workers, v ∈ s.workers ∨ v =
      { taskId := t.id, chunk := j, phase := .executing (.attempt 0) } := by
    simp [hws]
  have hkept : ∀ v ∈ s.workers, v ∈ s'.workers := fun v hv => by simp [hws, hv]
  have hnew : ({ taskId := t.id, chunk := j, phase := .executing (.attempt 0) } : Worker WorkerPc) ∈ s'.workers :=
    by simp [hws]
  have hmono : s.workerFailed → s'.workerFailed := fun hf => hflag ▸ hf
  -- another chunk
  have hother : ∀ (u₀ u u' : DownloadTask) (k : Nat) (d₀' d : Chunk), FatedChunk envs d₀ u₀ s u k d₀' d → u ∈ s.tasks →
      u.chunks[k]? = some d → (u.id = t.id → k ≠ j) → u.SameRequest u' → FatedChunk envs d₀ u₀ s' u' k d₀' d := by
    intro u₀ u u' k d₀' d hd hu hk hne hsame
    refine hd.other hsame.1 ?_ (fun v hv hplace => ?_) (fun v hv hplace => ⟨v, hkept v hv, hplace⟩) hmono
    · rw [← hr.partOn_other h.apart trivial hu hk hne]
      exact partOn_congr hsame rfl fun _ _ => rfl
    · rcases hstarted v hv with hv | rfl
      · exact hv
      · rw [place_eq] at hplace
        exact absurd hplace.2.symm (hne hplace.1.symm)
  refine ⟨hr.apart hnodup h.apart, ?_, fun v hv => ?_, ?_, fun i' u₀ u hu₀ hu => ?_, fun hf => ?_⟩
  · rw [hws, List.map_append, List.map_singleton, List.nodup_append]
    refine ⟨h.once, List.nodup_singleton _, fun x hx y hy => ?_⟩
    obtain ⟨v, hv, rfl⟩ := List.mem_map.1 hx
    rw [List.mem_singleton.1 hy]
    exact hfree v hv
  · rcases hstarted v hv with hv | rfl
    · exact h.home v hv
    · exact ⟨t₀, c, List.mem_of_getElem? hi₀, hfated.same.1.symm, hc₀⟩
  · rw [ht, List.length_set, h.length]
  · rw [ht] at hu
    rcases getElem?_set_some hu with ⟨rfl, rfl⟩ | ⟨hne, hu⟩
    · obtain rfl := Option.some.inj (hi₀.symm.trans hu₀)
      refine ⟨hfated.same.trans hr.same, ?_, fun k d₀' d hd₀ hd => ?_, fun hnone => ?_, fun _ => .inl rfl⟩
      · rw [hr.chunks, List.length_set, hfated.length]
      · rw [hr.chunks] at hd
        rcases getElem?_set_some hd with ⟨rfl, rfl⟩ | ⟨hk, hd⟩
        · obtain rfl := Option.some.inj (hc₀.symm.trans hd₀)
          refine ⟨hr.place, fun hnone => absurd rfl (hnone _ hnew), fun v hv hplace => ?_⟩
          rcases hstarted v hv with hv | rfl
          · exact absurd hplace (hfree v hv)
          · refine ⟨h.schedulable hids hti hi₀ hst, hsched, ?_⟩
            have hnow : (startedTask t k c).partOn s'.world.disk { c with status := .downloading } =
                t₀.partOn d₀ c := by
              rw [← hpart]
              exact partOn_congr hr.same rfl fun _ _ => by rw [hw]
            rw [hnow]
            exact onTrack_start hr.place rfl
        · exact hother t₀ t _ k d₀' d (hfated.chunk k d₀' d hd₀ hd) hr.mem hd (fun _ => hk) hr.same
      · exact absurd rfl (hnone _ hnew)
    · have hu' := h.task i' u₀ u hu₀ hu
      have hut : u.id ≠ t.id := fun huid => hne (index_unique hnodup hu hti huid)
      refine ⟨hu'.same, hu'.length, fun k d₀' d hd₀ hd => ?_, fun hnone => ?_, fun hx => ?_⟩
      · exact hother u₀ u u k d₀' d (hu'.chunk k d₀' d hd₀ hd) (List.mem_of_getElem? hu) hd
          (fun huid => absurd huid hut) .refl
      · exact (hu'.untouched fun v hv => hnone v (hkept v hv)).imp id fun hf => ⟨hmono hf.1, hf.2⟩
      · obtain ⟨v, hv, hvid⟩ := hx
        rcases hstarted v hv with hv | rfl
        · exact (hu'.status ⟨v, hv, hvid⟩).imp id (.imp id fun hf => ⟨hf.1, hmono hf.2⟩)
        · exact absurd hvid.symm hut
  · obtain ⟨v, hv, hfound⟩ := h.failed (hflag ▸ hf)
    exact ⟨v, hkept v hv, hfound⟩

/-- A step that changes no chunk and no worker. -/
theorem Fated.remap (h : Fated envs d₀ prepared s) (f : DownloadTask → DownloadTask)
    (hf : ∀ t, t.SameRequest (f t) ∧ (f t).chunks = t.chunks)
    (huntouched : ∀ t₀ t, t = t₀ ∨ s.workerFailed ∧ t = sweepTask t₀ → f t = t₀ ∨ s.workerFailed ∧ f t = sweepTask t₀)
    (hstatus : ∀ t, t.status = .downloading ∨ t.status = .retrying ∨ t.status = .failed ∧ s.workerFailed →
      (f t).status = .downloading ∨ (f t).status = .retrying ∨ (f t).status = .failed ∧ s.workerFailed)
    (ht : s'.tasks = s.tasks.map f) (hw : s'.world.disk.parts = s.world.disk.parts) (hws : s'.workers = s.workers)
    (hflag : s'.workerFailed = s.workerFailed) : Fated envs d₀ prepared s' := by
  have hpart : ∀ (t : DownloadTask) (c : Chunk), (f t).partOn s'.world.disk c = t.partOn s.world.disk c :=
    fun t c => partOn_congr (hf t).1 rfl fun p _ => by rw [hw]
  refine ⟨?_, hws ▸ h.once, fun v hv => h.home v (hws ▸ hv), ?_, fun i t₀ t ht₀ hti => ?_, fun hfailed => ?_⟩
  · refine h.apart.of_places fun u hu j d hd => ?_
    rw [ht] at hu
    obtain ⟨t, hmt, rfl⟩ := List.mem_map.1 hu
    exact ⟨t, hmt, (hf t).1, d, by rw [← (hf t).2, hd], rfl⟩
  · rw [ht, List.length_map, h.length]
  · rw [ht, List.getElem?_map, Option.map_eq_some_iff] at hti
    obtain ⟨u, hu, rfl⟩ := hti
    have hu' := h.task i t₀ u ht₀ hu
    refine ⟨hu'.same.trans (hf u).1, ?_, fun j c₀ c hc₀ hc => ?_, fun hnone => ?_, fun hx => ?_⟩
    · rw [(hf u).2, hu'.length]
    · rw [(hf u).2] at hc
      refine (hu'.chunk j c₀ c hc₀ hc).other (hf u).1.1 (hpart u c) (fun v hv _ => hws ▸ hv) (fun v hv hplace => ?_)
        fun hfailed => hflag ▸ hfailed
      exact ⟨v, hws.symm ▸ hv, hplace⟩
    · rw [hflag]
      exact huntouched t₀ u (hu'.untouched fun v hv hid => hnone v (hws.symm ▸ hv) (hid.trans (hf u).1.1.symm))
    · rw [hflag]
      obtain ⟨v, hv, hid⟩ := hx
      exact hstatus u (hu'.status ⟨v, hws ▸ hv, hid.trans (hf u).1.1⟩)
  · obtain ⟨v, hv, hfound⟩ := h.failed (hflag ▸ hfailed)
    exact ⟨v, hws.symm ▸ hv, hfound⟩

theorem Fated.same (h : Fated envs d₀ prepared s) (ht : s'.tasks = s.tasks) (hw : s'.world = s.world)
    (hws : s'.workers = s.workers) (hflag : s'.workerFailed = s.workerFailed) : Fated envs d₀ prepared s' :=
  h.remap id (fun _ => ⟨.refl, rfl⟩) (fun _ _ => id) (fun _ => id) (by simpa using ht) (by rw [hw]) hws hflag

theorem Fated.sweep (h : Fated envs d₀ prepared s) (ht : s'.tasks = s.sweep.tasks) (hw : s'.world = s.sweep.world)
    (hws : s'.workers = s.workers) (hflag : s'.workerFailed = s.workerFailed) : Fated envs d₀ prepared s' := by
  obtain ⟨es, hes, -⟩ := sweep_log (s := s)
  have hparts : s'.world.disk.parts = s.world.disk.parts := by rw [hw, hes]
  rcases sweep_tasks (s := s) with hs | ⟨hfailed, hs⟩ <;> rw [hs] at ht
  · exact h.remap id (fun _ => ⟨.refl, rfl⟩) (fun _ _ => id) (fun _ => id) (by simpa using ht) hparts hws hflag
  · have hsame : ∀ t : DownloadTask, t.SameRequest (sweepTask t) := by
      intro t
      unfold sweepTask
      split <;> exact ⟨rfl, rfl, rfl, rfl, rfl, rfl⟩
    refine h.remap sweepTask (fun t => ⟨hsame t, (sweepTask_same t).2.1⟩) (fun t₀ t hx => .inr ⟨hfailed, ?_⟩)
      (fun t hx => ?_) ht
      hparts hws hflag
    · rcases hx with rfl | ⟨-, rfl⟩
      · rfl
      · unfold sweepTask
        split <;> rfl
    · rw [sweepTask_status]
      split
      · exact .inr (.inr ⟨rfl, hfailed⟩)
      · exact hx

/-- A step of an executor. -/
theorem Fated.execute (h : Fated envs d₀ prepared s) (hids : (prepared.map (·.id)).Nodup)
    (hf : ∀ t₀ ∈ prepared, (envs t₀.id).Smooth) {k i : Nat} {w : Worker WorkerPc} {pc : WorkerPc}
    (hk : s.workers[k]? = some w) (hp : w.phase = .executing pc)
    (hti : s.tasks[i]? = some t) (hid : t.id = w.taskId) :
    Fated envs d₀ prepared (s.execute (chunkExecutor envs) k w pc i t) := by
  obtain ⟨t₀, c₀, c, hi₀, hc₀, hc, ht, hown⟩ := h.worker hids (List.mem_of_getElem? hk) hti hid
  have hself : ∀ s' : SchedState WorkerPc, s'.tasks = s.tasks.set i t → s'.world = s.world →
      Rewrites (leaveParts envs) s s' i w.chunk t t c c := fun s' ht hw =>
    ⟨hti, ht, .refl, hc, (set_self hc).symm, .refl, fun _ _ _ => by rw [hw]⟩
  have htrack : OnTrack (envs t₀.id) t₀.url (chunkPath t₀ c₀) c₀ (chunkFate (envs t₀.id) t₀ d₀ c₀) c
      (t.partOn s.world.disk c) pc := by
    have hway := (hown.taken w (List.mem_of_getElem? hk) (place_eq.2 ⟨hid.symm, rfl⟩)).2.2
    rw [hp] at hway
    exact hway
  unfold SchedState.execute
  rcases chunkExecutor_run envs w.taskId (e := { world := s.world, task := t }) hc pc with
    ⟨rfl, hr⟩ | ⟨x, rfl, hr⟩ | hr <;> rw [hr]
  · refine h.advance hids (hself _ rfl rfl) hk hid rfl (fun u₀ d₀' hu hd hway => ?_) (.inl rfl) id
      (fun hfailed => .inl hfailed)
    rw [hp] at hway
    obtain ⟨he, hpart, hretries, hfilled⟩ := OnTrack.returned hway
    exact .inl ⟨he, hpart.symm, hretries.symm, hfilled⟩
  · refine h.advance hids (hself _ rfl rfl) hk hid rfl (fun u₀ d₀' hu hd hway => ?_) (.inl rfl) (fun _ => rfl)
      fun _ => .inr ?_
    · rw [hp] at hway
      exact ⟨by rw [OnTrack.threw hway]; rfl, rfl⟩
    · intro u₀ d₀' hu hd hway
      rw [hp] at hway
      rw [OnTrack.threw hway]
      rfl
  · have henv : envs t₀.id = envs w.taskId := by rw [← ht.same.1, hid]
    have hsmooth : (envs w.taskId).Smooth := henv ▸ hf t₀ (List.mem_of_getElem? hi₀)
    have hran : (Session.workerMove (envs w.taskId) { world := s.world, task := t } c pc).crashed = false := by
      exact henv ▸ (htrack.step (n := s.world.tick) (henv ▸ hsmooth) ht.same).2
    rw [if_neg (by simp [hran])]
    refine h.advance hids ⟨hti, rfl, stepped_same, hc, stepped_chunks, workerMove_place,
      fun _ p hp => stepped_parts hp⟩ hk hid rfl
      (fun u₀ d₀' hu hd hway => ?_) (stepped_status.imp id (.imp id .inl)) id (fun hfailed => .inl hfailed)
    rw [hp] at hway
    have henv : envs u₀.id = envs w.taskId := by rw [← hu.1, hid]
    have hmove := (OnTrack.step (n := s.world.tick) (henv ▸ hsmooth) hu hway).1
    rw [henv] at hmove ⊢
    exact (stepped_part (s := { world := s.world, task := t })).symm ▸ hmove

/-- A worker puts its exception on the task. -/
theorem Fated.record (h : Fated envs d₀ prepared s) (hids : (prepared.map (·.id)).Nodup) {k i : Nat}
    {w : Worker WorkerPc}
    (hk : s.workers[k]? = some w) (hp : w.phase = .recording) (hti : s.tasks[i]? = some t) (hid : t.id = w.taskId)
    (ht : s'.tasks = s.tasks.set i (failedTask t w.chunk)) (hd : s'.world.disk = s.world.disk)
    (hws : s'.workers = s.workers.set k { w with phase := .leaving }) (hflag : s'.workerFailed = s.workerFailed) :
    Fated envs d₀ prepared s' := by
  obtain ⟨t₀, c₀, c, hi₀, hc₀, hc, hfated, hown⟩ := h.worker hids (List.mem_of_getElem? hk) hti hid
  have hr : Rewrites (leaveParts envs) s s' i w.chunk t (failedTask t w.chunk) c { c with status := .failed } := by
    refine ⟨hti, ht, ⟨rfl, rfl, rfl, rfl, rfl, rfl⟩, hc, ?_, ⟨rfl, rfl, rfl, rfl⟩, fun _ _ _ => by rw [hd]⟩
    simp only [failedTask]
    rw [List.modify_eq_set_getElem?, hc]
    rfl
  have hfailed : s.workerFailed := by
    have hway := (hown.taken w (List.mem_of_getElem? hk) (place_eq.2 ⟨hid.symm, rfl⟩)).2.2
    rw [hp] at hway
    exact hway.2
  refine h.advance hids hr hk hid hws (fun u₀ d₀' hu hd hway => ?_) (.inr (.inr (.inr ⟨rfl, hflag ▸ hfailed⟩)))
    (fun hx => hflag ▸ hx) fun hx => .inl (hflag ▸ hx)
  rw [hp] at hway
  exact .inr ⟨hway.1, rfl, hflag ▸ hway.2⟩

/-- A worker is through. -/
theorem Fated.retire (h : Fated envs d₀ prepared s) (hids : (prepared.map (·.id)).Nodup) {k : Nat} {w : Worker WorkerPc}
    {p : Phase WorkerPc} (hk : s.workers[k]? = some w) (hw : w.phase = .leaving ∨ ∀ t ∈ s.tasks, t.id ≠ w.taskId)
    (hp : p = .leaving ∨ p = .exited) (ht : s'.tasks = s.tasks) (hd : s'.world = s.world)
    (hws : s'.workers = s.workers.set k { w with phase := p }) (hflag : s'.workerFailed = s.workerFailed) :
    Fated envs d₀ prepared s' := by
  have hmem := List.mem_of_getElem? hk
  obtain ⟨t₀, c₀, ht₀, hid₀, hc₀⟩ := h.home w hmem
  obtain ⟨t, hmt, hid⟩ : ∃ t ∈ s.tasks, t.id = w.taskId := by
    have hin : w.taskId ∈ s.tasks.map (·.id) := h.ids ▸ List.mem_map.2 ⟨t₀, ht₀, hid₀⟩
    exact List.mem_map.1 hin
  have hleaving : w.phase = .leaving := hw.resolve_right fun hnone => hnone t hmt hid
  obtain ⟨i, hti⟩ := List.getElem?_of_mem hmt
  obtain ⟨-, -, c, -, -, hc, -, -⟩ := h.worker hids hmem hti hid
  have hr : Rewrites (leaveParts envs) s s' i w.chunk t t c c :=
    ⟨hti, ht.trans (set_self hti).symm, .refl, hc, (set_self hc).symm, .refl, fun _ _ _ => by rw [hd]⟩
  refine h.advance hids hr hk hid hws (fun u₀ d₀' hu hd' hway => ?_) (.inl rfl) (fun hx => hflag ▸ hx) fun hx =>
    .inl (hflag ▸ hx)
  rw [hleaving] at hway
  rw [hflag, hd]
  rcases hp with rfl | rfl <;> exact hway

/-- A step that starts no chunk again. -/
theorem Fated.step {choice : Choice} (h : Fated envs d₀ prepared s) (hids : (prepared.map (·.id)).Nodup)
    (hf : ∀ t₀ ∈ prepared, (envs t₀.id).Smooth) (hsafe : startsUnstarted cfg s choice)
    (heff : StepEffect (chunkExecutor envs) cfg s choice s') : Fated envs d₀ prepared s' := by
  cases heff with
  | idle ht hw hws hflag _ => exact h.same ht hw hws hflag
  | retire k w p hk hthrough hp ht hw hws hflag _ => exact h.retire hids hk hthrough hp ht hw hws hflag
  | start i j order scheduled t c hcoord hc hti hpick hcj ht hw hws hflag _ =>
    subst hcoord
    have hsched : c.schedulable := Owned.pick_schedulable hpick hcj
    refine h.start hids hti hcj (pick_spec hpick).1 hsched (fun w hw => ?_) ht (by rw [hw]; rfl) hws hflag
    simp only [startsUnstarted, hc, hti, hpick, List.all_eq_true] at hsafe
    simpa using hsafe w hw
  | execute k w pc i t _ hk hp hti hid => exact h.execute hids hf hk hp hti hid
  | record k w i t hk hp hti hid ht hw hws hflag _ =>
    exact h.record hids hk hp hti hid ht (by rw [hw]; rfl) hws hflag
  | sweep _ _ ht hw hws hflag _ => exact h.sweep ht hw hws hflag

end Steps

/-! ## Runs -/

theorem Fated.initial {w : World} (happ : PartsApart prepared) :
    Fated envs w.disk prepared { tasks := prepared, world := w } := by
  refine ⟨happ, List.nodup_nil, List.forall_mem_nil _, rfl, fun i t₀ t ht₀ ht => ?_, fun h => by cases h⟩
  obtain rfl := Option.some.inj (ht₀.symm.trans ht)
  refine ⟨.refl, rfl, fun j c₀ c hc₀ hc => ?_, fun _ => .inl rfl, fun ⟨w, hw, _⟩ => by cases hw⟩
  obtain rfl := Option.some.inj (hc₀.symm.trans hc)
  exact ⟨.refl, fun _ => ⟨rfl, rfl⟩, List.forall_mem_nil _⟩

/-- Every chunk that could be started when the scheduler began has been. -/
def AllStarted (prepared : List DownloadTask) (s : SchedState WorkerPc) : Prop :=
  ∀ t₀ ∈ prepared, isSchedulableStatus t₀.status → ∀ (j : Nat) (c₀ : Chunk), t₀.chunks[j]? = some c₀ → c₀.schedulable →
    ∃ w ∈ s.workers, w.place = (t₀.id, j)

/-- The loop is left when a worker has failed or everything is started. -/
def Exhausted (prepared : List DownloadTask) (s : SchedState WorkerPc) : Prop :=
  s.coordinator = .joining ∨ s.coordinator = .returned → s.workerFailed ∨ AllStarted prepared s

/-- A task that could be scheduled when the scheduler began still can be. -/
theorem FatedTask.stillSchedulable (h : FatedTask envs d₀ s t₀ t) (hst : isSchedulableStatus t₀.status) :
    isSchedulableStatus t.status := by
  by_cases hw : ∃ w ∈ s.workers, w.taskId = t.id
  · rcases h.status hw with hs | hs | ⟨hs, -⟩ <;> rw [hs] <;> rfl
  · push Not at hw
    rcases h.untouched hw with rfl | ⟨-, rfl⟩
    · exact hst
    · rw [sweepTask_status]
      split
      · rfl
      · exact hst

theorem Fated.allStarted (h : Fated envs d₀ prepared s) (hnone : ∀ t ∈ s.tasks, hasSchedulableChunk t = false) :
    AllStarted prepared s := by
  intro t₀ ht₀ hst j c₀ hc₀ hsched
  obtain ⟨i, hi₀⟩ := List.getElem?_of_mem ht₀
  have hlt : i < s.tasks.length := h.length ▸ (List.getElem?_eq_some_iff.1 hi₀).1
  have ht := h.task i t₀ _ hi₀ (List.getElem?_eq_getElem hlt)
  have hj : j < s.tasks[i].chunks.length := ht.length ▸ (List.getElem?_eq_some_iff.1 hc₀).1
  by_contra hfree
  push Not at hfree
  have hsame := (ht.chunk j c₀ _ hc₀ (List.getElem?_eq_getElem hj)).fresh fun w hw hplace =>
    hfree w hw (by rw [hplace, ht.same.1])
  have hany := hnone _ (List.getElem_mem hlt)
  rw [hasSchedulableChunk, ht.stillSchedulable hst, Bool.true_and, List.any_eq_false] at hany
  exact hany _ (List.getElem_mem hj) (hsame.1 ▸ hsched)

theorem Exhausted.step {choice : Choice} (hex : Exhausted prepared s) (h : Fated envs d₀ prepared s) :
    Exhausted prepared (SchedState.step (chunkExecutor envs) cfg s choice) := by
  -- nothing that was started is forgotten
  have hkept : s.workerFailed ∨ AllStarted prepared s →
      (SchedState.step (chunkExecutor envs) cfg s choice).workerFailed ∨
      AllStarted prepared (SchedState.step (chunkExecutor envs) cfg s choice) := by
    refine Or.imp (step_effect choice).failed fun hall t₀ ht₀ hst j c₀ hc₀ hsched => ?_
    have hin : (t₀.id, j) ∈ s.workers.map (·.place) := List.mem_map.2 (hall t₀ ht₀ hst j c₀ hc₀ hsched)
    refine List.mem_map.1 ?_
    have hjobs : JobEffect cfg s (SchedState.step (chunkExecutor envs) cfg s choice) := step_jobs choice
    rcases hjobs with ⟨-, hw⟩ | ⟨i, j, t, c, -, -, -, -, hw⟩
    · exact hw ▸ hin
    · rw [hw]
      exact List.mem_append_left _ hin
  intro hout
  refine hkept ?_
  unfold SchedState.step at hout
  split at hout
  · exact hex hout
  · cases choice with
    | worker k =>
      dsimp only at hout
      rw [work_coordinator] at hout
      exact hex hout
    | coordinator =>
      dsimp only at hout
      unfold SchedState.coordinate at hout
      split at hout
      · split at hout
        · rename_i hdone
          rw [Bool.or_eq_true, Bool.not_eq_true'] at hdone
          refine hdone.imp id fun hend => h.allStarted fun t ht => ?_
          simp only [SchedState.unfinished, List.any_eq_false, Bool.or_eq_true, not_or, Bool.not_eq_true] at hend
          exact (hend t ht).1
        · simp at hout
      · dsimp only at hout
        split at hout <;> simp at hout
      · exfalso
        revert hout
        unfold SchedState.visit
        repeat' split
        all_goals simp
      · simp at hout
      · exact hex (.inl ‹_›)
      · exact hex hout

/-- The scheduler writes no output file. -/
theorem step_out {out : Path → Option Bytes} {choice : Choice} (h : s.world.disk.out = out)
    (heff : StepEffect (chunkExecutor envs) cfg s choice s') : s'.world.disk.out = out := by
  cases heff with
  | idle _ hw => rw [hw, h]
  | retire _ _ _ _ _ _ _ hw => rw [hw, h]
  | start _ _ _ _ _ _ _ _ _ _ _ _ hw => rw [hw]; exact h
  | execute k w pc i t _ hk _ hti _ =>
    rw [(execute_spec _ hk).2.1]
    have hout : (executed (chunkExecutor envs) s w pc t).world.disk.out = s.world.disk.out := by
      rcases chunkExecutor_session w.taskId w.chunk pc { world := s.world, task := t } with he | ⟨c, -, he⟩ <;>
        rw [executed, he]
      rw [Session.stepped, apply_out, moved_out]
    exact hout.trans h
  | record _ _ _ _ _ _ _ _ _ hw => rw [hw]; exact h
  | sweep _ _ _ hw =>
    obtain ⟨es, hes, -⟩ := sweep_log (s := s)
    rw [hw, hes]
    exact h

/-- What is known when the scheduler has returned. -/
structure Returned (envs : TaskId → Env) (d₀ : Disk) (prepared : List DownloadTask)
    (s : SchedState WorkerPc) : Prop where
  tracked : Fated envs d₀ prepared s
  started : s.workerFailed ∨ AllStarted prepared s
  exited : ∀ w ∈ s.workers, w.phase = .exited
  swept : s.workerFailed → ∀ t ∈ s.tasks, t.status ≠ .downloading
  out : s.world.disk.out = d₀.out

/-- However the steps are ordered, if no chunk is started twice and no operation fails. -/
theorem runs_returned {w : World} {schedule : List Choice} (hids : (prepared.map (·.id)).Nodup)
    (happ : PartsApart prepared) (hf : ∀ t₀ ∈ prepared, (envs t₀.id).Smooth)
    (hguard : GuardedRun (SchedState.step (chunkExecutor envs) cfg) (fun s c => startsUnstarted cfg s c)
      { tasks := prepared, world := w } schedule)
    (hs : SchedState.runs (chunkExecutor envs) cfg { tasks := prepared, world := w } schedule = s)
    (hret : s.coordinator = .returned) : Returned envs w.disk prepared s := by
  have hrun : Fated envs w.disk prepared s ∧ Exhausted prepared s ∧ Joined s ∧ s.world.disk.out = w.disk.out := by
    rw [← hs]
    refine GuardedRun.inv (I := fun s : SchedState WorkerPc => Fated envs w.disk prepared s ∧
      Exhausted prepared s ∧ Joined s ∧
      s.world.disk.out = w.disk.out) ?_ ⟨.initial happ, fun h => by simp at h, fun h => by simp at h, rfl⟩ hguard
    rintro s c ⟨hfated, hex, hjoined, hout⟩ hok
    exact ⟨hfated.step hids hf hok (step_effect c), hex.step hfated, hjoined.step _ c, step_out hout (step_effect c)⟩
  obtain ⟨hfated, hex, hjoined, hout⟩ := hrun
  exact ⟨hfated, hex (.inr hret), (hjoined hret).1, (hjoined hret).2, hout⟩

/-! ## What the scheduler leaves -/

/-- A chunk the scheduler starts ends in an exception. -/
def Doomed (env : Env) (d₀ : Disk) (t₀ : DownloadTask) : Prop :=
  ∃ c₀ ∈ t₀.chunks, c₀.schedulable ∧ (chunkFate env t₀ d₀ c₀).error.isSome

namespace Returned

variable {i j : Nat}

/-- The place and the worker of a chunk that has one. -/
theorem arrived (h : Returned envs d₀ prepared s) (hi₀ : prepared[i]? = some t₀) (hi : s.tasks[i]? = some t)
    (hc₀ : t₀.chunks[j]? = some c₀) (hc : t.chunks[j]? = some c) (hw : ∃ w ∈ s.workers, w.place = (t₀.id, j)) :
    Arrived (chunkFate (envs t₀.id) t₀ d₀ c₀) s.workerFailed c (t.partOn s.world.disk c) := by
  obtain ⟨w, hw, hplace⟩ := hw
  have ht := h.tracked.task i t₀ t hi₀ hi
  have hway := ((ht.chunk j c₀ c hc₀ hc).taken w hw (hplace.trans (by rw [ht.same.1]))).2.2
  rw [h.exited w hw] at hway
  exact hway

/-- A task with nothing to start is as it was. -/
theorem left (h : Returned envs d₀ prepared s) (hids : (prepared.map (·.id)).Nodup) (hi₀ : prepared[i]? = some t₀)
    (hi : s.tasks[i]? = some t) (hnone : hasSchedulableChunk t₀ = false) :
    (t = t₀ ∨ s.workerFailed ∧ t = sweepTask t₀) ∧ ∀ c ∈ t.chunks, t.partOn s.world.disk c = t₀.partOn d₀ c := by
  have ht := h.tracked.task i t₀ t hi₀ hi
  have hfree : ∀ w ∈ s.workers, w.taskId ≠ t.id := by
    intro w hw hid
    obtain ⟨u₀, c₀, c, hu₀, hc₀, -, -, hc⟩ := h.tracked.worker hids hw hi hid.symm
    obtain rfl := Option.some.inj (hi₀.symm.trans hu₀)
    obtain ⟨hst, hsched, -⟩ := hc.taken w hw (place_eq.2 ⟨hid, rfl⟩)
    rw [hasSchedulableChunk, hst, Bool.true_and, List.any_eq_false] at hnone
    exact hnone c₀ (List.mem_of_getElem? hc₀) hsched
  refine ⟨ht.untouched hfree, fun c hc => ?_⟩
  obtain ⟨j, hj⟩ := List.getElem?_of_mem hc
  have hj₀ : j < t₀.chunks.length := ht.length ▸ (List.getElem?_eq_some_iff.1 hj).1
  obtain ⟨rfl, hpart⟩ := (ht.chunk j _ c (List.getElem?_eq_getElem hj₀) hj).fresh
    fun w hw hplace => hfree w hw (place_eq.1 hplace).1
  exact hpart

/-- A failed worker shows in its chunk. -/
theorem failedChunk (h : Returned envs d₀ prepared s) (hfailed : s.workerFailed) :
    ∃ (i : Nat) (t₀ t : DownloadTask), prepared[i]? = some t₀ ∧ s.tasks[i]? = some t ∧ isSchedulableStatus t₀.status ∧
    Doomed (envs t₀.id) d₀ t₀ ∧
      ∃ c ∈ t.chunks, c.status = .failed := by
  obtain ⟨w, hw, t₀, c₀, ⟨ht₀, hid₀, hc₀⟩, herror⟩ := h.tracked.failed hfailed
  obtain ⟨i, hi₀⟩ := List.getElem?_of_mem ht₀
  obtain ⟨t, hi⟩ : ∃ t, s.tasks[i]? = some t :=
    ⟨_, List.getElem?_eq_getElem (h.tracked.length ▸ (List.getElem?_eq_some_iff.1 hi₀).1)⟩
  have ht := h.tracked.task i t₀ t hi₀ hi
  obtain ⟨c, hc⟩ : ∃ c, t.chunks[w.chunk]? = some c :=
    ⟨_, List.getElem?_eq_getElem (ht.length ▸ (List.getElem?_eq_some_iff.1 hc₀).1)⟩
  obtain ⟨hst, hsched, -⟩ := (ht.chunk _ _ _ hc₀ hc).taken w hw (place_eq.2 ⟨hid₀.symm.trans ht.same.1.symm, rfl⟩)
  refine ⟨i, t₀, t, hi₀, hi, hst, ⟨c₀, List.mem_of_getElem? hc₀, hsched, herror⟩, c, List.mem_of_getElem? hc, ?_⟩
  rcases h.arrived hi₀ hi hc₀ hc ⟨w, hw, place_eq.2 ⟨hid₀.symm, rfl⟩⟩ with ⟨hnone, -⟩ | ⟨-, hst, -⟩
  · change (chunkFate (envs t₀.id) t₀ d₀ c₀).error.isSome at herror
    rw [hnone] at herror
    cases herror
  · exact hst

/-- A chunk that ends in an exception fails a worker. -/
theorem failed (h : Returned envs d₀ prepared s) (hi₀ : prepared[i]? = some t₀) (hst : isSchedulableStatus t₀.status)
    (hfails : Doomed (envs t₀.id) d₀ t₀) : s.workerFailed := by
  refine h.started.elim id fun hall => ?_
  obtain ⟨c₀, hmem, hsched, herror⟩ := hfails
  obtain ⟨j, hc₀⟩ := List.getElem?_of_mem hmem
  obtain ⟨t, hi⟩ : ∃ t, s.tasks[i]? = some t :=
    ⟨_, List.getElem?_eq_getElem (h.tracked.length ▸ (List.getElem?_eq_some_iff.1 hi₀).1)⟩
  have ht := h.tracked.task i t₀ t hi₀ hi
  obtain ⟨c, hc⟩ : ∃ c, t.chunks[j]? = some c :=
    ⟨_, List.getElem?_eq_getElem (ht.length ▸ (List.getElem?_eq_some_iff.1 hc₀).1)⟩
  rcases h.arrived hi₀ hi hc₀ hc (hall t₀ (List.mem_of_getElem? hi₀) hst j c₀ hc₀ hsched) with ⟨hnone, -⟩ |
    ⟨-, -, hfailed⟩
  · rw [hnone] at herror
    cases herror
  · exact hfailed

/-- A task with such a chunk does not get complete. -/
theorem incomplete (h : Returned envs d₀ prepared s) (hi₀ : prepared[i]? = some t₀) (hi : s.tasks[i]? = some t)
    (hfails : Doomed (envs t₀.id) d₀ t₀) : allComplete t.chunks = false := by
  obtain ⟨c₀, hmem, hsched, herror⟩ := hfails
  obtain ⟨j, hc₀⟩ := List.getElem?_of_mem hmem
  have ht := h.tracked.task i t₀ t hi₀ hi
  obtain ⟨c, hc⟩ : ∃ c, t.chunks[j]? = some c :=
    ⟨_, List.getElem?_eq_getElem (ht.length ▸ (List.getElem?_eq_some_iff.1 hc₀).1)⟩
  have hst : c.status ≠ .completed := by
    by_cases hw : ∃ w ∈ s.workers, w.place = (t₀.id, j)
    · rcases h.arrived hi₀ hi hc₀ hc hw with ⟨hnone, -⟩ | ⟨-, hfailed, -⟩
      · rw [hnone] at herror
        cases herror
      · rw [hfailed]
        simp
    · push Not at hw
      obtain ⟨rfl, -⟩ := (ht.chunk j c₀ c hc₀ hc).fresh fun w hmem hplace => hw w hmem (by rw [hplace, ht.same.1])
      intro hcompleted
      simp [Chunk.schedulable, hcompleted] at hsched
  rw [allComplete, List.all_eq_false]
  exact ⟨c, List.mem_of_getElem? hc, by simp [hst]⟩

/-- If no worker failed, the chunks that could be started are complete. -/
theorem complete (h : Returned envs d₀ prepared s) (hcalm : s.workerFailed = false) (hi₀ : prepared[i]? = some t₀)
    (hi : s.tasks[i]? = some t) (hst : isSchedulableStatus t₀.status) (hc₀ : t₀.chunks[j]? = some c₀)
    (hc : t.chunks[j]? = some c) (hsched : c₀.schedulable) :
    t.partOn s.world.disk c = (chunkFate (envs t₀.id) t₀ d₀ c₀).part ∧
    c.retryCount = (chunkFate (envs t₀.id) t₀ d₀ c₀).retries ∧
      Filled c (t.partOn s.world.disk c) := by
  have hall := h.started.resolve_left (by simp [hcalm])
  rcases h.arrived hi₀ hi hc₀ hc (hall t₀ (List.mem_of_getElem? hi₀) hst j c₀ hc₀ hsched) with ⟨-, hrest⟩ |
    ⟨-, -, hfailed⟩
  · exact hrest
  · rw [hcalm] at hfailed
    cases hfailed

/-- The other chunks are as they were. -/
theorem unstarted (h : Returned envs d₀ prepared s) (hi₀ : prepared[i]? = some t₀) (hi : s.tasks[i]? = some t)
    (hc₀ : t₀.chunks[j]? = some c₀) (hc : t.chunks[j]? = some c) (hsched : c₀.schedulable = false) :
    c = c₀ ∧ t.partOn s.world.disk c = t₀.partOn d₀ c₀ := by
  have ht := (h.tracked.task i t₀ t hi₀ hi).chunk j c₀ c hc₀ hc
  refine ht.fresh fun w hw hplace => ?_
  obtain ⟨-, hstarted, -⟩ := ht.taken w hw hplace
  rw [hsched] at hstarted
  cases hstarted

end Returned

end Cget
