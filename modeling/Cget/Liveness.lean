import Cget.Lib.Fair
import Cget.Appending
import Cget.Passes
import Cget.ScheduledFates
/-!
# Every fair run of the scheduler returns

In a run without end, in which each thread gets its turn again and again, `Scheduler::run`
returns. A worker has an end of its own: with each step its attempts, its blocks or the way
through its attempt get less. A chunk may be started many times, as long as its workers fail
and try again; but once one of them is through, its part file stays complete, and those that
come after have nothing to do. So from some step on no worker is started, then none is left,
and a pass that starts nothing with all workers gone is the last one.
-/

namespace Cget

open SchedState Filter

variable {env : Env} {envs : TaskId → Env} {cfg : SchedulerConfig} {t t' t₀ : DownloadTask} {c c₀ : Chunk} {i k : Nat}
  {choice : Choice}
  {w w' : Worker WorkerPc} {pc : WorkerPc} {s s' : SchedState WorkerPc} {prepared : List DownloadTask}

/-! ## Turns of a worker -/

/-- What an executor's step on the chunk `c` of `t` is: the worker is through, threw, or goes on. -/
inductive Turn (envs : TaskId → Env) (s : SchedState WorkerPc) (k i : Nat) (w : Worker WorkerPc) (t : DownloadTask)
    (c : Chunk) :
    WorkerPc → SchedState WorkerPc → Prop
  | through : Turn envs s k i w t c .returned (s.setPhase k w .leaving)
  | threw (e : Exn) : Turn envs s k i w t c (.threw e) { s.setPhase k w .recording with workerFailed := true }
  | going (pc : WorkerPc) (e : Session) : pc.number.isSome → e = { world := s.world, task := t } →
      Turn envs s k i w t c pc
        { (s.setTask i (e.stepped (envs w.taskId) w.chunk c pc).task).setPhase k w
            (.executing (e.workerMove (envs w.taskId) c pc).next) with
          world := (e.stepped (envs w.taskId) w.chunk c pc).world }

theorem execute_turn (hf : (envs w.taskId).Smooth) (hti : s.tasks[i]? = some t) (hc : t.chunks[w.chunk]? = some c) :
    Turn envs s k i w t c pc (s.execute (chunkExecutor envs) k w pc i t) := by
  have hself : s.setTask i t = s := by
    unfold SchedState.setTask
    rw [set_self hti]
  have hran : (Session.workerMove (envs w.taskId) { world := s.world, task := t } c pc).crashed = false := by
    unfold Session.workerMove
    rw [(hf _).1, (hf _).2]
    exact workerMove_ran
  unfold SchedState.execute
  rcases chunkExecutor_run envs w.taskId (e := { world := s.world, task := t }) hc pc with ⟨rfl, hr⟩ | ⟨e, rfl, hr⟩ | hr
  · rw [hr]
    dsimp only
    rw [hself]
    exact .through
  · rw [hr]
    dsimp only
    rw [hself]
    exact .threw e
  · rw [if_neg (by simp [hran])] at hr
    have hgoing : pc.number.isSome := by
      cases pc with
      | returned => cases hr
      | threw e => cases hr
      | _ => rfl
    rw [hr]
    exact .going pc _ hgoing rfl

/-! ## What stays the same -/

/-- What no step changes of a chunk. -/
def Chunk.spot (c : Chunk) : Nat × Nat × Nat × Path := (c.index, c.start, c.stop, c.tempPath)

/-- What no step changes of a task: what it asks for, and where. -/
def DownloadTask.frame (t : DownloadTask) : TaskId × Text × Path × List (Nat × Nat × Nat × Path) :=
  (t.id, t.url, t.tempDir, t.chunks.map (·.spot))

theorem Chunk.SamePlace.spot (h : c.SamePlace c₀) : c₀.spot = c.spot := by
  obtain ⟨h1, h2, h3, h4⟩ := h
  simp only [Chunk.spot, h1, h2, h3, h4]

theorem frame_set {j : Nat} {c' : Chunk} (hsame : t.SameRequest t') (hc : t.chunks[j]? = some c)
    (hspot : c'.spot = c.spot) (hchunks : t'.chunks = t.chunks.set j c') : t'.frame = t.frame := by
  unfold DownloadTask.frame
  rw [hchunks, map_set_eq hc hspot, hsame.1, hsame.2.1, hsame.2.2.2.1]

theorem chunkPath_frame (h : t.frame = t₀.frame) (hc : c.spot = c₀.spot) : chunkPath t c = chunkPath t₀ c₀ := by
  simp only [DownloadTask.frame, Prod.mk.injEq] at h
  simp only [Chunk.spot, Prod.mk.injEq] at hc
  unfold chunkPath
  rw [h.2.2.1, hc.2.2.2]

/-- What holds in every state of the scheduler, in which the tasks were `prepared`. -/
structure Afoot (envs : TaskId → Env) (prepared : List DownloadTask) (s : SchedState WorkerPc) : Prop where
  alive : s.crashed = false
  frames : s.tasks.map (·.frame) = prepared.map (·.frame)
  home : ∀ w ∈ s.workers, ∃ t₀ c₀, FoundAt prepared w.place t₀ c₀
  within : ∀ w ∈ s.workers, ∀ pc, w.phase = .executing pc → pc.within (envs w.taskId).maxRetries
  failed : ∀ w ∈ s.workers, w.phase = .recording → s.workerFailed

namespace Afoot

variable (h : Afoot envs prepared s)

include h

theorem ids : s.tasks.map (·.id) = prepared.map (·.id) := by
  have hids := congrArg (List.map Prod.fst) h.frames
  rw [List.map_map, List.map_map] at hids
  exact hids

/-- A task and a chunk of it, as they were. -/
theorem was {j : Nat} (hti : s.tasks[i]? = some t) (hc : t.chunks[j]? = some c) :
    ∃ t₀ c₀, prepared[i]? = some t₀ ∧ t₀.chunks[j]? = some c₀ ∧ t.frame = t₀.frame ∧ c.spot = c₀.spot := by
  have hframe := congrArg (·[i]?) h.frames
  simp only [List.getElem?_map, hti, Option.map_some] at hframe
  obtain ⟨t₀, ht₀, hsame⟩ := Option.map_eq_some_iff.1 hframe.symm
  have hspots : t.chunks.map (·.spot) = t₀.chunks.map (·.spot) := (congrArg (·.2.2.2) hsame).symm
  have hspot := congrArg (·[j]?) hspots
  simp only [List.getElem?_map, hc, Option.map_some] at hspot
  obtain ⟨c₀, hc₀, hsamespot⟩ := Option.map_eq_some_iff.1 hspot.symm
  exact ⟨t₀, c₀, ht₀, hc₀, hsame.symm, hsamespot.symm⟩

/-- A task and a chunk of it, as they are now. -/
theorem now {j : Nat} (hti : prepared[i]? = some t₀) (hc : t₀.chunks[j]? = some c₀) :
    ∃ t c, s.tasks[i]? = some t ∧ t.chunks[j]? = some c ∧ t.frame = t₀.frame ∧ c.spot = c₀.spot := by
  have hframe := congrArg (·[i]?) h.frames
  simp only [List.getElem?_map, hti, Option.map_some] at hframe
  obtain ⟨t, ht, hsame⟩ := Option.map_eq_some_iff.1 hframe
  have hspots : t.chunks.map (·.spot) = t₀.chunks.map (·.spot) := congrArg (·.2.2.2) hsame
  have hspot := congrArg (·[j]?) hspots
  simp only [List.getElem?_map, hc, Option.map_some] at hspot
  obtain ⟨c, hc, hsamespot⟩ := Option.map_eq_some_iff.1 hspot
  exact ⟨t, c, ht, hc, hsame, hsamespot⟩

/-- The task and the chunk of a worker. -/
theorem working (hids : (prepared.map (·.id)).Nodup) (hw : w ∈ s.workers) (hti : s.tasks[i]? = some t)
    (hid : t.id = w.taskId) :
    ∃ t₀ c₀ c, prepared[i]? = some t₀ ∧ t₀.chunks[w.chunk]? = some c₀ ∧ t.chunks[w.chunk]? = some c ∧
    t.frame = t₀.frame ∧
      c.spot = c₀.spot := by
  obtain ⟨t₀, c₀, hmem, hid₀, hc₀⟩ := h.home w hw
  obtain ⟨i₀, hi₀⟩ := List.mem_iff_getElem?.1 hmem
  obtain ⟨u, c, hu, hc, hframe, hspot⟩ := h.now hi₀ hc₀
  have huid : u.id = t.id := (congrArg Prod.fst hframe).trans (hid₀.trans hid.symm)
  obtain rfl := index_unique (h.ids ▸ hids) hu hti huid
  obtain rfl := Option.some.inj (hu.symm.trans hti)
  exact ⟨t₀, c₀, c, hi₀, hc₀, hc, hframe, hspot⟩

end Afoot

/-- The workers of a state after a step of one of them. -/
theorem mem_set_worker {p : Phase WorkerPc} {v : Worker WorkerPc} (hv : v ∈ s.workers.set k { w with phase := p }) :
    v ∈ s.workers ∨ v = { w with phase := p } := List.mem_or_eq_of_mem_set hv

theorem Afoot.set (h : Afoot envs prepared s) (hk : s.workers[k]? = some w) {p : Phase WorkerPc}
    (hws : s'.workers = s.workers.set k { w with phase := p })
    (hframes : s'.tasks.map (·.frame) = s.tasks.map (·.frame))
    (halive : s'.crashed = false) (hwithin : ∀ pc, p = .executing pc → pc.within (envs w.taskId).maxRetries)
    (hflag : s.workerFailed → s'.workerFailed) (hfailed : p = .recording → s'.workerFailed) :
    Afoot envs prepared s' := by
  refine ⟨halive, hframes.trans h.frames, fun v hv => ?_, fun v hv pc hp => ?_, fun v hv hp => ?_⟩
  · rcases mem_set_worker (hws ▸ hv) with hv | rfl
    · exact h.home v hv
    · exact h.home w (List.mem_of_getElem? hk)
  · rcases mem_set_worker (hws ▸ hv) with hv | rfl
    · exact h.within v hv pc hp
    · exact hwithin pc hp
  · rcases mem_set_worker (hws ▸ hv) with hv | rfl
    · exact hflag (h.failed v hv hp)
    · exact hfailed hp

theorem Afoot.keep (h : Afoot envs prepared s) (hws : s'.workers = s.workers)
    (hframes : s'.tasks.map (·.frame) = s.tasks.map (·.frame))
    (halive : s'.crashed = false) (hflag : s'.workerFailed = s.workerFailed) : Afoot envs prepared s' := by
  refine ⟨halive, hframes.trans h.frames, ?_, ?_, ?_⟩
  · rw [hws]
    exact h.home
  · rw [hws]
    exact h.within
  · rw [hws, hflag]
    exact h.failed

theorem Turn.afoot (h : Afoot envs prepared s) (hf : (envs w.taskId).Smooth) (hk : s.workers[k]? = some w)
    (hp : w.phase = .executing pc)
    (hti : s.tasks[i]? = some t) (hc : t.chunks[w.chunk]? = some c) (hturn : Turn envs s k i w t c pc s') :
    Afoot envs prepared s' := by
  cases hturn with
  | through => exact h.set hk rfl rfl h.alive (fun _ hp => by cases hp) id (fun hp => by cases hp)
  | threw e => exact h.set hk rfl rfl h.alive (fun _ hp => by cases hp) (fun _ => rfl) fun _ => rfl
  | going pc e hgoing he =>
    subst he
    refine h.set hk rfl ?_ h.alive (fun next hnext => ?_) id (fun hp => by cases hp)
    · exact map_set_eq hti (frame_set stepped_same hc workerMove_place.spot stepped_chunks)
    · obtain rfl := Phase.executing.inj hnext
      refine workerMove_within (h.within w (List.mem_of_getElem? hk) pc hp) ?_
      rw [(hf _).1, (hf _).2]
      exact workerMove_ran

theorem Afoot.step (h : Afoot envs prepared s) (hids : (prepared.map (·.id)).Nodup) (hf : ∀ id, (envs id).Smooth)
    (heff : StepEffect (chunkExecutor envs) cfg s choice s') : Afoot envs prepared s' := by
  cases heff with
  | idle ht _ hws hflag halive => exact h.keep hws (by rw [ht]) (halive.trans h.alive) hflag
  | retire k w p hk _ hp ht _ hws hflag halive =>
    refine h.set hk hws (by rw [ht]) (halive.trans h.alive) (fun pc hpc => ?_) (fun hx => hflag ▸ hx) fun hrec => ?_
    · rcases hp with rfl | rfl <;> cases hpc
    · rcases hp with rfl | rfl <;> cases hrec
  | start i j order scheduled t c _ _ hti _ hcj ht _ hws hflag halive =>
    obtain ⟨t₀, c₀, ht₀, hc₀, hframe, -⟩ := h.was hti hcj
    have hmem : ∀ v ∈ s'.workers, v ∈ s.workers ∨ v =
        { taskId := t.id, chunk := j, phase := .executing (.attempt 0) } := by
      intro v hv
      rw [hws] at hv
      exact (List.mem_append.1 hv).imp id List.mem_singleton.1
    refine ⟨halive.trans h.alive, ?_, fun v hv => ?_, fun v hv pc hpc => ?_, fun v hv hrec => ?_⟩
    · have hspot : ({ c with status := .downloading } : Chunk).spot = c.spot := rfl
      have hstarted : (startedTask t j c).frame = t.frame := frame_set ⟨rfl, rfl, rfl, rfl, rfl, rfl⟩ hcj hspot rfl
      rw [ht, map_set_eq hti hstarted]
      exact h.frames
    · rcases hmem v hv with hv | rfl
      · exact h.home v hv
      · exact ⟨t₀, c₀, List.mem_of_getElem? ht₀, (congrArg Prod.fst hframe).symm, hc₀⟩
    · rcases hmem v hv with hv | rfl
      · exact h.within v hv pc hpc
      · obtain rfl := Phase.executing.inj hpc
        exact Nat.zero_le _
    · rcases hmem v hv with hv | rfl
      · exact hflag ▸ h.failed v hv hrec
      · cases hrec
  | execute k w pc i t _ hk hp hti hid =>
    obtain ⟨-, -, c, -, -, hc, -⟩ := h.working hids (List.mem_of_getElem? hk) hti hid
    exact (execute_turn (hf _) hti hc).afoot h (hf _) hk hp hti hc
  | record k w i t hk hp hti _ ht _ hws hflag halive =>
    refine h.set hk hws ?_ (halive.trans h.alive) (fun _ hpc => by cases hpc) (fun hx => hflag ▸ hx)
      (fun hrec => by cases hrec)
    rw [ht]
    refine map_set_eq hti ?_
    unfold DownloadTask.frame
    rw [failedTask_map _ fun _ => rfl]
    rfl
  | sweep _ _ ht _ hws hflag halive =>
    refine h.keep hws ?_ (halive.trans h.alive) hflag
    rcases sweep_tasks (s := s) with hs | ⟨-, hs⟩
    · rw [ht, hs]
    · rw [ht, hs, List.map_map]
      refine List.map_congr_left fun t _ => ?_
      simp only [Function.comp_apply, sweepTask]
      split <;> rfl

/-! ## Threads come to an end -/

/-- What a worker has still to do. -/
def Worker.remaining (envs : TaskId → Env) (w : Worker WorkerPc) : ℕ ×ₗ ℕ ×ₗ ℕ ×ₗ ℕ :=
  match w.phase with
  | .executing pc => toLex (3, pc.remaining (envs w.taskId).maxRetries)
  | .recording => toLex (2, toLex (0, toLex (0, 0)))
  | .leaving => toLex (1, toLex (0, toLex (0, 0)))
  | .exited => toLex (0, toLex (0, toLex (0, 0)))

/-- A worker that has less to do than before. -/
def Worker.Nearer (envs : TaskId → Env) (w w' : Worker WorkerPc) : Prop :=
  w'.place = w.place ∧ w'.remaining envs < w.remaining envs

theorem Turn.nearer (hf : (envs w.taskId).Smooth) (hp : w.phase = .executing pc) (hturn : Turn envs s k i w t c pc s') :
    ∃ w', s'.workers = s.workers.set k w' ∧ w.Nearer envs w' := by
  cases hturn with
  | through => exact ⟨_, rfl, rfl, by simp [Worker.remaining, hp, Prod.Lex.toLex_lt_toLex]⟩
  | threw e => exact ⟨_, rfl, rfl, by simp [Worker.remaining, hp, Prod.Lex.toLex_lt_toLex]⟩
  | going pc e hgoing he =>
    refine ⟨_, rfl, rfl, ?_⟩
    have hless : (e.workerMove (envs w.taskId) c pc).next.remaining (envs w.taskId).maxRetries <
        pc.remaining (envs w.taskId).maxRetries := by
      refine workerMove_remaining hgoing ?_
      rw [(hf _).1, (hf _).2]
      exact workerMove_ran
    simp only [Worker.remaining, hp, Prod.Lex.toLex_lt_toLex]
    exact .inr ⟨trivial, hless⟩

/-- A step of a worker that is not gone brings it nearer to its end, unless it waits for a pass to end. -/
theorem Afoot.work (h : Afoot envs prepared s) (hids : (prepared.map (·.id)).Nodup) (hf : ∀ id, (envs id).Smooth)
    (hk : s.workers[k]? = some w) :
    (s.work (chunkExecutor envs) k = s ∧ (w.phase = .exited ∨ s.passing)) ∨
      ∃ w', (s.work (chunkExecutor envs) k).workers = s.workers.set k w' ∧ w.Nearer envs w' := by
  obtain ⟨t₀, c₀, hmem, hid₀, -⟩ := h.home w (List.mem_of_getElem? hk)
  have hhas : w.taskId ∈ s.tasks.map (·.id) := h.ids ▸ List.mem_map.2 ⟨t₀, hmem, hid₀⟩
  obtain ⟨u, hu, huid⟩ := List.mem_map.1 hhas
  unfold SchedState.work
  rw [hk]
  dsimp only
  cases hp : w.phase with
  | executing pc =>
    cases hi : s.indexOf w.taskId with
    | none => exact absurd huid (indexOf_none hi u hu)
    | some i =>
      obtain ⟨t, hti, hid⟩ := indexOf_spec hi
      obtain ⟨-, -, c, -, -, hc, -⟩ := h.working hids (List.mem_of_getElem? hk) hti hid
      simp only [hti]
      exact .inr ((execute_turn (hf _) hti hc).nearer (hf _) hp)
  | recording =>
    unfold SchedState.recordFailure
    cases hi : s.indexOf w.taskId with
    | none => exact absurd huid (indexOf_none hi u hu)
    | some i =>
      obtain ⟨t, hti, hid⟩ := indexOf_spec hi
      dsimp only
      rw [hti]
      exact .inr ⟨{ w with phase := .leaving }, rfl, rfl, by simp [Worker.remaining, hp, Prod.Lex.toLex_lt_toLex]⟩
  | leaving =>
    dsimp only
    split
    · exact .inl ⟨rfl, .inr ‹_›⟩
    · exact .inr ⟨_, rfl, rfl, by simp [Worker.remaining, hp, Prod.Lex.toLex_lt_toLex]⟩
  | exited => exact .inl ⟨rfl, .inl rfl⟩

/-- The coordinator leaves the workers alone, or starts one. -/
theorem coordinate_workers (ex : Executor WorkerPc) (cfg : SchedulerConfig) (s : SchedState WorkerPc) :
    (s.coordinate ex cfg).workers = s.workers ∨ ∃ v, (s.coordinate ex cfg).workers = s.workers ++ [v] := by
  unfold SchedState.coordinate
  split
  · split <;> exact .inl rfl
  · exact .inl rfl
  · unfold SchedState.visit
    split
    · exact .inl rfl
    · split
      · exact .inl rfl
      · split
        · exact .inl rfl
        · split
          · exact .inl rfl
          · exact .inr ⟨_, rfl⟩
  · exact .inl rfl
  · split
    · exact .inl sweep_same.1
    · exact .inl rfl
  · exact .inl rfl

/-- No step changes the number of workers but a start. -/
theorem SchedState.StepEffect.workers {ex : Executor WorkerPc} (heff : StepEffect ex cfg s choice s') :
    s'.workers.length = s.workers.length ∨
      (∃ v, s'.workers = s.workers ++ [v]) ∧ ∃ order scheduled, s.coordinator = .visiting order scheduled := by
  cases heff with
  | idle _ _ hws => exact .inl (by rw [hws])
  | retire _ _ _ _ _ _ _ _ hws => exact .inl (by rw [hws, List.length_set])
  | start i j order scheduled _ _ _ hvisiting _ _ _ _ _ hws => exact .inr ⟨⟨_, hws⟩, _, _, hvisiting⟩
  | execute k w l i t =>
    refine .inl ?_
    unfold SchedState.execute
    dsimp only
    split <;> simp only [setPhase, setTask, List.length_set]
  | record _ _ _ _ _ _ _ _ _ _ hws => exact .inl (by rw [hws, List.length_set])
  | sweep _ _ _ _ hws => exact .inl (by rw [hws])

theorem step_coordinator {ex : Executor WorkerPc} (halive : s.crashed = false) :
    SchedState.step ex cfg s .coordinator = s.coordinate ex cfg := by
  unfold SchedState.step
  rw [halive, if_neg Bool.false_ne_true]

theorem step_worker {ex : Executor WorkerPc} (cfg : SchedulerConfig) (halive : s.crashed = false) (k : Nat) :
    SchedState.step ex cfg s (.worker k) = s.work ex k := by
  unfold SchedState.step
  rw [halive, if_neg Bool.false_ne_true]

/-- A worker after a step: as it was, or nearer to its end if it was its turn. -/
theorem Afoot.worker (h : Afoot envs prepared s) (hids : (prepared.map (·.id)).Nodup) (hf : ∀ id, (envs id).Smooth)
    (cfg : SchedulerConfig) (hk : s.workers[k]? = some w) (choice : Choice) :
    ∃ w', (SchedState.step (chunkExecutor envs) cfg s choice).workers[k]? = some w' ∧ (w' = w ∨ w.Nearer envs w') ∧
      (choice = .worker k → s.passing = false → w.phase ≠ .exited → w.Nearer envs w') := by
  have hlen := (List.getElem?_eq_some_iff.1 hk).1
  unfold SchedState.step
  rw [h.alive, if_neg Bool.false_ne_true]
  cases choice with
  | coordinator =>
    refine ⟨w, ?_, .inl rfl, fun heq => by cases heq⟩
    dsimp only
    rcases coordinate_workers (chunkExecutor envs) cfg s with hsame | ⟨v, happend⟩
    · rw [hsame, hk]
    · rw [happend, List.getElem?_append_left hlen, hk]
  | worker n =>
    dsimp only
    by_cases hn : n = k
    · subst hn
      rcases h.work hids hf hk with ⟨hsame, hidle⟩ | ⟨w', hws, hnearer⟩
      · rw [hsame]
        refine ⟨w, hk, .inl rfl, fun _ hpassing hgoing => ?_⟩
        rcases hidle with hexited | hpass
        · exact absurd hexited hgoing
        · rw [hpassing] at hpass
          cases hpass
      · rw [hws, List.getElem?_set_self hlen]
        exact ⟨w', rfl, .inr hnearer, fun _ _ _ => hnearer⟩
    · refine ⟨w, ?_, .inl rfl, fun heq => absurd (Choice.worker.inj heq) hn⟩
      cases hother : s.workers[n]? with
      | none =>
        have hstays : s.work (chunkExecutor envs) n = s := by
          unfold SchedState.work
          rw [hother]
        rw [hstays, hk]
      | some v =>
        rcases h.work hids hf hother with ⟨hsame, -⟩ | ⟨v', hws, -⟩
        · rw [hsame, hk]
        · rw [hws, List.getElem?_set_ne hn, hk]

/-! ## Complete part files -/

/-- The thread has had the path of its chunk checked. -/
def WorkerPc.opened : WorkerPc → Bool
  | .opening .. | .starting .. | .announcing .. | .requesting .. | .receiving .. | .flushing .. | .closing _
  | .storing _ | .returned => true
  | _ => false

/-- The thread has found its chunk complete. -/
def WorkerPc.done : WorkerPc → Bool
  | .storing _ | .returned => true
  | _ => false

/-- The part file of the chunk `c₀` of `t₀` is complete. -/
def Complete (t₀ : DownloadTask) (c₀ : Chunk) (d : Disk) : Prop :=
  ∃ p, chunkPath t₀ c₀ = .ok p ∧ c₀.size ≤ fileSize (d.parts p)

section Moves

variable {url : Text} {path : Except Exn Path} {part : Option Bytes}

/-- A complete part file stays complete: what is longer than the chunk is cut to it, and nothing else is cut. -/
theorem workerMove_full (hfull : c.size ≤ fileSize part) :
    c.size ≤ fileSize (workerMove env url path .ok .ok c part pc).part := by
  cases pc with
  | attempt n =>
    cases path with
    | error e => exact hfull
    | ok p =>
      simp only [workerMove]
      split
      · cases part with
        | none => exact hfull
        | some b =>
          rw [fileSize_some] at hfull
          simp only [Option.map_some, fileSize_some, List.length_take]
          omega
      · exact hfull
  | opening n start => cases part <;> exact hfull
  | receiving n blocks result =>
    cases blocks with
    | nil => cases result <;> exact hfull
    | cons b bs =>
      simp only [workerMove, fileSize_some, List.length_append]
      exact hfull.trans (Nat.le_add_right _ _)
  | closing n =>
    simp only [workerMove]
    split <;> exact hfull
  | caught n e =>
    cases e with
    | other what => exact hfull
    | cget code what =>
      simp only [workerMove]
      split <;> exact hfull
  | _ => exact hfull

/-- Only with its path checked does a thread get on. -/
theorem workerMove_opened (hopened : pc.opened → ∃ p, path = .ok p)
    (hnext : (workerMove env url path .ok .ok c part pc).next.opened) (hin : pc.within env.maxRetries) :
    ∃ p, path = .ok p := by
  cases pc with
  | attempt n =>
    cases path with
    | error e => cases hnext
    | ok p => exact ⟨p, rfl⟩
  | caught n e =>
    cases e with
    | other what => cases hnext
    | cget code what =>
      simp only [workerMove] at hnext
      split at hnext <;> cases hnext
  | recording n => cases hnext
  | sleeping n =>
    have hlt : n < env.maxRetries := hin
    simp only [workerMove, if_pos hlt] at hnext
    cases hnext
  | threw e => cases hnext
  | _ => exact hopened rfl

/-- A thread is through only with its part file complete. -/
theorem workerMove_done (hdone : pc.done → c.size ≤ fileSize part)
    (hnext : (workerMove env url path .ok .ok c part pc).next.done)
    (hin : pc.within env.maxRetries) : c.size ≤ fileSize (workerMove env url path .ok .ok c part pc).part := by
  cases pc with
  | attempt n =>
    cases path with
    | error e => cases hnext
    | ok p =>
      refine workerMove_full (Nat.le_of_not_lt fun hlt => ?_)
      simp only [workerMove, if_neg (Nat.lt_asymm hlt), if_neg (Nat.not_le_of_lt hlt)] at hnext
      cases hnext
  | receiving n blocks result =>
    cases blocks with
    | nil => cases result <;> cases hnext
    | cons b bs =>
      simp only [workerMove] at hnext
      split at hnext <;> cases hnext
  | closing n =>
    simp only [workerMove] at hnext ⊢
    split
    · rw [if_pos ‹_›] at hnext
      cases hnext
    · rename_i hsize
      exact (not_not.1 hsize).ge
  | storing n => exact workerMove_full (hdone rfl)
  | caught n e =>
    cases e with
    | other what => cases hnext
    | cget code what =>
      simp only [workerMove] at hnext
      split at hnext <;> cases hnext
  | sleeping n =>
    have hlt : n < env.maxRetries := hin
    simp only [workerMove, if_pos hlt] at hnext
    cases hnext
  | returned => exact workerMove_full (hdone rfl)
  | _ => cases hnext

end Moves

/-- A worker at the chunk `c₀` of `t₀` that is through left a complete part file, if no worker failed. -/
def Worker.Reliable (t₀ : DownloadTask) (c₀ : Chunk) (s : SchedState WorkerPc) (w : Worker WorkerPc) : Prop :=
  match w.phase with
  | .executing pc => (pc.opened → ∃ p, chunkPath t₀ c₀ = .ok p) ∧ (pc.done → Complete t₀ c₀ s.world.disk)
  | .recording => True
  | .leaving | .exited => s.workerFailed ∨ Complete t₀ c₀ s.world.disk

/-- What holds in every state, if no two chunks share a part file. -/
structure Dependable (envs : TaskId → Env) (prepared : List DownloadTask) (s : SchedState WorkerPc) :
    Prop extends Afoot envs prepared s where
  reliable : ∀ w ∈ s.workers, ∀ t₀ c₀, FoundAt prepared w.place t₀ c₀ → w.Reliable t₀ c₀ s

theorem size_spot (h : c.spot = c₀.spot) : c.size = c₀.size := by
  simp only [Chunk.spot, Prod.mk.injEq] at h
  unfold Chunk.size
  rw [h.2.1, h.2.2.1]

theorem found_unique {place : TaskId × Nat} {t₁ : DownloadTask} {c₁ : Chunk} (hids : (prepared.map (·.id)).Nodup)
    (h : FoundAt prepared place t₀ c₀) (h' : FoundAt prepared place t₁ c₁) : t₁ = t₀ ∧ c₁ = c₀ := by
  obtain rfl := List.inj_on_of_nodup_map hids h'.1 h.1 (h'.2.1.trans h.2.1.symm)
  exact ⟨rfl, Option.some.inj (h'.2.2.symm.trans h.2.2)⟩

/-- The part file of a worker's own chunk after a step. -/
theorem stepped_own {e : Session} {j : Nat} {p : Path} (hpath : chunkPath e.task c = .ok p) :
    (e.stepped env j c pc).world.disk.parts p = (e.workerMove env c pc).part := by
  rw [Session.stepped, apply_parts, Session.moved, hpath]
  simp

theorem workerMove_smooth {e : Session} (hf : env.Smooth) :
    e.workerMove env c pc = workerMove env e.task.url (chunkPath e.task c) .ok .ok c (e.part c) pc := by
  unfold Session.workerMove
  rw [(hf _).1, (hf _).2]

section Parts

variable (hids : (prepared.map (·.id)).Nodup) (happ : PartsApart prepared) (hf : ∀ id, (envs id).Smooth)

include hids happ hf

/-- No step breaks a complete part file. -/
theorem Afoot.complete (h : Afoot envs prepared s) {place : TaskId × Nat} (hfound : FoundAt prepared place t₀ c₀)
    (hcomplete : Complete t₀ c₀ s.world.disk) (heff : StepEffect (chunkExecutor envs) cfg s choice s') :
    Complete t₀ c₀ s'.world.disk := by
  have hsame : s'.world.disk.parts = s.world.disk.parts → Complete t₀ c₀ s'.world.disk := by
    intro hparts
    unfold Complete
    rw [hparts]
    exact hcomplete
  cases heff with
  | idle _ hw => exact hsame (by rw [hw])
  | retire _ _ _ _ _ _ _ hw => exact hsame (by rw [hw])
  | start _ _ _ _ _ _ _ _ _ _ _ _ hw => exact hsame (by rw [hw]; rfl)
  | execute k w pc i t _ hk hp hti hid =>
    obtain ⟨u₀, d₀, c, hu₀, hd₀, hc, hframe, hspot⟩ := h.working hids (List.mem_of_getElem? hk) hti hid
    have hturn : Turn envs s k i w t c pc (s.execute (chunkExecutor envs) k w pc i t) := execute_turn (hf _) hti hc
    clear hsame
    generalize s.execute (chunkExecutor envs) k w pc i t = s₁ at hturn ⊢
    cases hturn with
    | through => exact hcomplete
    | threw e => exact hcomplete
    | going _ e hgoing he =>
      obtain ⟨p, hpath, hfull⟩ := hcomplete
      refine ⟨p, hpath, ?_⟩
      dsimp only
      by_cases hown : chunkPath t c = .ok p
      · -- a worker with this part file is at this chunk
        rw [chunkPath_frame hframe hspot] at hown
        obtain ⟨j, hj⟩ : ∃ j, t₀.chunks[j]? = some c₀ := ⟨place.2, hfound.2.2⟩
        obtain ⟨hidu, hju⟩ :=
          happ u₀ (List.mem_of_getElem? hu₀) t₀ hfound.1 w.chunk place.2 d₀ c₀ p hd₀ hfound.2.2 hown hpath
        obtain rfl := List.inj_on_of_nodup_map hids (List.mem_of_getElem? hu₀) hfound.1 hidu
        obtain rfl : d₀ = c₀ := Option.some.inj (hd₀.symm.trans (hju ▸ hfound.2.2))
        subst he
        rw [← chunkPath_frame hframe hspot] at hown
        rw [stepped_own hown, workerMove_smooth (hf _), ← size_spot hspot]
        refine workerMove_full ?_
        rw [size_spot hspot]
        unfold Session.part
        rw [show chunkPath ({ world := s.world, task := t } : Session).task c = .ok p from hown]
        exact hfull
      · subst he
        rw [stepped_parts hown]
        exact hfull
  | record _ _ _ _ _ _ _ _ _ hw => exact hsame (by rw [hw]; rfl)
  | sweep _ _ _ hw =>
    obtain ⟨es, hes, -⟩ := sweep_log (s := s)
    exact hsame (by rw [hw, hes])

omit hids happ hf in
theorem Worker.Reliable.mono (h : w.Reliable t₀ c₀ s)
    (hcomplete : Complete t₀ c₀ s.world.disk → Complete t₀ c₀ s'.world.disk)
    (hflag : s.workerFailed → s'.workerFailed) : w.Reliable t₀ c₀ s' := by
  unfold Worker.Reliable at h ⊢
  cases hp : w.phase with
  | executing pc =>
    rw [hp] at h
    exact ⟨h.1, fun hdone => hcomplete (h.2 hdone)⟩
  | recording => trivial
  | leaving =>
    rw [hp] at h
    exact h.imp hflag hcomplete
  | exited =>
    rw [hp] at h
    exact h.imp hflag hcomplete

omit happ in
/-- A worker that goes on stays reliable. -/
theorem Dependable.going (h : Dependable envs prepared s) (hk : s.workers[k]? = some w) (hp : w.phase = .executing pc)
    (hti : s.tasks[i]? = some t) (hid : t.id = w.taskId) (hc : t.chunks[w.chunk]? = some c) {e : Session}
    (he : e = { world := s.world, task := t }) (hdisk : s'.world = (e.stepped (envs w.taskId) w.chunk c pc).world)
    (hfound : FoundAt prepared w.place t₀ c₀) :
    ({ w with phase := .executing (e.workerMove (envs w.taskId) c pc).next } : Worker WorkerPc).Reliable t₀ c₀ s' := by
  have hmem := List.mem_of_getElem? hk
  obtain ⟨u₀, d₀, c', hu₀, hd₀, hc', hframe, hspot⟩ := h.working hids hmem hti hid
  obtain rfl := Option.some.inj (hc'.symm.trans hc)
  have hthere : FoundAt prepared w.place u₀ d₀ :=
    ⟨List.mem_of_getElem? hu₀, (congrArg Prod.fst hframe).symm.trans hid, hd₀⟩
  obtain ⟨rfl, rfl⟩ := found_unique hids hfound hthere
  have hpath : chunkPath t c' = chunkPath u₀ d₀ := chunkPath_frame hframe hspot
  have hreliable := h.reliable w hmem u₀ d₀ hfound
  unfold Worker.Reliable at hreliable ⊢
  rw [hp] at hreliable
  obtain ⟨hopened, hdone⟩ := hreliable
  have hin := h.within w hmem pc hp
  have hmove : e.workerMove (envs w.taskId) c' pc =
      workerMove (envs w.taskId) e.task.url (chunkPath e.task c') .ok .ok c' (e.part c') pc :=
    workerMove_smooth (hf w.taskId)
  have hepath : chunkPath e.task c' = chunkPath u₀ d₀ := by
    rw [he]
    exact hpath
  have hopens : (e.workerMove (envs w.taskId) c' pc).next.opened → ∃ p, chunkPath u₀ d₀ = .ok p := by
    intro hnext
    rw [hmove, hepath] at hnext
    exact workerMove_opened hopened hnext hin
  refine ⟨hopens, fun hnext => ?_⟩
  obtain ⟨p, hok⟩ := hopens (by revert hnext; cases (e.workerMove (envs w.taskId) c' pc).next <;>
    simp [WorkerPc.done, WorkerPc.opened])
  refine ⟨p, hok, ?_⟩
  have hpart : e.part c' = s.world.disk.parts p := by
    unfold Session.part
    rw [hepath, hok, he]
    rfl
  rw [hdisk, stepped_own (hepath.trans hok), hmove, hpart, ← size_spot hspot]
  rw [hmove, hpart] at hnext
  refine workerMove_done (fun hwas => ?_) hnext hin
  obtain ⟨q, hq, hfull⟩ := hdone hwas
  obtain rfl := Except.ok.inj (hok.symm.trans hq)
  rw [size_spot hspot]
  exact hfull

theorem Dependable.step (h : Dependable envs prepared s) (heff : StepEffect (chunkExecutor envs) cfg s choice s') :
    Dependable envs prepared s' := by
  have hkept : ∀ v ∈ s.workers, ∀ t₀ c₀, FoundAt prepared v.place t₀ c₀ → v.Reliable t₀ c₀ s' :=
    fun v hv t₀ c₀ hfound =>
    (h.reliable v hv t₀ c₀ hfound).mono (fun hcomplete => h.complete hids happ hf hfound hcomplete heff) heff.failed
  refine ⟨h.toAfoot.step hids hf heff, fun v hv t₀ c₀ hfound => ?_⟩
  cases heff with
  | idle _ _ hws => exact hkept v (hws ▸ hv) t₀ c₀ hfound
  | retire k w p hk hthrough hp _ hw hws hflag _ =>
    rcases mem_set_worker (hws ▸ hv) with hv | rfl
    · exact hkept v hv t₀ c₀ hfound
    · have hmem := List.mem_of_getElem? hk
      have hleaving : w.phase = .leaving := by
        refine hthrough.resolve_right fun hnone => ?_
        have hhas : w.taskId ∈ s.tasks.map (·.id) := h.ids ▸ List.mem_map.2 ⟨t₀, hfound.1, hfound.2.1⟩
        obtain ⟨u, hu, huid⟩ := List.mem_map.1 hhas
        exact hnone u hu huid
      have hthere := hkept w hmem t₀ c₀ hfound
      unfold Worker.Reliable at hthere ⊢
      rw [hleaving] at hthere
      rcases hp with rfl | rfl <;> exact hthere
  | start i j order scheduled t c _ _ _ _ _ _ _ hws _ _ =>
    rw [hws] at hv
    rcases List.mem_append.1 hv with hv | hv
    · exact hkept v hv t₀ c₀ hfound
    · rw [List.mem_singleton.1 hv]
      exact ⟨(fun hx => by cases hx), (fun hx => by cases hx)⟩
  | execute k w pc i t _ hk hp hti hid =>
    obtain ⟨-, -, c, -, -, hc, -⟩ := h.working hids (List.mem_of_getElem? hk) hti hid
    have hturn : Turn envs s k i w t c pc (s.execute (chunkExecutor envs) k w pc i t) := execute_turn (hf _) hti hc
    generalize s.execute (chunkExecutor envs) k w pc i t = s₁ at hturn hv hkept ⊢
    cases hturn with
    | through =>
      rcases mem_set_worker hv with hv | rfl
      · exact hkept v hv t₀ c₀ hfound
      · have hthere := h.reliable w (List.mem_of_getElem? hk) t₀ c₀ hfound
        unfold Worker.Reliable at hthere
        rw [hp] at hthere
        exact .inr (hthere.2 rfl)
    | threw e =>
      rcases mem_set_worker hv with hv | rfl
      · exact hkept v hv t₀ c₀ hfound
      · trivial
    | going _ e hgoing he =>
      rcases mem_set_worker hv with hv | rfl
      · exact hkept v hv t₀ c₀ hfound
      · exact h.going hids hf hk hp hti hid hc he rfl hfound
  | record k w i t hk hp _ _ _ _ hws hflag _ =>
    rcases mem_set_worker (hws ▸ hv) with hv | rfl
    · exact hkept v hv t₀ c₀ hfound
    · exact .inl (hflag ▸ h.failed w (List.mem_of_getElem? hk) hp)
  | sweep _ _ _ _ hws => exact hkept v (hws ▸ hv) t₀ c₀ hfound

end Parts

/-! ## Starts at a chunk that is complete -/

/-- The thread is in an attempt that may still fail. -/
def WorkerPc.daring : WorkerPc → Bool
  | .opening .. | .starting .. | .announcing .. | .requesting .. | .receiving .. | .flushing .. | .closing _
  | .storing _ | .caught .. => true
  | _ => false

def Worker.daring (w : Worker WorkerPc) : Bool :=
  match w.phase with
  | .executing pc => pc.daring
  | _ => false

/-- A chunk with a complete part file can be started again only after an attempt that fails, and no attempt begins. -/
theorem workerMove_chances {url : Text} {p : Path} {part : Option Bytes} (hfull : c.size ≤ fileSize part)
    (hgoing : pc.number.isSome) :
    (workerMove env url (.ok p) .ok .ok c part pc).chunk.schedulable.toNat +
        (workerMove env url (.ok p) .ok .ok c part pc).next.daring.toNat ≤
      c.schedulable.toNat + pc.daring.toNat := by
  cases pc with
  | attempt n =>
    simp only [workerMove]
    split
    · simp [Chunk.schedulable, WorkerPc.daring]
    · simp [Chunk.schedulable, WorkerPc.daring]
  | opening n start => exact le_rfl
  | starting n start => simp [workerMove, Chunk.schedulable, WorkerPc.daring]
  | announcing n start => exact le_rfl
  | requesting n start => exact le_rfl
  | receiving n blocks result =>
    cases blocks with
    | nil => cases result <;> exact le_rfl
    | cons b bs =>
      have hless : ({ c with downloaded := c.downloaded + b.data.length } : Chunk).schedulable → c.schedulable := by
        intro hsched
        simp only [Chunk.schedulable, Bool.and_eq_true, decide_eq_true_eq] at hsched ⊢
        exact ⟨hsched.1, Nat.lt_of_le_of_lt (Nat.le_add_right _ _) hsched.2⟩
      have hflush : (if b.flush then WorkerPc.flushing n bs result else .receiving n bs result).daring = true := by
        split <;> rfl
      simp only [workerMove, hflush]
      exact Nat.add_le_add_right (Bool.toNat_le_toNat hless) _
  | flushing n blocks result => exact le_rfl
  | closing n =>
    simp only [workerMove]
    split
    · exact le_rfl
    · simp [Chunk.schedulable, WorkerPc.daring]
  | storing n => exact Nat.le_succ _
  | caught n e =>
    cases e with
    | other what => exact Nat.le_succ _
    | cget code what =>
      simp only [workerMove]
      split <;> exact (Bool.toNat_le _).trans (Nat.le_add_left _ _)
  | recording n => exact le_rfl
  | sleeping n =>
    simp only [workerMove]
    split <;> exact le_rfl
  | returned => cases hgoing
  | threw e => cases hgoing

/-- Chunk `j` of task `i` can be started. -/
def chanceAt (tasks : List DownloadTask) (i j : Nat) : Nat :=
  ((tasks[i]?.bind (·.chunks[j]?)).any (·.schedulable)).toNat

section ChanceAt

variable {tasks : List DownloadTask} {m n j : Nat} {u : DownloadTask} {c' : Chunk}

theorem chanceAt_eq (hi : tasks[i]? = some t) (hc : t.chunks[j]? = some c) :
    chanceAt tasks i j = c.schedulable.toNat := by
  simp [chanceAt, hi, hc]

theorem chanceAt_task (hne : m ≠ i) : chanceAt (tasks.set m u) i j = chanceAt tasks i j := by
  unfold chanceAt
  rw [List.getElem?_set_ne hne]

theorem chanceAt_chunk (hi : tasks[i]? = some t) (hchunks : u.chunks = t.chunks.set n c') (hne : n ≠ j) :
    chanceAt (tasks.set i u) i j = chanceAt tasks i j := by
  unfold chanceAt
  rw [List.getElem?_set_self (List.getElem?_eq_some_iff.1 hi).1, hi, Option.bind_some, Option.bind_some, hchunks,
    List.getElem?_set_ne hne]

theorem chanceAt_own (hi : tasks[i]? = some t) (hc : t.chunks[j]? = some c) (hchunks : u.chunks = t.chunks.set j c') :
    chanceAt (tasks.set i u) i j = c'.schedulable.toNat := by
  refine chanceAt_eq (List.getElem?_set_self (List.getElem?_eq_some_iff.1 hi).1) ?_
  rw [hchunks, List.getElem?_set_self (List.getElem?_eq_some_iff.1 hc).1]

end ChanceAt

/-- How often a chunk of task `i` with a complete part file can still be started. -/
def SchedState.chances (s : SchedState WorkerPc) (i : Nat) (place : TaskId × Nat) : Nat :=
  chanceAt s.tasks i place.2 + s.workers.countP (fun w => w.place = place && w.daring)

theorem countP_set_add {p : Worker WorkerPc → Bool} {ws : List (Worker WorkerPc)} (v : Worker WorkerPc)
    (hk : ws[k]? = some w) :
    (ws.set k v).countP p + (p w).toNat = ws.countP p + (p v).toNat := by
  obtain ⟨hlt, hget⟩ := List.getElem?_eq_some_iff.1 hk
  have hpos : (p w).toNat ≤ ws.countP p := by
    cases hp : p w with
    | true => exact List.countP_pos_iff.2 ⟨w, List.mem_of_getElem? hk, hp⟩
    | false => exact Nat.zero_le _
  have hone : ∀ b : Bool, (if b then 1 else 0) = b.toNat := fun b => by cases b <;> rfl
  rw [List.countP_set hlt, hget, hone, hone]
  omega

theorem countP_set_le {p : Worker WorkerPc → Bool} {ws : List (Worker WorkerPc)} {v : Worker WorkerPc}
    (hk : ws[k]? = some w) (h : p v → p w) : (ws.set k v).countP p ≤ ws.countP p := by
  have hadd := countP_set_add (p := p) v hk
  have hle := Bool.toNat_le_toNat h
  omega

section Chances

variable (hids : (prepared.map (·.id)).Nodup) (hf : ∀ id, (envs id).Smooth)

include hids hf

/-- An attempt, on this chunk or on another. -/
theorem Afoot.chances_going (h : Afoot envs prepared s) {place : TaskId × Nat} {m : Nat} (hi : prepared[i]? = some t₀)
    (hfound : FoundAt prepared place t₀ c₀) (hcomplete : Complete t₀ c₀ s.world.disk) (hk : s.workers[k]? = some w)
    (hp : w.phase = .executing pc) (hti : s.tasks[m]? = some t) (hid : t.id = w.taskId)
    (hc : t.chunks[w.chunk]? = some c)
    (hgoing : pc.number.isSome) {e : Session} (he : e = { world := s.world, task := t })
    (hts : s'.tasks = s.tasks.set m (e.stepped (envs w.taskId) w.chunk c pc).task)
    (hws : s'.workers = s.workers.set k { w with phase := .executing (e.workerMove (envs w.taskId) c pc).next }) :
    s'.chances i place ≤ s.chances i place := by
  obtain ⟨t₁, c₁, hti₁, hc₁, hframe, hspot⟩ := h.now hi hfound.2.2
  have hid₁ : t₁.id = place.1 := (congrArg Prod.fst hframe).trans hfound.2.1
  have hchunks : (e.stepped (envs w.taskId) w.chunk c pc).task.chunks =
      t.chunks.set w.chunk (e.workerMove (envs w.taskId) c pc).chunk := by
    rw [he]
    exact stepped_chunks
  unfold SchedState.chances
  rw [hts, hws]
  by_cases hplace : w.place = place
  · subst hplace
    obtain rfl := index_unique (h.ids ▸ hids) hti hti₁ (hid.trans hid₁.symm)
    obtain rfl := Option.some.inj (hti.symm.trans hti₁)
    obtain rfl := Option.some.inj (hc.symm.trans hc₁)
    obtain ⟨p, hpath, hfull⟩ := hcomplete
    have hepath : chunkPath e.task c = .ok p := by
      rw [he]
      exact (chunkPath_frame hframe hspot).trans hpath
    have hpart : e.part c = s.world.disk.parts p := by
      unfold Session.part
      rw [hepath, he]
      rfl
    have hless : (e.workerMove (envs w.taskId) c pc).chunk.schedulable.toNat +
        (e.workerMove (envs w.taskId) c pc).next.daring.toNat ≤
        c.schedulable.toNat + pc.daring.toNat := by
      rw [workerMove_smooth (hf w.taskId), hepath]
      refine workerMove_chances ?_ hgoing
      rw [hpart, size_spot hspot]
      exact hfull
    have hcount := countP_set_add (p := fun v => v.place = w.place && v.daring)
      { w with phase := .executing (e.workerMove (envs w.taskId) c pc).next } hk
    have hold : w.daring = pc.daring := by simp [Worker.daring, hp]
    have hown : chanceAt (s.tasks.set m (e.stepped (envs w.taskId) w.chunk c pc).task) m w.place.2 =
        (e.workerMove (envs w.taskId) c pc).chunk.schedulable.toNat := chanceAt_own hti hc hchunks
    have hnew : ({ w with phase := .executing (e.workerMove (envs w.taskId) c pc).next } : Worker WorkerPc).daring =
        (e.workerMove (envs w.taskId) c pc).next.daring := rfl
    have hhere : ({ w with phase := .executing (e.workerMove (envs w.taskId) c pc).next } : Worker WorkerPc).place =
      w.place := rfl
    rw [hown, chanceAt_eq hti (show t.chunks[w.place.2]? = some c from hc)]
    simp only [hhere, hnew, hold, decide_true, Bool.true_and] at hcount
    omega
  · have hcount : (s.workers.set k { w with phase := .executing (e.workerMove (envs w.taskId) c pc).next }).countP
          (fun v => v.place = place && v.daring) ≤ s.workers.countP (fun v => v.place = place && v.daring) :=
      countP_set_le hk fun hv => by
        rw [Bool.and_eq_true, decide_eq_true_eq] at hv
        exact absurd hv.1 hplace
    have hsame : chanceAt (s.tasks.set m (e.stepped (envs w.taskId) w.chunk c pc).task) i place.2 =
        chanceAt s.tasks i place.2 := by
      by_cases hm : m = i
      · subst hm
        obtain rfl := Option.some.inj (hti.symm.trans hti₁)
        exact chanceAt_chunk hti hchunks fun hj => hplace (Prod.ext (hid.symm.trans hid₁) hj)
      · exact chanceAt_task hm
    rw [hsame]
    exact Nat.add_le_add_left hcount _

theorem Dependable.chances (h : Dependable envs prepared s) {place : TaskId × Nat} (hi : prepared[i]? = some t₀)
    (hfound : FoundAt prepared place t₀ c₀) (hcomplete : Complete t₀ c₀ s.world.disk) (hcalm : s'.workerFailed = false)
    (heff : StepEffect (chunkExecutor envs) cfg s choice s') :
    s'.chances i place ≤ s.chances i place ∧
      ∀ v, s'.workers = s.workers ++ [v] → v.place = place → s'.chances i place < s.chances i place := by
  have hflag : s.workerFailed = false := Bool.eq_false_of_not_eq_true fun hx => by simp [heff.failed hx] at hcalm
  obtain ⟨t₁, c₁, hti₁, hc₁, hframe, hspot⟩ := h.now hi hfound.2.2
  have hid₁ : t₁.id = place.1 := (congrArg Prod.fst hframe).trans hfound.2.1
  have hnone : s'.workers.length = s.workers.length → ∀ v, s'.workers = s.workers ++ [v] → v.place = place →
      s'.chances i place < s.chances i place := by
    intro hlen v happend
    rw [happend, List.length_append, List.length_singleton] at hlen
    omega
  have hquiet : s'.tasks = s.tasks → ∀ {k : Nat} {w : Worker WorkerPc} {p : Phase WorkerPc}, s.workers[k]? = some w →
      s'.workers = s.workers.set k { w with phase := p } → p = .leaving ∨ p = .exited →
      s'.chances i place ≤ s.chances i place := by
    intro ht k w p hk hws hp
    unfold SchedState.chances
    rw [ht, hws]
    refine Nat.add_le_add_left (countP_set_le hk fun hv => ?_) _
    rcases hp with rfl | rfl <;> simp [Worker.daring] at hv
  cases heff with
  | idle ht _ hws =>
    refine ⟨?_, hnone (by rw [hws])⟩
    unfold SchedState.chances
    rw [ht, hws]
  | retire k w p hk _ hp ht _ hws => exact ⟨hquiet ht hk hws hp, hnone (by rw [hws, List.length_set])⟩
  | start m j _ _ t c _ _ hti hpick hcj ht _ hws =>
    have hcount : s'.workers.countP (fun w => w.place = place && w.daring) =
        s.workers.countP (fun w => w.place = place && w.daring) := by
      rw [hws, List.countP_append]
      simp [Worker.daring, chunkExecutor, WorkerPc.daring]
    have hchunks : (startedTask t j c).chunks = t.chunks.set j { c with status := .downloading } := rfl
    unfold SchedState.chances
    rw [hcount, ht]
    by_cases hplace : t.id = place.1 ∧ j = place.2
    · obtain ⟨htid, rfl⟩ := hplace
      obtain rfl := index_unique (h.ids ▸ hids) hti hti₁ (htid.trans hid₁.symm)
      have hnow : chanceAt (s.tasks.set m (startedTask t place.2 c)) m place.2 = 0 := by
        rw [chanceAt_own hti hcj hchunks]
        rfl
      have hwas : chanceAt s.tasks m place.2 = 1 := by
        rw [chanceAt_eq hti hcj, Owned.pick_schedulable hpick hcj]
        rfl
      rw [hnow, hwas]
      exact ⟨by omega, fun _ _ _ => by omega⟩
    · have hsame : chanceAt (s.tasks.set m (startedTask t j c)) i place.2 = chanceAt s.tasks i place.2 := by
        by_cases hm : m = i
        · subst hm
          obtain rfl := Option.some.inj (hti.symm.trans hti₁)
          exact chanceAt_chunk hti hchunks fun hj => hplace ⟨hid₁, hj⟩
        · exact chanceAt_task hm
      rw [hsame]
      refine ⟨le_rfl, fun v happend hv => absurd ?_ hplace⟩
      rw [hws] at happend
      obtain rfl := List.singleton_inj.1 (List.append_cancel_left happend)
      exact Prod.mk.inj hv
  | execute k w pc m t _ hk hp hti hid =>
    obtain ⟨u₀, d₀, c, hu₀, hd₀, hc, huframe, huspot⟩ := h.working hids (List.mem_of_getElem? hk) hti hid
    have hturn : Turn envs s k m w t c pc (s.execute (chunkExecutor envs) k w pc m t) := execute_turn (hf _) hti hc
    generalize s.execute (chunkExecutor envs) k w pc m t = s₁ at hturn hcalm hnone hquiet ⊢
    cases hturn with
    | through => exact ⟨hquiet rfl hk rfl (.inl rfl), hnone (List.length_set ..)⟩
    | threw e => cases hcalm
    | going _ e hgoing he =>
      refine ⟨?_, hnone (List.length_set ..)⟩
      exact h.toAfoot.chances_going hids hf hi hfound hcomplete hk hp hti hid hc hgoing he rfl rfl
  | record k w _ _ hk hp _ _ _ _ _ hflag' =>
    rw [h.failed w (List.mem_of_getElem? hk) hp] at hflag
    cases hflag
  | sweep _ _ ht _ hws =>
    refine ⟨?_, hnone (by rw [hws])⟩
    unfold SchedState.chances
    rw [ht, hws, sweep_calm hflag]

end Chances

/-! ## The coordinator on its way out -/

namespace SchedState

variable {ex : Executor WorkerPc}

/-- The check at the top of the loop would leave it. -/
def stopping (s : SchedState WorkerPc) : Bool := s.workerFailed || !s.unfinished

/-- A task still to visit has a chunk to start. -/
def aims (s : SchedState WorkerPc) (order : List Nat) : Bool := order.any fun i => s.tasks[i]?.any hasSchedulableChunk

/-- How far the coordinator is from the joins, if no worker is started. -/
def effort (s : SchedState WorkerPc) : Nat :=
  match s.coordinator with
  | .joining | .returned => 0
  | .top => if s.stopping then 1 else s.tasks.length + 4
  | .waiting => if s.stopping then 2 else s.tasks.length + 5
  | .visiting order _ => if s.stopping || s.aims order then order.length + 3 else s.tasks.length + order.length + 6

theorem effort_eq_zero : s.effort = 0 ↔ s.coordinator = .joining ∨ s.coordinator = .returned := by
  unfold effort
  cases s.coordinator with
  | joining => simp
  | returned => simp
  | top => simp only [reduceCtorEq, or_false, iff_false]; split <;> omega
  | waiting => simp only [reduceCtorEq, or_false, iff_false]; split <;> omega
  | visiting order scheduled => simp only [reduceCtorEq, or_false, iff_false]; split <;> omega

/-- Nothing leads back from the joins. -/
theorem effort_out (h : s.effort = 0) : (s.coordinate ex cfg).effort = 0 := by
  rcases effort_eq_zero.1 h with hc | hc
  · unfold coordinate
    simp only [hc]
    split
    · exact effort_eq_zero.2 (.inr rfl)
    · exact h
  · simp only [coordinate, hc]
    exact h

theorem coordinate_failed : (s.coordinate ex cfg).workerFailed = s.workerFailed := by
  have heff : StepEffect ex cfg s .coordinator (s.coordinate ex cfg) := coordinate_effect
  generalize s.coordinate ex cfg = s' at heff ⊢
  cases heff with
  | execute _ _ _ _ _ hchoice => cases hchoice
  | _ => assumption

theorem visit_coordinator (i : Nat) (order : List Nat) (scheduled : Bool) :
    ∃ rest scheduled', (s.visit ex cfg i order scheduled).coordinator = .visiting rest scheduled' ∧
    (rest = [] ∨ rest = order) := by
  unfold visit
  split
  · exact ⟨[], scheduled, rfl, .inl rfl⟩
  · split
    · exact ⟨order, scheduled, rfl, .inr rfl⟩
    · split
      · exact ⟨order, scheduled, rfl, .inr rfl⟩
      · split
        · exact ⟨order, scheduled, rfl, .inr rfl⟩
        · exact ⟨order, true, rfl, .inr rfl⟩

/-- Once the loop is to be left, every step of the coordinator is a step towards the joins. -/
theorem effort_stopping (hs : s.stopping) (hs' : (s.coordinate ex cfg).stopping) (hgoing : s.effort ≠ 0) :
    (s.coordinate ex cfg).effort < s.effort := by
  cases hc : s.coordinator with
  | top =>
    have hnext : (s.coordinate ex cfg).coordinator = .joining := by
      simp only [coordinate, hc, show (s.workerFailed || !s.unfinished) = true from hs, if_true]
    simp [effort, hc, hnext, hs]
  | visiting order scheduled =>
    cases order with
    | nil =>
      have hnext : (s.coordinate ex cfg).coordinator = if scheduled then .top else .waiting := by
        simp only [coordinate, hc]
      cases scheduled <;> simp [effort, hc, hnext, hs, hs']
    | cons i order =>
      have hvisit : ∃ rest scheduled', (s.visit ex cfg i order scheduled).coordinator = .visiting rest scheduled' ∧
          (rest = [] ∨ rest = order) := visit_coordinator i order scheduled
      obtain ⟨rest, scheduled', hnext, hrest⟩ := hvisit
      have hsame : s.coordinate ex cfg = s.visit ex cfg i order scheduled := by simp only [coordinate, hc]
      rw [← hsame] at hnext
      rcases hrest with rfl | rfl <;> simp [effort, hc, hnext, hs, hs']
  | waiting =>
    have hnext : (s.coordinate ex cfg).coordinator = .top := by simp only [coordinate, hc]
    simp [effort, hc, hnext, hs, hs']
  | joining => exact absurd (effort_eq_zero.2 (.inl hc)) hgoing
  | returned => exact absurd (effort_eq_zero.2 (.inr hc)) hgoing

/-- What an opened quota allows. -/
def Opened (s : SchedState WorkerPc) : Prop := ∀ id, (s.quotas id).taskId ≠ [] → 0 < (s.quotas id).maxConcurrentChunks

theorem Opened.visitQuota (h : s.Opened) (hcfg : 0 < cfg.maxChunksPerTask) (t : DownloadTask) :
    0 < (s.visitQuota cfg t).maxConcurrentChunks := by
  unfold SchedState.visitQuota
  dsimp only
  split
  · split
    · exact Nat.pos_of_ne_zero ‹_›
    · exact hcfg
  · exact h t.id ‹_›

theorem Opened.step (h : s.Opened) (hcfg : 0 < cfg.maxChunksPerTask) (heff : CounterEffect cfg s s') : s'.Opened := by
  intro id
  have hquota := heff.quota id
  revert hquota
  generalize s'.quotas id = q
  intro hquota
  cases hquota with
  | same => exact h id
  | visit i t _ _ => exact fun _ => h.visitQuota hcfg t
  | start i t _ _ _ => exact fun _ => h.visitQuota hcfg t
  | leave => exact h id

section Idle

variable (htallied : Tallied cfg s) (hidle : ∀ w ∈ s.workers, w.phase = .exited)

include htallied hidle

theorem running_of_idle (id : TaskId) : (s.quotas id).runningChunks = 0 := by
  rw [htallied.running]
  refine List.countP_eq_zero.2 fun w hw => ?_
  simp [Worker.live, hidle w hw]

theorem busy_of_idle : s.busyWorkers = 0 := by
  rw [htallied.busy]
  refine List.countP_eq_zero.2 fun w hw => ?_
  simp [Worker.live, hidle w hw]

theorem active_of_idle : s.activeTasks = 0 := by
  rw [htallied.active, Finset.card_eq_zero, Finset.eq_empty_iff_forall_notMem]
  intro id hid
  rw [mem_liveTasks, ← htallied.running, running_of_idle htallied hidle] at hid
  exact absurd hid (lt_irrefl 0)

theorem stopping_of_idle (hcalm : s.workerFailed = false) : s.stopping = !s.tasks.any hasSchedulableChunk := by
  simp only [stopping, unfinished, hcalm, Bool.false_or, running_of_idle htallied hidle, lt_irrefl, decide_false,
    Bool.or_false]

/-- With no worker left, a visit to a task with a chunk to start starts a worker. -/
theorem pick_of_idle (hopened : s.Opened) (hchunks : 0 < cfg.maxChunksPerTask) (htasks : 0 < cfg.maxConcurrentTasks)
    (ht : hasSchedulableChunk t) : ∃ j c, s.pick cfg t = some j ∧ t.chunks[j]? = some c := by
  have hquota := hopened.visitQuota hchunks t
  have hactive := active_of_idle htallied hidle
  have hany : t.chunks.any (·.schedulable) := (Bool.and_eq_true_iff.1 ht).2
  cases hj : selectNextChunk t with
  | none => exact absurd hany (by simpa [selectNextChunk] using hj)
  | some j =>
    have hpick : s.pick cfg t = some j := by
      unfold pick
      dsimp only
      rw [visitQuota_running, running_of_idle htallied hidle, hactive, ht, hj]
      simp [hquota.ne', htasks.ne']
    obtain ⟨-, c, hc, -⟩ := pick_spec hpick
    exact ⟨j, c, hpick, hc⟩

variable (hopened : s.Opened) (hchunks : 0 < cfg.maxChunksPerTask) (htasks : 0 < cfg.maxConcurrentTasks)
  (hworkers : 0 < cfg.maxGlobalWorkers)

include hopened hchunks htasks hworkers

/-- A visit that starts no worker found nothing to start. -/
theorem visit_of_idle {order : List Nat} {scheduled : Bool}
    (hnone : ∀ v, (s.visit ex cfg i order scheduled).workers ≠ s.workers ++ [v]) :
    (s.visit ex cfg i order scheduled).coordinator = .visiting order scheduled ∧
    (s.visit ex cfg i order scheduled).tasks = s.tasks ∧
      s.aims (i :: order) = s.aims order := by
  have haims : (∀ t, s.tasks[i]? = some t → hasSchedulableChunk t = false) → s.aims (i :: order) = s.aims order := by
    intro hnothing
    unfold aims
    rw [List.any_cons]
    cases hti : s.tasks[i]? with
    | none => rfl
    | some t => rw [Option.any_some, hnothing t hti, Bool.false_or]
  revert hnone
  unfold visit
  rw [if_neg (by rw [busy_of_idle htallied hidle]; omega)]
  cases hti : s.tasks[i]? with
  | none =>
    exact fun _ => ⟨rfl, rfl, haims fun t ht => by
      rw [hti] at ht
      cases ht⟩
  | some t =>
    dsimp only
    cases ht : hasSchedulableChunk t with
    | true =>
      obtain ⟨j, c, hpick, hc⟩ := pick_of_idle htallied hidle hopened hchunks htasks ht
      rw [hpick]
      dsimp only
      rw [hc]
      exact fun hnone => absurd rfl (hnone _)
    | false =>
      have hpick : s.pick cfg t = none := by
        unfold pick
        simp [ht]
      rw [hpick]
      exact fun _ => ⟨rfl, rfl, haims fun u hu => by rwa [← Option.some.inj (hti.symm.trans hu)]⟩

/-- With no worker left and none started, every step of the coordinator is a step towards the joins. -/
theorem effort_of_idle (hcalm : s.workerFailed = false) (hnone : ∀ v, (s.coordinate ex cfg).workers ≠ s.workers ++ [v])
    (hgoing : s.effort ≠ 0) : (s.coordinate ex cfg).effort < s.effort := by
  have hstopping := stopping_of_idle htallied hidle hcalm
  cases hc : s.coordinator with
  | top =>
    cases hs : s.stopping with
    | true =>
      have hnext : (s.coordinate ex cfg).coordinator = .joining := by
        simp only [coordinate, hc, show (s.workerFailed || !s.unfinished) = true from hs, if_true]
      simp [effort, hc, hnext, hs]
    | false =>
      have hnext : s.coordinate ex cfg = { s with coordinator := .visiting (s.taskOrder cfg) false } := by
        simp only [coordinate, hc, show (s.workerFailed || !s.unfinished) = false from hs, Bool.false_eq_true, if_false]
      have horder := (taskOrder_inOrder cfg s).all
      have haims : s.aims (s.taskOrder cfg) := by
        rw [hs, eq_comm, Bool.not_eq_false', List.any_eq_true] at hstopping
        obtain ⟨t, ht, hsched⟩ := hstopping
        obtain ⟨i, hi⟩ := List.mem_iff_getElem?.1 ht
        refine List.any_eq_true.2 ⟨i, ?_, by rw [hi]; exact hsched⟩
        exact horder.mem_iff.2 (List.mem_range.2 (List.getElem?_eq_some_iff.1 hi).1)
      have hlen : (s.taskOrder cfg).length = s.tasks.length := horder.length_eq.trans List.length_range
      have haims' : (s.coordinate ex cfg).aims (s.taskOrder cfg) := by
        rw [hnext]
        exact haims
      have hnext' : (s.coordinate ex cfg).coordinator = .visiting (s.taskOrder cfg) false := by rw [hnext]
      simp [effort, hc, hnext', hs, haims', hlen]
  | visiting order scheduled =>
    cases order with
    | nil =>
      have hnext : s.coordinate ex cfg = { s with coordinator := if scheduled then .top else .waiting } := by
        simp only [coordinate, hc]
      have hs : (s.coordinate ex cfg).stopping = s.stopping := by rw [hnext]; rfl
      have hlen : (s.coordinate ex cfg).tasks.length = s.tasks.length := by rw [hnext]
      have hnext' : (s.coordinate ex cfg).coordinator = if scheduled then .top else .waiting := by rw [hnext]
      have haims : s.aims [] = false := rfl
      cases scheduled <;> cases hstop : s.stopping <;> simp [effort, hc, hnext', hs, hlen, hstop, haims]
    | cons i order =>
      have hsame : s.coordinate ex cfg = s.visit ex cfg i order scheduled := by simp only [coordinate, hc]
      obtain ⟨hnext, hts, haims⟩ := visit_of_idle htallied hidle hopened hchunks htasks hworkers (hsame ▸ hnone)
      rw [← hsame] at hnext hts
      have hidle' : ∀ w ∈ (s.coordinate ex cfg).workers, w.phase = .exited := by
        rcases coordinate_workers ex cfg s with hws | ⟨v, hws⟩
        · rw [hws]
          exact hidle
        · exact absurd hws (hnone v)
      have hcalm' : (s.coordinate ex cfg).workerFailed = false := coordinate_failed.trans hcalm
      have hs : (s.coordinate ex cfg).stopping = s.stopping := by
        rw [hstopping, stopping_of_idle (htallied.step coordinate_counters) hidle' hcalm', hts]
      have haims' : (s.coordinate ex cfg).aims order = s.aims order := by rw [aims, hts]; rfl
      cases hstop : s.stopping <;> cases haim : s.aims order <;>
        simp [effort, hc, hnext, hs, hts, haims, haims', hstop, haim]
  | waiting =>
    have hnext : s.coordinate ex cfg = { s with coordinator := .top } := by simp only [coordinate, hc]
    have hs : (s.coordinate ex cfg).stopping = s.stopping := by rw [hnext]; rfl
    have hlen : (s.coordinate ex cfg).tasks.length = s.tasks.length := by rw [hnext]
    have hnext' : (s.coordinate ex cfg).coordinator = .top := by rw [hnext]
    cases hstop : s.stopping <;> simp [effort, hc, hnext', hs, hlen, hstop]
  | joining => exact absurd (effort_eq_zero.2 (.inl hc)) hgoing
  | returned => exact absurd (effort_eq_zero.2 (.inr hc)) hgoing

end Idle

end SchedState

/-! ## Endless runs -/

/-- The state after `n` steps. -/
abbrev SchedState.after (envs : TaskId → Env) (cfg : SchedulerConfig) (s : SchedState WorkerPc)
    (schedule : ℕ → Choice) (n : ℕ) :
    SchedState WorkerPc := trace (step (chunkExecutor envs) cfg) s schedule n

/-- A worker has its turn outside of the passes, which keep `stateMutex`. -/
def SchedState.ready (s : SchedState WorkerPc) : Choice → Prop
  | .coordinator => True
  | .worker _ => s.passing = false

section Endless

variable {schedule : ℕ → Choice} {start : SchedState WorkerPc}

theorem Afoot.after (hids : (prepared.map (·.id)).Nodup) (hf : ∀ id, (envs id).Smooth)
    (h : Afoot envs prepared start) (n : ℕ) :
    Afoot envs prepared (start.after envs cfg schedule n) :=
  trace_inv (I := Afoot envs prepared) (fun _ c h => h.step hids hf (step_effect c)) h n

variable (hids : (prepared.map (·.id)).Nodup) (hf : ∀ id, (envs id).Smooth) (h : Afoot envs prepared start)

include hids hf h

/-- Every worker is gone from some step on. -/
theorem worker_exits (hfair : Fair (step (chunkExecutor envs) cfg) SchedState.ready start schedule) {n : ℕ}
    (hk : (start.after envs cfg schedule n).workers[k]? = some w) :
    ∀ᶠ m in atTop, ∃ w', (start.after envs cfg schedule m).workers[k]? = some w' ∧ w'.place = w.place ∧
    w'.phase = .exited := by
  have hplace : ∀ {v v' : Worker WorkerPc}, v' = v ∨ v.Nearer envs v' → v'.place = v.place := by
    rintro v v' (rfl | hnearer)
    · rfl
    · exact hnearer.1
  -- it keeps its place in the list
  have hthere : ∀ᶠ m in atTop, Afoot envs prepared (start.after envs cfg schedule m) ∧
      ∃ v, (start.after envs cfg schedule m).workers[k]? = some v ∧ v.place = w.place := by
    refine trace_from (I := fun s => Afoot envs prepared s ∧ ∃ v, s.workers[k]? = some v ∧ v.place = w.place) ?_
      ⟨h.after hids hf n, w, hk, rfl⟩
    rintro s c ⟨h, v, hv, hvw⟩
    obtain ⟨v', hv', hway, -⟩ := h.worker hids hf cfg hv c
    exact ⟨h.step hids hf (step_effect c), v', hv', (hplace hway).trans hvw⟩
  refine hfair.rests (.worker k)
    (fun s => (s.workers[k]?.map (Worker.remaining envs)).getD (toLex (0, toLex (0, toLex (0, 0)))))
    (fun s => ∃ v, s.workers[k]? = some v ∧ v.place = w.place ∧ v.phase = .exited) ?_ ?_ ?_
  · refine hthere.mono fun m ⟨h, v, hv, _⟩ => ?_
    obtain ⟨v', hv', hway, -⟩ := h.worker hids hf cfg hv (schedule m)
    rw [hv, show (start.after envs cfg schedule (m + 1)).workers[k]? = some v' from hv']
    rcases hway with rfl | hnearer
    · exact le_rfl
    · exact hnearer.2.le
  · refine hthere.mono fun m ⟨h, v, hv, hvw⟩ hk hready hgoing => ?_
    have hphase : v.phase ≠ .exited := fun hexited => hgoing ⟨v, hv, hvw, hexited⟩
    obtain ⟨v', hv', -, hnearer⟩ := h.worker hids hf cfg hv (schedule m)
    rw [hv, show (start.after envs cfg schedule (m + 1)).workers[k]? = some v' from hv']
    exact (hnearer hk hready hphase).2
  · refine hthere.mono fun m ⟨h, _⟩ ⟨v, hv, hvw, hexited⟩ => ?_
    obtain ⟨v', hv', hway, -⟩ := h.worker hids hf cfg hv (schedule m)
    rcases hway with rfl | hnearer
    · exact ⟨v', hv', hvw, hexited⟩
    · -- nothing is nearer to its end than one that is gone
      have hless := hnearer.2
      simp only [Worker.remaining, hexited] at hless
      split at hless <;> simp [Prod.Lex.toLex_lt_toLex] at hless

/-- If no worker is started any more, all of them are gone at last. -/
theorem workers_exit (hfair : Fair (step (chunkExecutor envs) cfg) SchedState.ready start schedule)
    (hnone : ∀ᶠ n in atTop, ∀ v, (start.after envs cfg schedule (n + 1)).workers ≠
      (start.after envs cfg schedule n).workers ++ [v]) :
    ∀ᶠ n in atTop, ∀ w ∈ (start.after envs cfg schedule n).workers, w.phase = .exited := by
  obtain ⟨N, hN⟩ := eventually_atTop.1 hnone
  have hlen : ∀ n ≥ N, (start.after envs cfg schedule n).workers.length =
      (start.after envs cfg schedule N).workers.length := by
    refine Nat.le_induction rfl fun n hn ih => ?_
    have heff : StepEffect (chunkExecutor envs) cfg (start.after envs cfg schedule n) (schedule n)
      (start.after envs cfg schedule (n + 1)) := step_effect _
    rcases heff.workers with hsame | ⟨⟨v, happend⟩, -⟩
    · exact hsame.trans ih
    · exact absurd happend (hN n hn v)
  have hgone : ∀ᶠ n in atTop, ∀ k ∈ Finset.range (start.after envs cfg schedule N).workers.length, ∀ w,
      (start.after envs cfg schedule n).workers[k]? = some w → w.phase = .exited := by
    rw [eventually_all_finset]
    intro k hk
    have hthere := List.getElem?_eq_getElem (Finset.mem_range.1 hk)
    refine (worker_exits hids hf h hfair hthere).mono fun n hn w hw => ?_
    obtain ⟨w', hw', -, hexited⟩ := hn
    obtain rfl := Option.some.inj (hw'.symm.trans hw)
    exact hexited
  filter_upwards [hgone, eventually_ge_atTop N] with n hn hle w hw
  obtain ⟨k, hk⟩ := List.mem_iff_getElem?.1 hw
  exact hn k (Finset.mem_range.2 (hlen n hle ▸ (List.getElem?_eq_some_iff.1 hk).1)) w hk

omit hids hf h in
/-- The coordinator comes to the joins, if its steps are steps towards them. -/
theorem joins_of_effort (hfair : Fair (step (chunkExecutor envs) cfg) SchedState.ready start schedule)
    (halive : ∀ n, (start.after envs cfg schedule n).crashed = false)
    (hwork : ∀ᶠ n in atTop, ∀ k,
      ((start.after envs cfg schedule n).work (chunkExecutor envs) k).effort = (start.after envs cfg schedule n).effort)
    (hless : ∀ᶠ n in atTop, schedule n = .coordinator → (start.after envs cfg schedule n).effort ≠ 0 →
      ((start.after envs cfg schedule n).coordinate (chunkExecutor envs) cfg).effort <
      (start.after envs cfg schedule n).effort) :
    ∀ᶠ n in atTop, (start.after envs cfg schedule n).effort = 0 := by
  have hcoordinator : ∀ n, schedule n = .coordinator →
      start.after envs cfg schedule (n + 1) = (start.after envs cfg schedule n).coordinate
        (chunkExecutor envs) cfg := by
    intro n hc
    rw [← step_coordinator (halive n), ← hc]
    rfl
  have hworker : ∀ n k, schedule n = .worker k →
      start.after envs cfg schedule (n + 1) = (start.after envs cfg schedule n).work (chunkExecutor envs) k := by
    intro n k hc
    rw [← step_worker cfg (halive n), ← hc]
    rfl
  have hstays : ∀ᶠ n in atTop, (start.after envs cfg schedule n).effort = 0 →
      (start.after envs cfg schedule (n + 1)).effort = 0 := by
    filter_upwards [hwork] with n hwork hzero
    cases hc : schedule n with
    | worker k => rw [hworker n k hc, hwork k, hzero]
    | coordinator => rw [hcoordinator n hc, effort_out hzero]
  refine hfair.rests .coordinator SchedState.effort (fun s => s.effort = 0) ?_ ?_ hstays
  · filter_upwards [hwork, hless, hstays] with n hwork hless hstays
    by_cases hzero : (start.after envs cfg schedule n).effort = 0
    · exact (hstays hzero).le.trans (Nat.zero_le _)
    · cases hc : schedule n with
      | worker k => exact (congrArg SchedState.effort (hworker n k hc)).trans (hwork k) |>.le
      | coordinator => exact (congrArg SchedState.effort (hcoordinator n hc)).trans_lt (hless hc hzero) |>.le
  · filter_upwards [hless] with n hless hc _ hgoing
    exact (congrArg SchedState.effort (hcoordinator n hc)).trans_lt (hless hc hgoing)

/-- After a failure the loop is left. -/
theorem joins_of_failed (hfair : Fair (step (chunkExecutor envs) cfg) SchedState.ready start schedule) {n : ℕ}
    (hfailed : (start.after envs cfg schedule n).workerFailed) :
    ∀ᶠ n in atTop, (start.after envs cfg schedule n).effort = 0 := by
  have hlast : ∀ᶠ n in atTop, (start.after envs cfg schedule n).workerFailed :=
    trace_from (I := fun s : SchedState WorkerPc => s.workerFailed) (fun s c hs => (step_effect c).failed hs) hfailed
  refine joins_of_effort hfair (fun n => (h.after hids hf n).alive) ?_ ?_
  · filter_upwards [hlast] with n hn k
    have heff : StepEffect (chunkExecutor envs) cfg (start.after envs cfg schedule n) (.worker k) _ := work_effect k
    unfold SchedState.effort stopping
    rw [work_coordinator, heff.failed hn, hn]
    rfl
  · filter_upwards [hlast] with n hn _ hgoing
    refine effort_stopping ?_ ?_ hgoing
    · simp [stopping, hn]
    · simp [stopping, coordinate_failed, hn]

/-- Without a failure no worker is started any more at a place, once one has come to its end there. -/
theorem starts_end_at (happ : PartsApart prepared) (hdep : Dependable envs prepared start)
    (hfair : Fair (step (chunkExecutor envs) cfg) SchedState.ready start schedule)
    (hcalm : ∀ n, (start.after envs cfg schedule n).workerFailed = false) (place : TaskId × Nat) :
    ∀ᶠ n in atTop, ∀ v, (start.after envs cfg schedule (n + 1)).workers =
    (start.after envs cfg schedule n).workers ++ [v] →
      v.place ≠ place := by
  by_cases hever : ∃ n, ∃ w ∈ (start.after envs cfg schedule n).workers, w.place = place
  · obtain ⟨n, w, hw, rfl⟩ := hever
    obtain ⟨k, hk⟩ := List.mem_iff_getElem?.1 hw
    obtain ⟨t₀, c₀, hfound⟩ := (h.after hids hf n).home w hw
    obtain ⟨i, hi⟩ := List.mem_iff_getElem?.1 hfound.1
    have hdependable : ∀ n, Dependable envs prepared (start.after envs cfg schedule n) := fun n =>
      trace_inv (I := Dependable envs prepared) (fun _ c h => h.step hids happ hf (step_effect c)) hdep n
    -- its part file is complete by then
    obtain ⟨m, w', hw', hplace, hexited⟩ := (worker_exits hids hf h hfair hk).exists
    have hcomplete : Complete t₀ c₀ (start.after envs cfg schedule m).world.disk := by
      have hreliable := (hdependable m).reliable w' (List.mem_of_getElem? hw') t₀ c₀ (hplace ▸ hfound)
      unfold Worker.Reliable at hreliable
      rw [hexited] at hreliable
      exact hreliable.resolve_left (by simp [hcalm m])
    have hstays : ∀ᶠ n in atTop, Afoot envs prepared (start.after envs cfg schedule n) ∧
        Complete t₀ c₀ (start.after envs cfg schedule n).world.disk :=
      trace_from (I := fun s => Afoot envs prepared s ∧ Complete t₀ c₀ s.world.disk)
        (fun s c hs => ⟨hs.1.step hids hf (step_effect c), hs.1.complete hids happ hf hfound hs.2 (step_effect c)⟩)
        ⟨h.after hids hf m, hcomplete⟩
    have hchances := hstays.mono fun n hn =>
      (hdependable n).chances hids hf hi hfound hn.2 (hcalm (n + 1)) (step_effect (schedule n))
    have hfew := eventually_stays (f := fun n => (start.after envs cfg schedule n).chances i w.place)
      (hchances.mono fun n hn => hn.1)
    filter_upwards [hchances, hfew] with n hn hsame v happend hv
    exact (hn.2 v happend hv).ne hsame
  · refine .of_forall fun n v happend hv => hever ⟨n + 1, v, ?_, hv⟩
    rw [happend]
    exact List.mem_append_right _ (List.mem_singleton_self v)

/-- Without a failure only finitely many workers are started. -/
theorem starts_end (happ : PartsApart prepared) (hdep : Dependable envs prepared start)
    (hfair : Fair (step (chunkExecutor envs) cfg) SchedState.ready start schedule)
    (hcalm : ∀ n, (start.after envs cfg schedule n).workerFailed = false) :
    ∀ᶠ n in atTop, ∀ v, (start.after envs cfg schedule (n + 1)).workers ≠
    (start.after envs cfg schedule n).workers ++ [v] := by
  let places : List (TaskId × Nat) := prepared.flatMap fun t => (List.range t.chunks.length).map fun j => (t.id, j)
  have hnone : ∀ᶠ n in atTop, ∀ place ∈ places.toFinset, ∀ v,
      (start.after envs cfg schedule (n + 1)).workers = (start.after envs cfg schedule n).workers ++ [v] →
      v.place ≠ place := by
    rw [eventually_all_finset]
    exact fun place _ => starts_end_at hids hf h happ hdep hfair hcalm place
  filter_upwards [hnone] with n hn v happend
  have hmem : v ∈ (start.after envs cfg schedule (n + 1)).workers := by
    rw [happend]
    exact List.mem_append_right _ (List.mem_singleton_self v)
  obtain ⟨t₀, c₀, ht₀, hid, hc₀⟩ := (h.after hids hf (n + 1)).home v hmem
  refine hn v.place (List.mem_toFinset.2 (List.mem_flatMap.2 ⟨t₀, ht₀, List.mem_map.2 ⟨v.chunk, ?_, ?_⟩⟩)) v happend rfl
  · exact List.mem_range.2 (List.getElem?_eq_some_iff.1 hc₀).1
  · exact Prod.ext hid rfl

/-- Without a failure the loop is left when there is nothing more to start. -/
theorem joins_of_calm (happ : PartsApart prepared) (hdep : Dependable envs prepared start)
    (hfair : Fair (step (chunkExecutor envs) cfg) SchedState.ready start schedule)
    (htallied : Tallied cfg start) (hopened : start.Opened) (hchunks : 0 < cfg.maxChunksPerTask)
    (htasks : 0 < cfg.maxConcurrentTasks)
    (hworkers : 0 < cfg.maxGlobalWorkers) (hcalm : ∀ n, (start.after envs cfg schedule n).workerFailed = false) :
    ∀ᶠ n in atTop, (start.after envs cfg schedule n).effort = 0 := by
  have hnone := starts_end hids hf h happ hdep hfair hcalm
  have hgone := workers_exit hids hf h hfair hnone
  have hcounts : ∀ n, Tallied cfg (start.after envs cfg schedule n) ∧ (start.after envs cfg schedule n).Opened :=
    trace_inv (I := fun s => Tallied cfg s ∧ s.Opened)
      (fun s c hs => by
        have hcounters : CounterEffect cfg s (step (chunkExecutor envs) cfg s c) := step_counters c
        exact ⟨hs.1.step hcounters, hs.2.step hchunks hcounters⟩) ⟨htallied, hopened⟩
  refine joins_of_effort hfair (fun n => (h.after hids hf n).alive) ?_ ?_
  · filter_upwards [hgone] with n hn k
    rw [work_exited hn k]
  · filter_upwards [hnone, hgone] with n hnone hgone hc hgoing
    refine effort_of_idle (hcounts n).1 hgone (hcounts n).2 hchunks htasks hworkers (hcalm n)
      (fun v happend => hnone v ?_) hgoing
    rw [show start.after envs cfg schedule (n + 1) = step (chunkExecutor envs) cfg (start.after envs cfg schedule n)
      (schedule n) from rfl, hc, step_coordinator (h.after hids hf n).alive]
    exact happend

end Endless

/-! ## `Scheduler::run` returns -/

/-- Nothing happens after the end. -/
theorem step_returned {ex : Executor WorkerPc} (hreturned : s.coordinator = .returned)
    (hgone : ∀ w ∈ s.workers, w.phase = .exited) (choice : Choice) : SchedState.step ex cfg s choice = s := by
  unfold SchedState.step
  split
  · rfl
  · cases choice with
    | coordinator => simp only [coordinate, hreturned]
    | worker k => exact work_exited hgone k

/-- The joins end when all workers are gone. -/
theorem coordinate_joined {ex : Executor WorkerPc} (hc : s.coordinator = .joining)
    (hgone : ∀ w ∈ s.workers, w.phase = .exited) :
    (s.coordinate ex cfg).coordinator = .returned := by
  unfold coordinate
  simp only [hc]
  split
  · rfl
  · rename_i hnot
    exact absurd (List.all_eq_true.2 fun w hw => by rw [hgone w hw]) hnot

theorem Afoot.initial (envs : TaskId → Env) (tasks : List DownloadTask) (w : World) :
    Afoot envs tasks { tasks, world := w } :=
  ⟨rfl, rfl, fun v hv => (by cases hv), fun v hv => (by cases hv), fun v hv => (by cases hv)⟩

theorem Dependable.initial (envs : TaskId → Env) (tasks : List DownloadTask) (w : World) :
    Dependable envs tasks { tasks, world := w } :=
  ⟨Afoot.initial envs tasks w, fun v hv => (by cases hv)⟩

/-- If each thread gets its turn again and again and no file operation fails, `Scheduler::run` returns. -/
theorem scheduler_returns (envs : TaskId → Env) (config : SchedulerConfig) (tasks : List DownloadTask) (w : World)
    (schedule : ℕ → Choice)
    (hf : ∀ id, (envs id).Smooth) (hids : (tasks.map (·.id)).Nodup) (happ : PartsApart tasks)
    (hfair : Fair (step (chunkExecutor envs) config.normalized) SchedState.ready { tasks, world := w } schedule) :
    ∃ ts w', ∀ᶠ n in atTop,
      (schedulerRun (chunkExecutor envs) config ((List.range n).map schedule) tasks).run w = (.ok ts, w') := by
  obtain ⟨start, hstart⟩ : ∃ start : SchedState WorkerPc, start = { tasks, world := w } := ⟨_, rfl⟩
  rw [← hstart] at hfair
  have h : Afoot envs tasks start := hstart ▸ .initial envs tasks w
  have hout : ∀ᶠ n in atTop, (start.after envs config.normalized schedule n).effort = 0 := by
    by_cases hcalm : ∀ n, (start.after envs config.normalized schedule n).workerFailed = false
    · refine joins_of_calm hids hf h happ (hstart ▸ .initial envs tasks w) hfair (hstart ▸ .initial _ tasks w) ?_
        (Nat.le_max_left ..) (Nat.le_max_left ..) (Nat.le_max_left ..) hcalm
      rw [hstart]
      exact fun id hid => absurd rfl hid
    · obtain ⟨n, hn⟩ := not_forall.1 hcalm
      exact joins_of_failed hids hf h hfair (Bool.eq_true_of_not_eq_false hn)
  have hnone : ∀ᶠ n in atTop, ∀ v,
      (start.after envs config.normalized schedule (n + 1)).workers ≠
      (start.after envs config.normalized schedule n).workers ++ [v] := by
    filter_upwards [hout] with n hn v happend
    have heff : StepEffect (chunkExecutor envs) config.normalized (start.after envs config.normalized schedule n)
        (schedule n)
      (start.after envs config.normalized schedule (n + 1)) := step_effect _
    rcases heff.workers with hsame | ⟨-, order, scheduled, hvisiting⟩
    · rw [happend, List.length_append, List.length_singleton] at hsame
      omega
    · rcases effort_eq_zero.1 hn with hc | hc <;> rw [hvisiting] at hc <;> cases hc
  have hgone := workers_exit hids hf h hfair hnone
  -- the next turn of the coordinator ends the joins
  obtain ⟨N, hN⟩ := eventually_atTop.1 (hout.and hgone)
  obtain ⟨m, hm, hturn, -⟩ := hfair .coordinator N
  obtain ⟨hzero, hexited⟩ := hN m hm
  have hreturned : (start.after envs config.normalized schedule (m + 1)).coordinator = .returned := by
    rw [show start.after envs config.normalized schedule (m + 1) =
      step (chunkExecutor envs) config.normalized (start.after envs config.normalized schedule m)
        (schedule m) from rfl, hturn,
      step_coordinator (h.after hids hf m).alive]
    rcases effort_eq_zero.1 hzero with hc | hc
    · exact coordinate_joined hc hexited
    · simp only [coordinate, hc]
  have hfixed : ∀ c, step (chunkExecutor envs) config.normalized
      (start.after envs config.normalized schedule (m + 1)) c =
      start.after envs config.normalized schedule (m + 1) :=
      step_returned hreturned (hN (m + 1) (Nat.le_succ_of_le hm)).2
  have hstays := trace_fixed hfixed
  refine ⟨(start.after envs config.normalized schedule (m + 1)).tasks,
    (start.after envs config.normalized schedule (m + 1)).world, eventually_atTop.2 ⟨m + 1, fun n hn => ?_⟩⟩
  have hrun : SchedState.runs (chunkExecutor envs) config.normalized { tasks, world := w }
    ((List.range n).map schedule) =
      start.after envs config.normalized schedule (m + 1) := by
    rw [← hstart]
    exact (trace_eq_run n).symm.trans (hstays n hn)
  unfold schedulerRun
  dsimp only
  rw [hrun, (h.after hids hf (m + 1)).alive, hreturned]
  rfl

/-- A task whose first request is cut off. -/
def cutOffTask : DownloadTask :=
  { halfTask with
    status := .queued
    fileSize := 7
    chunks := [{ stop := 2, tempPath := text "chunk_0.part" },
      { index := 1, start := 3, stop := 6, tempPath := text "chunk_1.part" }] }

def turnOf : Nat → Choice
  | 0 => .coordinator
  | k + 1 => .worker k

/-- The coordinator and four workers in turn; later on, all workers there might be. -/
def inTurn (n : Nat) : Choice := turnOf (if n < 200 then n % 5 else n.unpair.1)

theorem inTurn_often (choice : Choice) (n : Nat) : ∃ m ≥ n, inTurn m = choice := by
  have hcode : ∃ k, turnOf k = choice := by
    cases choice with
    | coordinator => exact ⟨0, rfl⟩
    | worker k => exact ⟨k + 1, rfl⟩
  obtain ⟨k, rfl⟩ := hcode
  have hle : max n 200 ≤ Nat.pair k (max n 200) := Nat.right_le_pair k _
  refine ⟨Nat.pair k (max n 200), (le_max_left n 200).trans hle, ?_⟩
  unfold inTurn
  rw [if_neg (Nat.not_lt.2 ((le_max_right n 200).trans hle)), Nat.unpair_pair]

/-- The chunk cut off is started again while its first worker waits. -/
theorem scheduler_returns_cut_off :
    ∃ ts w', ∀ᶠ n in atTop, (schedulerRun (chunkExecutor fun _ => flaky) {} ((List.range n).map inTurn)
      [cutOffTask]).run {} = (.ok ts, w') := by
  refine scheduler_returns (fun _ => flaky) {} [cutOffTask] {} inTurn (fun _ _ => ⟨rfl, rfl⟩)
    (List.nodup_singleton _) ?_ ?_
  · simp only [PartsApart, List.mem_singleton, forall_eq, true_and]
    intro j k c d p hc hd hpc hpd
    exact index_unique (by decide) hc hd (chunkPath_inj hpc hpd)
  · have hend : (trace (step (chunkExecutor fun _ => flaky) ({} : SchedulerConfig).normalized)
        { tasks := [cutOffTask], world := {} } inTurn 200).coordinator = .returned ∧
        ∀ w ∈ (trace (step (chunkExecutor fun _ => flaky) ({} : SchedulerConfig).normalized)
          { tasks := [cutOffTask], world := {} } inTurn 200).workers, w.phase = .exited := by
      rw [trace_eq_run]
      decide +kernel
    refine fair_of_fixed (N := 200) (fun choice => step_returned hend.1 hend.2 choice) (fun choice => ?_) inTurn_often
    cases choice with
    | coordinator => trivial
    | worker k => simp [SchedState.ready, passing, hend.1]

end Cget
