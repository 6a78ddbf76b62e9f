import Cget.Ownership
/-!
# Two workers on one chunk

A pass that meets a chunk in a retry pause starts a second worker on it. If no pass does,
no chunk ever has two.
-/

namespace Cget

open SchedState

variable {envs : TaskId → Env} {s : SchedState WorkerPc}

/-- The worker is in its executor. -/
def Worker.executing (w : Worker WorkerPc) : Bool := match w.phase with | .executing _ => true | _ => false

/-- No two workers execute the same chunk. -/
def OneWorkerPerChunk (s : SchedState WorkerPc) : Prop :=
  ∀ (j k : Nat) (v w : Worker WorkerPc), s.workers[j]? = some v → s.workers[k]? = some w →
    v.executing → w.executing → v.taskId = w.taskId → v.chunk = w.chunk → j = k

/-- The rule that says nothing. -/
def noRule (envs : TaskId → Env) : ChunkRule envs where
  sees := False
  fails := True
  idle _ _ _ _ := True
  busy _ _ _ _ _ := True
  idle_frame _ _ h := h
  busy_frame _ _ h := h
  start h _ _ := ⟨h, h⟩
  move _ h _ := h
  finish h := h
  fail _ _ _ _ _ _ h := ⟨h, h⟩

theorem Worker.active_of_executing {w : Worker WorkerPc} (h : w.executing) : w.active := by
  simp only [Worker.executing] at h
  simp only [Worker.active]
  split at h
  · rename_i hp; simp [hp]
  · cases h

theorem Owned.oneWorkerPerChunk {R : ChunkRule envs} (h : Owned R s) : OneWorkerPerChunk s :=
  fun j k v w hj hk hv hw => h.alone j k v w hj hk (Worker.active_of_executing hv) (Worker.active_of_executing hw)

/-- A process that dies starts no worker. -/
theorem SchedState.StepEffect.crash {L : Type} {ex : Executor L} {cfg : SchedulerConfig} {s s' : SchedState L}
    {c : Choice}
    (heff : StepEffect ex cfg s c s') (h : s.crashed = false) (h' : s'.crashed = true) : s'.workers = s.workers := by
  cases heff with
  | execute k w l i t =>
    revert h'
    unfold SchedState.execute
    dsimp only
    split
    · exact fun h' => absurd h' (by simp [setTask, setPhase, h])
    · exact fun h' => absurd h' (by simp [setTask, setPhase, h])
    · exact fun h' => absurd h' (by simp [setTask, setPhase, h])
    · exact fun _ => rfl
  | idle _ _ _ _ hcr => rw [hcr, h] at h'; cases h'
  | retire _ _ _ _ _ _ _ _ _ _ hcr => rw [hcr, h] at h'; cases h'
  | start _ _ _ _ _ _ _ _ _ _ _ _ _ _ _ hcr => rw [hcr, h] at h'; cases h'
  | record _ _ _ _ _ _ _ _ _ _ _ _ hcr => rw [hcr, h] at h'; cases h'
  | sweep _ _ _ _ _ _ hcr => rw [hcr, h] at h'; cases h'

/-- In every run whose passes start no chunk whose worker is in a pause, no state has two
workers on one chunk. -/
theorem one_worker_per_chunk (envs : TaskId → Env) (config : SchedulerConfig) (tasks : List DownloadTask) (w : World)
    (schedule : List Choice) (hids : (tasks.map (·.id)).Nodup)
    (hsafe : GuardedRun (step (chunkExecutor envs) config.normalized) (fun s c => startsNoPaused config.normalized s c)
      { tasks, world := w } schedule) :
    OneWorkerPerChunk (runs (chunkExecutor envs) config.normalized { tasks, world := w } schedule) := by
  let I : SchedState WorkerPc → Prop := fun s => OneWorkerPerChunk s ∧ ((noRule envs).Covers s → Owned (noRule envs) s)
  have hstep : ∀ s c, I s → startsNoPaused config.normalized s c →
      I (step (chunkExecutor envs) config.normalized s c) := by
    rintro s c ⟨hone, h⟩ hsafe
    cases hcr : s.crashed with
    | true => simpa [SchedState.step, hcr] using ⟨hone, h⟩
    | false =>
      have heff : StepEffect (chunkExecutor envs) config.normalized s c _ := step_effect c
      cases hcr' : (step (chunkExecutor envs) config.normalized s c).crashed with
      | true =>
        refine ⟨?_, fun hcovers => by rw [hcovers.1] at hcr'; cases hcr'⟩
        unfold OneWorkerPerChunk
        rw [heff.crash hcr hcr']
        exact hone
      | false =>
        have howned := (h ⟨hcr, fun _ => trivial⟩).step hsafe heff ⟨hcr', fun _ => trivial⟩
        exact ⟨howned.oneWorkerPerChunk, fun _ => howned⟩
  have h0 : Owned (noRule envs) { tasks, world := w } :=
    ⟨hids, False.elim, fun _ _ _ _ _ _ => trivial, by simp, by simp, by simp⟩
  exact (GuardedRun.inv (I := I) hstep ⟨h0.oneWorkerPerChunk, fun _ => h0⟩ hsafe).1

/-- Its server breaks each first attempt off after one byte. -/
def flakyEnv : Env where
  protocol :=
    { fetchMetadata := fun _ => .ok { fileSize := 2, supportsRange := true }
      downloadRange := fun _ _ _ n =>
        if n = 0 then { blocks := [{ data := [1] }], result := .error (.cget .networkError (text "reset")) }
        else { blocks := [{ data := [2] }] }
      downloadSingle := fun _ => {} }

def flakyTask : DownloadTask where
  id := text "a"
  tempDir := text "/t/a"
  status := .downloading
  fileSize := 2
  chunks := [{ stop := 1, tempPath := text "chunk_0.part" }]

theorem one_worker_while_flaky :
    OneWorkerPerChunk (runs (chunkExecutor fun _ => flakyEnv) ({} : SchedulerConfig).normalized
      { tasks := [flakyTask], world := {} } (List.replicate 4 .coordinator ++ List.replicate 9 (.worker 0))) :=
  one_worker_per_chunk _ _ _ _ _ (by decide) (by decide +kernel)

/-- A first attempt fails, the pass finds the chunk Failed and starts it again, and the
first worker comes back from its sleep: both are in `downloadRange`, appending to one file. -/
theorem two_workers_on_one_chunk :
    ∃ (envs : TaskId → Env) (config : SchedulerConfig) (tasks : List DownloadTask) (w : World)
      (schedule : List Choice), (tasks.map (·.id)).Nodup ∧
        ¬ OneWorkerPerChunk (runs (chunkExecutor envs) config.normalized { tasks, world := w } schedule) := by
  refine ⟨fun _ => flakyEnv, {}, [flakyTask], {}, List.replicate 3 .coordinator ++ List.replicate 8 (.worker 0) ++
    List.replicate 2 .coordinator ++ List.replicate 7 (.worker 0) ++ List.replicate 5 (.worker 1),
    by decide, fun h => ?_⟩
  have hsame := h 0 1
    { taskId := text "a", chunk := 0, phase := .executing (.receiving 1 [{ data := [2] }] (.ok ())) }
    { taskId := text "a", chunk := 0,
      phase := .executing (.receiving 0 [{ data := [1] }] (.error (.cget .networkError (text "reset")))) }
    (by decide +kernel) (by decide +kernel) rfl rfl rfl rfl
  cases hsame

end Cget
