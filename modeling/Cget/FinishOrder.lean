import Cget.Abreast
import Cget.Agreement
/-!
# The order in which the threads of a ranged download end

`downloadWithRange` decides by its list of errors, and the threads append to that list as
they end. A run of the pool is read here as the list of its `endings`; what the code makes
of the errors is then a question about the order of that list. Two runs from one start come to
different sessions; from there they go on abreast.
-/

namespace Cget

open Prog

variable (env : Env)

/-! ## Before and after the threads -/

/-- `downloadWithRange` up to the start of its threads. -/
def startRange (info : RemoteFileInfo) : EngineM (List PoolWorker) := do
  onWorld (ensureTaskTempDir env)
  updateTask (planRange env info.fileSize)
  updateTask recomputeDownloaded
  persistTask env
  let s ← get
  updateTask markDone
  pure (rangeWorkers s.task)

/-- What is looked for among the errors first. -/
def rangeFallback (errors : List WorkerError) : Bool := errors.any (·.code = .rangeNotSupportedError)

/-- `downloadWithRange` once its threads are joined, up to the merge. -/
def settleRange (info : RemoteFileInfo) (errors : List WorkerError) : EngineM TransferEnd :=
  match errors with
  | first :: _ =>
    if rangeFallback errors then do
      updateTask (fun t => { t with
        chunks := []
        downloaded := 0
        lastError := some (text "server ignored Range request; falling back to single-stream download") })
      persistTask env
      transferSingleStream env info
      pure .transferred
    else do
      setFailure env (if first.code = .metadataMismatchError then .metadataMismatch else .failed) first.message
      pure .failed
  | [] => do
    let s ← get
    if allComplete s.task.chunks then pure .transferred
    else do
      setFailure env .failed (text "not all chunks completed")
      pure .failed

/-- The merge, unless a failure was set. -/
def mergeIfTransferred : TransferEnd → EngineM Unit
  | .transferred => mergeAndComplete env
  | .failed => pure ()

/-- `DownloadEngine::downloadWithRange`. -/
def downloadWithRange (info : RemoteFileInfo) : EngineM Unit := transferWithRange env info >>= mergeIfTransferred env

/-- `downloadWithRange` once its threads are joined. -/
def afterJoin (info : RemoteFileInfo) (errors : List WorkerError) : EngineM Unit :=
  settleRange env info errors >>= mergeIfTransferred env

variable {env : Env} {info : RemoteFileInfo} {s s' : Session}

theorem downloadWithRange_joins :
    downloadWithRange env info = (do
      let workers ← startRange env info
      let errors ← runPool env workers
      afterJoin env info errors) := by
  have hsettle : transferWithRange env info = (do
      let workers ← startRange env info
      let errors ← runPool env workers
      settleRange env info errors) := by
    simp only [transferWithRange, startRange, Prog.bind_assoc]
    rfl
  rw [downloadWithRange, hsettle]
  simp only [afterJoin, Prog.bind_assoc]

/-! ## The threads as they end -/

/-- How thread `j` ends, if that is what its next turn does. -/
def Pool.ending (pool : Pool) (j : Nat) : Option (Nat × Option Exn) :=
  match pool.workers[j]? with
  | some { pc := some .returned, .. } => some (j, none)
  | some { pc := some (.threw e), .. } => some (j, some e)
  | _ => none

/-- The threads that end in the course of `turns`, in this order, each with its exception. -/
def endings (env : Env) : List Nat → Pool → EngineM (List (Nat × Option Exn))
  | [], _ => pure []
  | j :: js, pool => do
    let next ← Pool.turn env pool j
    let rest ← endings env js next
    pure ((pool.ending j).toList ++ rest)

/-- What the `catch` clauses keep of an ending. -/
def reported (ended : List (Nat × Option Exn)) : List WorkerError :=
  ended.filterMap (fun e => e.2.map Exn.toWorkerError)

/-- `ended` accounts for what became of the pool since `before`. -/
structure Accounts (before after : Pool) (ended : List (Nat × Option Exn)) : Prop where
  errors : after.errors = before.errors ++ reported ended
  length : after.workers.length = before.workers.length
  ending : ∀ (j : Nat) (w : PoolWorker), after.workers[j]? = some w → w.pc = none →
    (∃ v, before.workers[j]? = some v ∧ v.pc = none) ∨ ∃ o, (j, o) ∈ ended

theorem Accounts.trans {first second third : Pool} {ended ended' : List (Nat × Option Exn)}
    (h : Accounts first second ended) (h' : Accounts second third ended') : Accounts first third (ended ++ ended') := by
  refine ⟨by rw [h'.errors, h.errors, List.append_assoc, reported, reported, reported, List.filterMap_append],
    h'.length.trans h.length, ?_⟩
  intro j w hw hnone
  rcases h'.ending j w hw hnone with ⟨v, hv, hvnone⟩ | ⟨o, ho⟩
  · rcases h.ending j v hv hvnone with hu | ⟨o, ho⟩
    exacts [.inl hu, .inr ⟨o, List.mem_append_left _ ho⟩]
  · exact .inr ⟨o, List.mem_append_right _ ho⟩

/-- Thread `j` of `pool` is now `w`. -/
theorem Accounts.of_set {pool next : Pool} {j : Nat} {w : PoolWorker} {ended : List (Nat × Option Exn)}
    (hws : next.workers = pool.workers.set j w) (herr : next.errors = pool.errors ++ reported ended)
    (hpc : w.pc = none → ∃ o, (j, o) ∈ ended) : Accounts pool next ended := by
  refine ⟨herr, by rw [hws, List.length_set], fun i v hv hnone => ?_⟩
  rw [hws] at hv
  rcases getElem?_set_some hv with ⟨rfl, rfl⟩ | ⟨-, hv⟩
  · exact .inr (hpc hnone)
  · exact .inl ⟨v, hv, hnone⟩

theorem turn_accounts {pool next : Pool} {j : Nat} (h : (Pool.turn env pool j).run s = (.ok next, s')) :
    Accounts pool next (pool.ending j).toList := by
  unfold Pool.turn at h
  unfold Pool.ending
  split at h
  case h_1 hj =>
    obtain ⟨rfl, -⟩ : pool = next ∧ s = s' := by simpa [pure] using h
    simp only [hj]
    exact ⟨by simp [reported], rfl, fun i v hv hnone => .inl ⟨v, hv, hnone⟩⟩
  case h_2 hj =>
    obtain ⟨rfl, -⟩ : pool = next ∧ s = s' := by simpa [pure] using h
    simp only [hj]
    exact ⟨by simp [reported], rfl, fun i v hv hnone => .inl ⟨v, hv, hnone⟩⟩
  case h_3 hj =>
    obtain ⟨rfl, -⟩ : { pool with workers := pool.workers.set j _ } = next ∧ s = s' := by simpa [pure] using h
    simp only [hj]
    exact .of_set rfl (by simp [reported]) fun _ => ⟨none, by simp⟩
  case h_4 e hj =>
    obtain ⟨rfl, -⟩ : { workers := pool.workers.set j _, errors := _ } = next ∧ s = s' := by simpa [pure] using h
    simp only [hj]
    exact .of_set rfl (by simp [reported]) fun _ => ⟨some e, by simp⟩
  case h_5 i pc hret hthrew hj =>
    obtain ⟨pc', s₁, -, hpure⟩ := run_bind_eq_ok h
    obtain ⟨rfl, -⟩ : { pool with workers := pool.workers.set j _ } = next ∧ s₁ = s' := by simpa [pure] using hpure
    refine .of_set rfl ?_ fun hnone => by cases hnone
    rw [hj]
    cases pc with
    | returned => exact absurd rfl hret
    | threw e => exact absurd rfl (hthrew e)
    | _ => simp [reported]

theorem endings_account (turns : List Nat) : ∀ {pool after : Pool} {s s' : Session},
    (turns.foldlM (Pool.turn env) pool).run s = (.ok after, s') →
    ∃ ended, (endings env turns pool).run s = (.ok ended, s') ∧ Accounts pool after ended := by
  induction turns with
  | nil =>
    intro pool after s s' h
    obtain ⟨rfl, rfl⟩ : pool = after ∧ s = s' := by simpa [pure] using h
    exact ⟨[], rfl, by simp [reported], rfl, fun j w hw hnone => .inl ⟨w, hw, hnone⟩⟩
  | cons j js ih =>
    intro pool after s s' h
    rw [List.foldlM_cons] at h
    obtain ⟨next, s₁, hturn, hrest⟩ := run_bind_eq_ok h
    obtain ⟨ended, hended, hacc⟩ := ih hrest
    refine ⟨(pool.ending j).toList ++ ended, ?_, (turn_accounts hturn).trans hacc⟩
    rw [endings, run_bind_ok hturn, run_bind_ok hended]
    rfl

/-- The errors of a pool are those of its threads, in the order they ended. -/
theorem runPool_reports {workers : List PoolWorker} {errors : List WorkerError}
    (h : (runPool env workers).run s = (.ok errors, s')) (hstarted : ∀ w ∈ workers, w.pc ≠ none) :
    ∃ ended, (endings env env.turns { workers }).run s = (.ok ended, s') ∧ errors = reported ended ∧
      ∀ j, j < workers.length → ∃ o, (j, o) ∈ ended := by
  obtain ⟨pool, s₁, hturns, hjoin⟩ := run_bind_eq_ok h
  obtain ⟨ended, hended, hacc⟩ := endings_account env.turns hturns
  split at hjoin
  case isFalse => simp [Prog.stop] at hjoin
  case isTrue hall =>
    obtain ⟨rfl, rfl⟩ : pool.errors = errors ∧ s₁ = s' := by simpa [pure] using hjoin
    refine ⟨ended, hended, by simpa using hacc.errors, fun j hj => ?_⟩
    have hj' : j < pool.workers.length := by rwa [hacc.length]
    have hover : pool.workers[j].pc = none := by simpa using List.all_eq_true.1 hall _ (List.getElem_mem hj')
    rcases hacc.ending j _ (List.getElem?_eq_getElem hj') hover with ⟨v, hv, hnone⟩ | ho
    · exact absurd hnone (hstarted v (List.mem_of_getElem? hv))
    · exact ho

/-! ## Outcomes -/

/-- From `start`, a run of the threads is joined in `s` with these errors, and thread `j` has ended
with `outcomes[j]`: it returned, or its exception. -/
def JoinedWith (env : Env) (outcomes : List (Option Exn)) (workers : List PoolWorker) (start : Session)
    (errors : List WorkerError) (s : Session) : Prop :=
  ∃ (turns : List Nat) (ended : List (Nat × Option Exn)), workers.length = outcomes.length ∧
    (runPool { env with turns } workers).run start = (.ok errors, s) ∧
    (endings { env with turns } turns { workers }).run start = (.ok ended, s) ∧ ∀ e ∈ ended, outcomes[e.1]? = some e.2

/-- Whatever the order, the same errors are in the list. -/
theorem JoinedWith.mem {outcomes : List (Option Exn)} {workers : List PoolWorker} {start : Session}
    {errors : List WorkerError}
    (h : JoinedWith env outcomes workers start errors s) (hstarted : ∀ w ∈ workers, w.pc ≠ none) (e : WorkerError) :
    e ∈ errors ↔ ∃ x, some x ∈ outcomes ∧ x.toWorkerError = e := by
  obtain ⟨turns, ended, hlen, hrun, hended, hout⟩ := h
  obtain ⟨ended', hended', rfl, hall⟩ := runPool_reports hrun hstarted
  obtain rfl : ended = ended' := by
    have := hended.symm.trans hended'
    simpa using this
  simp only [reported, List.mem_filterMap, Option.map_eq_some_iff]
  constructor
  · rintro ⟨⟨j, o⟩, hmem, x, hx, rfl⟩
    obtain rfl : o = some x := hx
    exact ⟨x, List.mem_of_getElem? (hout _ hmem), rfl⟩
  · rintro ⟨x, hx, rfl⟩
    obtain ⟨j, hj⟩ := List.getElem?_of_mem hx
    obtain ⟨o, ho⟩ := hall j (by rw [hlen]; exact (List.getElem?_eq_some_iff.1 hj).1)
    obtain rfl : o = some x := Option.some.inj ((hout _ ho).symm.trans hj)
    exact ⟨(j, some x), ho, x, rfl, rfl⟩

/-- All threads at the end of `downloadChunkWithRetry`. -/
def endedWorkers (outcomes : List (Option Exn)) : List PoolWorker :=
  outcomes.mapIdx (fun j o => { chunk := j, pc := some (o.elim .returned .threw) })

/-- Each thread is over or about to end with its outcome. -/
structure Standing (outcomes : List (Option Exn)) (pool : Pool) : Prop where
  length : pool.workers.length = outcomes.length
  outcome : ∀ (j : Nat) (w : PoolWorker), pool.workers[j]? = some w →
    w.pc = none ∨ ∃ o : Option Exn, outcomes[j]? = some o ∧ w.pc = some (o.elim .returned .threw)

def Pool.isOver (pool : Pool) (j : Nat) : Prop := ∀ w : PoolWorker, pool.workers[j]? = some w → w.pc = none

theorem standing_start (outcomes : List (Option Exn)) : Standing outcomes { workers := endedWorkers outcomes } := by
  refine ⟨by simp [endedWorkers], fun j w hw => ?_⟩
  simp only [endedWorkers, List.getElem?_mapIdx, Option.map_eq_some_iff] at hw
  obtain ⟨o, ho, rfl⟩ := hw
  exact .inr ⟨o, ho, rfl⟩

theorem Standing.of_set {outcomes : List (Option Exn)} {pool next : Pool} {j : Nat} {w : PoolWorker}
    (h : Standing outcomes pool) (hw : w.pc = none) (hws : next.workers = pool.workers.set j w) :
    Standing outcomes next ∧ next.isOver j ∧ ∀ i, pool.isOver i → next.isOver i := by
  have hset : ∀ (i : Nat) (v : PoolWorker), next.workers[i]? = some v → v.pc = none ∨
      (i ≠ j ∧ pool.workers[i]? = some v) := by
    intro i v hv
    rw [hws] at hv
    rcases getElem?_set_some hv with ⟨-, rfl⟩ | hv
    exacts [.inl hw, .inr hv]
  refine ⟨⟨by rw [hws, List.length_set, h.length], fun i v hv => ?_⟩, fun v hv => ?_, fun i hi v hv => ?_⟩
  · rcases hset i v hv with hnone | ⟨-, hv⟩
    exacts [.inl hnone, h.outcome i v hv]
  · rcases hset j v hv with hnone | ⟨hne, -⟩
    exacts [hnone, absurd rfl hne]
  · rcases hset i v hv with hnone | ⟨-, hv⟩
    exacts [hnone, hi v hv]

/-- The turn of a standing thread ends it, and that is all it does. -/
theorem Standing.turn {outcomes : List (Option Exn)} {pool : Pool} (h : Standing outcomes pool) (env : Env)
    (s : Session)
    (j : Nat) : ∃ next, (Pool.turn env pool j).run s = (.ok next, s) ∧ Standing outcomes next ∧ next.isOver j ∧
      (∀ i, pool.isOver i → next.isOver i) ∧ ∀ i o, (i, o) ∈ (pool.ending j).toList → outcomes[i]? = some o := by
  unfold Pool.turn Pool.ending
  cases hw : pool.workers[j]? with
  | none => exact ⟨pool, rfl, h, fun w hw' => by simp [hw] at hw', fun _ hi => hi, by simp⟩
  | some w =>
    obtain ⟨chunk, pc⟩ := w
    rcases h.outcome j _ hw with hpc | ⟨o, ho, hpc⟩
    · obtain rfl : pc = none := hpc
      exact ⟨pool, rfl, h, fun w hw' => by simp [← Option.some.inj (hw.symm.trans hw')], fun _ hi => hi, by simp⟩
    · obtain rfl : pc = some (o.elim .returned .threw) := hpc
      cases o with
      | none =>
        obtain ⟨hs, hover, hkeep⟩ := h.of_set (w := { chunk, pc := none }) rfl
          (rfl : ({ pool with workers := pool.workers.set j { chunk, pc := none } } : Pool).workers = _)
        exact ⟨_, rfl, hs, hover, hkeep, by simpa using ho⟩
      | some e =>
        obtain ⟨hs, hover, hkeep⟩ := h.of_set (w := { chunk, pc := none }) rfl
          (rfl : ({ workers := pool.workers.set j { chunk, pc := none },
                    errors := pool.errors ++ [e.toWorkerError] } : Pool).workers = _)
        exact ⟨_, rfl, hs, hover, hkeep, by simpa using ho⟩

theorem Standing.turns {outcomes : List (Option Exn)} (env : Env) (s : Session) : ∀ (turns : List Nat) {pool : Pool},
    Standing outcomes pool → ∃ after ended, (turns.foldlM (Pool.turn env) pool).run s = (.ok after, s) ∧
      (endings env turns pool).run s = (.ok ended, s) ∧ (∀ j, j ∈ turns ∨ pool.isOver j → after.isOver j) ∧
      ∀ j o, (j, o) ∈ ended → outcomes[j]? = some o := by
  intro turns
  induction turns with
  | nil => exact fun {pool} _ => ⟨pool, [], rfl, rfl, by simp, by simp⟩
  | cons j js ih =>
    intro pool h
    obtain ⟨next, hturn, hs, hover, hkeep, hout⟩ := h.turn env s j
    obtain ⟨after, ended, hfold, hended, hovers, houts⟩ := ih hs
    refine ⟨after, (pool.ending j).toList ++ ended, ?_, ?_, fun i hi => ?_, fun i o hmem => ?_⟩
    · rw [List.foldlM_cons, run_bind_ok hturn, hfold]
    · rw [endings, run_bind_ok hturn, run_bind_ok hended]
      rfl
    · rcases hi with hi | hi
      · rcases List.mem_cons.1 hi with rfl | hi
        exacts [hovers _ (.inr hover), hovers _ (.inl hi)]
      · exact hovers _ (.inr (hkeep i hi))
    · rcases List.mem_append.1 hmem with hmem | hmem
      exacts [hout i o hmem, houts i o hmem]

/-- Any thread that failed can be the first to end. -/
theorem joinedWith_first {outcomes : List (Option Exn)} {x : Exn} (h : some x ∈ outcomes) (env : Env) (s : Session) :
    ∃ rest, JoinedWith env outcomes (endedWorkers outcomes) s (x.toWorkerError :: rest) s := by
  obtain ⟨j, hj⟩ := List.getElem?_of_mem h
  -- thread `j` ends, then the others in the order of the list
  let turns := j :: List.range outcomes.length
  let workers := endedWorkers outcomes
  have hw : workers[j]? = some { chunk := j, pc := some (.threw x) } := by simp [workers, endedWorkers, hj]
  obtain ⟨after, ended, hfold, hended, hover, hout⟩ := (standing_start outcomes).turns { env with turns } s turns
  have hturn : (Pool.turn { env with turns } { workers } j).run s =
      (.ok { workers := workers.set j { chunk := j, pc := none }, errors := [x.toWorkerError] }, s) := by
    simp only [Pool.turn, hw]
    rfl
  have hrest := hfold
  rw [List.foldlM_cons, run_bind_ok hturn] at hrest
  obtain ⟨others, -, hacc⟩ := endings_account _ hrest
  have hall : after.workers.all (·.pc.isNone) := by
    refine List.all_eq_true.2 fun w hmem => ?_
    obtain ⟨i, hi⟩ := List.getElem?_of_mem hmem
    have hlen : i < outcomes.length := by
      have := (List.getElem?_eq_some_iff.1 hi).1
      rw [hacc.length] at this
      simpa [workers, endedWorkers] using this
    simp [hover i (.inl (List.mem_cons_of_mem _ (List.mem_range.2 hlen))) w hi]
  refine ⟨reported others, turns, ended, by simp [endedWorkers], ?_, hended, fun e he => hout e.1 e.2 he⟩
  rw [runPool, run_bind_ok hfold, if_pos hall, hacc.errors]
  rfl


/-! ## Threads underway -/

/-- The worker is past the assignment that completes its chunk. -/
def WorkerPc.completes : WorkerPc → Prop
  | .storing _ | .returned => True
  | _ => False

def Chunk.complete (c : Chunk) : Prop := c.status = .completed ∧ c.downloaded = c.size

/-- The threads of `downloadWithRange` anywhere in their code: each has a chunk of its own, which is
complete if it is past that. The chunks without a thread are marked Completed. -/
structure Underway (env : Env) (workers : List PoolWorker) (s : Session) : Prop where
  distinct : (workers.map (·.chunk)).Nodup
  chunk : ∀ w ∈ workers, ∃ pc c, w.pc = some pc ∧ s.task.chunks[w.chunk]? = some c ∧ pc.within env.maxRetries ∧
    (pc.completes → c.complete)
  rest : ∀ (j : Nat) (c : Chunk), s.task.chunks[j]? = some c → j ∉ workers.map (·.chunk) → c.status = .completed
  status : s.task.status.Unsettled

theorem Underway.started {workers : List PoolWorker} (h : Underway env workers s) : ∀ w ∈ workers, w.pc ≠ none := by
  intro w hw
  obtain ⟨pc, -, hpc, -⟩ := h.chunk w hw
  simp [hpc]

/-- So it is for the threads that `downloadWithRange` starts. -/
theorem underway_start {t : DownloadTask} {w : World} (hst : t.status.Unsettled) :
    Underway env (rangeWorkers t) { world := w, task := markDone t } := by
  refine ⟨rangeWorkers_distinct t, fun w hw => ?_, fun j c hc hj => ?_, hst⟩
  · obtain ⟨hpc, c, hc, hdone⟩ := mem_rangeWorkers hw
    refine ⟨_, c, hpc, ?_, Nat.zero_le _, fun h => h.elim⟩
    rw [markDone_chunk, hc, Option.map_some, hdone, if_neg Bool.false_ne_true]
  · rw [markDone_chunk, Option.map_eq_some_iff] at hc
    obtain ⟨c', hc', rfl⟩ := hc
    have hdone : c'.done = true := by
      by_contra hopen
      refine hj (List.mem_map.2 ⟨{ chunk := j }, List.mem_map.2 ⟨j, List.mem_filter.2 ⟨?_, ?_⟩, rfl⟩, rfl⟩)
      · exact List.mem_range.2 (List.getElem?_eq_some_iff.1 hc').1
      · simpa [hc'] using hopen
    rw [if_pos hdone]

theorem startRange_underway (hst : s.task.status.Unsettled) :
    wp (startRange env info) (Underway env) (fun _ _ => True) (fun _ => True) s := by
  unfold startRange ensureTaskTempDir
  simp only [wp_bind, onWorld, wp_focus, wp_updateTask, wp_get, wp_pure]
  refine wp_fileOp (fun _ => ?_) (fun _ _ => trivial) fun _ _ => trivial
  exact wp_persistTask (fun _ => underway_start hst) (fun _ _ => trivial) fun _ _ => trivial

/-- A worker that returns has completed its chunk. -/
theorem workerMove_completes {url : Text} {path : Except Exn Path} {f g : Fault} {c : Chunk} {part : Option Bytes}
    {pc : WorkerPc}
    (hin : pc.within env.maxRetries) (hc : pc.completes → c.complete)
    (hran : (workerMove env url path f g c part pc).crashed = false) :
    (workerMove env url path f g c part pc).next.completes →
    (workerMove env url path f g c part pc).chunk.complete := by
  cases pc with
  | attempt n =>
    cases path with
    | error e => exact fun h => h.elim
    | ok p =>
      simp only [workerMove]
      split
      · cases f with
        | ok => exact fun _ => ⟨rfl, rfl⟩
        | fail k => exact fun h => h.elim
        | crash k => exact fun h => h.elim
      · split
        · exact fun _ => ⟨rfl, show fileSize part = c.size by omega⟩
        · exact fun h => h.elim
  | opening n start => cases f <;> exact fun h => h.elim
  | starting n start => exact fun h => h.elim
  | announcing n start => cases g <;> exact fun h => h.elim
  | requesting n start => exact fun h => h.elim
  | receiving n blocks result =>
    cases blocks with
    | nil => cases result <;> exact fun h => h.elim
    | cons b bs =>
      cases f with
      | ok =>
        simp only [workerMove]
        split <;> exact fun h => h.elim
      | fail k => exact fun h => h.elim
      | crash k => exact fun h => h.elim
  | flushing n blocks result => cases g <;> exact fun h => h.elim
  | closing n =>
    simp only [workerMove]
    split
    · exact fun h => h.elim
    · exact fun _ => ⟨rfl, rfl⟩
  | storing n => cases g <;> exact fun _ => hc trivial
  | caught n e =>
    cases e with
    | other what => exact fun h => h.elim
    | cget code what =>
      simp only [workerMove]
      split <;> exact fun h => h.elim
  | recording n => cases g <;> exact fun h => h.elim
  | sleeping n =>
    have hlt : n < env.maxRetries := hin
    simp only [workerMove, if_pos hlt]
    exact fun h => h.elim
  | returned => exact fun _ => hc trivial
  | threw e => exact fun h => h.elim

/-- Of the chunks `cs`, those of the threads `started` are complete when their threads have returned;
the others stay as they are. -/
def completeRule (env : Env) (cs : List Chunk) (started : List Nat) : ChunkRule (fun _ => env) where
  sees := False
  fails := False
  idle _ j c _ := c.status = .completed ∧ (j ∈ started → c.complete) ∧ (j ∉ started → cs[j]? = some c)
  busy _ j c _ pc := j ∈ started ∧ pc.within env.maxRetries ∧ (pc.completes → c.complete)
  idle_frame _ _ h := h
  busy_frame _ _ h := h
  start h hne _ := absurd h.1 hne
  move _ h hran := ⟨h.1, workerMove_within h.2.1 hran, workerMove_completes h.2.1 h.2.2 hran⟩
  finish h := ⟨(h.2.2 trivial).1, fun _ => h.2.2 trivial, fun hj => absurd h.1 hj⟩
  fail h := h.elim

/-- All threads have returned: the chunks are complete, save those that were not to be downloaded. -/
theorem Underway.complete {workers : List PoolWorker} {start : Session} (h : Underway env workers start)
    (hrun : (runPool env workers).run start = (.ok [], s)) (j : Nat) (c : Chunk) (hc : s.task.chunks[j]? = some c) :
    (j ∈ workers.map (·.chunk) → c.complete) ∧ (j ∉ workers.map (·.chunk) → start.task.chunks[j]? = some c) := by
  have hpooled : Pooled (completeRule env start.task.chunks (workers.map (·.chunk))) { workers } start := by
    refine ⟨fun hs => hs.elim, h.distinct, fun j c hc hfree => ?_, fun w hw pc hpc => ?_⟩
    · have hj : j ∉ workers.map (·.chunk) := by
        intro hj
        obtain ⟨w, hw, rfl⟩ := List.mem_map.1 hj
        exact h.started w hw (hfree w hw rfl)
      exact ⟨h.rest j c hc hj, fun hmem => absurd hmem hj, fun _ => hc⟩
    · obtain ⟨pc', c, hpc', hc, hin, hcomplete⟩ := h.chunk w hw
      obtain rfl : pc' = pc := by simpa [hpc'] using hpc
      exact ⟨c, hc, List.mem_map_of_mem hw, hin, hcomplete⟩
  have hquiet : PoolInvariant (completeRule env start.task.chunks (workers.map (·.chunk))) (fun _ => True)
      (fun _ => True) :=
    ⟨fun _ _ _ _ _ _ _ _ => trivial, fun _ _ _ _ _ _ _ _ _ _ => trivial, fun _ _ _ _ => trivial, fun _ _ => trivial⟩
  have hjoined := wp_runPool hquiet hpooled trivial
  rw [wp_of_ok hrun] at hjoined
  exact ((hjoined fun hne => absurd rfl hne).1 j c hc).2

/-- What the threads leave as it was. -/
structure SinceStart (start s : Session) : Prop where
  same : start.task.SameRequest s.task
  out : s.world.disk.out = start.world.disk.out
  names : s.task.chunks.map (·.tempPath) = start.task.chunks.map (·.tempPath)
  parts : ∀ p, (∀ c ∈ start.task.chunks, chunkPath start.task c ≠ .ok p) →
    s.world.disk.parts p = start.world.disk.parts p
  status : s.task.status.Unsettled

theorem stepped_out {i : Nat} {c : Chunk} {pc : WorkerPc} :
    (s.stepped env i c pc).world.disk.out = s.world.disk.out := by
  have hmoved : (s.moved i c (s.workerMove env c pc)).world.disk.out = s.world.disk.out := by
    unfold Session.moved
    dsimp only
    split <;> rfl
  rw [← hmoved, Session.stepped]
  cases (s.workerMove env c pc).action with
  | persist saved => cases saved <;> rfl
  | _ => rfl

theorem keeps_sinceStart (env : Env) (start : Session) (workers : List PoolWorker) :
    Keeps (SinceStart start) (runPool env workers) := by
  refine runPool_keeps (fun i pc s h => wp_const.2 ?_) workers
  cases hc : s.task.chunks[i]? with
  | none =>
    have hrun : (stepWorker env i pc).run s = (.ok (.threw (.other (text "vector::_M_range_check"))), s) := by
      simp only [stepWorker, hc]
    rw [hrun]
    exact h
  | some c =>
    rw [stepWorker_run hc]
    refine ⟨h.same.trans stepped_same, stepped_out.trans h.out, ?_, fun p hp => ?_, ?_⟩
    · rw [stepped_chunks, ← h.names]
      exact map_set_eq hc workerMove_place.2.2.2
    · refine (stepped_parts fun hpath => ?_).trans (h.parts p hp)
      have hname : c.tempPath ∈ start.task.chunks.map (·.tempPath) :=
        h.names ▸ List.mem_map_of_mem (List.mem_of_getElem? hc)
      obtain ⟨c₀, hc₀, hsame⟩ := List.mem_map.1 hname
      exact hp c₀ hc₀ ((chunkPath_congr h.same hsame.symm).symm.trans hpath)
    · have hcases : (s.stepped env i c pc).task.status = s.task.status ∨ _ := stepped_status
      rcases hcases with hst | hst | hst
      · rw [hst]
        exact h.status
      · exact .inl hst
      · exact .inr hst

/-! ## What becomes of the errors -/

/-- The operations ahead are counted from `tick`. -/
def Session.countedFrom (s : Session) (tick : Nat) : Session := { s with world := { s.world with tick } }

/-- The status `download` leaves when the threads of `downloadWithRange` are joined in `s` with
`errors`, and the operations ahead are counted from `tick`: none if the process dies. -/
def finalStatus (env : Env) (info : RemoteFileInfo) (tick : Nat) (s : Session) (errors : List WorkerError) :
    Option TaskStatus :=
  match (tryCatch (afterJoin env info errors) (failWith env)).run (s.countedFrom tick) with
  | (.stopped, _) => none
  | (_, s') => some s'.task.status

theorem finalStatus_of_wp {errors : List WorkerError} {tick : Nat} {v : Option TaskStatus}
    (h : wp (tryCatch (afterJoin env info errors) (failWith env)) (fun _ s' => some s'.task.status = v)
      (fun _ s' => some s'.task.status = v) (fun _ => none = v) (s.countedFrom tick)) :
      finalStatus env info tick s errors = v := by
  unfold finalStatus
  unfold wp at h
  split at h <;> rename_i hrun <;> rw [hrun] <;> exact h

theorem settleRange_fallback {errors : List WorkerError} (h : rangeFallback errors) :
    settleRange env info errors = (do
      updateTask (fun t => { t with
        chunks := []
        downloaded := 0
        lastError := some (text "server ignored Range request; falling back to single-stream download") })
      persistTask env
      transferSingleStream env info
      pure .transferred) := by
  cases errors with
  | nil => simp [rangeFallback] at h
  | cons first rest => simp only [settleRange, h, if_true]

/-- The status that is set for a first error without a fallback. -/
def firstStatus (first : WorkerError) : TaskStatus :=
  if first.code = .metadataMismatchError then .metadataMismatch else .failed

/-- Without a fallback the first error decides, unless its status cannot be saved. -/
theorem finalStatus_failed {first : WorkerError} {rest : List WorkerError} {tick : Nat}
    (h : rangeFallback (first :: rest) = false) :
    finalStatus env info tick s (first :: rest) =
      match env.saveFault tick, env.saveFault (tick + 1) with
      | .ok, _ => some (firstStatus first)
      | .crash _, _ => none
      | .fail _, .crash _ => none
      | .fail _, _ => some .failed := by
  have hend : afterJoin env info (first :: rest) = (do
      setFailure env (firstStatus first) first.message
      pure ()) := by
    simp only [afterJoin, settleRange, h, Bool.false_eq_true, if_false, Prog.bind_assoc]
    rfl
  refine finalStatus_of_wp ?_
  rw [hend, wp_tryCatch, wp_bind]
  refine wp_setFailure (fun hok => ?_) (fun k hfail => ?_) fun k hcrash => ?_
  · have hfault : env.saveFault tick = .ok := hok
    rw [hfault]
    rfl
  · have hfault : env.saveFault tick = .fail k := hfail
    rw [hfault]
    refine wp_setFailure (fun hok => ?_) (fun k hfail => ?_) fun k hcrash => ?_
    · rw [show env.saveFault (tick + 1) = .ok from hok]
      rfl
    · rw [show env.saveFault (tick + 1) = .fail k from hfail]
      rfl
    · rw [show env.saveFault (tick + 1) = .crash k from hcrash]
  · have hfault : env.saveFault tick = .crash k := hcrash
    rw [hfault]

/-! ## The end of both orders -/

theorem failWith_settles (e : Exn) : wp (failWith env e) (fun _ s => ¬ s.task.status.Unsettled)
    (fun _ s => ¬ s.task.status.Unsettled) (fun _ => True) s := by
  have hsettled : ∀ st : TaskStatus, st = .failed ∨ st = .metadataMismatch → ¬ st.Unsettled := by
    rintro _ (rfl | rfl) <;> simp [TaskStatus.Unsettled]
  exact wp_failWith (fun st h => hsettled st h) (fun st _ h _ => hsettled st h) fun _ _ _ _ => trivial

theorem setFailure_settles {st : TaskStatus} {message : Text} (h : ¬ st.Unsettled) :
    wp (setFailure env st message) (fun _ s => ¬ s.task.status.Unsettled) (fun _ _ => True) (fun _ => True) s :=
  wp_setFailure (fun _ => h) (fun _ _ => trivial) fun _ _ => trivial

theorem mergeAndComplete_settles :
    wp (mergeAndComplete env) (fun _ s => ¬ s.task.status.Unsettled) (fun _ _ => True) (fun _ => True) s := by
  have hverify : ∀ s, wp (verifyChecksum env) (fun ok s => ok = false → ¬ s.task.status.Unsettled) (fun _ _ => True)
      (fun _ => True) s := by
    intro s
    unfold verifyChecksum
    rw [wp_bind, wp_get]
    split
    · exact fun h => by cases h
    · rw [wp_bind]
      refine wp_mono ((wp_const (I := fun _ => True)).2 trivial) (fun _ s₁ _ => ?_) (fun _ _ _ => trivial)
        fun _ _ => trivial
      split
      · exact trivial
      · split
        · rw [wp_bind]
          refine wp_mono (setFailure_settles ?_) (fun _ _ h _ => h) (fun _ _ h => h) fun _ h => h
          simp [TaskStatus.Unsettled]
        · exact fun h => by cases h
  unfold mergeAndComplete
  rw [wp_bind, wp_get, wp_bind]
  refine wp_mono ((wp_const (I := fun _ => True)).2 trivial) (fun _ s₁ _ => ?_) (fun _ _ _ => trivial)
    fun _ _ => trivial
  rw [wp_bind]
  refine wp_mono (hverify s₁) (fun ok s₂ h => ?_) (fun _ _ h => h) fun _ h => h
  cases ok with
  | false => exact h rfl
  | true =>
    simp only [if_true, wp_bind, wp_updateTask, setStatus, wp_modify]
    exact wp_persistTask (fun _ =>
      by simp [TaskStatus.Unsettled, Session.saved, Session.touched, Session.ticked, Session.setStatus])
      (fun _ _ => trivial) fun _ _ => trivial

/-- A session that comes to its end has a settled status. -/
theorem afterJoin_settles (env : Env) (info : RemoteFileInfo) (errors : List WorkerError) (s : Session) :
    wp (tryCatch (afterJoin env info errors) (failWith env)) (fun _ s => ¬ s.task.status.Unsettled)
      (fun _ s => ¬ s.task.status.Unsettled) (fun _ => True) s := by
  have hsettle : wp (settleRange env info errors) (fun r s => r = .failed → ¬ s.task.status.Unsettled) (fun _ _ => True)
      (fun _ => True) s := by
    have hfailure : ∀ (st : TaskStatus) (message : Text) (s : Session), ¬ st.Unsettled →
        wp (do setFailure env st message; pure TransferEnd.failed) (fun r s => r = .failed → ¬ s.task.status.Unsettled)
          (fun _ _ => True) (fun _ => True) s := fun st message s hst => by
      rw [wp_bind]
      exact wp_mono (setFailure_settles hst) (fun _ _ h _ => h) (fun _ _ h => h) fun _ h => h
    cases errors with
    | nil =>
      unfold settleRange
      rw [wp_bind, wp_get, wp_ite]
      split
      · exact fun h => by cases h
      · exact hfailure _ _ _ (by simp [TaskStatus.Unsettled])
    | cons first rest =>
      cases hf : rangeFallback (first :: rest) with
      | true =>
        rw [settleRange_fallback hf, wp_bind, wp_updateTask, wp_bind]
        refine wp_mono ((wp_const (I := fun _ => True)).2 trivial) (fun _ s₁ _ => ?_) (fun _ _ h => h) fun _ h => h
        rw [wp_bind]
        exact wp_mono ((wp_const (I := fun _ => True)).2 trivial) (fun _ _ _ h => by cases h) (fun _ _ h => h)
          fun _ h => h
      | false =>
        simp only [settleRange, hf, Bool.false_eq_true, if_false]
        exact hfailure _ _ _ (by split <;> simp [TaskStatus.Unsettled])
  rw [wp_tryCatch, afterJoin, wp_bind]
  refine wp_mono hsettle (fun r s₁ h => ?_) (fun e _ _ => failWith_settles e) fun _ h => h
  cases r with
  | failed => exact h rfl
  | transferred =>
    exact wp_mono mergeAndComplete_settles (fun _ _ h => h) (fun e _ _ => failWith_settles e) fun _ h => h

/-- Programs that go abreast end with the same status, once it is settled. -/
theorem finalStatus_abreast {dir : Path} {P : Path → Prop} {m : EngineM Unit} {s₁ s₁' : Session}
    {errors errors' : List WorkerError} {tick : Nat}
    (h : Abreast dir P s₁ s₁') (hm : InStep (Abreast dir P) m m)
    (hrun : (afterJoin env info errors).run (s.countedFrom tick) = m.run s₁)
    (hrun' : (afterJoin env info errors').run (s'.countedFrom tick) = m.run s₁') :
    finalStatus env info tick s errors = finalStatus env info tick s' errors' := by
  have hboth : InStep (Abreast dir P) (tryCatch m (failWith env)) (tryCatch m (failWith env)) :=
    hm.tryCatch abreast_failWith
  obtain ⟨hout, hend⟩ := hboth _ _ h
  have hsettled := afterJoin_settles env info errors (s.countedFrom tick)
  unfold finalStatus
  unfold wp at hsettled
  rw [run_tryCatch_congr hrun] at hsettled ⊢
  rw [run_tryCatch_congr hrun']
  generalize (tryCatch m (failWith env)).run s₁ = r at hout hend hsettled ⊢
  generalize (tryCatch m (failWith env)).run s₁' = r' at hout hend ⊢
  obtain ⟨o, s₂⟩ := r
  obtain ⟨o', s₂'⟩ := r'
  obtain rfl : o' = o := hout
  cases o' with
  | stopped => rfl
  | ok _ => exact congrArg some (hend.status.resolve_right fun h => hsettled h.1).symm
  | thrown _ => exact congrArg some (hend.status.resolve_right fun h => hsettled h.1).symm

/-! ## Two orders -/

def Exn.mismatch (x : Exn) : Prop := x.toWorkerError.code = .metadataMismatchError

/-- One thread asks for the fallback, or all failures are mismatches, or none is. -/
def OneVerdict (outcomes : List (Option Exn)) : Prop :=
  (∃ x, some x ∈ outcomes ∧ x.toWorkerError.code = .rangeNotSupportedError) ∨
    ∀ x y, some x ∈ outcomes → some y ∈ outcomes → (x.mismatch ↔ y.mismatch)

/-- What the threads leave belongs to their outcomes, where it is used again: the bytes of all chunks
if all threads succeed, and the part file of a single stream, should a chunk have it. -/
def LeaveSame (outcomes : List (Option Exn)) (s s' : Session) : Prop :=
  ∀ c ∈ s.task.chunks, (∀ o ∈ outcomes, o = none) ∨ c.tempPath = singlePart →
    s.task.partOn s'.world.disk c = s.task.partOn s.world.disk c

section Orders

variable {outcomes : List (Option Exn)} {workers : List PoolWorker} {start : Session}
  {errors errors' : List WorkerError} {tick : Nat}

theorem JoinedWith.fallback_iff (h : JoinedWith env outcomes workers start errors s)
    (hstarted : ∀ w ∈ workers, w.pc ≠ none) :
    rangeFallback errors ↔ ∃ x, some x ∈ outcomes ∧ x.toWorkerError.code = .rangeNotSupportedError := by
  simp only [rangeFallback, List.any_eq_true, decide_eq_true_eq, h.mem hstarted]
  constructor
  · rintro ⟨-, ⟨x, hx, rfl⟩, hcode⟩
    exact ⟨x, hx, hcode⟩
  · rintro ⟨x, hx, hcode⟩
    exact ⟨_, ⟨x, hx, rfl⟩, hcode⟩

theorem JoinedWith.since (h : JoinedWith env outcomes workers start errors s) (hstart : start.task.status.Unsettled) :
    SinceStart start s := by
  obtain ⟨turns, -, -, hrun, -⟩ := h
  have hkept := keeps_sinceStart { env with turns } start workers start ⟨.refl, rfl, rfl, fun _ _ => rfl, hstart⟩
  exact (wp_of_ok hrun).1 hkept

/-- The part files that two orders leave alike: all of them if all threads succeed, else that of a single stream. -/
def UsedAgain (outcomes : List (Option Exn)) (start : Session) (n : Path) : Prop :=
  n = singlePart ∨ (∀ o ∈ outcomes, o = none) ∧ n ∈ start.task.chunks.map (·.tempPath) ∧ SafeName n

theorem SinceStart.chunk (h : SinceStart start s) {n : Path} (hn : n ∈ start.task.chunks.map (·.tempPath)) :
    ∃ c ∈ s.task.chunks, c.tempPath = n := by
  rw [← h.names] at hn
  exact List.mem_map.1 hn

theorem partOn_safe {t : DownloadTask} {c : Chunk} {d : Disk} (h : SafeName c.tempPath) :
    t.partOn d c = d.parts (joinPath t.tempDir c.tempPath) := by
  unfold SafeName at h
  simp only [DownloadTask.partOn, chunkPath, h, Bool.false_eq_true, if_false]
  rfl

theorem sameView_joined (h : SinceStart start s) (h' : SinceStart start s') (hsame : LeaveSame outcomes s s') :
    SameView start.task.tempDir (UsedAgain outcomes start) (s.countedFrom tick).world (s'.countedFrom tick).world := by
  refine ⟨rfl, h'.out.trans h.out.symm, fun n hn => ?_⟩
  have hdir : s.task.tempDir = start.task.tempDir := h.same.2.2.2.1
  have hsafe : SafeName n := hn.elim (fun hsingle => by rw [hsingle, SafeName]; decide) fun hall => hall.2.2
  by_cases hmem : n ∈ start.task.chunks.map (·.tempPath)
  · obtain ⟨c, hc, rfl⟩ := h.chunk hmem
    have hpart := hsame c hc (hn.elim .inr fun hall => .inl hall.1)
    rwa [partOn_safe hsafe, partOn_safe hsafe, hdir] at hpart
  · -- no thread has written to the part file of a single stream
    obtain rfl : n = singlePart := hn.resolve_right fun hall => hmem hall.2.1
    have hfree : ∀ c ∈ start.task.chunks, chunkPath start.task c ≠ .ok (joinPath start.task.tempDir singlePart) := by
      intro c hc hpath
      have hsingle : chunkPath start.task { c with tempPath := singlePart } = .ok
        (joinPath start.task.tempDir singlePart) := rfl
      exact hmem (List.mem_map.2 ⟨c, hc, chunkPath_inj hpath hsingle⟩)
    exact (h'.parts _ hfree).trans (h.parts _ hfree).symm

theorem DownloadTask.SameRequest.symm {t u : DownloadTask} (h : t.SameRequest u) : u.SameRequest t :=
  ⟨h.1.symm, h.2.1.symm, h.2.2.1.symm, h.2.2.2.1.symm, h.2.2.2.2.1.symm, h.2.2.2.2.2.symm⟩

theorem SinceStart.same_both (h : SinceStart start s) (h' : SinceStart start s') : s.task.SameRequest s'.task :=
  h.same.symm.trans h'.same

/-- If all threads returned in both orders, all chunks are complete after one if they are after the other. -/
theorem allComplete_of_other (hstart : Underway env workers start) (hsince : SinceStart start s)
    (h : JoinedWith env outcomes workers start [] s) (h' : JoinedWith env outcomes workers start [] s')
    (hall : allComplete s.task.chunks) : allComplete s'.task.chunks := by
  obtain ⟨turns, -, -, hrun, -⟩ := h
  obtain ⟨turns', -, -, hrun', -⟩ := h'
  have hunderway : ∀ turns, Underway { env with turns } workers start := fun _ =>
    ⟨hstart.distinct, hstart.chunk, hstart.rest, hstart.status⟩
  have hlength : s.task.chunks.length = start.task.chunks.length := by
    simpa using congrArg List.length hsince.names
  refine List.all_eq_true.2 fun c hc => ?_
  obtain ⟨j, hj⟩ := List.getElem?_of_mem hc
  obtain ⟨hown, hleft⟩ := (hunderway turns').complete hrun' j c hj
  by_cases hmem : j ∈ workers.map (·.chunk)
  · simpa [Chunk.complete] using hown hmem
  · obtain ⟨d, hd⟩ : ∃ d, s.task.chunks[j]? = some d := by
      have hlt := (List.getElem?_eq_some_iff.1 (hleft hmem)).1
      exact ⟨_, List.getElem?_eq_getElem (by omega)⟩
    obtain rfl : c = d := Option.some.inj ((hleft hmem).symm.trans (((hunderway turns).complete hrun j d hd).2 hmem))
    exact List.all_eq_true.1 hall c (List.mem_of_getElem? hd)

/-- The fallback makes the same of both orders. -/
theorem finalStatus_fallback (hsince : SinceStart start s) (hsince' : SinceStart start s')
    (hsame : LeaveSame outcomes s s') (hf : rangeFallback errors) (hf' : rangeFallback errors') :
    finalStatus env info tick s errors = finalStatus env info tick s' errors' := by
  let reset : DownloadTask → DownloadTask := fun t => { t with
    chunks := []
    downloaded := 0
    lastError := some (text "server ignored Range request; falling back to single-stream download") }
  let stream : EngineM Unit := do
    persistTask env
    transferSingleStream env info
    mergeAndComplete env
  have hrun : ∀ (errors : List WorkerError) (s : Session), rangeFallback errors →
      (afterJoin env info errors).run s = stream.run { s with task := reset s.task } := by
    intro errors s hf
    rw [afterJoin, settleRange_fallback hf]
    simp only [Prog.bind_assoc]
    exact run_bind_ok (a := ()) rfl
  have hstream : InStep (Abreast start.task.tempDir (UsedAgain outcomes start)) stream stream :=
    abreast_persistTask.bind fun _ => (abreast_transferSingleStream (.inl rfl) info).bind fun _ =>
    abreast_mergeAndComplete
  have hboth : s.task.SameRequest s'.task := hsince.same_both hsince'
  have habreast : Abreast start.task.tempDir (UsedAgain outcomes start) { s.countedFrom tick with task := reset s.task }
      { s'.countedFrom tick with task := reset s'.task } :=
    ⟨sameView_joined hsince hsince' hsame, hboth, hsince.same.2.2.2.1, rfl, fun n hn => by simp [reset] at hn,
      .inr ⟨hsince.status, hsince'.status⟩⟩
  exact finalStatus_abreast habreast hstream (hrun errors _ hf) (hrun errors' _ hf')

/-- So does the end of a download without errors. -/
theorem finalStatus_returned (hstart : Underway env workers start) (hsame : LeaveSame outcomes s s')
    (hall : ∀ o ∈ outcomes, o = none)
    (h : JoinedWith env outcomes workers start [] s) (h' : JoinedWith env outcomes workers start [] s') :
    finalStatus env info tick s [] = finalStatus env info tick s' [] := by
  have hsince := h.since hstart.status
  have hsince' := h'.since hstart.status
  have hcomplete : allComplete s'.task.chunks = allComplete s.task.chunks :=
    Bool.eq_iff_iff.2 ⟨allComplete_of_other hstart hsince' h' h, allComplete_of_other hstart hsince h h'⟩
  let ending : EngineM Unit :=
    if allComplete s.task.chunks then mergeAndComplete env
    else do
      setFailure env .failed (text "not all chunks completed")
      pure ()
  have hrun : ∀ u : Session, allComplete u.task.chunks = allComplete s.task.chunks →
      (afterJoin env info []).run (u.countedFrom tick) = ending.run (u.countedFrom tick) := by
    intro u hu
    have hsettle : (afterJoin env info []).run (u.countedFrom tick) =
        ((if allComplete u.task.chunks then pure TransferEnd.transferred
        else do
          setFailure env .failed (text "not all chunks completed")
          pure TransferEnd.failed) >>= mergeIfTransferred env).run (u.countedFrom tick) := rfl
    rw [hsettle, hu]
    unfold ending
    split
    · rfl
    · rw [Prog.bind_assoc]
      rfl
  have hending : InStep (Abreast start.task.tempDir (UsedAgain outcomes start)) ending ending := by
    unfold ending
    split
    · exact abreast_mergeAndComplete
    · exact (abreast_setFailure _ _).bind fun _ => .pure _
  have hboth : s.task.SameRequest s'.task := hsince.same_both hsince'
  have habreast : Abreast start.task.tempDir (UsedAgain outcomes start) (s.countedFrom tick) (s'.countedFrom tick) :=
    ⟨sameView_joined hsince hsince' hsame, hboth, hsince.same.2.2.2.1, hsince'.names.trans hsince.names.symm,
      fun n hn hsafe => .inr ⟨hall, hsince.names ▸ hn, hsafe⟩, .inr ⟨hsince.status, hsince'.status⟩⟩
  exact finalStatus_abreast habreast hending (hrun s rfl) (hrun s' hcomplete)

/-- If no file operation fails and each chunk has a part file to itself, every order leaves the same. -/
theorem leaveSame_of_smooth (hf : env.Smooth) (happ : PartsApart [start.task])
    (hstart : ∀ w ∈ workers, w.pc = some (.attempt 0) ∧ w.chunk < start.task.chunks.length)
    (hdistinct : (workers.map (·.chunk)).Nodup)
    (hsingle : ∀ c ∈ start.task.chunks, c.tempPath ≠ singlePart) (hunsettled : start.task.status.Unsettled)
    (h : JoinedWith env outcomes workers start errors s) (h' : JoinedWith env outcomes workers start errors' s') :
    LeaveSame outcomes s s' := by
  have hnone : ∀ {errors s}, JoinedWith env outcomes workers start errors s → (∀ o ∈ outcomes, o = none) →
      errors = [] := by
    intro errors s h hall
    refine List.eq_nil_iff_forall_not_mem.2 fun e he => ?_
    obtain ⟨x, hx, -⟩ := (h.mem (fun w hw => by simp [(hstart w hw).1]) e).1 he
    cases hall _ hx
  have hfates : ∀ {errors s}, JoinedWith env outcomes workers start errors s →
      ∃ turns, PoolJoined { env with turns } start (workers.map (·.chunk)) errors s := by
    rintro errors s ⟨turns, -, -, hrun, -⟩
    exact ⟨turns, (wp_of_ok hrun).1 (runPool_joined hf happ hstart hdistinct)⟩
  have hfate : ∀ turns, chunkFate { env with turns } = chunkFate env := fun turns =>
    SameServer.chunkFate ⟨rfl, rfl, rfl, rfl, rfl⟩
  intro c hc hused
  obtain ⟨turns, hjoined⟩ := hfates h
  obtain ⟨turns', hjoined'⟩ := hfates h'
  have hsince := h.since hunsettled
  have hall : ∀ o ∈ outcomes, o = none := by
    refine hused.resolve_right fun hname => ?_
    have hmem : c.tempPath ∈ start.task.chunks.map (·.tempPath) := hsince.names ▸ List.mem_map_of_mem hc
    obtain ⟨c₀, hc₀, hsame⟩ := List.mem_map.1 hmem
    exact hsingle c₀ hc₀ (hsame.trans hname)
  obtain rfl := hnone h hall
  obtain rfl := hnone h' hall
  obtain ⟨j, hj⟩ := List.getElem?_of_mem hc
  obtain ⟨c₀, hc₀⟩ : ∃ c₀, start.task.chunks[j]? = some c₀ :=
    ⟨_, List.getElem?_eq_getElem (hjoined.length ▸ (List.getElem?_eq_some_iff.1 hj).1)⟩
  obtain ⟨c', hc'⟩ : ∃ c', s'.task.chunks[j]? = some c' :=
    ⟨_, List.getElem?_eq_getElem (hjoined'.length.symm ▸ (List.getElem?_eq_some_iff.1 hc₀).1)⟩
  -- the part file of a chunk is what its fate says, or what it was
  have hpart : s'.task.partOn s'.world.disk c' = s.task.partOn s.world.disk c := by
    by_cases hmem : j ∈ workers.map (·.chunk)
    · rcases hjoined.ended j c₀ c hc₀ hj hmem with ⟨-, hp, -⟩ | ⟨e, -, he⟩
      · rcases hjoined'.ended j c₀ c' hc₀ hc' hmem with ⟨-, hp', -⟩ | ⟨e, -, he⟩
        · rw [hp, hp', hfate turns, hfate turns']
        · cases he
      · cases he
    · rw [(hjoined.left j c₀ c hc₀ hj hmem).2, (hjoined'.left j c₀ c' hc₀ hc' hmem).2]
  have hname : c'.tempPath = c.tempPath :=
    (hjoined'.place j c₀ c' hc₀ hc').2.2.2.trans (hjoined.place j c₀ c hc₀ hj).2.2.2.symm
  rw [← hpart]
  exact partOn_congr (hsince.same.symm.trans (h'.since hunsettled).same).symm hname.symm fun _ _ => rfl

end Orders

/-- All threads have come to the end of `downloadChunkWithRetry`. -/
def endedSession (outcomes : List (Option Exn)) : Session where
  task :=
    { status := .downloading
      chunks := List.replicate outcomes.length { downloaded := 1, status := .completed } }

theorem underway_ended (outcomes : List (Option Exn)) :
    Underway { protocol := .silent } (endedWorkers outcomes) (endedSession outcomes) := by
  have hchunks : (endedWorkers outcomes).map (·.chunk) = List.range outcomes.length := by
    refine List.ext_getElem (by simp [endedWorkers]) fun j hj hj' => ?_
    simp [endedWorkers]
  refine ⟨by rw [hchunks]; exact List.nodup_range, fun w hw => ?_, fun j c hc _ => ?_, .inl rfl⟩
  · obtain ⟨j, hj, rfl⟩ := List.mem_mapIdx.1 hw
    refine ⟨_, { downloaded := 1, status := .completed }, rfl, ?_, ?_, fun _ => ⟨rfl, rfl⟩⟩
    · simp [endedSession, hj]
    · cases outcomes[j] <;> trivial
  · rw [List.eq_of_mem_replicate (List.mem_of_getElem? hc)]

/-- Whatever a ranged download makes of the outcomes of its threads, it makes of them in every
order, exactly if they amount to one verdict: on every task and server, from any moment on at which
the threads are underway, whichever operations fail. -/
theorem ranged_end_any_order_iff (outcomes : List (Option Exn)) :
    (∀ (env : Env) (info : RemoteFileInfo) (workers : List PoolWorker) (start : Session), Underway env workers start →
      ∀ errors errors' s s', JoinedWith env outcomes workers start errors s →
      JoinedWith env outcomes workers start errors' s' →
        LeaveSame outcomes s s' → ∀ tick,
        finalStatus env info tick s errors = finalStatus env info tick s' errors' ∧
        rangeFallback errors = rangeFallback errors') ↔
      OneVerdict outcomes := by
  constructor
  · intro hsame
    by_contra hverdict
    obtain ⟨hrange, hmixed⟩ := not_or.1 hverdict
    push Not at hmixed
    obtain ⟨x, y, hx, hy, hxy⟩ := hmixed
    have hstart := underway_ended outcomes
    obtain ⟨rest, hjoin⟩ := joinedWith_first hx { protocol := .silent } (endedSession outcomes)
    obtain ⟨rest', hjoin'⟩ := joinedWith_first hy { protocol := .silent } (endedSession outcomes)
    have hstatus := (hsame _ {} _ _ hstart _ _ _ _ hjoin hjoin' (fun _ _ _ => rfl) 0).1
    rw [finalStatus_failed (by simpa using (hjoin.fallback_iff hstart.started).not.2 hrange),
      finalStatus_failed (by simpa using (hjoin'.fallback_iff hstart.started).not.2 hrange)] at hstatus
    have hfirst : firstStatus x.toWorkerError = firstStatus y.toWorkerError := Option.some.inj hstatus
    simp only [Exn.mismatch] at hxy
    rcases hxy with ⟨hmx, hmy⟩ | ⟨hmx, hmy⟩
    · rw [firstStatus, firstStatus, if_pos hmx, if_neg hmy] at hfirst
      cases hfirst
    · rw [firstStatus, firstStatus, if_neg hmx, if_pos hmy] at hfirst
      cases hfirst
  · intro hverdict env info workers start hstart errors errors' s s' hjoin hjoin' hsame tick
    have hfall : rangeFallback errors = rangeFallback errors' := by
      rw [Bool.eq_iff_iff, hjoin.fallback_iff hstart.started, hjoin'.fallback_iff hstart.started]
    refine ⟨?_, hfall⟩
    cases hf : rangeFallback errors with
    | true => exact finalStatus_fallback (hjoin.since hstart.status) (hjoin'.since hstart.status) hsame hf (hfall ▸ hf)
    | false =>
      have hnorange := (hjoin.fallback_iff hstart.started).not.1 (by simp [hf])
      have huniform := hverdict.resolve_left hnorange
      have hmem := hjoin.mem hstart.started
      have hmem' := hjoin'.mem hstart.started
      cases errors with
      | nil =>
        cases errors' with
        | nil =>
          refine finalStatus_returned hstart hsame (fun o ho => ?_) hjoin hjoin'
          cases o with
          | none => rfl
          | some x => exact absurd ((hmem _).2 ⟨x, ho, rfl⟩) (by simp)
        | cons e' _ =>
          obtain ⟨x, hx, -⟩ := (hmem' e').1 (by simp)
          exact absurd ((hmem _).2 ⟨x, hx, rfl⟩) (by simp)
      | cons e _ =>
        obtain ⟨x, hx, rfl⟩ := (hmem e).1 (by simp)
        cases errors' with
        | nil => exact absurd ((hmem' _).2 ⟨x, hx, rfl⟩) (by simp)
        | cons e' _ =>
          obtain ⟨y, hy, rfl⟩ := (hmem' e').1 (by simp)
          have hfirst : firstStatus x.toWorkerError = firstStatus y.toWorkerError :=
            if_congr (huniform x y hx hy) rfl rfl
          rw [finalStatus_failed hf, finalStatus_failed (hfall ▸ hf), hfirst]

section TwoThreads

/-- What two chunks of one download can meet. -/
def notSatisfiable : Exn := .cget .metadataMismatchError (text "server returned HTTP 416 Range Not Satisfiable")

def unavailable : Exn := .cget .httpStatusError (text "server returned HTTP 503")

def twoFailures : List (Option Exn) := [some notSatisfiable, some unavailable]

/-- A server that answers the one for the first chunk, and the other for the second. -/
def refusingServer : Env where
  protocol :=
    { Protocol.silent with
      downloadRange := fun _ start _ _ => { result := .error (if start = 0 then notSatisfiable else unavailable) } }

def refusedTask : DownloadTask where
  id := text "a"
  tempDir := text "/t/a"
  status := .downloading
  fileSize := 2
  chunks :=
    [{ stop := 0, tempPath := text "chunk_0.part" },
      { index := 1, start := 1, stop := 1, tempPath := text "chunk_1.part" }]

/-- The threads in this order, each up to its end. -/
def inOrder (first second : Nat) : List Nat := List.replicate 8 first ++ List.replicate 8 second

theorem refused_joined (turns : List Nat) (errors : List WorkerError) (ended : List (Nat × Option Exn))
    (hrun : ((runPool { refusingServer with turns } (rangeWorkers refusedTask)).run
      { task := markDone refusedTask }).1 = .ok errors)
    (hended : ((endings { refusingServer with turns } turns { workers := rangeWorkers refusedTask }).run
      { task := markDone refusedTask }).1 = .ok ended)
    (hout : ∀ e ∈ ended, twoFailures[e.1]? = some e.2) :
    ∃ s, JoinedWith refusingServer twoFailures (rangeWorkers refusedTask)
      { task := markDone refusedTask } errors s := by
  have hpool : (runPool { refusingServer with turns } (rangeWorkers refusedTask)).run { task := markDone refusedTask } =
    (.ok errors, _) :=
    Prod.ext hrun rfl
  have hunderway : Underway refusingServer (rangeWorkers refusedTask) { task := markDone refusedTask } :=
    underway_start (.inl rfl)
  obtain ⟨ended', hended', -⟩ := runPool_reports hpool hunderway.started
  obtain rfl : ended' = ended := Outcome.ok.inj ((congrArg Prod.fst hended').symm.trans hended)
  exact ⟨_, turns, ended', rfl, hpool, hended', hout⟩

/-- The task is `MetadataMismatch` or `Failed` as the one or the other thread ends first. -/
theorem first_thread_decides :
    ∃ (env : Env) (info : RemoteFileInfo) (workers : List PoolWorker) (start : Session), Underway env workers start ∧
      ∃ errors errors' s s', JoinedWith env twoFailures workers start errors s ∧
      JoinedWith env twoFailures workers start errors' s' ∧
        LeaveSame twoFailures s s' ∧
        ¬ ∀ tick, finalStatus env info tick s errors = finalStatus env info tick s' errors' ∧
        rangeFallback errors = rangeFallback errors' := by
  obtain ⟨s, hjoin⟩ := refused_joined (inOrder 0 1) [notSatisfiable.toWorkerError, unavailable.toWorkerError]
    [(0, some notSatisfiable), (1, some unavailable)] (by decide +kernel) (by decide +kernel) (by decide)
  obtain ⟨s', hjoin'⟩ := refused_joined (inOrder 1 0) [unavailable.toWorkerError, notSatisfiable.toWorkerError]
    [(1, some unavailable), (0, some notSatisfiable)] (by decide +kernel) (by decide +kernel) (by decide)
  refine ⟨refusingServer, {}, rangeWorkers refusedTask, { task := markDone refusedTask }, underway_start (.inl rfl), _,
    _, s, s', hjoin, hjoin', fun c hc hused => ?_, fun hsame => ?_⟩
  · -- no chunk is kept in the part file of a single stream
    have hname : c.tempPath ∈ (markDone refusedTask).chunks.map (·.tempPath) :=
      (hjoin.since (.inl rfl)).names ▸ List.mem_map_of_mem hc
    have hapart : singlePart ∉ (markDone refusedTask).chunks.map (·.tempPath) := by decide
    rcases hused with hall | hsingle
    · cases hall (some notSatisfiable) List.mem_cons_self
    · exact absurd (hsingle ▸ hname) hapart
  · have hstatus := (hsame 0).1
    rw [finalStatus_failed (by decide), finalStatus_failed (by decide)] at hstatus
    exact absurd hstatus (by decide)

end TwoThreads

end Cget
