import Cget.Appending
import Cget.Destination
import Cget.Lib.Fair
import Cget.Lib.Fuel
/-!
# Downloads that return

A download without crashes comes to an end if each thread of `downloadWithRange` gets its turn
again and again. Its threads have only so many attempts, and each attempt only so many steps:
every turn of a thread brings it nearer to its end, whatever the server answers and whichever
file operations fail. When no thread is left, they are joined.
-/

namespace Cget

open Prog Filter

variable {env : Env} {s : Session} {pool : Pool} {turns : ℕ → ℕ}

/-- The first `n` turns of an endless run. -/
def Env.upTo (env : Env) (turns : ℕ → ℕ) (n : ℕ) : Env := { env with turns := (List.range n).map turns }

/-! ## Operations that do not kill the process -/

theorem survives_onWorld {α : Type} {m : Prog World Exn α} (h : Survives m) : Survives (onWorld m) := by
  intro s _
  rw [onWorld, wp_focus]
  exact h s.world trivial

section Operations

variable (hc : env.NoCrash)

include hc

theorem Env.NoCrash.fileOp {full : Disk → Disk} {part : Nat → Disk → Disk} {e : Exn} :
    Survives (fileOp env full part e) :=
  fun _ _ => wp_fileOp (fun _ => trivial) (fun _ _ => trivial) fun k hk => hc.1 _ k hk

theorem Env.NoCrash.persistTask : Survives (persistTask env) :=
  fun _ _ => wp_persistTask (fun _ => trivial) (fun _ _ => trivial) fun k hk => hc.2.1 _ k hk

theorem Env.NoCrash.setFailure {st : TaskStatus} {message : Text} : Survives (setFailure env st message) :=
  fun _ _ => wp_setFailure (fun _ => trivial) (fun _ _ => trivial) fun k hk => hc.2.1 _ k hk

theorem Env.NoCrash.beginTask : Survives (beginTask env) :=
  fun _ _ => wp_beginTask (fun _ => trivial) (fun _ _ => trivial) fun k hk => hc.2.1 _ k hk

theorem Env.NoCrash.failWith {e : Exn} : Survives (failWith env e) :=
  fun _ _ => wp_failWith (fun _ _ => trivial) (fun _ _ _ _ => trivial) fun _ k _ hk => hc.2.1 _ k hk

theorem Env.NoCrash.mergeAndComplete : Survives (mergeAndComplete env) := by
  refine survives_of_ran fun s => ?_
  obtain ⟨o, s', hr, hend⟩ := commit_run hc s
  rw [hr]
  cases hend with
  | notAssembled => simp
  | notRenamed => simp
  | unopened => simp
  | mismatch o s' b ho => exact ho
  | completed => simp
  | unsaved => simp

theorem Env.NoCrash.truncateFile {p : Path} {n : Nat} : Survives (truncateFile env p n) := by
  unfold Cget.truncateFile
  refine KeepsOr.get_bind fun w => ?_
  split
  · exact hc.fileOp
  · exact KeepsOr.pure _

theorem Env.NoCrash.receiveSingle (p : Path) : ∀ blocks, Survives (receiveSingle env p blocks)
  | [] => KeepsOr.pure _
  | b :: bs => by
    unfold Cget.receiveSingle
    refine (survives_onWorld hc.fileOp).bind fun _ => KeepsOr.bind (fun _ _ => trivial) fun _ =>
      KeepsOr.bind ?_ fun _ => ?_
    · unfold flushTask
      split
      · exact hc.persistTask
      · exact KeepsOr.pure _
    · exact Env.NoCrash.receiveSingle p bs

theorem Env.NoCrash.transferSingleStream (info : RemoteFileInfo) : Survives (transferSingleStream env info) := by
  unfold Cget.transferSingleStream
  refine (survives_onWorld hc.fileOp).bind fun _ => KeepsOr.get_bind fun s => ?_
  refine (survives_onWorld hc.truncateFile).bind fun _ => KeepsOr.bind (fun _ _ => trivial) fun _ =>
    hc.persistTask.bind fun _ => ?_
  refine (survives_onWorld hc.fileOp).bind fun _ => KeepsOr.get_bind fun s =>
    KeepsOr.bind (fun _ _ => trivial) fun _ => ?_
  refine (hc.receiveSingle _ _).bind fun _ => ?_
  split
  · exact KeepsOr.throw _
  · refine KeepsOr.get_bind fun s => ?_
    dsimp only
    split
    · exact KeepsOr.throw _
    · exact fun _ _ => trivial

end Operations

/-! ## The turns of the threads -/

/-- A step of a worker kills the process only if a file operation does. -/
theorem workerMove_lives {url : Text} {path : Except Exn Path} {f g : Fault} {c : Chunk} {part : Option Bytes}
    {pc : WorkerPc}
    (hf : ∀ k, f ≠ .crash k) (hg : ∀ k, g ≠ .crash k) : (workerMove env url path f g c part pc).crashed = false := by
  have hpersist : ∀ pc next failed, (persistMove g c part pc next failed).crashed = false := by
    intro pc next failed
    cases g with
    | ok => rfl
    | fail k => rfl
    | crash k => exact absurd rfl (hg k)
  cases pc with
  | attempt n =>
    rcases path with e | p
    · rfl
    · rcases f with _ | k | k
      · simp only [workerMove]
        split_ifs <;> rfl
      · simp only [workerMove]
        split_ifs <;> rfl
      · exact absurd rfl (hf k)
  | opening n start =>
    rcases f with _ | k | k
    exacts [rfl, rfl, absurd rfl (hf k)]
  | receiving n blocks result =>
    rcases blocks with _ | ⟨b, bs⟩
    · cases result <;> rfl
    · rcases f with _ | k | k
      exacts [rfl, rfl, absurd rfl (hf k)]
  | closing n =>
    simp only [workerMove]
    split_ifs <;> rfl
  | caught n e =>
    rcases e with ⟨code, what⟩ | what
    · simp only [workerMove]
      split_ifs <;> rfl
    · rfl
  | announcing | flushing | storing | recording => exact hpersist _ _ _
  | _ => rfl

/-- Where a thread stands, if it is not over. -/
def Pool.pcOf (pool : Pool) (j : ℕ) : Option WorkerPc := pool.workers[j]?.bind (·.pc)

/-- What is left of a thread; nothing is left of one that is over. -/
def restOf (m : ℕ) : Option WorkerPc → WithBot (ℕ ×ₗ ℕ ×ₗ ℕ)
  | some pc => pc.remaining m
  | none => ⊥

/-- A turn of thread `j`: it is over, or has less left than before. -/
structure TurnEffect (env : Env) (pool : Pool) (j : ℕ) (pool' : Pool) : Prop where
  others : ∀ i, i ≠ j → pool'.pcOf i = pool.pcOf i
  length : pool'.workers.length = pool.workers.length
  lower : pool.pcOf j ≠ none → restOf env.maxRetries (pool'.pcOf j) < restOf env.maxRetries (pool.pcOf j)
  stays : pool.pcOf j = none → pool'.pcOf j = none

theorem turnEffect_set {j : ℕ} {w : PoolWorker} {pc' : Option WorkerPc} {errors : List WorkerError}
    (hj : pool.workers[j]? = some w) (hlower : restOf env.maxRetries pc' < restOf env.maxRetries w.pc) :
    TurnEffect env pool j { workers := pool.workers.set j { w with pc := pc' }, errors } := by
  have hlt := (List.getElem?_eq_some_iff.1 hj).1
  have hbefore : pool.pcOf j = w.pc := by simp [Pool.pcOf, hj]
  refine ⟨fun i hi => ?_, List.length_set .., fun _ => ?_, fun hover => ?_⟩
  · simp [Pool.pcOf, List.getElem?_set_ne (Ne.symm hi)]
  · rw [hbefore]
    simpa [Pool.pcOf, List.getElem?_set_self hlt] using hlower
  · rw [hbefore] at hover
    rw [hover] at hlower
    exact absurd hlower not_lt_bot

theorem stepWorker_lower (hc : env.NoCrash) (i : ℕ) {pc : WorkerPc} (hgoing : pc.number.isSome) :
    ∃ pc' s', (stepWorker env i pc).run s = (.ok pc', s') ∧
    pc'.remaining env.maxRetries < pc.remaining env.maxRetries := by
  cases hchunk : s.task.chunks[i]? with
  | none =>
    have hrun : (stepWorker env i pc).run s = (.ok (.threw (.other (text "vector::_M_range_check"))), s) := by
      simp only [stepWorker, hchunk]
    refine ⟨_, s, hrun, ?_⟩
    cases pc with
    | returned => cases hgoing
    | threw e => cases hgoing
    | _ => simp [WorkerPc.remaining, Prod.Lex.toLex_lt_toLex]
  | some c =>
    have hran : (s.workerMove env c pc).crashed = false := workerMove_lives (fun k => hc.1 _ k) fun k => hc.2.1 _ k
    refine ⟨_, _, by rw [stepWorker_run hchunk, hran]; rfl, ?_⟩
    exact workerMove_remaining hgoing hran

theorem turn_lower (hc : env.NoCrash) (pool : Pool) (j : ℕ) (s : Session) :
    ∃ pool' s', (Pool.turn env pool j).run s = (.ok pool', s') ∧ TurnEffect env pool j pool' := by
  have hsame : pool.pcOf j = none → TurnEffect env pool j pool := fun hnone =>
    ⟨fun _ _ => rfl, rfl, fun hne => absurd hnone hne, fun h => h⟩
  unfold Pool.turn
  split
  · rename_i hnone
    exact ⟨pool, s, rfl, hsame (by simp [Pool.pcOf, hnone])⟩
  · rename_i hover
    exact ⟨pool, s, rfl, hsame (by simp [Pool.pcOf, hover])⟩
  · rename_i hj
    exact ⟨_, s, rfl, turnEffect_set hj (WithBot.bot_lt_coe _)⟩
  · rename_i hj
    exact ⟨_, s, rfl, turnEffect_set hj (WithBot.bot_lt_coe _)⟩
  · rename_i i pc hret hthrew hj
    have hgoing : pc.number.isSome := by
      cases pc with
      | returned => exact absurd rfl hret
      | threw e => exact absurd rfl (hthrew e)
      | _ => rfl
    obtain ⟨pc', s', hrun, hlower⟩ := stepWorker_lower (s := s) hc i hgoing
    refine ⟨_, s', run_bind_ok hrun, turnEffect_set hj ?_⟩
    exact WithBot.coe_lt_coe.2 hlower

/-! ## The joins -/

/-- The pool and its session after `n` turns. -/
def Pool.after (env : Env) (turns : ℕ → ℕ) (x : Pool × Session) : ℕ → Pool × Session :=
  trace (oneRound (Pool.turn env)) x turns

variable {x : Pool × Session}

theorem after_effect (hc : env.NoCrash) (n : ℕ) :
    TurnEffect env (Pool.after env turns x n).1 (turns n) (Pool.after env turns x (n + 1)).1 := by
  obtain ⟨pool', s', hrun, heffect⟩ := turn_lower hc (Pool.after env turns x n).1 (turns n) (Pool.after env turns x n).2
  have hnext : Pool.after env turns x (n + 1) = (pool', s') := by
    change oneRound (Pool.turn env) (Pool.after env turns x n) (turns n) = _
    rw [oneRound, hrun]
  rw [hnext]
  exact heffect

/-- Each thread comes to its end. -/
theorem thread_ends (hc : env.NoCrash) (hturns : ∀ j n, ∃ m ≥ n, turns m = j) (j : ℕ) :
    ∀ᶠ n in atTop, (Pool.after env turns x n).1.pcOf j = none := by
  have hfair : Fair (oneRound (Pool.turn env)) (fun _ _ => True) x turns := fun j n => by
    obtain ⟨m, hm, hj⟩ := hturns j n
    exact ⟨m, hm, hj, trivial⟩
  have heffects : ∀ n, TurnEffect env (Pool.after env turns x n).1 (turns n) (Pool.after env turns x (n + 1)).1 :=
    after_effect hc
  refine hfair.rests j (fun x => restOf env.maxRetries (x.1.pcOf j)) (fun x => x.1.pcOf j = none) ?_ ?_ ?_
  · refine Eventually.of_forall fun n => ?_
    have heffect := heffects n
    by_cases hj : j = turns n
    · subst hj
      by_cases hover : (Pool.after env turns x n).1.pcOf (turns n) = none
      · exact le_of_eq (congrArg _ ((heffect.stays hover).trans hover.symm))
      · exact (heffect.lower hover).le
    · exact le_of_eq (congrArg _ (heffect.others j hj))
  · refine Eventually.of_forall fun n hn _ hgoing => ?_
    subst hn
    exact (heffects n).lower hgoing
  · refine Eventually.of_forall fun n hover => ?_
    have heffect := heffects n
    by_cases hj : j = turns n
    · subst hj
      exact heffect.stays hover
    · exact (heffect.others j hj).trans hover

theorem after_length (hc : env.NoCrash) (n : ℕ) : (Pool.after env turns x n).1.workers.length = x.1.workers.length := by
  induction n with
  | zero => rfl
  | succ n ih => exact (after_effect hc n).length.trans ih

theorem all_over_iff : pool.workers.all (·.pc.isNone) ↔ ∀ j < pool.workers.length, pool.pcOf j = none := by
  simp only [List.all_eq_true, Option.isNone_iff_eq_none, List.forall_mem_iff_forall_getElem, Pool.pcOf]
  refine forall_congr' fun j => forall_congr' fun hj => ?_
  rw [List.getElem?_eq_getElem hj, Option.bind_some]

/-- No turn changes a pool whose threads are over. -/
theorem oneRound_over (hover : ∀ j, x.1.pcOf j = none) (j : ℕ) : oneRound (Pool.turn env) x j = x := by
  have hj := hover j
  unfold oneRound Pool.turn
  cases hw : x.1.workers[j]? with
  | none => rfl
  | some w =>
    obtain ⟨chunk, pc⟩ := w
    obtain rfl : pc = none := by simpa [Pool.pcOf, hw] using hj
    rfl

theorem runPool_concludes (hc : env.NoCrash) (hturns : ∀ j n, ∃ m ≥ n, turns m = j) (workers : List PoolWorker)
    (s : Session) :
    Concludes (fun n => runPool (env.upTo turns n) workers) s := by
  obtain ⟨x, hx⟩ : ∃ x : Pool × Session, x = ({ workers }, s) := ⟨_, rfl⟩
  have hover : ∀ᶠ n in atTop, ∀ j, (Pool.after env turns x n).1.pcOf j = none := by
    have hfinite : ∀ᶠ n in atTop, ∀ j ∈ Finset.range x.1.workers.length, (Pool.after env turns x n).1.pcOf j = none :=
      (eventually_all_finset _).2 fun j _ => thread_ends hc hturns j
    filter_upwards [hfinite] with n hn j
    by_cases hj : j < x.1.workers.length
    · exact hn j (Finset.mem_range.2 hj)
    · rw [Pool.pcOf, List.getElem?_eq_none (by rw [after_length hc]; exact Nat.le_of_not_lt hj)]
      rfl
  obtain ⟨N, hN⟩ := eventually_atTop.1 hover
  have hstays : ∀ n ≥ N, Pool.after env turns x n = Pool.after env turns x N :=
    trace_fixed fun j => oneRound_over (hN N le_rfl) j
  refine ⟨.ok (Pool.after env turns x N).1.errors, (Pool.after env turns x N).2, by simp, ?_⟩
  refine eventually_atTop.2 ⟨N, fun n hn => ?_⟩
  have hreturns : ∀ pool j s, ∃ pool' s', (Pool.turn env pool j).run s = (.ok pool', s') := by
    intro pool j s
    obtain ⟨pool', s', hrun, -⟩ := turn_lower hc pool j s
    exact ⟨pool', s', hrun⟩
  have hloop := foldlM_run hreturns ((List.range n).map turns) x
  rw [← trace_eq_run] at hloop
  change _ = (Outcome.ok (Pool.after env turns x n).1, (Pool.after env turns x n).2) at hloop
  rw [hstays n hn] at hloop
  have hall : (Pool.after env turns x N).1.workers.all (·.pc.isNone) := all_over_iff.2 fun j _ => hN N le_rfl j
  unfold runPool
  rw [show ({ workers } : Pool) = x.1 by rw [hx], show s = x.2 by rw [hx]]
  refine (run_bind_ok hloop).trans ?_
  rw [if_pos hall]
  rfl

/-! ## Downloads -/

theorem receiveSingle_upTo (n : ℕ) (p : Path) (bs : List Block) :
    receiveSingle (env.upTo turns n) p bs = receiveSingle env p bs := by
  induction bs with
  | nil => rfl
  | cons b bs ih =>
    rw [receiveSingle, receiveSingle, ih]
    rfl

/-- A single stream has no threads. -/
theorem transferSingleStream_upTo (n : ℕ) (info : RemoteFileInfo) :
    transferSingleStream (env.upTo turns n) info = transferSingleStream env info := by
  simp only [transferSingleStream, receiveSingle_upTo]
  rfl

section Downloads

variable (hc : env.NoCrash) (hturns : ∀ j n, ∃ m ≥ n, turns m = j)

include hc hturns

theorem transferWithRange_concludes (info : RemoteFileInfo) (s : Session) :
    Concludes (fun n => transferWithRange (env.upTo turns n) info) s := by
  have hquiet : ∀ f, Survives (updateTask f) := fun f _ _ => trivial
  have hread : Survives (get : EngineM Session) := fun _ _ => trivial
  have hdir : Survives (onWorld (ensureTaskTempDir env)) := survives_onWorld hc.fileOp
  have hfails : ∀ st message, Survives (setFailure env st message >>= fun _ => pure TransferEnd.failed) :=
    fun st message =>
    hc.setFailure.bind fun _ => KeepsOr.pure _
  simp only [transferWithRange, transferSingleStream_upTo]
  refine Survives.andThen hdir (fun _ => rfl) fun _ s => ?_
  refine Survives.andThen (hquiet (planRange env info.fileSize)) (fun _ => rfl) fun _ s => ?_
  refine Survives.andThen (hquiet _) (fun _ => rfl) fun _ s => ?_
  refine Survives.andThen hc.persistTask (fun _ => rfl) fun _ s => ?_
  refine Survives.andThen hread (fun _ => rfl) fun started s => ?_
  refine Survives.andThen (hquiet _) (fun _ => rfl) fun _ s => ?_
  refine Concludes.bind (runPool_concludes hc hturns _ s) fun errors s => ?_
  cases errors with
  | nil =>
    refine Survives.andThen hread (fun _ => rfl) fun joined s => Concludes.ite ?_ ?_
    · exact Survives.concludes (KeepsOr.pure _) s
    · exact (hfails _ _).concludes s
  | cons first rest =>
    refine Concludes.ite ?_ ?_
    · refine Survives.andThen (hquiet _) (fun _ => rfl) fun _ s => ?_
      refine Survives.andThen hc.persistTask (fun _ => rfl) fun _ s => ?_
      exact Survives.concludes ((hc.transferSingleStream info).bind fun _ => KeepsOr.pure _) s
    · exact (hfails _ _).concludes s

theorem transfer_concludes (s : Session) : Concludes (fun n => transfer (env.upTo turns n)) s := by
  have hquiet : ∀ f, Survives (updateTask f) := fun f _ _ => trivial
  have hread : Survives (get : EngineM Session) := fun _ _ => trivial
  have hfetch : Survives (fetchMetadata env) := fun _ _ => wp_fetchMetadata (fun _ _ => trivial) fun _ _ => trivial
  simp only [transfer, transferFrom, transferSingleStream_upTo]
  refine Survives.andThen hc.beginTask (fun _ => rfl) fun _ s => ?_
  refine Survives.andThen hfetch (fun _ => rfl) fun info s => ?_
  refine Survives.andThen hread (fun _ => rfl) fun begun s => Concludes.ite ?_ ?_
  · exact Survives.concludes (hc.setFailure.bind fun _ => KeepsOr.pure _) s
  · refine Survives.andThen (hquiet _) (fun _ => rfl) fun _ s => ?_
    refine Survives.andThen hc.persistTask (fun _ => rfl) fun _ s => ?_
    refine Survives.andThen hread (fun _ => rfl) fun remembered s => ?_
    -- the turns do not decide which transfer it is
    change Concludes (fun n => if ranged env remembered.task info then transferWithRange (env.upTo turns n) info
      else do
        transferSingleStream env info
        pure TransferEnd.transferred) s
    refine Concludes.ite ?_ ?_
    · exact transferWithRange_concludes hc hturns info s
    · exact Survives.concludes ((hc.transferSingleStream info).bind fun _ => KeepsOr.pure _) s

theorem download_concludes (s : Session) : Concludes (fun n => download (env.upTo turns n)) s := by
  unfold download
  refine Concludes.tryCatch (Concludes.bind (transfer_concludes hc hturns s) fun r s => ?_) fun e s =>
    hc.failWith.concludes s
  cases r with
  | transferred => exact hc.mergeAndComplete.concludes s
  | failed => exact Survives.concludes (KeepsOr.pure _) s

end Downloads

/-- If no operation kills the process and each thread gets its turn again and again, `download` returns or throws. -/
theorem download_returns (env : Env) (hc : env.NoCrash) (turns : ℕ → ℕ) (hturns : ∀ j n, ∃ m ≥ n, turns m = j)
    (s : Session) :
    ∃ o s', o ≠ .stopped ∧ ∀ᶠ n in atTop, (download (env.upTo turns n)).run s = (o, s') :=
  download_concludes hc hturns s

/-- A server that cuts every range short, and a disk that fails now and then once the threads run. -/
def shaky : Env where
  protocol :=
    { Protocol.silent with
      fetchMetadata := fun _ => .ok { fileSize := 4, supportsRange := true }
      downloadRange := fun _ _ _ _ => { blocks := [{ data := [1] }], result := .error (.cget .networkError []) } }
  fault n := if n % 7 = 6 then .fail 0 else .ok
  saveFault n := if n % 5 = 4 then .fail 0 else .ok

theorem download_returns_shaky :
    ∃ o s', o ≠ .stopped ∧ ∀ᶠ n in atTop,
      (download (shaky.upTo (fun n => n.unpair.1) n)).run
        { task := { id := text "a", tempDir := text "/t" } } = (o, s') := by
  refine download_returns shaky ⟨fun n k => ?_, fun n k => ?_, ?_⟩ _
    (fun j n => ⟨Nat.pair j n, Nat.right_le_pair j n, ?_⟩) _
  · simp only [shaky]
    split <;> simp
  · simp only [shaky]
    split <;> simp
  · simp [shaky, CommitFaults.all]
  · rw [Nat.unpair_pair]

end Cget
