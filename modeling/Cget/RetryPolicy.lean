import Cget.Ownership
/-!
# Which failures are retried

The errors are classified twice: by `isRetryable`, over all codes, and by the condition in
the handler of `downloadChunkWithRetry`. A run of the worker of one chunk is followed here
step by step, with any server and any faults, and with any change other threads make to the
chunk and its part file in between, to see which classification its retries obey.
-/

namespace Cget

/-- `isRetryable`. -/
def isRetryable : ErrorCode → Bool
  | .networkError | .timeoutError | .dnsError | .httpStatusError => true
  | .diskFullError | .jsonCorruptedError | .rangeNotSupportedError | .metadataMismatchError
  | .permissionDeniedError | .pathTraversalError | .fileAlreadyExistsError | .taskNotFoundError
  | .invalidStateTransitionError | .invalidCommandError | .invalidUrlError | .fileSystemError
  | .configError | .checksumMismatchError | .internalError => false

/-- Only a `CgetError` has a code to ask `isRetryable` about. -/
def Exn.retryable : Exn → Bool
  | .cget code _ => isRetryable code
  | .other _ => false

/-! ## The run of a worker -/

/-- What the worker of one chunk works with: the chunk and the part file are those each of
its steps finds. -/
structure ChunkRun where
  env : Env
  url : Text
  path : Except Exn Path
  chunk : Nat → Chunk
  part : Nat → Option Bytes

namespace ChunkRun

variable {r : ChunkRun} {k : Nat} {l : WorkerPc}

def move (r : ChunkRun) (k : Nat) (l : WorkerPc) : WorkerMove :=
  workerMove r.env r.url r.path (r.env.fault k) (r.env.saveFault k) (r.chunk k) (r.part k) l

/-- Where the worker stands after `k` steps, if the process lives. -/
def pc (r : ChunkRun) : Nat → Option WorkerPc
  | 0 => some (.attempt 0)
  | k + 1 => (r.pc k).bind fun l => if (r.move k l).crashed then none else some (r.move k l).next

theorem pc_succ (h : r.pc k = some l) : r.pc (k + 1) = if (r.move k l).crashed then none else some
    (r.move k l).next := by
  rw [ChunkRun.pc, h, Option.bind_some]

/-- The run of a worker that steps in the sessions `s`, whatever leads from one to the next. -/
def ofSessions (env : Env) (s : Nat → Session) (path : Except Exn Path) (c : Nat → Chunk) : ChunkRun where
  env := { env with
    fault := fun k => env.fault (s k).world.tick
    saveFault := fun k => env.saveFault (s k).world.tick }
  url := (s 0).task.url
  path := path
  chunk := c
  part := fun k => (s k).part (c k)

/-- The steps of `stepWorker` on one chunk make such a run. -/
theorem ofSessions_pc {env : Env} {s : Nat → Session} {path : Except Exn Path} {c : Nat → Chunk} {l : Nat → WorkerPc}
    {i m : Nat} (hstart : l 0 = .attempt 0) (hurl : ∀ k, (s k).task.url = (s 0).task.url)
    (hchunk : ∀ k, (s k).task.chunks[i]? = some (c k)) (hpath : ∀ k, chunkPath (s k).task (c k) = path)
    (hstep : ∀ k < m, ((stepWorker env i (l k)).run (s k)).1 = .ok (l (k + 1))) :
    ∀ k ≤ m, (ofSessions env s path c).pc k = some (l k) := by
  intro k hk
  induction k with
  | zero => rw [hstart]; rfl
  | succ k ih =>
    have hmove : (ofSessions env s path c).move k (l k) = (s k).workerMove env (c k) (l k) := by
      unfold move ofSessions Session.workerMove
      rw [hurl k, hpath k]
      cases l k <;> rfl
    have hrun := hstep k hk
    rw [stepWorker_run (hchunk k), ← hmove] at hrun
    rw [pc_succ (ih (Nat.le_of_succ_le hk))]
    split at hrun
    · cases hrun
    · rw [if_neg ‹_›, Outcome.ok.inj hrun]

end ChunkRun

/-- The attempt the worker is in. -/
def WorkerPc.number : WorkerPc → Option Nat
  | .attempt n | .opening n _ | .starting n _ | .announcing n _ | .requesting n _ | .receiving n _ _
  | .flushing n _ _ | .closing n | .storing n | .caught n _ | .recording n | .sleeping n => some n
  | .returned | .threw _ => none

namespace ChunkRun

variable {r : ChunkRun} {k n : Nat} {l : WorkerPc} {e : Exn}

/-- The attempts started up to step `k`. -/
def attempts (r : ChunkRun) (k : Nat) : Nat :=
  (List.range (k + 1)).countP fun j => (r.pc j).any (·.startsAttempt)

/-- The attempts but the first. -/
def retries (r : ChunkRun) (k : Nat) : Nat := r.attempts k - 1

/-- A new attempt starts after step `k`. -/
def Further (r : ChunkRun) (k : Nat) : Prop := ∃ m > k, (r.pc m).any (·.startsAttempt)

/-- The failure `e` leaves an attempt at step `k`. -/
def FailsAt (r : ChunkRun) (k : Nat) (e : Exn) : Prop := ∃ n, r.pc k = some (.caught n e)

/-- The exception leaves the function at once, and the chunk reads Failed. -/
def Rethrows (r : ChunkRun) (k : Nat) (e : Exn) : Prop :=
  r.pc (k + 1) = some (.threw e) ∧ ∃ l, r.pc k = some l ∧ (r.move k l).chunk.status = .failed

/-- `isRetryable` and the number of retries ask for another attempt. -/
def Wanted (r : ChunkRun) (k : Nat) (e : Exn) : Prop := e.retryable ∧ r.retries k < r.env.maxRetries

/-- After the failure `e` of step `k` a new attempt starts if one is wanted, and else `e` is
thrown again. -/
def FollowsAt (r : ChunkRun) (k : Nat) (e : Exn) : Prop :=
  (r.Further k ↔ r.Wanted k e) ∧ (¬ r.Wanted k e → r.Rethrows k e)

/-- The law of the classification, for all failures of the run. -/
def FollowsClassification (r : ChunkRun) : Prop := ∀ k e, r.FailsAt k e → r.FollowsAt k e

/-- The two classifications come to the same for this failure. -/
def Agrees (r : ChunkRun) (k : Nat) : Exn → Prop
  | .cget code _ =>
    r.retries k = r.env.maxRetries ∨ code = .rangeNotSupportedError ∨ code = .metadataMismatchError ∨
      (code = .networkError ∨ code = .timeoutError ∨ code = .dnsError) ∧ r.env.saveFault (k + 1) = .ok
  | .other _ => (r.chunk k).status = .failed

end ChunkRun

/-! ## The number of an attempt -/

section Moves

variable {env : Env} {url : Text} {path : Except Exn Path} {f g : Fault} {c : Chunk} {part : Option Bytes}
  {l next failed : WorkerPc} {n : Nat}

/-- A step from `l` to `next` stays in the attempt, or ends the function. -/
def WorkerPc.Continues (l next : WorkerPc) : Prop :=
  next.startsAttempt = false ∧ (next.number = l.number ∨ next.number = none)

theorem persistMove_continues (hnext : l.Continues next) (hfailed : l.Continues failed)
    (hran : (persistMove f c part l next failed).crashed = false) :
    l.Continues (persistMove f c part l next failed).next := by
  cases f with
  | ok => exact hnext
  | fail k => exact hfailed
  | crash k => simp [persistMove] at hran

/-- Only from the sleep a new attempt starts. -/
theorem workerMove_continues (hran : (workerMove env url path f g c part l).crashed = false) :
    l.Continues (workerMove env url path f g c part l).next ∨
      ∃ n, l = .sleeping n ∧ n < env.maxRetries ∧ (workerMove env url path f g c part l).next = .attempt (n + 1) := by
  cases l with
  | sleeping n =>
    by_cases hn : n < env.maxRetries
    · exact .inr ⟨n, rfl, hn, by simp only [workerMove, if_pos hn]⟩
    · exact .inl (by simp [workerMove, if_neg hn, WorkerPc.Continues, WorkerPc.startsAttempt, WorkerPc.number])
  | attempt n =>
    left
    cases path with
    | error e => exact ⟨rfl, .inl rfl⟩
    | ok p =>
      simp only [workerMove] at hran ⊢
      split
      · cases f with
        | ok => exact ⟨rfl, .inr rfl⟩
        | fail k => exact ⟨rfl, .inl rfl⟩
        | crash k => simp_all
      · split
        · exact ⟨rfl, .inr rfl⟩
        · exact ⟨rfl, .inl rfl⟩
  | opening n start =>
    left
    cases f with
    | ok => exact ⟨rfl, .inl rfl⟩
    | fail k => exact ⟨rfl, .inl rfl⟩
    | crash k => simp [workerMove] at hran
  | starting n start => exact .inl ⟨rfl, .inl rfl⟩
  | announcing n start => exact .inl (persistMove_continues ⟨rfl, .inl rfl⟩ ⟨rfl, .inl rfl⟩ hran)
  | requesting n start => exact .inl ⟨rfl, .inl rfl⟩
  | receiving n blocks result =>
    left
    cases blocks with
    | nil => cases result <;> exact ⟨rfl, .inl rfl⟩
    | cons b bs =>
      cases f with
      | ok =>
        simp only [workerMove]
        split <;> exact ⟨rfl, .inl rfl⟩
      | fail k => exact ⟨rfl, .inl rfl⟩
      | crash k => simp [workerMove] at hran
  | flushing n blocks result => exact .inl (persistMove_continues ⟨rfl, .inl rfl⟩ ⟨rfl, .inl rfl⟩ hran)
  | closing n =>
    left
    simp only [workerMove]
    split <;> exact ⟨rfl, .inl rfl⟩
  | storing n => exact .inl (persistMove_continues ⟨rfl, .inr rfl⟩ ⟨rfl, .inl rfl⟩ hran)
  | caught n e =>
    left
    cases e with
    | other what => exact ⟨rfl, .inr rfl⟩
    | cget code what =>
      simp only [workerMove]
      split
      · exact ⟨rfl, .inr rfl⟩
      · exact ⟨rfl, .inl rfl⟩
  | recording n => exact .inl (persistMove_continues ⟨rfl, .inl rfl⟩ ⟨rfl, .inr rfl⟩ hran)
  | returned => exact .inl ⟨rfl, .inl rfl⟩
  | threw e => exact .inl ⟨rfl, .inl rfl⟩

end Moves

namespace ChunkRun

variable {r : ChunkRun} {k m n : Nat} {l : WorkerPc} {e : Exn} {code : ErrorCode} {what : Text}

theorem pc_next (h : r.pc k = some l) (hran : (r.move k l).crashed = false) :
    r.pc (k + 1) = some (r.move k l).next := by
  rw [pc_succ h, hran]
  rfl

/-- A step that was made was made from somewhere, by a process that lived. -/
theorem pc_before (h : r.pc (k + 1) = some l) :
    ∃ l', r.pc k = some l' ∧ (r.move k l').crashed = false ∧ l = (r.move k l').next := by
  obtain ⟨l', hl', h⟩ := Option.bind_eq_some_iff.1 h
  cases hran : (r.move k l').crashed with
  | true => rw [hran] at h; cases h
  | false =>
    rw [hran] at h
    exact ⟨l', hl', hran, (Option.some.inj h).symm⟩

theorem attempts_succ : r.attempts (k + 1) = r.attempts k + if (r.pc (k + 1)).any (·.startsAttempt) then 1 else 0 := by
  rw [attempts, List.range_succ, List.countP_append, attempts]
  simp [List.countP_cons]

/-- The loop's counter is the number of retries, and never more than the configured ones. -/
theorem attempts_number (h : r.pc k = some l) (hn : l.number = some n) :
    r.attempts k = n + 1 ∧ n ≤ r.env.maxRetries := by
  induction k generalizing l n with
  | zero =>
    cases h
    cases hn
    exact ⟨rfl, Nat.zero_le _⟩
  | succ k ih =>
    obtain ⟨l', hl', hran, rfl⟩ := pc_before h
    rw [attempts_succ, h]
    rcases workerMove_continues hran with ⟨hstart, hnumber | hnumber⟩ | ⟨n', rfl, hlt, hnext⟩
    · rw [move, hnumber] at hn
      obtain ⟨hcount, hle⟩ := ih hl' hn
      simp only [Option.any_some, move, hstart]
      exact ⟨hcount, hle⟩
    · rw [move, hnumber] at hn
      cases hn
    · rw [move, hnext] at hn ⊢
      cases hn
      obtain ⟨hcount, -⟩ := ih hl' rfl
      exact ⟨by rw [hcount]; rfl, hlt⟩

theorem retries_eq (h : r.pc k = some l) (hn : l.number = some n) : r.retries k = n := by
  rw [retries, (attempts_number h hn).1]
  rfl

/-- In all, there is one attempt more than the configured retries at most. -/
theorem attempts_le (r : ChunkRun) (k : Nat) : r.attempts k ≤ r.env.maxRetries + 1 := by
  induction k with
  | zero => exact Nat.le_add_left 1 _
  | succ k ih =>
    rw [attempts_succ]
    cases hl : r.pc (k + 1) with
    | none => exact ih
    | some l =>
      cases hstart : l.startsAttempt with
      | false => simpa [hstart] using ih
      | true =>
        obtain ⟨n, rfl⟩ : ∃ n, l = .attempt n := by
          cases l with
          | attempt n => exact ⟨n, rfl⟩
          | _ => cases hstart
        obtain ⟨hcount, hle⟩ := attempts_number hl rfl
        rw [attempts_succ, hl] at hcount
        rw [hcount]
        exact Nat.succ_le_succ hle

/-! ## After a failure -/

/-- What has left the function stays out of it. -/
theorem pc_threw (h : r.pc k = some (.threw e)) (j : Nat) : r.pc (k + j) = some (.threw e) := by
  induction j with
  | zero => exact h
  | succ j ih => exact pc_next ih rfl

theorem pc_gone (h : r.pc k = none) (j : Nat) : r.pc (k + j) = none := by
  induction j with
  | zero => exact h
  | succ j ih => rw [Nat.add_succ, ChunkRun.pc, ih, Option.bind_none]

theorem not_further (h : ∀ j, (r.pc (k + 1 + j)).any (·.startsAttempt) = false) : ¬ r.Further k := by
  rintro ⟨m, hm, hstart⟩
  obtain ⟨j, rfl⟩ := Nat.exists_eq_add_of_lt hm
  rw [Nat.add_right_comm, h] at hstart
  cases hstart

theorem not_further_threw (h : r.pc (k + 1) = some (.threw e)) : ¬ r.Further k :=
  not_further fun j => by rw [pc_threw h]; rfl

/-- Where the handler rethrows, the law asks that no attempt was wanted. -/
theorem followsAt_threw (hl : r.pc k = some l) (h : r.pc (k + 1) = some (.threw e))
    (hfailed : (r.move k l).chunk.status = .failed) :
    r.FollowsAt k e ↔ ¬ r.Wanted k e := by
  have hrethrows : r.Rethrows k e := ⟨h, l, hl, hfailed⟩
  simp only [FollowsAt, not_further_threw h, false_iff, hrethrows, implies_true, and_true]

/-- Where the handler goes on to record the failure, it asks for a wanted attempt, and the record for a save. -/
theorem followsAt_recording (h : r.pc (k + 1) = some (.recording n)) (hn : n < r.env.maxRetries) :
    r.FollowsAt k e ↔ r.Wanted k e ∧ r.env.saveFault (k + 1) = .ok := by
  have hrethrows : ¬ r.Rethrows k e := fun hthrew => by cases h.symm.trans hthrew.1
  have hfurther : r.Further k ↔ r.env.saveFault (k + 1) = .ok := by
    cases hsave : r.env.saveFault (k + 1) with
    | ok =>
      have hsleep : r.pc (k + 2) = some (.sleeping n) := by
        rw [pc_succ h]
        simp [move, workerMove, persistMove, hsave]
      have hattempt : r.pc (k + 3) = some (.attempt (n + 1)) := by
        rw [pc_succ hsleep]
        simp [move, workerMove, hn]
      exact iff_of_true ⟨k + 3, by omega, by rw [hattempt]; rfl⟩ rfl
    | fail i =>
      have hthrew : r.pc (k + 2) = some (.threw saveError) := by
        rw [pc_succ h]
        simp [move, workerMove, persistMove, hsave]
      refine iff_of_false (not_further fun j => ?_) (by simp)
      cases j with
      | zero => rw [Nat.add_zero, h]; rfl
      | succ j => rw [show k + 1 + (j + 1) = k + 2 + j by omega, pc_threw hthrew]; rfl
    | crash i =>
      have hgone : r.pc (k + 2) = none := by
        rw [pc_succ h]
        simp [move, workerMove, persistMove, hsave]
      refine iff_of_false (not_further fun j => ?_) (by simp)
      cases j with
      | zero => rw [Nat.add_zero, h]; rfl
      | succ j => rw [show k + 1 + (j + 1) = k + 2 + j by omega, pc_gone hgone]; rfl
  unfold FollowsAt
  rw [hfurther]
  constructor
  · rintro ⟨hiff, hrest⟩
    have hwanted : r.Wanted k e := by_contra fun hnot => hrethrows (hrest hnot)
    exact ⟨hwanted, hiff.2 hwanted⟩
  · rintro ⟨hwanted, hsave⟩
    exact ⟨iff_of_true hsave hwanted, fun hnot => absurd hwanted hnot⟩

theorem followsAt_iff (h : r.pc k = some (.caught n e)) : r.FollowsAt k e ↔ r.Agrees k e := by
  have hretries : r.retries k = n := retries_eq h rfl
  have hle : n ≤ r.env.maxRetries := (attempts_number h rfl).2
  cases e with
  | other what =>
    have hthrew : r.pc (k + 1) = some (.threw (.other what)) := pc_next h rfl
    have hwanted : ¬ r.Wanted k (.other what) := fun hw => by cases hw.1
    have hrethrows : r.Rethrows k (.other what) ↔ (r.chunk k).status = .failed := by
      simp only [Rethrows, hthrew, true_and, h, Option.some.injEq, exists_eq_left']
      rfl
    simp only [FollowsAt, not_further_threw hthrew, hwanted, not_false_eq_true, forall_const, true_and,
      hrethrows, Agrees]
  | cget code what =>
    have hwanted : r.Wanted k (.cget code what) ↔ isRetryable code = true ∧ n < r.env.maxRetries := by
      rw [Wanted, hretries]
      rfl
    by_cases hthrows : fatalCode code = true ∨ n = r.env.maxRetries
    · have hmove : r.move k (.caught n (.cget code what)) =
          { next := .threw (.cget code what), chunk := { r.chunk k with status := .failed, retryCount := n },
            part := r.part k } := by
        simp only [move, workerMove, Bool.or_eq_true, decide_eq_true_eq, if_pos hthrows]
      have hthrew : r.pc (k + 1) = some (.threw (.cget code what)) := by
        rw [pc_next h (by rw [hmove]), hmove]
      rw [followsAt_threw h hthrew (by rw [hmove]), hwanted, Agrees, hretries]
      clear hmove hthrew hwanted
      by_cases hn : n = r.env.maxRetries
      · exact iff_of_true (fun hw => by omega) (.inl hn)
      · have hlt : n < r.env.maxRetries := by omega
        have hfatal : fatalCode code = true := hthrows.resolve_right hn
        cases code <;> simp [isRetryable, fatalCode, hn, hlt] at hfatal ⊢
    · have hmove : (r.move k (.caught n (.cget code what))).next = .recording n ∧
          (r.move k (.caught n (.cget code what))).crashed = false := by
        simp only [move, workerMove, Bool.or_eq_true, decide_eq_true_eq, if_neg hthrows, and_self]
      have hrecording : r.pc (k + 1) = some (.recording n) := by
        rw [pc_next h hmove.2, hmove.1]
      obtain ⟨hfatal, hn⟩ := not_or.1 hthrows
      have hlt : n < r.env.maxRetries := by omega
      rw [followsAt_recording hrecording hlt, hwanted, Agrees, hretries]
      clear hmove hrecording hwanted
      cases code <;> simp [isRetryable, fatalCode, hn, hlt] at hfatal ⊢

/-- The retries of a run follow the classification exactly if each of its failures is the
last one allowed, has one of the two codes that neither retries, or has one of the three
that both do and is recorded. -/
theorem retries_follow_iff (r : ChunkRun) : r.FollowsClassification ↔ ∀ k e, r.FailsAt k e → r.Agrees k e := by
  constructor
  · rintro h k e ⟨n, hfails⟩
    exact (followsAt_iff hfails).1 (h k e ⟨n, hfails⟩)
  · rintro h k e ⟨n, hfails⟩
    exact (followsAt_iff hfails).2 (h k e ⟨n, hfails⟩)

/-- Its server answers each request with the status 503. -/
def unavailable : ChunkRun where
  env := { protocol :=
    { fetchMetadata := fun _ => .ok { fileSize := 2, supportsRange := true }
      downloadRange := fun _ _ _ _ => { result := .error (.cget .httpStatusError (text "HTTP status 503")) }
      downloadSingle := fun _ => {} } }
  url := text "http://server/file"
  path := .ok (text "/t/a/chunk_0.part")
  chunk := fun _ => { stop := 1 }
  part := fun _ => none

/-- A code that `isRetryable` retries is not retried. -/
theorem unavailable_not_retried : ¬ unavailable.FollowsClassification := by
  intro h
  have hfails : unavailable.pc 6 = some (.caught 0 (.cget .httpStatusError (text "HTTP status 503"))) := by
    decide +kernel
  have hagrees := (followsAt_iff hfails).1 (h 6 _ ⟨0, hfails⟩)
  rcases hagrees with hlast | hcode | hcode | ⟨hcode | hcode | hcode, -⟩
  · rw [retries_eq hfails rfl] at hlast
    cases hlast
  all_goals cases hcode

end ChunkRun

end Cget
