import Cget.Appending
/-!
# What a chunk comes to

`downloadChunkWithRetry` as a function, for when all file operations go through: from the
part file an attempt finds and the answers of the server, what is in the file in the end,
how often it tried again, and what it throws. `fateAt` is what a thread comes to that stands
at some place in its code. Its steps do not change it, so the order in which threads step
makes no difference to what becomes of a chunk.
-/

namespace Cget

/-- What a call leaves in the part file, its `retryCount`, and its exception. -/
structure Fate where
  part : Option Bytes
  retries : Nat
  error : Option Exn := none
  deriving DecidableEq

/-- Nobody writes to an unsafe path. -/
def onPath (path : Except Exn Path) (new old : Option Bytes) : Option Bytes :=
  match path with
  | .ok _ => new
  | .error _ => old

/-- The file after the write callback was called for these blocks. -/
def appendBlocks (part : Option Bytes) (blocks : List Block) : Option Bytes :=
  blocks.foldl (fun p b => some (p.getD [] ++ b.data)) part

/-- The chunk has been completed. -/
def WorkerPc.stores : WorkerPc → Bool
  | .storing _ | .returned => true
  | _ => false

section Fates

variable (env : Env) (url : Text) (path : Except Exn Path) (c : Chunk)

/-- The exception `e` of attempt `n`, when `again` is what the attempts after it come to. -/
def caughtFate (again : Option Bytes → Nat → Fate) (n : Nat) (part : Option Bytes) (retries : Nat) : Exn → Fate
  | .cget code what =>
    if fatalCode code || n = env.maxRetries then { part, retries := n, error := some (.cget code what) }
    else again part (n + 1)
  | .other what => { part, retries, error := some (.other what) }

/-- After `downloadRange` has returned. -/
def closedFate (again : Option Bytes → Nat → Fate) (n : Nat) (part : Option Bytes) (retries : Nat) : Fate :=
  if fileSize part ≠ c.size then caughtFate env again n part retries (sizeMismatch c) else { part, retries }

/-- The callbacks still to come, and how `downloadRange` ends. -/
def transferFate (again : Option Bytes → Nat → Fate) (n : Nat) (part : Option Bytes) (retries : Nat)
    (blocks : List Block) (result : Except Exn Unit) : Fate :=
  match result with
  | .error e => caughtFate env again n (onPath path (appendBlocks part blocks) part) retries e
  | .ok _ => closedFate env c again n (onPath path (appendBlocks part blocks) part) retries

/-- The request for the bytes from `start` on. -/
def requestFate (again : Option Bytes → Nat → Fate) (n start : Nat) (part : Option Bytes) (retries : Nat) : Fate :=
  transferFate env path c again n part retries (env.protocol.downloadRange url start c.stop n).blocks
    (env.protocol.downloadRange url start c.stop n).result

/-- Attempt `n`. -/
def tryFate (again : Option Bytes → Nat → Fate) (n : Nat) (part : Option Bytes) (retries : Nat) : Fate :=
  match path with
  | .error e => caughtFate env again n part retries e
  | .ok _ =>
    if c.size < fileSize part then { part := part.map (·.take c.size), retries }
    else if c.size ≤ fileSize part then { part, retries }
    else requestFate env url path c again n (c.start + fileSize part) (some (part.getD [])) retries

/-- Attempt `n`, which `left` more may follow. -/
def attemptFate : (left n : Nat) → Option Bytes → Nat → Fate
  | 0, n => tryFate env url path c (fun part retries => { part, retries }) n
  | left + 1, n => tryFate env url path c (attemptFate left (n + 1)) n

/-- The attempts after attempt `n`. -/
def retryFate (n : Nat) (part : Option Bytes) (retries : Nat) : Fate :=
  match env.maxRetries - n with
  | 0 => { part, retries }
  | left + 1 => attemptFate env url path c left (n + 1) part retries

/-- What the thread at `pc` comes to, with `part` in the file and `retries` counted. -/
def fateAt (part : Option Bytes) (retries : Nat) : WorkerPc → Fate
  | .attempt n => tryFate env url path c (retryFate env url path c n) n part retries
  | .opening n start =>
    requestFate env url path c (retryFate env url path c n) n start (onPath path (some (part.getD [])) part) retries
  | .starting n start | .announcing n start | .requesting n start =>
    requestFate env url path c (retryFate env url path c n) n start part retries
  | .receiving n blocks result | .flushing n blocks result =>
    transferFate env path c (retryFate env url path c n) n part retries blocks result
  | .closing n => closedFate env c (retryFate env url path c n) n part retries
  | .caught n e => caughtFate env (retryFate env url path c n) n part retries e
  | .recording n | .sleeping n => retryFate env url path c n part retries
  | .storing _ | .returned => { part, retries }
  | .threw e => { part, retries, error := some e }

end Fates

section Moves

variable {env : Env} {url : Text} {path : Except Exn Path} {c c' : Chunk} {part : Option Bytes}
  {pc : WorkerPc} {n : Nat}

theorem attemptFate_eq (part : Option Bytes) (retries : Nat) :
    attemptFate env url path c (env.maxRetries - n) n part retries =
      tryFate env url path c (retryFate env url path c n) n part retries := by
  unfold retryFate
  cases env.maxRetries - n <;> rfl

theorem Chunk.SamePlace.size_eq (h : c.SamePlace c') : c'.size = c.size := by
  simp only [Chunk.size, h.2.1, h.2.2.1]

theorem tryFate_congr (h : c.SamePlace c') (again : Option Bytes → Nat → Fate) (n : Nat) (part : Option Bytes)
    (retries : Nat) : tryFate env url path c' again n part retries = tryFate env url path c again n part retries := by
  simp only [tryFate, requestFate, transferFate, closedFate, sizeMismatch, h.size_eq, h.1, h.2.1, h.2.2.1]

theorem attemptFate_congr (h : c.SamePlace c') (left : Nat) : ∀ (n : Nat) (part : Option Bytes) (retries : Nat),
    attemptFate env url path c' left n part retries = attemptFate env url path c left n part retries := by
  induction left with
  | zero => exact fun n part retries => tryFate_congr h _ n part retries
  | succ left ih =>
    intro n part retries
    have hagain : attemptFate env url path c' left (n + 1) = attemptFate env url path c left (n + 1) := by
      funext part retries
      exact ih (n + 1) part retries
    rw [attemptFate, attemptFate, hagain]
    exact tryFate_congr h _ n part retries

theorem retryFate_congr (h : c.SamePlace c') (n : Nat) : retryFate env url path c' n = retryFate env url path c n := by
  funext part retries
  unfold retryFate
  split
  · rfl
  · exact attemptFate_congr h _ _ _ _

/-- The fate of a chunk depends on its place. -/
theorem fateAt_congr (h : c.SamePlace c') (retries : Nat) :
    fateAt env url path c' part retries pc = fateAt env url path c part retries pc := by
  cases pc <;>
    simp only [fateAt, retryFate_congr h, tryFate_congr h, requestFate, transferFate, closedFate,
      sizeMismatch, h.size_eq, h.1, h.2.2.1]

/-- What follows a failed attempt that is not the last. -/
theorem retryFate_eq {retries : Nat} (hlt : n < env.maxRetries) :
    retryFate env url path c n part retries =
      tryFate env url path c (retryFate env url path c (n + 1)) (n + 1) part retries := by
  obtain ⟨left, hleft⟩ : ∃ left, env.maxRetries - n = left + 1 := ⟨env.maxRetries - n - 1, by omega⟩
  have hnext : env.maxRetries - (n + 1) = left := by omega
  rw [← attemptFate_eq, hnext]
  simp only [retryFate, hleft]

/-- No step changes the fate of its thread. -/
theorem workerMove_fate (hin : pc.within env.maxRetries) :
    fateAt env url path c ((workerMove env url path .ok .ok c part pc).file path part)
        (workerMove env url path .ok .ok c part pc).chunk.retryCount (workerMove env url path .ok .ok c part pc).next =
      fateAt env url path c part c.retryCount pc := by
  cases pc with
  | attempt n =>
    cases path with
    | error e => rfl
    | ok p =>
      simp only [workerMove]
      split
      · rename_i hlt
        simp only [fateAt, tryFate, if_pos hlt]
        rfl
      · rename_i hlt
        split
        · rename_i hle
          simp only [fateAt, tryFate, if_neg hlt, if_pos hle]
          rfl
        · rename_i hle
          simp only [fateAt, tryFate, if_neg hlt, if_neg hle]
          rfl
  | opening n start => cases path <;> rfl
  | starting n start => cases path <;> rfl
  | announcing n start => cases path <;> rfl
  | requesting n start => cases path <;> rfl
  | receiving n blocks result =>
    cases blocks with
    | nil => cases result <;> cases path <;> rfl
    | cons b bs =>
      simp only [workerMove]
      cases path <;> split <;> cases result <;> rfl
  | flushing n blocks result => cases path <;> rfl
  | closing n =>
    simp only [workerMove]
    split
    · rename_i hsize
      simp only [fateAt, closedFate, if_pos hsize]
      cases path <;> rfl
    · rename_i hsize
      simp only [fateAt, closedFate, if_neg hsize]
      cases path <;> rfl
  | storing n => cases path <;> rfl
  | caught n e =>
    cases e with
    | other what => cases path <;> rfl
    | cget code what =>
      simp only [workerMove]
      split
      · rename_i hlast
        simp only [fateAt, caughtFate, if_pos hlast]
        cases path <;> rfl
      · rename_i hlast
        simp only [fateAt, caughtFate, if_neg hlast]
        cases path <;> rfl
  | recording n => cases path <;> rfl
  | sleeping n =>
    have hlt : n < env.maxRetries := hin
    simp only [workerMove, if_pos hlt, fateAt, retryFate_eq hlt]
    cases path <;> rfl
  | returned => cases path <;> rfl
  | threw e => cases path <;> rfl

/-! ## What a fate says -/

theorem caughtFate_full {again : Option Bytes → Nat → Fate} {retries : Nat} {e : Exn}
    (hagain : n = env.maxRetries ∨ ∀ part retries, (again part retries).error = none →
      fileSize (again part retries).part = c.size)
    (h : (caughtFate env again n part retries e).error = none) :
    fileSize (caughtFate env again n part retries e).part = c.size := by
  cases e with
  | other what => cases h
  | cget code what =>
    simp only [caughtFate] at h ⊢
    split at h
    · cases h
    · rename_i hretry
      simp only [Bool.or_eq_true, decide_eq_true_eq, not_or] at hretry
      rw [if_neg (by simp [hretry])]
      exact (hagain.resolve_left hretry.2) _ _ h

theorem tryFate_full {again : Option Bytes → Nat → Fate} {retries : Nat}
    (hagain : n = env.maxRetries ∨ ∀ part retries, (again part retries).error = none →
      fileSize (again part retries).part = c.size)
    (h : (tryFate env url path c again n part retries).error = none) :
    fileSize (tryFate env url path c again n part retries).part = c.size := by
  cases path with
  | error e => exact caughtFate_full hagain h
  | ok p =>
    simp only [tryFate] at h ⊢
    split
    · rename_i hlong
      cases part with
      | none => cases hlong
      | some b => simpa using hlong.le
    · rename_i hlong
      rw [if_neg hlong] at h
      split
      · exact Nat.le_antisymm (Nat.not_lt.1 hlong) ‹_›
      · rename_i hshort
        rw [if_neg hshort] at h
        simp only [requestFate, transferFate] at h ⊢
        split
        · rename_i e he
          rw [he] at h
          exact caughtFate_full hagain h
        · rename_i he
          rw [he] at h
          simp only [closedFate] at h ⊢
          split
          · rename_i hsize
            rw [if_pos hsize] at h
            exact caughtFate_full hagain h
          · exact not_not.1 ‹_›

/-- A call that returns leaves the chunk complete. -/
theorem attemptFate_full {left n : Nat} (hn : n + left = env.maxRetries) {retries : Nat}
    (h : (attemptFate env url path c left n part retries).error = none) :
    fileSize (attemptFate env url path c left n part retries).part = c.size := by
  induction left generalizing n part retries with
  | zero => exact tryFate_full (.inl hn) h
  | succ left ih => exact tryFate_full (.inr fun part retries h => ih (by omega) h) h

end Moves

/-! ## The exceptions of a fate -/

section Exceptions

variable {env : Env} {url : Text} {path : Except Exn Path} {c : Chunk} {part : Option Bytes} {n : Nat} {P : Exn → Prop}

/-- The exceptions a call for `c` can meet satisfy `P`. -/
structure Meets (env : Env) (url : Text) (path : Except Exn Path) (c : Chunk) (P : Exn → Prop) : Prop where
  path : ∀ e, path = .error e → P e
  answers : ∀ already n, already < c.size → n ≤ env.maxRetries →
    ∀ e, (env.protocol.downloadRange url (c.start + already) c.stop n).result = .error e → P e
  size : P (sizeMismatch c)

theorem caughtFate_meets {again : Option Bytes → Nat → Fate} {retries : Nat} {e e' : Exn} (he : P e)
    (hagain : n = env.maxRetries ∨ ∀ part retries, ∀ e ∈ (again part retries).error, P e)
    (h : e' ∈ (caughtFate env again n part retries e).error) : P e' := by
  cases e with
  | other what =>
    obtain rfl : Exn.other what = e' := by simpa [caughtFate] using h
    exact he
  | cget code what =>
    simp only [caughtFate] at h
    split at h
    · obtain rfl : Exn.cget code what = e' := by simpa using h
      exact he
    · rename_i hretry
      simp only [Bool.or_eq_true, decide_eq_true_eq, not_or] at hretry
      exact (hagain.resolve_left hretry.2) _ _ _ h

theorem tryFate_meets {again : Option Bytes → Nat → Fate} {retries : Nat} {e : Exn} (hmeets : Meets env url path c P)
    (hn : n ≤ env.maxRetries) (hagain : n = env.maxRetries ∨ ∀ part retries, ∀ e ∈ (again part retries).error, P e)
    (h : e ∈ (tryFate env url path c again n part retries).error) : P e := by
  cases path with
  | error e' => exact caughtFate_meets (hmeets.path e' rfl) hagain h
  | ok p =>
    simp only [tryFate] at h
    split at h
    · cases h
    · split at h
      · cases h
      · rename_i hshort
        simp only [requestFate, transferFate] at h
        split at h
        · rename_i e' he
          exact caughtFate_meets (hmeets.answers _ _ (Nat.not_le.1 hshort) hn e' he) hagain h
        · simp only [closedFate] at h
          split at h
          · exact caughtFate_meets hmeets.size hagain h
          · cases h

theorem attemptFate_meets {left n retries : Nat} {e : Exn} (hmeets : Meets env url path c P)
    (hn : n + left = env.maxRetries)
    (h : e ∈ (attemptFate env url path c left n part retries).error) : P e := by
  induction left generalizing n part retries e with
  | zero => exact tryFate_meets hmeets hn.le (.inl hn) h
  | succ left ih => exact tryFate_meets hmeets (by omega) (.inr fun part retries e h => ih (by omega) h) h

end Exceptions

/-! ## Threads on their track -/

/-- A thread at `pc` that has its chunk and part file to itself, and will come to `f`. -/
structure OnTrack (env : Env) (url : Text) (path : Except Exn Path) (c₀ : Chunk) (f : Fate) (c : Chunk)
    (part : Option Bytes) (pc : WorkerPc) : Prop where
  place : c₀.SamePlace c
  fate : fateAt env url path c₀ part c.retryCount pc = f
  within : pc.within env.maxRetries
  filled : pc.stores → Filled c part

section Track

variable {env : Env} {url : Text} {path : Except Exn Path} {c₀ c c' : Chunk} {f : Fate} {part : Option Bytes}
  {pc : WorkerPc}

/-- No step dies whose file operations go through. -/
theorem workerMove_ran : (workerMove env url path .ok .ok c part pc).crashed = false := by
  cases pc with
  | attempt n =>
    cases path with
    | error e => rfl
    | ok p =>
      simp only [workerMove]
      split
      · rfl
      · split <;> rfl
  | receiving n blocks result =>
    cases blocks with
    | nil => cases result <;> rfl
    | cons b bs => rfl
  | closing n =>
    simp only [workerMove]
    split <;> rfl
  | caught n e =>
    cases e with
    | other what => rfl
    | cget code what =>
      simp only [workerMove]
      split <;> rfl
  | _ => rfl

/-- A worker that completes its chunk leaves it filled. -/
theorem workerMove_filled (hin : pc.within env.maxRetries) (h : pc.stores → Filled c part)
    (hstores : (workerMove env url path .ok .ok c part pc).next.stores) :
    Filled (workerMove env url path .ok .ok c part pc).chunk
      ((workerMove env url path .ok .ok c part pc).file path part) := by
  cases pc with
  | attempt n =>
    cases path with
    | error e => cases hstores
    | ok p =>
      simp only [workerMove] at hstores ⊢
      split
      · rename_i hlong
        refine ⟨?_, rfl, rfl⟩
        cases part with
        | none => cases hlong
        | some b => exact (List.length_take_of_le hlong.le : (b.take c.size).length = c.size)
      · rename_i hlong
        rw [if_neg hlong] at hstores
        split
        · have hsize : fileSize part = c.size := Nat.le_antisymm (Nat.not_lt.1 hlong) ‹_›
          exact ⟨hsize, hsize, rfl⟩
        · rw [if_neg ‹_›] at hstores
          cases hstores
  | receiving n blocks result =>
    cases blocks with
    | nil => cases result <;> cases hstores
    | cons b bs =>
      simp only [workerMove] at hstores
      split at hstores <;> cases hstores
  | closing n =>
    simp only [workerMove] at hstores ⊢
    split
    · rw [if_pos ‹_›] at hstores
      cases hstores
    · cases path <;> exact ⟨not_not.1 ‹_›, rfl, rfl⟩
  | storing n => cases path <;> exact h rfl
  | caught n e =>
    cases e with
    | other what => cases hstores
    | cget code what =>
      simp only [workerMove] at hstores
      split at hstores <;> cases hstores
  | sleeping n =>
    have hlt : n < env.maxRetries := hin
    simp only [workerMove, if_pos hlt] at hstores
    cases hstores
  | returned => cases path <;> exact h rfl
  | _ => cases hstores

theorem OnTrack.move (h : OnTrack env url path c₀ f c part pc) :
    OnTrack env url path c₀ f (workerMove env url path .ok .ok c part pc).chunk
      ((workerMove env url path .ok .ok c part pc).file path part)
        (workerMove env url path .ok .ok c part pc).next := by
  refine ⟨h.place.trans workerMove_place, ?_, ?_, workerMove_filled h.within h.filled⟩
  · rw [← fateAt_congr h.place, workerMove_fate h.within, fateAt_congr h.place]
    exact h.fate
  · exact workerMove_within h.within workerMove_ran

/-- A thread that has returned has completed its chunk. -/
theorem OnTrack.returned (h : OnTrack env url path c₀ f c part .returned) :
    f.error = none ∧ f.part = part ∧ f.retries = c.retryCount ∧ Filled c part := by
  obtain rfl : ({ part, retries := c.retryCount } : Fate) = f := h.fate
  exact ⟨rfl, rfl, rfl, h.filled rfl⟩

theorem OnTrack.threw {e : Exn} (h : OnTrack env url path c₀ f c part (.threw e)) : f.error = some e := by
  obtain rfl : ({ part, retries := c.retryCount, error := some e } : Fate) = f := h.fate
  rfl

end Track

end Cget
