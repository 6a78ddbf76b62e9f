import Cget.Lib.Slices
import Cget.RetryPolicy
import Mathlib.Data.Prod.Lex
/-!
# Appending to a part file

The attempts of `downloadChunkWithRetry` at one chunk, with the chunk and its part file to
itself. Each looks how long the file is, opens it for appending and asks for the rest. The
server may send less or more than that and fail in any way: what is in the file are bytes of
the remote file from the start of the chunk on, and the function returns only with the chunk
complete.
-/

namespace Cget

/-! ## The end of a run -/

/-- What is left of the function at `l`: its attempts, the way through this one, the blocks to come. -/
def WorkerPc.remaining (m : Nat) : WorkerPc → ℕ ×ₗ ℕ ×ₗ ℕ
  | .attempt n => toLex (m - n + 1, toLex (10, 0))
  | .opening n _ => toLex (m - n + 1, toLex (9, 0))
  | .starting n _ => toLex (m - n + 1, toLex (8, 0))
  | .announcing n _ => toLex (m - n + 1, toLex (7, 0))
  | .requesting n _ => toLex (m - n + 1, toLex (6, 0))
  | .receiving n bs _ => toLex (m - n + 1, toLex (5, 2 * bs.length))
  | .flushing n bs _ => toLex (m - n + 1, toLex (5, 2 * bs.length + 1))
  | .closing n => toLex (m - n + 1, toLex (4, 0))
  | .storing n => toLex (m - n + 1, toLex (3, 0))
  | .caught n _ => toLex (m - n + 1, toLex (2, 0))
  | .recording n => toLex (m - n + 1, toLex (1, 0))
  | .sleeping n => toLex (m - n + 1, toLex (0, 0))
  | .returned | .threw _ => toLex (0, toLex (0, 0))

section Moves

variable {env : Env} {url : Text} {path : Except Exn Path} {f g : Fault} {c : Chunk} {part : Option Bytes}
  {l next failed : WorkerPc}

theorem persistMove_remaining {m : Nat} (hnext : next.remaining m < l.remaining m)
    (hfailed : failed.remaining m < l.remaining m) (hran : (persistMove f c part l next failed).crashed = false) :
    (persistMove f c part l next failed).next.remaining m < l.remaining m := by
  cases f with
  | ok => exact hnext
  | fail k => exact hfailed
  | crash k => cases hran

/-- Every step of a worker that is not through brings it nearer to its end. -/
theorem workerMove_remaining (hgoing : l.number.isSome)
    (hran : (workerMove env url path f g c part l).crashed = false) :
    (workerMove env url path f g c part l).next.remaining env.maxRetries < l.remaining env.maxRetries := by
  cases l with
  | attempt n =>
    cases path with
    | error e => simp [workerMove, WorkerPc.remaining, Prod.Lex.toLex_lt_toLex]
    | ok p =>
      simp only [workerMove] at hran ⊢
      split <;> rename_i hlt
      · rw [if_pos hlt] at hran
        cases f with
        | ok => simp [WorkerPc.remaining, Prod.Lex.toLex_lt_toLex]
        | fail k => simp [WorkerPc.remaining, Prod.Lex.toLex_lt_toLex]
        | crash k => cases hran
      · split <;> simp [WorkerPc.remaining, Prod.Lex.toLex_lt_toLex]
  | opening n start =>
    cases f with
    | ok => simp [workerMove, WorkerPc.remaining, Prod.Lex.toLex_lt_toLex]
    | fail k => simp [workerMove, WorkerPc.remaining, Prod.Lex.toLex_lt_toLex]
    | crash k => cases hran
  | starting n start => simp [workerMove, WorkerPc.remaining, Prod.Lex.toLex_lt_toLex]
  | announcing n start =>
    refine persistMove_remaining ?_ ?_ hran <;> simp [WorkerPc.remaining, Prod.Lex.toLex_lt_toLex]
  | requesting n start => simp [workerMove, WorkerPc.remaining, Prod.Lex.toLex_lt_toLex]
  | receiving n blocks result =>
    cases blocks with
    | nil => cases result <;> simp [workerMove, WorkerPc.remaining, Prod.Lex.toLex_lt_toLex]
    | cons b bs =>
      cases f with
      | ok =>
        simp only [workerMove]
        split <;> simp [WorkerPc.remaining, Prod.Lex.toLex_lt_toLex, mul_add]
      | fail k => simp [workerMove, WorkerPc.remaining, Prod.Lex.toLex_lt_toLex]
      | crash k => cases hran
  | flushing n blocks result =>
    refine persistMove_remaining ?_ ?_ hran <;> simp [WorkerPc.remaining, Prod.Lex.toLex_lt_toLex]
  | closing n =>
    simp only [workerMove]
    split <;> simp [WorkerPc.remaining, Prod.Lex.toLex_lt_toLex]
  | storing n =>
    refine persistMove_remaining ?_ ?_ hran <;> simp [WorkerPc.remaining, Prod.Lex.toLex_lt_toLex]
  | caught n e =>
    cases e with
    | other what => simp [workerMove, WorkerPc.remaining, Prod.Lex.toLex_lt_toLex]
    | cget code what =>
      simp only [workerMove]
      split <;> simp [WorkerPc.remaining, Prod.Lex.toLex_lt_toLex]
  | recording n =>
    refine persistMove_remaining ?_ ?_ hran <;> simp [WorkerPc.remaining, Prod.Lex.toLex_lt_toLex]
  | sleeping n =>
    -- the only step to another attempt
    simp only [workerMove]
    split
    · have hless : env.maxRetries - (n + 1) < env.maxRetries - n := by omega
      simp [WorkerPc.remaining, Prod.Lex.toLex_lt_toLex, hless]
    · simp [WorkerPc.remaining, Prod.Lex.toLex_lt_toLex]
  | returned => cases hgoing
  | threw e => cases hgoing

end Moves

namespace ChunkRun

variable {r : ChunkRun} {k : Nat} {l : WorkerPc}

/-- The function has returned or thrown, or the process is gone. -/
def Over (r : ChunkRun) (k : Nat) : Prop := ∀ l, r.pc k = some l → l.number = none

theorem over_of_pc (h : r.pc k = some l) : ∃ m, r.Over m := by
  induction hm : l.remaining r.env.maxRetries using WellFoundedLT.induction generalizing k l with
  | ind x ih =>
    cases hn : l.number with
    | none => exact ⟨k, fun l' hl' => by rw [Option.some.inj (hl'.symm.trans h), hn]⟩
    | some n =>
      cases hran : (r.move k l).crashed with
      | true =>
        refine ⟨k + 1, fun l' hl' => ?_⟩
        rw [pc_succ h, hran] at hl'
        cases hl'
      | false =>
        have hless : (r.move k l).next.remaining r.env.maxRetries < x := by
          rw [← hm]
          exact workerMove_remaining (by rw [hn]; rfl) hran
        exact ih _ hless (pc_next h hran) rfl

/-- Whatever the server sends and however its files fare, the function ends. -/
theorem ends (r : ChunkRun) : ∃ k, r.Over k := over_of_pc (k := 0) rfl

end ChunkRun

/-! ## The run of a worker alone -/

/-- The chunk and its part file, and where the worker stands, unless the process is gone. -/
structure Solo where
  chunk : Chunk
  part : Option Bytes
  pc : Option WorkerPc := some (.attempt 0)

/-- The step of a worker nobody interferes with, when `k` steps have been made. -/
def Solo.step (env : Env) (t : DownloadTask) (x : Solo) (k : Nat) : Solo :=
  match x.pc with
  | none => x
  | some l =>
    let m := t.move env k x.chunk x.part l
    { chunk := m.chunk, part := m.file (chunkPath t x.chunk) x.part, pc := if m.crashed then none else some m.next }

/-- `downloadChunkWithRetry` on the chunk `c` of `t`, after `k` steps. -/
def Solo.after (env : Env) (t : DownloadTask) (c : Chunk) (part : Option Bytes) : Nat → Solo
  | 0 => { chunk := c, part }
  | k + 1 => (Solo.after env t c part k).step env t k

/-- The run of that call. -/
def ChunkRun.solo (env : Env) (t : DownloadTask) (c : Chunk) (part : Option Bytes) : ChunkRun where
  env := env
  url := t.url
  path := chunkPath t c
  chunk k := (Solo.after env t c part k).chunk
  part k := (Solo.after env t c part k).part

/-- In step `k` the server is asked for the bytes from `start` to `stop`. -/
def ChunkRun.AsksAt (r : ChunkRun) (k start stop : Nat) : Prop :=
  ∃ l n, r.pc k = some l ∧ (r.move k l).action = .request start stop n

section Solo

variable {env : Env} {t : DownloadTask} {c : Chunk} {part : Option Bytes} {k : Nat} {l : WorkerPc}

theorem after_place : c.SamePlace (Solo.after env t c part k).chunk := by
  induction k with
  | zero => exact .refl
  | succ k ih =>
    rw [Solo.after, Solo.step]
    cases (Solo.after env t c part k).pc with
    | none => exact ih
    | some l => exact ih.trans workerMove_place

theorem solo_move : (ChunkRun.solo env t c part).move k l =
    t.move env k (Solo.after env t c part k).chunk (Solo.after env t c part k).part l := by
  have hpath : chunkPath t (Solo.after env t c part k).chunk = chunkPath t c := chunkPath_congr .refl after_place.2.2.2
  rw [DownloadTask.move, hpath]
  rfl

theorem solo_pc : (ChunkRun.solo env t c part).pc k = (Solo.after env t c part k).pc := by
  induction k with
  | zero => rfl
  | succ k ih =>
    rw [ChunkRun.pc, ih, Solo.after, Solo.step]
    cases hl : (Solo.after env t c part k).pc with
    | none => exact hl.symm
    | some l =>
      rw [Option.bind_some, solo_move]

end Solo

/-! ## The threads of a download -/

/-- The steps of a thread of the engine make such a run, if what others do in between leaves its
chunk and its part file alone. -/
theorem sessions_solo {env : Env} {s : Nat → Session} {l : Nat → WorkerPc} {c : Nat → Chunk} {i m : Nat}
    (hstart : l 0 = .attempt 0) (hsame : ∀ k, (s 0).task.SameRequest (s k).task)
    (hchunk : ∀ k, (s k).task.chunks[i]? = some (c k))
    (hstep : ∀ k < m, ((stepWorker env i (l k)).run (s k)).1 = .ok (l (k + 1)))
    (hleft : ∀ k < m, ((stepWorker env i (l k)).run (s k)).2.task.chunks[i]? = some (c (k + 1)) ∧
      ((stepWorker env i (l k)).run (s k)).2.part (c (k + 1)) = (s (k + 1)).part (c (k + 1))) :
    ∀ k ≤ m, Solo.after
        { env with
          fault := fun k => env.fault (s k).world.tick
          saveFault := fun k => env.saveFault (s k).world.tick }
        (s 0).task (c 0) ((s 0).part (c 0)) k =
      { chunk := c k, part := (s k).part (c k), pc := some (l k) } := by
  intro k hk
  induction k with
  | zero => rw [hstart]; rfl
  | succ k ih =>
    have hpath : chunkPath (s k).task (c k) = chunkPath (s 0).task (c k) := chunkPath_congr (hsame k) rfl
    -- the environment of the run differs in the place of its faults only
    have hmove : (s 0).task.move
        { env with
          fault := fun k => env.fault (s k).world.tick
          saveFault := fun k => env.saveFault (s k).world.tick }
        k (c k) ((s k).part (c k)) (l k) = (s k).workerMove env (c k) (l k) := by
      unfold DownloadTask.move Session.workerMove
      rw [hpath, (hsame k).2.1]
      cases l k <;> rfl
    have hrun := hstep k hk
    obtain ⟨hnext, hpart⟩ := hleft k hk
    rw [stepWorker_run (hchunk k)] at hrun hnext hpart
    have hlen := (List.getElem?_eq_some_iff.1 (hchunk k)).1
    rw [stepped_chunks, List.getElem?_set_self hlen] at hnext
    have hc : ((s k).workerMove env (c k) (l k)).chunk = c (k + 1) := Option.some.inj hnext
    have hfile : ((s k).workerMove env (c k) (l k)).file (chunkPath (s 0).task (c k)) ((s k).part (c k)) =
        (s (k + 1)).part (c (k + 1)) := by
      rw [← hpart, ← hc, ← hpath]
      exact stepped_part.symm
    rw [Solo.after, ih (Nat.le_of_succ_le hk), Solo.step]
    dsimp only
    rw [hmove, hc, hfile]
    split at hrun
    · cases hrun
    · rw [if_neg ‹_›, Outcome.ok.inj hrun]

/-! ## What a step keeps -/

/-- The part file holds bytes of the remote file from the start of the chunk on. -/
def Piece (R : Bytes) (c : Chunk) (part : Option Bytes) : Prop := part.getD [] <+: R.drop c.start

/-- The part file has all bytes of the chunk, and the chunk says so. -/
structure Filled (c : Chunk) (part : Option Bytes) : Prop where
  file : fileSize part = c.size
  count : c.downloaded = c.size
  status : c.status = .completed

/-- Where a worker at `pc` goes on in the part file. -/
def GoesOn (R : Bytes) (path : Except Exn Path) (c : Chunk) (part : Option Bytes) : WorkerPc → Prop
  | .opening _ start | .starting _ start | .announcing _ start | .requesting _ start =>
    path.toOption.isSome ∧ start = c.start + fileSize part ∧ fileSize part < c.size
  | .receiving _ bs _ | .flushing _ bs _ =>
    path.toOption.isSome ∧ part.getD [] ++ bs.flatMap (·.data) <+: R.drop c.start
  | .storing _ | .returned => Filled c part
  | _ => True

/-- What the server sends for the rest of the chunk are bytes of the remote file from there on. -/
def SendsFrom (R : Bytes) (p : Protocol) (url : Text) (c : Chunk) : Prop :=
  ∀ already n, c.start + already ≤ c.stop →
    (p.downloadRange url (c.start + already) c.stop n).bytes <+: R.drop (c.start + already)

section Moves

variable {env : Env} {url : Text} {path : Except Exn Path} {R : Bytes} {f g : Fault} {c c' : Chunk}
  {part : Option Bytes} {l next failed : WorkerPc}

theorem Piece.place (h : Piece R c part) (hp : c.SamePlace c') : Piece R c' part := by
  unfold Piece at h ⊢
  rwa [hp.2.1]

theorem Piece.take (h : Piece R c part) (n : Nat) : Piece R c (part.map (·.take n)) := by
  cases part with
  | none => exact h
  | some b => exact (List.take_prefix n b).trans h

theorem SendsFrom.place {p : Protocol} (h : SendsFrom R p url c) (hp : c.SamePlace c') : SendsFrom R p url c' := by
  unfold SendsFrom at h ⊢
  rwa [hp.2.1, hp.2.2.1]

/-- Whatever is appended or cut, the file stays a piece, also when the process dies. -/
theorem workerMove_piece (hp : Piece R c part) (hgo : GoesOn R path c part l) :
    Piece R c ((workerMove env url path f g c part l).file path part) := by
  cases path with
  | error e => exact hp
  | ok p =>
    cases l with
    | attempt n =>
      simp only [workerMove]
      split
      · cases f with
        | ok => exact hp.take c.size
        | fail k => exact hp
        | crash k => exact hp
      · split <;> exact hp
    | opening n start => cases f <;> exact hp
    | receiving n blocks result =>
      cases blocks with
      | nil => cases result <;> exact hp
      | cons b bs =>
        have hrest := hgo.2
        rw [List.flatMap_cons, ← List.append_assoc] at hrest
        have hall : part.getD [] ++ b.data <+: R.drop c.start := (List.prefix_append _ _).trans hrest
        have hcut : ∀ k, part.getD [] ++ b.data.take k <+: R.drop c.start := fun k =>
          ((List.prefix_append_right_inj _).2 (List.take_prefix k b.data)).trans hall
        cases f with
        | ok => exact hall
        | fail k => exact hcut k
        | crash k => exact hcut k
    | closing n =>
      simp only [workerMove]
      split <;> exact hp
    | caught n e =>
      cases e with
      | other what => exact hp
      | cget code what =>
        simp only [workerMove]
        split <;> exact hp
    | announcing n start => cases g <;> exact hp
    | flushing n blocks result => cases g <;> exact hp
    | storing n => cases g <;> exact hp
    | recording n => cases g <;> exact hp
    | _ => exact hp

theorem persistMove_goesOn (hnext : GoesOn R path c part next) (hfailed : GoesOn R path c part failed)
    (hran : (persistMove g c part l next failed).crashed = false) :
    GoesOn R path (persistMove g c part l next failed).chunk ((persistMove g c part l next failed).file path part)
      (persistMove g c part l next failed).next := by
  have hfile : (persistMove g c part l next failed).file path part = part := by cases path <;> cases g <;> rfl
  rw [hfile]
  cases g with
  | ok => exact hnext
  | fail k => exact hfailed
  | crash k => cases hran

/-- The rest of a chunk that is not full starts in it. -/
theorem rest_le_stop {n : Nat} (h : n < c.size) : c.start + n ≤ c.stop := by
  unfold Chunk.size at h
  split at h <;> omega

/-- The next step goes on where this one has left the file. -/
theorem workerMove_goesOn (hsends : SendsFrom R env.protocol url c) (hp : Piece R c part)
    (hin : l.within env.maxRetries)
    (hgo : GoesOn R path c part l) (hran : (workerMove env url path f g c part l).crashed = false) :
    GoesOn R path (workerMove env url path f g c part l).chunk ((workerMove env url path f g c part l).file path part)
      (workerMove env url path f g c part l).next := by
  cases l with
  | attempt n =>
    cases path with
    | error e => trivial
    | ok p =>
      simp only [workerMove] at hran ⊢
      split <;> rename_i hlong
      · rw [if_pos hlong] at hran
        cases f with
        | ok =>
          have hcut : fileSize (part.map (·.take c.size)) = c.size := by
            cases part with
            | none => simp at hlong
            | some b => simpa using hlong.le
          exact ⟨hcut, rfl, rfl⟩
        | fail k => trivial
        | crash k => cases hran
      · split <;> rename_i hfull
        · have hsize : fileSize part = c.size := Nat.le_antisymm (Nat.not_lt.1 hlong) hfull
          exact ⟨hsize, hsize, rfl⟩
        · exact ⟨rfl, rfl, Nat.not_le.1 hfull⟩
  | opening n start =>
    cases path with
    | error e => cases hgo.1
    | ok p =>
      cases f with
      | ok => exact hgo
      | fail k => trivial
      | crash k => cases hran
  | starting n start =>
    cases path <;> exact hgo
  | announcing n start => exact persistMove_goesOn hgo trivial hran
  | requesting n start =>
    obtain ⟨hpath, rfl, hless⟩ := hgo
    cases path with
    | error e => cases hpath
    | ok p =>
      -- the server is asked for what follows the file
      exact ⟨rfl, prefix_drop_append hp (hsends (fileSize part) n (rest_le_stop hless))⟩
  | receiving n blocks result =>
    cases path with
    | error e => cases hgo.1
    | ok p =>
      cases blocks with
      | nil => cases result <;> trivial
      | cons b bs =>
        have hrest := hgo.2
        rw [List.flatMap_cons, ← List.append_assoc] at hrest
        cases f with
        | ok =>
          simp only [workerMove]
          split <;> exact ⟨rfl, hrest⟩
        | fail k => trivial
        | crash k => cases hran
  | flushing n blocks result => exact persistMove_goesOn hgo trivial hran
  | closing n =>
    simp only [workerMove]
    split <;> rename_i hsize
    · trivial
    · cases path <;> exact ⟨not_not.1 hsize, rfl, rfl⟩
  | storing n => exact persistMove_goesOn hgo trivial hran
  | caught n e =>
    cases e with
    | other what => trivial
    | cget code what =>
      simp only [workerMove]
      split <;> trivial
  | recording n => exact persistMove_goesOn trivial trivial hran
  | sleeping n =>
    -- the loop is not left here
    have hlt : n < env.maxRetries := hin
    simp only [workerMove, if_pos hlt]
    trivial
  | returned => cases path <;> exact hgo
  | threw e => trivial

end Moves

/-! ## Whole runs -/

/-- What holds after each step. -/
structure Solo.Sound (R : Bytes) (env : Env) (t : DownloadTask) (c : Chunk) (x : Solo) : Prop where
  place : c.SamePlace x.chunk
  piece : Piece R c x.part
  within : ∀ l, x.pc = some l → l.within env.maxRetries
  goesOn : ∀ l, x.pc = some l → GoesOn R (chunkPath t c) x.chunk x.part l

/-- A call of `downloadChunkWithRetry` for `c` appends bytes of `R` and nothing else. -/
structure ChunkRun.Appends (R : Bytes) (c : Chunk) (r : ChunkRun) : Prop where
  /-- At any time, the part file is a piece of the remote file from the start of the chunk on. -/
  piece : ∀ k, Piece R c (r.part k)
  /-- What the server is asked for is the rest of the chunk, and not nothing. -/
  asks : ∀ k start stop, r.AsksAt k start stop →
    start = c.start + fileSize (r.part k) ∧ stop = c.stop ∧ start ≤ stop
  attempts : ∀ k, r.attempts k ≤ r.env.maxRetries + 1
  ends : ∃ k, r.Over k
  returned : ∀ k, r.pc k = some .returned → r.part k = some (slice R c.start (c.stop - c.start + 1)) ∧
    (r.chunk k).downloaded = c.size ∧ (r.chunk k).status = .completed
  /-- Neither the size of the chunk nor the counter of the loop wraps. -/
  words : c.size < 2 ^ 64 ∧ ∀ k l n, r.pc k = some l → l.number = some n → n + 1 < 2 ^ 32

section Runs

variable {env : Env} {t : DownloadTask} {R : Bytes} {c : Chunk} {part : Option Bytes} {x : Solo}

theorem lives_next {crashed : Bool} {next l : WorkerPc} (h : (if crashed then none else some next) = some l) :
    crashed = false ∧ next = l := by
  cases crashed with
  | true => cases h
  | false => exact ⟨rfl, Option.some.inj h⟩

theorem Solo.Sound.step (h : x.Sound R env t c) (hsends : SendsFrom R env.protocol t.url c) (k : Nat) :
    (x.step env t k).Sound R env t c := by
  unfold Solo.step
  cases hl : x.pc with
  | none => exact h
  | some l =>
    have hpath : chunkPath t x.chunk = chunkPath t c := chunkPath_congr .refl h.place.2.2.2
    have hgo : GoesOn R (chunkPath t x.chunk) x.chunk x.part l := hpath ▸ h.goesOn l hl
    have hpiece : Piece R x.chunk x.part := h.piece.place h.place
    have hplace : c.SamePlace (t.move env k x.chunk x.part l).chunk := h.place.trans workerMove_place
    have happended : Piece R x.chunk ((t.move env k x.chunk x.part l).file (chunkPath t x.chunk) x.part) :=
      workerMove_piece hpiece hgo
    refine ⟨hplace, ?_, fun l' hl' => ?_, fun l' hl' => ?_⟩
    · unfold Piece at happended ⊢
      rwa [h.place.2.1] at happended
    · obtain ⟨hlives, rfl⟩ := lives_next hl'
      exact workerMove_within (h.within l hl) hlives
    · obtain ⟨hlives, rfl⟩ := lives_next hl'
      rw [← hpath]
      exact workerMove_goesOn (hsends.place h.place) hpiece (h.within l hl) hgo hlives

theorem Solo.sound (hpart : Piece R c part) (hsends : SendsFrom R env.protocol t.url c) (k : Nat) :
    (Solo.after env t c part k).Sound R env t c := by
  induction k with
  | zero =>
    refine ⟨.refl, hpart, fun l hl => ?_, fun l hl => ?_⟩
    · obtain rfl : WorkerPc.attempt 0 = l := Option.some.inj hl
      exact Nat.zero_le _
    · obtain rfl : WorkerPc.attempt 0 = l := Option.some.inj hl
      trivial
  | succ k ih => exact ih.step hsends k

/-- Only before a request a worker asks for bytes. -/
theorem workerMove_request {url : Text} {path : Except Exn Path} {f g : Fault} {l : WorkerPc} {start stop n : Nat}
    (h : (workerMove env url path f g c part l).action = .request start stop n) :
    l = .requesting n start ∧ stop = c.stop := by
  have hpersist : ∀ next failed, (persistMove g c part l next failed).action ≠ .request start stop n := by
    intro next failed
    cases g <;> simp [persistMove]
  cases l with
  | requesting m s =>
    cases h
    exact ⟨rfl, rfl⟩
  | attempt m =>
    cases path with
    | error e => cases h
    | ok p =>
      simp only [workerMove] at h
      split at h
      · cases f <;> cases h
      · split at h <;> cases h
  | opening m s => cases f <;> cases h
  | receiving m blocks result =>
    cases blocks with
    | nil => cases result <;> cases h
    | cons b bs => cases f <;> cases h
  | closing m =>
    simp only [workerMove] at h
    split at h <;> cases h
  | caught m e =>
    cases e with
    | other what => cases h
    | cget code what =>
      simp only [workerMove] at h
      split at h <;> cases h
  | announcing m s => exact absurd h (hpersist _ _)
  | flushing m bs result => exact absurd h (hpersist _ _)
  | storing m => exact absurd h (hpersist _ _)
  | recording m => exact absurd h (hpersist _ _)
  | _ => cases h

/-- A piece of the length of the chunk is the chunk. -/
theorem Piece.whole (h : Piece R c part) (hle : c.start ≤ c.stop) (hsize : fileSize part = c.size) :
    part = some (slice R c.start (c.stop - c.start + 1)) := by
  rw [Chunk.size_of_le hle] at hsize
  cases part with
  | none => cases hsize
  | some b =>
    have hb : b = slice R c.start b.length := prefix_drop_eq h
    rw [fileSize_some] at hsize
    rw [← hsize, ← hb]

/-- Whatever the server makes of its requests, if only it sends bytes of the remote file from the
place it was asked for, and however the files and the saves of the task fare: the call appends. -/
theorem retries_append (env : Env) (t : DownloadTask) (R : Bytes) (c : Chunk) (part : Option Bytes)
    (hle : c.start ≤ c.stop) (hstop : c.stop < 2 ^ 63) (hretries : env.maxRetries < 2 ^ 32 - 1)
    (hpart : part.getD [] <+: R.drop c.start) (hsends : SendsFrom R env.protocol t.url c) :
    (ChunkRun.solo env t c part).Appends R c := by
  have hsound : ∀ k, (Solo.after env t c part k).Sound R env t c := Solo.sound hpart hsends
  have hsize : c.size = c.stop - c.start + 1 := Chunk.size_of_le hle
  constructor
  · exact fun k => (hsound k).piece
  · rintro k start stop ⟨l, n, hl, hasks⟩
    rw [solo_move] at hasks
    rw [solo_pc] at hl
    obtain ⟨rfl, rfl⟩ := workerMove_request hasks
    obtain ⟨-, hstart, hless⟩ := (hsound k).goesOn _ hl
    have hplace := (hsound k).place
    have hwithin := rest_le_stop hless
    rw [hplace.2.1] at hstart
    rw [← hplace.2.2.1]
    exact ⟨hstart, rfl, by rw [hstart, ← hplace.2.1]; exact hwithin⟩
  · exact ChunkRun.attempts_le _
  · exact ChunkRun.ends _
  · intro k hret
    rw [solo_pc] at hret
    have hfilled : Filled (Solo.after env t c part k).chunk (Solo.after env t c part k).part := (hsound k).goesOn _ hret
    have hsame : (Solo.after env t c part k).chunk.size = c.size := by
      simp only [Chunk.size, (hsound k).place.2.1, (hsound k).place.2.2.1]
    exact ⟨(hsound k).piece.whole hle (hfilled.file.trans hsame), hfilled.count.trans hsame, hfilled.status⟩
  · refine ⟨by omega, fun k l n hl hn => ?_⟩
    have := (ChunkRun.attempts_number hl hn).2
    change n ≤ env.maxRetries at this
    omega

end Runs

/-! ## A server that is cut off, and then sends too much -/

def sevenBytes : Bytes := [1, 2, 3, 4, 5, 6, 7]

/-- The first request gets one byte and a timeout, the others all the file has from there on. -/
def flaky : Env where
  protocol :=
    { fetchMetadata := fun _ => .ok { fileSize := 7, supportsRange := true }
      downloadRange := fun _ start _ n =>
        if n = 0 then
          { blocks := [{ data := (sevenBytes.drop start).take 1 }]
            result := .error (.cget .timeoutError (text "timeout")) }
        else { blocks := [{ data := sevenBytes.drop start }] }
      downloadSingle := fun _ => {} }

theorem flaky_sends (c : Chunk) (url : Text) : SendsFrom sevenBytes flaky.protocol url c := by
  intro already n _
  simp only [flaky]
  split
  · simpa [Transfer.bytes] using List.take_prefix 1 (sevenBytes.drop (c.start + already))
  · simp [Transfer.bytes]

/-- The third attempt finds the part file one byte too long, and cuts it. -/
theorem retries_append_flaky :
    (ChunkRun.solo flaky {} { start := 2, stop := 4 } (some [3])).pc 22 = some .returned ∧
      (ChunkRun.solo flaky {} { start := 2, stop := 4 } (some [3])).part 21 = some [3, 4, 5, 6, 7] ∧
      (ChunkRun.solo flaky {} { start := 2, stop := 4 } (some [3])).part 22 = some [3, 4, 5] := by
  have hret : (ChunkRun.solo flaky {} { start := 2, stop := 4 } (some [3])).pc 22 = some .returned := by decide +kernel
  have happends :
      (ChunkRun.solo flaky {} { start := 2, stop := 4 } (some [3])).Appends sevenBytes { start := 2, stop := 4 } :=
    retries_append flaky {} sevenBytes { start := 2, stop := 4 } (some [3]) (by decide) (by decide)
      (by decide) (by decide) (flaky_sends _ _)
  exact ⟨hret, by decide +kernel, (happends.returned 22 hret).1⟩

end Cget
