import Cget.Reconciliation
import Cget.Lib.Runs
import Cget.Lib.RunningTotal
import Mathlib.Algebra.BigOperators.Ring.Finset
import Mathlib.Data.ZMod.Basic
/-!
# The total of a task while its chunks are downloaded

Each thread of `downloadWithRange` counts its bytes twice: in `chunk.downloaded` and, not
under the task's lock, in `task.downloaded`; a thread that completes its chunk replaces the
total by the sum of all counters, under the lock, which it loads one after the other. Here
these operations are steps of their own, between which the other threads step. A `Tally`
is the state of all threads, a run a list of which thread steps next.
-/

namespace Cget

/-- Where a thread stands, within its operations on the counters too. -/
inductive TallyPc where
  /-- At a step of `workerMove`. -/
  | working (pc : WorkerPc)
  /-- Between `chunk.downloaded.fetch_add` and `task.downloaded.fetch_add`. -/
  | counting (bytes : Nat) (next : WorkerPc)
  /-- About to lock the task, with the part file complete since before the attempt. -/
  | completing (next : WorkerPc)
  /-- In `recomputeDownloaded`, under the lock, with these counters loaded. -/
  | loading (loaded : List Nat) (next : WorkerPc)
  deriving DecidableEq

/-- The threads of one `downloadWithRange`, thread `i` that of chunk `i`. -/
structure Tally where
  session : Session
  workers : List TallyPc
  /-- A thread is in `recomputeDownloaded`. -/
  locked : Bool := false
  crashed : Bool := false

/-- The steps that lock `task.mutex`, `persistTask` among them. -/
def WorkerPc.locks (action : TaskAction) : WorkerPc → Bool
  | .starting .. | .announcing .. | .flushing .. | .storing _ | .recording _ | .caught _ (.cget ..) => true
  | .closing _ => action = .recompute
  | .attempt _ | .opening .. | .requesting .. | .receiving .. | .caught _ (.other _) | .sleeping _ | .returned
  | .threw _ => false

def TallyPc.pending : TallyPc → Nat
  | .counting bytes _ => bytes
  | .working _ | .completing _ | .loading .. => 0

/-- A store of the total is still to come. -/
def TallyPc.recomputes : TallyPc → Bool
  | .completing _ | .loading .. => true
  | .working _ | .counting .. => false

/-- The thread is over. -/
def TallyPc.over : TallyPc → Bool
  | .working .returned | .working (.threw _) => true
  | _ => false

/-- The counter is a `std::uint64_t`. -/
def WorkerMove.wrapped (m : WorkerMove) : WorkerMove :=
  { m with chunk := { m.chunk with downloaded := m.chunk.downloaded % 2 ^ 64 } }

namespace Tally

def counters (y : Tally) : List Nat := y.session.task.chunks.map (·.downloaded)

def pending (y : Tally) : List Nat := y.workers.map (·.pending)

def goto (y : Tally) (i : Nat) (l : TallyPc) : Tally := { y with workers := y.workers.set i l }

def setTotal (y : Tally) (n : Nat) : Tally :=
  { y with session := { y.session with task := { y.session.task with downloaded := n } } }

/-- Thread `i` makes the move `m` from `pc`, up to its first operation on the total. -/
def move (env : Env) (y : Tally) (i : Nat) (c : Chunk) (pc : WorkerPc) (m : WorkerMove) : Tally :=
  let moved := { y with session := y.session.moved i c m }
  if m.crashed then { moved with crashed := true }
  else
    match m.action, pc with
    | .count bytes, _ => { y with session := y.session.moved i c m.wrapped }.goto i (.counting bytes m.next)
    -- the status waits for the lock
    | .recompute, .attempt _ =>
      { y with session := y.session.moved i c { m with chunk := { m.chunk with status := c.status } } }.goto i
        (.completing m.next)
    | .recompute, _ => { moved with locked := true }.goto i (.loading [] m.next)
    | action, _ => { moved with session := action.apply env moved.session }.goto i (.working m.next)

/-- One operation of thread `i`, which stands at `l` with the chunk `c`; a thread that waits for the
lock stays where it is. -/
def stepAt (env : Env) (y : Tally) (i : Nat) (c : Chunk) : TallyPc → Tally
  | .working pc =>
    let m := y.session.workerMove env c pc
    if y.locked && pc.locks m.action then y else y.move env i c pc m
  | .counting bytes next => (y.setTotal ((y.session.task.downloaded + bytes) % 2 ^ 64)).goto i (.working next)
  | .completing next =>
    if y.locked then y
    else
      { y with
        session := { y.session with task := y.session.task.setChunk i { c with status := .completed } }
        locked := true }.goto i (.loading [] next)
  | .loading loaded next =>
    match y.session.task.chunks[loaded.length]? with
    | some other => y.goto i (.loading (loaded ++ [other.downloaded]) next)
    | none => { y.setTotal (totalOnWords loaded) with locked := false }.goto i (.working next)

/-- Thread `i` makes a step. -/
def step (env : Env) (y : Tally) (i : Nat) : Tally :=
  match y.workers[i]?, y.session.task.chunks[i]? with
  | some l, some c => if y.crashed then y else y.stepAt env i c l
  | _, _ => y

/-- `downloadWithRange` with its chunks planned, where it starts the threads. -/
def start (s : Session) : Tally where
  session := { s with task := { markDone s.task with downloaded := totalOnWords (s.task.chunks.map (·.downloaded)) } }
  workers := s.task.chunks.map fun c => .working (if c.done then .returned else .attempt 0)

/-- Every thread has stopped, successfully or not. -/
def Stopped (y : Tally) : Prop := ∀ l ∈ y.workers, l.over

/-- The total is the sum of the counters. -/
def Exact (y : Tally) : Prop := y.session.task.downloaded = y.session.task.chunkTotal

/-- A thread other than `i` has a store of the total before it. -/
def OtherRecomputes (y : Tally) (i : Nat) : Prop := ∃ l ∈ y.workers.eraseIdx i, l.recomputes

def Recomputes (y : Tally) : Prop := ∃ l ∈ y.workers, l.recomputes

/-- An attempt on `c` that has bytes to fetch starts with as many in the part file as are counted. -/
def FindsCounted (y : Tally) (c : Chunk) : Prop :=
  (chunkPath y.session.task c).toOption.isSome → fileSize (y.session.part c) < c.size →
    fileSize (y.session.part c) = c.downloaded

/-- What keeps the total in step with the counters, at a step of thread `i` from `l`: an attempt that stores
another counter than it finds has a recompute after it; and a recompute that stores does so over counters
that hold what it loaded from them and what is not in the total yet, or has another one after it. -/
def SteadyAt (y : Tally) (i : Nat) (c : Chunk) : TallyPc → Prop
  | .working pc => pc.startsAttempt → y.FindsCounted c ∨ y.Recomputes
  | .loading loaded _ =>
    loaded.length < y.workers.length ∨ List.zipWith (· + ·) loaded y.pending = y.counters ∨ y.OtherRecomputes i
  | .counting .. | .completing _ => True

def Steady (y : Tally) (i : Nat) : Prop := ∀ l ∈ y.workers[i]?, ∀ c ∈ y.session.task.chunks[i]?, y.SteadyAt i c l

instance (y : Tally) : Decidable y.Recomputes := inferInstanceAs (Decidable (∃ _ ∈ _, _))

instance (y : Tally) (i : Nat) : Decidable (y.OtherRecomputes i) := inferInstanceAs (Decidable (∃ _ ∈ _, _))

instance (y : Tally) (c : Chunk) : Decidable (y.FindsCounted c) := inferInstanceAs (Decidable (_ → _ → _))

instance SteadyAt.decide (y : Tally) (i : Nat) (c : Chunk) : ∀ l, Decidable (y.SteadyAt i c l)
  | .working _ => inferInstanceAs (Decidable (_ → _ ∨ _))
  | .loading .. => inferInstanceAs (Decidable (_ ∨ _ ∨ _))
  | .counting .. | .completing _ => isTrue trivial

instance (y : Tally) (i : Nat) : Decidable (y.Steady i) := inferInstanceAs (Decidable (∀ _ ∈ _, ∀ _ ∈ _, _))

instance (y : Tally) : Decidable y.Stopped := inferInstanceAs (Decidable (∀ _ ∈ _, _))

instance (y : Tally) : Decidable y.Exact := inferInstanceAs (Decidable (_ = _))

end Tally

/-! ## What a move does to the counter -/

section Moves

variable {env : Env} {url : Text} {path : Except Exn Path} {f g : Fault} {c : Chunk} {part : Option Bytes}
  {pc : WorkerPc}

/-- The actions that write the total. -/
def TaskAction.writesTotal : TaskAction → Bool
  | .count _ | .recompute => true
  | .none | .setDownloading | .setRetrying _ | .request .. | .persist _ => false

theorem apply_downloaded {s : Session} {a : TaskAction} (h : a.writesTotal = false) :
    (a.apply env s).task.downloaded = s.task.downloaded := by
  cases a with
  | count bytes => cases h
  | recompute => cases h
  | persist saved => cases saved <;> rfl
  | _ => rfl

/-- What a move of the thread at `pc` does to the counter of its chunk. -/
inductive Counts (path : Except Exn Path) (c : Chunk) (part : Option Bytes) (pc : WorkerPc) (m : WorkerMove) : Prop
  /-- The bytes of a block are added to it. -/
  | adds (bytes : Nat) (action : m.action = .count bytes) (counter : m.chunk.downloaded = c.downloaded + bytes)
  | recomputes (action : m.action = .recompute) (done : m.chunk.status = .completed)
    (place : (∃ n, pc = .attempt n) ∨ ∃ n, pc = .closing n)
  /-- An attempt that fetches the rest starts from the part file. -/
  | rereads (action : m.action.writesTotal = false) (ran : m.crashed = false) (attempt : pc.startsAttempt)
    (path : path.toOption.isSome) (rest : fileSize part < c.size) (counter : m.chunk.downloaded = fileSize part)
  | keeps (action : m.action.writesTotal = false) (counter : m.chunk.downloaded = c.downloaded)

theorem Counts.crashed {m : WorkerMove} (h : Counts path c part pc m) (hcrash : m.crashed) (hnone : m.action = .none) :
    m.chunk.downloaded = c.downloaded := by
  cases h with
  | adds bytes action counter => rw [hnone] at action; cases action
  | recomputes action => rw [hnone] at action; cases action
  | rereads action ran => rw [hcrash] at ran; cases ran
  | keeps action counter => exact counter

theorem persistMove_counts {next failed : WorkerPc} : Counts path c part pc (persistMove f c part pc next failed) := by
  cases f <;> exact .keeps rfl rfl

theorem workerMove_counts : Counts path c part pc (workerMove env url path f g c part pc) := by
  cases pc with
  | attempt n =>
    cases path with
    | error e => exact .keeps rfl rfl
    | ok p =>
      simp only [workerMove]
      split
      · cases f with
        | ok => exact .recomputes rfl rfl (.inl ⟨n, rfl⟩)
        | fail k => exact .keeps rfl rfl
        | crash k => exact .keeps rfl rfl
      · split
        · exact .recomputes rfl rfl (.inl ⟨n, rfl⟩)
        · exact .rereads rfl rfl rfl rfl (Nat.lt_of_not_le ‹_›) rfl
  | opening n start => cases f <;> exact .keeps rfl rfl
  | starting n start => exact .keeps rfl rfl
  | announcing n start => exact persistMove_counts
  | requesting n start => exact .keeps rfl rfl
  | receiving n blocks result =>
    cases blocks with
    | nil => cases result <;> exact .keeps rfl rfl
    | cons b bs =>
      cases f with
      | ok => exact .adds b.data.length rfl rfl
      | fail k => exact .keeps rfl rfl
      | crash k => exact .keeps rfl rfl
  | flushing n blocks result => exact persistMove_counts
  | closing n =>
    simp only [workerMove]
    split
    · exact .keeps rfl rfl
    · exact .recomputes rfl rfl (.inr ⟨n, rfl⟩)
  | storing n => exact persistMove_counts
  | caught n e =>
    cases e with
    | other what => exact .keeps rfl rfl
    | cget code what =>
      simp only [workerMove]
      split <;> exact .keeps rfl rfl
  | recording n => exact persistMove_counts
  | sleeping n => exact .keeps rfl rfl
  | returned => exact .keeps rfl rfl
  | threw e => exact .keeps rfl rfl

end Moves

/-! ## What a step does to the counters and the total -/

namespace Tally

variable {env : Env} {y : Tally} {i : Nat} {c : Chunk} {l : TallyPc} {pc : WorkerPc} {m : WorkerMove}

/-- A step of a thread from `l`, with the counter `k` of its chunk and the total `t`. -/
inductive Effect (y : Tally) (c : Chunk) : TallyPc → Nat → Nat → TallyPc → Nat → Nat → Prop
  | waits {l : TallyPc} {k t : Nat} : Effect y c l k t l k t
  | moves {pc next : WorkerPc} {k t : Nat} : Effect y c (.working pc) k t (.working next) k t
  | adds {pc next : WorkerPc} {bytes k t : Nat} :
    Effect y c (.working pc) k t (.counting bytes next) ((k + bytes) % 2 ^ 64) t
  | reports {bytes : Nat} {next : WorkerPc} {k t : Nat} :
    Effect y c (.counting bytes next) k t (.working next) k ((t + bytes) % 2 ^ 64)
  /-- The attempt finds its bytes complete. -/
  | finds {pc next : WorkerPc} {k k' t : Nat} : Effect y c (.working pc) k t (.completing next) k' t
  | enters {l : TallyPc} {next : WorkerPc} {k k' t : Nat} (pending : l.pending = 0) :
    Effect y c l k t (.loading [] next) k' t
  | loads {loaded : List Nat} {next : WorkerPc} {n k t : Nat} (room : loaded.length < y.session.task.chunks.length) :
    Effect y c (.loading loaded next) k t (.loading (loaded ++ [n]) next) k t
  | stores {loaded : List Nat} {next : WorkerPc} {k t : Nat} (all : y.session.task.chunks.length ≤ loaded.length) :
    Effect y c (.loading loaded next) k t (.working next) k (totalOnWords loaded)
  | rereads {pc next : WorkerPc} {k t : Nat} (attempt : pc.startsAttempt)
    (path : (chunkPath y.session.task c).toOption.isSome) (rest : fileSize (y.session.part c) < c.size) :
    Effect y c (.working pc) k t (.working next) (fileSize (y.session.part c)) t

/-- The step from `y` to `y'` is thread `i`'s, at `l` with the chunk `c`. -/
structure StepsTo (y : Tally) (i : Nat) (c : Chunk) (l : TallyPc) (y' : Tally) (l' : TallyPc) (k' t' : Nat) : Prop where
  effect : Effect y c l c.downloaded y.session.task.downloaded l' k' t'
  workers : y'.workers = y.workers.set i l'
  counters : y'.counters = y.counters.set i k'
  total : y'.session.task.downloaded = t'

theorem set_same {α : Type} {xs : List α} {x : α} (h : xs[i]? = some x) : xs.set i x = xs := by
  obtain ⟨hi, rfl⟩ := List.getElem?_eq_some_iff.1 h
  exact List.set_getElem_self hi

theorem counters_get (hc : y.session.task.chunks[i]? = some c) : y.counters[i]? = some c.downloaded := by
  rw [counters, List.getElem?_map, hc, Option.map_some]

theorem stepsTo_self (hl : y.workers[i]? = some l) (hc : y.session.task.chunks[i]? = some c) :
    y.StepsTo i c l y l c.downloaded y.session.task.downloaded :=
  ⟨.waits, (set_same hl).symm, (set_same (counters_get hc)).symm, rfl⟩

theorem moved_counters (s : Session) (m : WorkerMove) :
    (s.moved i c m).task.chunks.map (·.downloaded) = (s.task.chunks.map (·.downloaded)).set i m.chunk.downloaded := by
  rw [moved_chunks, List.map_set]

theorem move_count {bytes : Nat} (hran : m.crashed = false) (h : m.action = .count bytes) :
    y.move env i c pc m = { y with session := y.session.moved i c m.wrapped }.goto i (.counting bytes m.next) := by
  unfold move
  rw [if_neg (by simp [hran]), h]

theorem move_found {n : Nat} (hran : m.crashed = false) (h : m.action = .recompute) :
    y.move env i c (.attempt n) m =
      { y with session := y.session.moved i c { m with chunk := { m.chunk with status := c.status } } }.goto i
        (.completing m.next) := by
  unfold move
  rw [if_neg (by simp [hran]), h]

theorem move_closed {n : Nat} (hran : m.crashed = false) (h : m.action = .recompute) :
    y.move env i c (.closing n) m =
      { y with session := y.session.moved i c m, locked := true }.goto i (.loading [] m.next) := by
  unfold move
  rw [if_neg (by simp [hran]), h]

theorem move_quiet (hran : m.crashed = false) (h : m.action.writesTotal = false) :
    y.move env i c pc m =
      { y with session := m.action.apply env (y.session.moved i c m) }.goto i (.working m.next) := by
  unfold move
  simp only [hran]
  cases haction : m.action with
  | count bytes => rw [haction] at h; cases h
  | recompute => rw [haction] at h; cases h
  | _ => rfl

/-- A move that does not write the total. -/
theorem move_quiet_stepsTo (hran : m.crashed = false) (h : m.action.writesTotal = false)
    (he : Effect y c (.working pc) c.downloaded y.session.task.downloaded (.working m.next) m.chunk.downloaded
      y.session.task.downloaded) :
    ∃ l' k' t', y.StepsTo i c (.working pc) (y.move env i c pc m) l' k' t' := by
  rw [move_quiet hran h]
  refine ⟨_, _, _, he, rfl, ?_, apply_downloaded h⟩
  change (m.action.apply env (y.session.moved i c m)).task.chunks.map (·.downloaded) = _
  rw [apply_chunks]
  exact moved_counters y.session m

/-- The moves of `workerMove`. -/
theorem move_stepsTo (hl : y.workers[i]? = some (.working pc))
    (hm : Counts (chunkPath y.session.task c) c (y.session.part c) pc m)
    (hcrash : m.crashed → m.action = .none) :
    ∃ l' k' t', y.StepsTo i c (.working pc) (y.move env i c pc m) l' k' t' := by
  by_cases hcr : m.crashed = true
  · unfold move
    rw [if_pos hcr]
    refine ⟨_, _, _, .waits, (set_same hl).symm, ?_, rfl⟩
    rw [← hm.crashed hcr (hcrash hcr)]
    exact moved_counters y.session m
  have hran := Bool.eq_false_iff.2 hcr
  cases hm with
  | adds bytes haction hcounter =>
    rw [move_count hran haction]
    refine ⟨_, _, _, .adds, rfl, ?_, rfl⟩
    rw [← hcounter]
    exact moved_counters y.session m.wrapped
  | recomputes haction hdone hpc =>
    rcases hpc with ⟨n, rfl⟩ | ⟨n, rfl⟩
    · rw [move_found hran haction]
      exact ⟨_, _, _, .finds, rfl, moved_counters y.session _, rfl⟩
    · rw [move_closed hran haction]
      exact ⟨_, _, _, .enters rfl, rfl, moved_counters y.session m, rfl⟩
  | rereads haction hran hattempt hpath hrest hcounter =>
    refine move_quiet_stepsTo hran haction ?_
    rw [hcounter]
    exact .rereads hattempt hpath hrest
  | keeps haction hcounter =>
    refine move_quiet_stepsTo hran haction ?_
    rw [hcounter]
    exact .moves

theorem stepAt_stepsTo (hl : y.workers[i]? = some l) (hc : y.session.task.chunks[i]? = some c) :
    ∃ l' k' t', y.StepsTo i c l (y.stepAt env i c l) l' k' t' := by
  cases l with
  | working pc =>
    simp only [stepAt]
    split
    · exact ⟨_, _, _, stepsTo_self hl hc⟩
    · exact move_stepsTo hl workerMove_counts workerMove_crashed
  | counting bytes next => exact ⟨_, _, _, .reports, rfl, (set_same (counters_get hc)).symm, rfl⟩
  | completing next =>
    simp only [stepAt]
    split
    · exact ⟨_, _, _, stepsTo_self hl hc⟩
    · refine ⟨.loading [] next, c.downloaded, y.session.task.downloaded, .enters rfl, rfl, ?_, rfl⟩
      exact List.map_set
  | loading loaded next =>
    simp only [stepAt]
    split
    · exact ⟨_, _, _, .loads (List.getElem?_eq_some_iff.1 ‹_›).1, rfl, (set_same (counters_get hc)).symm, rfl⟩
    · exact ⟨_, _, _, .stores (List.getElem?_eq_none_iff.1 ‹_›), rfl, (set_same (counters_get hc)).symm, rfl⟩

/-- What one step can do: nothing, or what one of the effects says about thread `i`. -/
theorem step_cases (env : Env) (y : Tally) (i : Nat) :
    y.step env i = y ∨ ∃ l c, y.workers[i]? = some l ∧ y.session.task.chunks[i]? = some c ∧
    ∃ l' k' t', y.StepsTo i c l (y.step env i) l' k' t' := by
  unfold step
  split
  · rename_i l c hl hc
    split
    · exact .inl rfl
    · exact .inr ⟨l, c, hl, hc, stepAt_stepsTo hl hc⟩
  · exact .inl rfl

/-! ## A thread that is not interrupted -/

section Alone

variable {loaded rest : List Nat} {next : WorkerPc}

theorem goto_get (hl : y.workers[i]? = some l) (l' : TallyPc) : (y.goto i l').workers[i]? = some l' :=
  List.getElem?_set_self (List.getElem?_eq_some_iff.1 hl).1

theorem step_eq (hl : y.workers[i]? = some l) (hc : y.session.task.chunks[i]? = some c) (hlive : y.crashed = false) :
    y.step env i = y.stepAt env i c l := by
  unfold step
  rw [hl, hc]
  simp only [hlive, Bool.false_eq_true, if_false]

/-- The loads of `recomputeDownloaded` and its store. -/
theorem loads_alone (hc : y.session.task.chunks[i]? = some c) (hlive : y.crashed = false)
    (hl : y.workers[i]? = some (.loading loaded next)) (hrest : y.counters = loaded ++ rest) :
    (List.replicate (rest.length + 1) i).foldl (step env) y =
      { y.setTotal (totalOnWords y.counters) with locked := false }.goto i (.working next) := by
  induction rest generalizing y loaded with
  | nil =>
    rw [List.append_nil] at hrest
    have hnone : y.session.task.chunks[loaded.length]? = none := by
      rw [← hrest, List.getElem?_eq_none_iff, counters, List.length_map]
    rw [List.length_nil, Nat.zero_add, List.replicate_one, List.foldl_cons, List.foldl_nil, step_eq hl hc hlive,
      stepAt]
    simp only [hnone, hrest]
  | cons n rest ih =>
    obtain ⟨other, hother, hn⟩ : ∃ other, y.session.task.chunks[loaded.length]? = some other ∧
      other.downloaded = n := by
      have hget : y.counters[loaded.length]? = some n := by simp [hrest]
      simpa [counters] using hget
    have hstep : y.step env i = y.goto i (.loading (loaded ++ [n]) next) := by
      rw [step_eq hl hc hlive, stepAt]
      simp only [hother, hn]
    rw [List.length_cons, List.replicate_succ, List.foldl_cons, hstep]
    refine (ih (y := y.goto i (.loading (loaded ++ [n]) next)) hc hlive (goto_get hl _) ?_).trans ?_
    · exact hrest.trans (by simp)
    · simp only [goto, setTotal, counters, List.set_set]

/-- The recompute of a thread that holds the lock. -/
theorem recompute_alone (env : Env) (hc : y.session.task.chunks[i]? = some c) (hlive : y.crashed = false)
    (hl : y.workers[i]? = some (.loading [] next)) (hfit : y.session.task.chunkTotal < 2 ^ 64) :
    ∃ n, (List.replicate n i).foldl (step env) y =
      { y.setTotal y.session.task.chunkTotal with locked := false }.goto i (.working next) := by
  refine ⟨y.counters.length + 1, (loads_alone hc hlive hl rfl).trans ?_⟩
  rw [totalOnWords_eq, show y.counters.sum = y.session.task.chunkTotal from rfl, Nat.mod_eq_of_lt hfit]

/-- A counter that fits with the others is not wrapped. -/
theorem wrapped_eq {s : Session} {m : WorkerMove} (hc : s.task.chunks[i]? = some c)
    (hfit : (m.action.apply env (s.moved i c m)).task.chunkTotal < 2 ^ 64) : m.wrapped = m := by
  have hmem : m.chunk.downloaded ∈ (m.action.apply env (s.moved i c m)).task.chunks.map (·.downloaded) := by
    rw [apply_chunks, moved_chunks]
    exact List.mem_map_of_mem (List.mem_set (List.getElem?_eq_some_iff.1 hc).1 _)
  have hlt := (List.le_sum_of_mem hmem).trans_lt hfit
  rw [WorkerMove.wrapped, Nat.mod_eq_of_lt hlt]

/-- The second addition of a progress callback. -/
theorem alone_counted {bytes : Nat} (hl : y.workers[i]? = some (.working pc)) (hc : y.session.task.chunks[i]? = some c)
    (hlive : y.crashed = false) (hran : m.crashed = false) (haction : m.action = .count bytes)
    (hfit : (m.action.apply env (y.session.moved i c m)).task.chunkTotal < 2 ^ 64)
    (hword : (m.action.apply env (y.session.moved i c m)).task.downloaded < 2 ^ 64) :
    (y.move env i c pc m).step env i =
      { y with session := m.action.apply env (y.session.moved i c m) }.goto i (.working m.next) := by
  have hi : (y.session.moved i c m).task.chunks[i]? = some m.chunk :=
    List.getElem?_set_self (List.getElem?_eq_some_iff.1 hc).1
  rw [move_count hran haction, wrapped_eq hc hfit]
  refine (step_eq (y := { y with session := y.session.moved i c m }.goto i (.counting bytes m.next)) (goto_get hl _) hi
    hlive).trans ?_
  rw [haction] at hword ⊢
  have hsum : (y.session.moved i c m).task.downloaded + bytes < 2 ^ 64 := hword
  simp only [stepAt, goto, setTotal, List.set_set, Nat.mod_eq_of_lt hsum]
  rfl

/-- The recompute of a completed chunk, under the lock. -/
theorem alone_recomputed (hl : y.workers[i]? = some (.working pc)) (hc : y.session.task.chunks[i]? = some c)
    (hlive : y.crashed = false) (hfree : y.locked = false) (haction : m.action = .recompute)
    (hfit : (m.action.apply env (y.session.moved i c m)).task.chunkTotal < 2 ^ 64) :
    ∃ n, (List.replicate n i).foldl (step env)
        ({ y with session := y.session.moved i c m, locked := true }.goto i (.loading [] m.next)) =
      { y with session := m.action.apply env (y.session.moved i c m) }.goto i (.working m.next) := by
  have hi : (y.session.moved i c m).task.chunks[i]? = some m.chunk :=
    List.getElem?_set_self (List.getElem?_eq_some_iff.1 hc).1
  rw [haction] at hfit ⊢
  obtain ⟨n, hn⟩ := recompute_alone env
    (y := { y with session := y.session.moved i c m, locked := true }.goto i (.loading [] m.next)) hi hlive
    (goto_get hl _) hfit
  refine ⟨n, hn.trans ?_⟩
  simp only [goto, setTotal, List.set_set, hfree]
  rfl

/-- An attempt that finds its bytes complete takes the lock. -/
theorem alone_found (hl : y.workers[i]? = some (.working pc)) (hc : y.session.task.chunks[i]? = some c)
    (hlive : y.crashed = false) (hfree : y.locked = false) (hdone : m.chunk.status = .completed) :
    ({ y with session := y.session.moved i c { m with chunk := { m.chunk with status := c.status } } }.goto i
        (.completing m.next)).step env i =
      { y with session := y.session.moved i c m, locked := true }.goto i (.loading [] m.next) := by
  have hi : (y.session.moved i c { m with chunk := { m.chunk with status := c.status } }).task.chunks[i]? =
      some { m.chunk with status := c.status } := List.getElem?_set_self (List.getElem?_eq_some_iff.1 hc).1
  refine (step_eq (y := { y with
    session := y.session.moved i c { m with chunk := { m.chunk with status := c.status } } }.goto i
      (.completing m.next))
    (goto_get hl _) hi hlive).trans ?_
  have hchunk : { m.chunk with status := .completed } = m.chunk := by rw [← hdone]
  simp only [stepAt, goto, hfree, Bool.false_eq_true, if_false, List.set_set, DownloadTask.setChunk,
    Session.moved, hchunk]

/-- Uninterrupted, the operations of a step of `stepWorker` come to that step, as long as nothing overflows. -/
theorem alone_stepped (hl : y.workers[i]? = some (.working pc)) (hc : y.session.task.chunks[i]? = some c)
    (hlive : y.crashed = false) (hfree : y.locked = false) (hran : (y.session.workerMove env c pc).crashed = false)
    (hword : (y.session.stepped env i c pc).task.downloaded < 2 ^ 64)
    (hfit : (y.session.stepped env i c pc).task.chunkTotal < 2 ^ 64) :
    ∃ n, (List.replicate n i).foldl (step env) y =
      { y with session := y.session.stepped env i c pc }.goto i (.working (y.session.workerMove env c pc).next) := by
  have hstep : y.step env i = y.move env i c pc (y.session.workerMove env c pc) := by
    rw [step_eq hl hc hlive, stepAt, hfree, Bool.false_and]
    rfl
  have hcounts : Counts (chunkPath y.session.task c) c (y.session.part c) pc (y.session.workerMove env c pc) :=
    workerMove_counts
  cases hcounts with
  | adds bytes haction =>
    refine ⟨2, Eq.trans ?_ (alone_counted hl hc hlive hran haction hfit hword)⟩
    rw [← hstep]
    rfl
  | recomputes haction hdone hpc =>
    obtain ⟨n, hn⟩ := alone_recomputed hl hc hlive hfree haction hfit
    rcases hpc with ⟨k, rfl⟩ | ⟨k, rfl⟩
    · refine ⟨n + 2, Eq.trans ?_ hn⟩
      rw [List.replicate_succ, List.replicate_succ, List.foldl_cons, List.foldl_cons, hstep, move_found hran haction,
        alone_found hl hc hlive hfree hdone]
    · refine ⟨n + 1, Eq.trans ?_ hn⟩
      rw [List.replicate_succ, List.foldl_cons, hstep, move_closed hran haction]
  | rereads haction => exact ⟨1, hstep.trans (move_quiet hran haction)⟩
  | keeps haction => exact ⟨1, hstep.trans (move_quiet hran haction)⟩

end Alone

/-! ## The total and what is missing from it -/

/-- The counters and the total, as the words they are. -/
def books (y : Tally) : RunningTotal (ZMod (2 ^ 64)) where
  total := y.session.task.downloaded
  counters := y.counters.map (↑)
  pending := y.pending.map (↑)

structure Wf (y : Tally) : Prop where
  threads : y.workers.length = y.session.task.chunks.length
  word : y.session.task.downloaded < 2 ^ 64
  loaded : ∀ ns next, .loading ns next ∈ y.workers → ns.length ≤ y.workers.length

section Steps

variable {y' : Tally} {l' : TallyPc} {k' t' : Nat} {a : Nat}

theorem totalOnWords_lt (ns : List Nat) : totalOnWords ns < 2 ^ 64 := by
  rw [totalOnWords_eq]
  exact Nat.mod_lt _ (by norm_num)

theorem StepsTo.length (h : y.StepsTo i c l y' l' k' t') : y'.workers.length = y.workers.length := by
  rw [h.workers, List.length_set]

theorem Wf.stepsTo (hw : y.Wf) (hl : y.workers[i]? = some l) (h : y.StepsTo i c l y' l' k' t') : y'.Wf := by
  have hcounters : y'.session.task.chunks.length = y.session.task.chunks.length := by
    have hlen := congrArg List.length h.counters
    rwa [List.length_set, counters, counters, List.length_map, List.length_map] at hlen
  refine ⟨by rw [h.length, hcounters, hw.threads], ?_, fun ns next hmem => ?_⟩
  · rw [h.total]
    cases h.effect with
    | reports => exact Nat.mod_lt _ (by norm_num)
    | stores => exact totalOnWords_lt _
    | _ => exact hw.word
  · rw [h.length]
    rw [h.workers] at hmem
    rcases List.mem_or_eq_of_mem_set hmem with hold | rfl
    · exact hw.loaded ns next hold
    · cases h.effect with
      | waits => exact hw.loaded ns next (List.mem_of_getElem? hl)
      | enters => exact Nat.zero_le _
      | loads room => rw [List.length_append, hw.threads]; exact room

theorem Wf.step (hw : y.Wf) : (y.step env i).Wf := by
  rcases step_cases env y i with hsame | ⟨l, c, hl, -, l', k', t', h⟩
  · rw [hsame]
    exact hw
  · exact hw.stepsTo hl h

/-- What a step writes to the books. -/
theorem StepsTo.books (h : y.StepsTo i c l y' l' k' t') :
    y'.books = { total := t', counters := y.books.counters.set i k', pending := y.books.pending.set i l'.pending } := by
  simp only [Tally.books, h.total, h.counters, pending, h.workers, List.map_set]

theorem pending_get (hl : y.workers[i]? = some l) : y.books.pending[i]? = some (l.pending : ZMod (2 ^ 64)) := by
  rw [books, List.getElem?_map, pending, List.getElem?_map, hl, Option.map_some, Option.map_some]

theorem counter_get (hc : y.session.task.chunks[i]? = some c) :
    y.books.counters[i]? = some (c.downloaded : ZMod (2 ^ 64)) := by
  rw [books, List.getElem?_map, counters_get hc, Option.map_some]

/-- A step that writes nothing to them. -/
theorem StepsTo.books_same (hl : y.workers[i]? = some l) (hc : y.session.task.chunks[i]? = some c)
    (h : y.StepsTo i c l y' l' c.downloaded y.session.task.downloaded) (hp : l'.pending = l.pending) :
    y'.books = y.books := by
  rw [h.books, hp, set_same (pending_get hl), set_same (counter_get hc)]
  rfl

/-- The threads that still recompute. -/
theorem StepsTo.recomputes (hl : y.workers[i]? = some l) (h : y.StepsTo i c l y' l' k' t') (hr : y.Recomputes)
    (hkeep : l.recomputes → l'.recomputes) : y'.Recomputes := by
  obtain ⟨o, ho, hrec⟩ := hr
  obtain ⟨j, hj⟩ := List.mem_iff_getElem?.1 ho
  have hi := (List.getElem?_eq_some_iff.1 hl).1
  by_cases hij : i = j
  · subst hij
    obtain rfl : l = o := Option.some.inj (hl.symm.trans hj)
    exact ⟨l', by rw [h.workers]; exact List.mem_set hi l', hkeep hrec⟩
  · refine ⟨o, ?_, hrec⟩
    rw [h.workers]
    exact List.mem_of_getElem? ((List.getElem?_set_ne hij).trans hj)

/-- The total is balanced, or will be stored anew. -/
structure Sound (y : Tally) : Prop where
  wf : y.Wf
  balanced : y.books.Balanced ∨ y.Recomputes

/-- The last store of a recompute over counters that hold what it loaded and what is pending. -/
theorem StepsTo.stored {loaded : List Nat} {next : WorkerPc} (hw : y.Wf)
    (hl : y.workers[i]? = some (.loading loaded next)) (hc : y.session.task.chunks[i]? = some c)
    (h : y.StepsTo i c (.loading loaded next) y' (.working next) c.downloaded (totalOnWords loaded))
    (hall : y.session.task.chunks.length ≤ loaded.length) (hread : List.zipWith (· + ·) loaded y.pending = y.counters) :
    y'.books.Balanced := by
  have hlen : loaded.length = y.workers.length :=
    Nat.le_antisymm (hw.loaded loaded next (List.mem_of_getElem? hl)) (hw.threads ▸ hall)
  have hbooks : y'.books = y.books.reload (loaded.map (↑)) := by
    rw [h.books, set_same (counter_get hc), RunningTotal.reload, totalOnWords_eq, ZMod.natCast_mod, Nat.cast_list_sum]
    exact congrArg _ (set_same (pending_get hl :))
  rw [hbooks]
  refine RunningTotal.balanced_reload ?_ ?_
  · simp only [Tally.books, List.length_map, pending, hlen]
  · simp only [Tally.books, ← hread, List.map_zipWith, List.zipWith_map, Nat.cast_add]

/-- A steady step keeps the total balanced, or a store of it to come. -/
theorem Sound.stepsTo (hy : y.Sound) (hl : y.workers[i]? = some l) (hc : y.session.task.chunks[i]? = some c)
    (hs : y.SteadyAt i c l) (h : y.StepsTo i c l y' l' k' t') : y'.Sound := by
  refine ⟨hy.wf.stepsTo hl h, ?_⟩
  have hi := (List.getElem?_eq_some_iff.1 hl).1
  -- a thread that goes on to recompute is one that still will
  have hmem : l' ∈ y'.workers := by rw [h.workers]; exact List.mem_set hi l'
  cases h.effect with
  | waits => exact hy.balanced.imp (h.books_same hl hc rfl ▸ ·) fun hr => h.recomputes hl hr id
  | moves => exact hy.balanced.imp (h.books_same hl hc rfl ▸ ·) fun hr => h.recomputes hl hr id
  | @adds pc next bytes =>
    refine hy.balanced.imp (fun hb => ?_) fun hr => h.recomputes hl hr id
    have hbooks : y'.books = y.books.count i c.downloaded bytes := by
      rw [h.books, RunningTotal.count, ZMod.natCast_mod, Nat.cast_add]
      rfl
    rw [hbooks]
    exact hb.count (counter_get hc) (by simpa [TallyPc.pending] using pending_get hl)
  | @reports bytes next =>
    refine hy.balanced.imp (fun hb => ?_) fun hr => h.recomputes hl hr id
    have hbooks : y'.books = y.books.report i bytes := by
      rw [h.books, RunningTotal.report, ZMod.natCast_mod, Nat.cast_add, set_same (counter_get hc)]
      simp [TallyPc.pending, books]
    rw [hbooks]
    exact hb.report (pending_get hl)
  | finds => exact .inr ⟨_, hmem, rfl⟩
  | enters => exact .inr ⟨_, hmem, rfl⟩
  | loads => exact .inr ⟨_, hmem, rfl⟩
  | stores hall =>
    -- the one step that relies on what other threads did since the loads
    rcases hs with hroom | hread | ⟨o, hother, hrec⟩
    · exact absurd hroom (Nat.not_lt.2 (hy.wf.threads ▸ hall))
    · exact .inl (h.stored hy.wf hl hc hall hread)
    · obtain ⟨j, hji, ho⟩ := List.mem_eraseIdx_iff_getElem?.1 hother
      refine .inr ⟨o, ?_, hrec⟩
      rw [h.workers]
      exact List.mem_of_getElem? ((List.getElem?_set_ne hji.symm).trans ho)
  | rereads hattempt hpath hrest =>
    -- the counter changes and the total does not
    have hrecomputes (hr : y.Recomputes) : y'.Recomputes := h.recomputes hl hr id
    rcases hs hattempt with hfinds | hr
    · rw [hfinds hpath hrest] at h
      exact hy.balanced.imp (h.books_same hl hc rfl ▸ ·) hrecomputes
    · exact .inr (hrecomputes hr)

theorem Sound.step (hy : y.Sound) (hs : y.Steady i) : (y.step env i).Sound := by
  rcases step_cases env y i with hsame | ⟨l, c, hl, hc, l', k', t', h⟩
  · rw [hsame]
    exact hy
  · exact hy.stepsTo hl hc (hs l hl c hc) h

end Steps

/-! ## Whole transfers -/

/-- `downloadWithRange` from `s`, as far as the `turns` go. -/
def run (env : Env) (s : Session) (turns : List Nat) : Tally := turns.foldl (step env) (start s)

section Runs

variable {s : Session} {turns : List Nat}

theorem start_wf (s : Session) : (start s).Wf := by
  refine ⟨?_, totalOnWords_lt _, fun ns next hmem => ?_⟩
  · simp [start, markDone]
  · obtain ⟨c, -, hworking⟩ := List.mem_map.1 hmem
    cases hworking

theorem start_balanced (s : Session) : (start s).books.Balanced := by
  have hcounters : (start s).counters = s.task.chunks.map (·.downloaded) :=
    markDone_map (·.downloaded) (fun _ _ => rfl) s.task
  have hpending : (start s).pending = s.task.chunks.map fun _ => 0 := by
    simp only [pending, start, List.map_map]
    rfl
  simp only [RunningTotal.Balanced, books, hcounters, hpending]
  simp [start, totalOnWords_eq, Nat.cast_list_sum]

theorem run_wf : (run env s turns).Wf := run_inv (fun _ _ hw => hw.step) (start_wf s)

/-- Once all threads have stopped, nothing is pending and nobody recomputes. -/
theorem Sound.exact_iff (hy : y.Sound) (hstop : y.Stopped) : y.Exact ↔ y.session.task.chunkTotal < 2 ^ 64 := by
  have hquiet (l : TallyPc) (hl : l ∈ y.workers) : l.pending = 0 ∧ l.recomputes = false := by
    have hover := hstop l hl
    cases l with
    | working pc => exact ⟨rfl, rfl⟩
    | _ => cases hover
  have hsum : (y.session.task.downloaded : ZMod (2 ^ 64)) = (y.session.task.chunkTotal : Nat) := by
    rcases hy.balanced with hb | ⟨l, hl, hr⟩
    · refine (hb.settled fun n hn => ?_).trans (Nat.cast_list_sum _).symm
      simp only [books, pending, List.map_map, List.mem_map] at hn
      obtain ⟨l, hl, rfl⟩ := hn
      simp [(hquiet l hl).1]
    · rw [(hquiet l hl).2] at hr
      cases hr
  have hmod := (ZMod.natCast_eq_natCast_iff' _ _ _).1 hsum
  rw [Nat.mod_eq_of_lt hy.wf.word] at hmod
  unfold Exact
  constructor
  · intro h
    rw [← h]
    exact hy.wf.word
  · intro h
    rw [hmod, Nat.mod_eq_of_lt h]

/-- Where every step is steady from the start on, or from a moment on at which some thread recomputes, the total
is in the end the sum of the counters, exactly if that is a 64-bit number. -/
theorem progress_adds_up_iff (before after : List Nat) (hfrom : before = [] ∨ (run env s before).Recomputes)
    (hsteady : GuardedRun (step env) Steady (run env s before) after) (hstop : (run env s (before ++ after)).Stopped) :
    (run env s (before ++ after)).Exact ↔ (run env s (before ++ after)).session.task.chunkTotal < 2 ^ 64 := by
  have hsound : (run env s before).Sound := by
    rcases hfrom with rfl | hr
    · exact ⟨start_wf s, .inl (start_balanced s)⟩
    · exact ⟨run_wf, .inr hr⟩
  have hend : (run env s (before ++ after)).Sound := by
    rw [run, List.foldl_append]
    exact GuardedRun.inv (fun _ _ hy hs => hy.step hs) hsound hsteady
  exact hend.exact_iff hstop

/-- One chunk is cut off after a byte of two, the other arrives. -/
def droppedEnv : Env where
  protocol :=
    { fetchMetadata := fun _ => .ok { fileSize := 4, supportsRange := true }
      downloadRange := fun _ start _ _ =>
        if start = 0 then
          { blocks := [{ data := text "1" }], result := .error (.cget .networkError (text "connection reset")) }
        else { blocks := [{ data := text "34" }] }
      downloadSingle := fun _ => {} }
  maxRetries := 0

def halves : DownloadTask where
  id := text "a"
  tempDir := text "a"
  status := .downloading
  fileSize := 4
  chunks :=
    [{ stop := 1, tempPath := text "chunk_0.part" },
      { index := 1, start := 2, stop := 3, tempPath := text "chunk_1.part" }]

/-- The second thread recomputes between two blocks of the first. -/
def betweenTurns : List Nat := List.replicate 5 0 ++ List.replicate 14 1 ++ List.replicate 4 0

/-- The first thread counts its byte between the second thread's load of its counter and the store. -/
def lateTurns : List Nat := List.replicate 5 0 ++ List.replicate 10 1 ++ [0, 0] ++ List.replicate 4 1 ++ [0, 0]

theorem progress_adds_up_between : (run droppedEnv { task := halves } betweenTurns).Exact := by
  have hsteady : GuardedRun (step droppedEnv) Steady (run droppedEnv { task := halves } []) betweenTurns := by
    decide +kernel
  have hstop : (run droppedEnv { task := halves } ([] ++ betweenTurns)).Stopped := by decide +kernel
  have hsmall : (run droppedEnv { task := halves } ([] ++ betweenTurns)).session.task.chunkTotal < 2 ^ 64 := by
    decide +kernel
  exact (progress_adds_up_iff [] betweenTurns (.inl rfl) hsteady hstop).2 hsmall

/-- The byte is missing from the total. -/
theorem late_count_lost :
    (run droppedEnv { task := halves } lateTurns).Stopped ∧ ¬ (run droppedEnv { task := halves } lateTurns).Exact := by
  decide +kernel

end Runs

end Tally

end Cget
