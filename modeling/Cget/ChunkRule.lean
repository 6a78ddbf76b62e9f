import Cget.Scheduler
/-!
# Rules for chunks

A step of a chunk worker depends on its own chunk and part file, and on fields of the task
that no worker writes. A `ChunkRule` says what holds of a chunk and its part file while
nobody works on it (`idle`) and with a worker at some place in its code (`busy`). The pool
of `downloadWithRange` and the scheduler keep any such rule, which `Pool` and `Ownership`
show once for all rules.
-/

namespace Cget

/-- The part file of a chunk of `t`, if its path is safe. -/
def DownloadTask.partOn (t : DownloadTask) (d : Disk) (c : Chunk) : Option Bytes :=
  (chunkPath t c).toOption.bind d.parts

/-- The part file after a move on a chunk with this path: nobody writes to an unsafe path. -/
def WorkerMove.file (m : WorkerMove) (path : Except Exn Path) (part : Option Bytes) : Option Bytes :=
  match path with
  | .ok _ => m.part
  | .error _ => part

/-- The move of a worker of task `t`, when `n` operations have been made. -/
def DownloadTask.move (t : DownloadTask) (env : Env) (n : Nat) (c : Chunk) (part : Option Bytes) (pc : WorkerPc) :
    WorkerMove :=
  workerMove env t.url (chunkPath t c) (env.fault n) (env.saveFault n) c part pc

/-- A property of each chunk of each task that its own worker keeps. -/
structure ChunkRule (envs : TaskId → Env) where
  /-- Whether it looks at the part files. -/
  sees : Prop
  /-- Whether it still says something once a worker threw. -/
  fails : Prop
  idle : DownloadTask → Nat → Chunk → Option Bytes → Prop
  busy : DownloadTask → Nat → Chunk → Option Bytes → WorkerPc → Prop
  idle_frame : ∀ {t t' : DownloadTask} {j : Nat} {c : Chunk} {p p' : Option Bytes},
    t.SameRequest t' → (sees → p' = p) → idle t j c p → idle t' j c p'
  busy_frame : ∀ {t t' : DownloadTask} {j : Nat} {c : Chunk} {p p' : Option Bytes} {pc : WorkerPc},
    t.SameRequest t' → (sees → p' = p) → busy t j c p pc → busy t' j c p' pc
  start : ∀ {t : DownloadTask} {j : Nat} {c : Chunk} {p : Option Bytes},
    idle t j c p → c.status ≠ .completed → c.downloaded < c.size →
      busy t j c p (.attempt 0) ∧ busy t j { c with status := .downloading } p (.attempt 0)
  move : ∀ {t : DownloadTask} {j : Nat} {c : Chunk} {p : Option Bytes} {pc : WorkerPc} (n : Nat),
    busy t j c p pc → (t.move (envs t.id) n c p pc).crashed = false →
      busy t j (t.move (envs t.id) n c p pc).chunk ((t.move (envs t.id) n c p pc).file (chunkPath t c) p)
        (t.move (envs t.id) n c p pc).next
  finish : ∀ {t : DownloadTask} {j : Nat} {c : Chunk} {p : Option Bytes}, busy t j c p .returned → idle t j c p
  fail : fails → ∀ {t : DownloadTask} {j : Nat} {c : Chunk} {p : Option Bytes} {e : Exn},
    busy t j c p (.threw e) → idle t j c p ∧ idle t j { c with status := .failed } p

/-- No two chunks share a part file. -/
def PartsApart (tasks : List DownloadTask) : Prop :=
  ∀ t ∈ tasks, ∀ u ∈ tasks, ∀ (j k : Nat) (c d : Chunk) (p : Path), t.chunks[j]? = some c → u.chunks[k]? = some d →
    chunkPath t c = .ok p → chunkPath u d = .ok p → t.id = u.id ∧ j = k

/-- The rule holds of each chunk of a task, worked on or not. -/
def ChunkRule.Holds {envs : TaskId → Env} (R : ChunkRule envs) (t : DownloadTask) (d : Disk) : Prop :=
  ∀ (j : Nat) (c : Chunk), t.chunks[j]? = some c → R.idle t j c (t.partOn d c) ∨ ∃ pc, R.busy t j c (t.partOn d c) pc

/-! ## What a move leaves alone -/

section Moves

variable {env : Env} {url : Text} {path : Except Exn Path} {f g : Fault} {c : Chunk} {part : Option Bytes}
  {pc : WorkerPc}

/-- The same bytes in the same part file. -/
def Chunk.SamePlace (c c' : Chunk) : Prop :=
  c'.index = c.index ∧ c'.start = c.start ∧ c'.stop = c.stop ∧ c'.tempPath = c.tempPath

theorem Chunk.SamePlace.refl : c.SamePlace c := ⟨rfl, rfl, rfl, rfl⟩

theorem Chunk.SamePlace.trans {c' d : Chunk} (h : c.SamePlace c') (h' : c'.SamePlace d) : c.SamePlace d :=
  ⟨h'.1.trans h.1, h'.2.1.trans h.2.1, h'.2.2.1.trans h.2.2.1, h'.2.2.2.trans h.2.2.2⟩

theorem persistMove_place {next failed : WorkerPc} : c.SamePlace (persistMove f c part pc next failed).chunk := by
  cases f <;> exact .refl

theorem workerMove_place : c.SamePlace (workerMove env url path f g c part pc).chunk := by
  cases pc with
  | attempt n =>
    cases path with
    | error e => exact .refl
    | ok p =>
      simp only [workerMove]
      split
      · cases f <;> exact ⟨rfl, rfl, rfl, rfl⟩
      · split <;> exact ⟨rfl, rfl, rfl, rfl⟩
  | opening n start => cases f <;> exact .refl
  | starting n start => exact ⟨rfl, rfl, rfl, rfl⟩
  | announcing n start => exact persistMove_place
  | requesting n start => exact .refl
  | receiving n blocks result =>
    cases blocks with
    | nil => cases result <;> exact .refl
    | cons b bs => cases f <;> exact ⟨rfl, rfl, rfl, rfl⟩
  | flushing n blocks result => exact persistMove_place
  | closing n =>
    simp only [workerMove]
    split <;> exact ⟨rfl, rfl, rfl, rfl⟩
  | storing n => exact persistMove_place
  | caught n e =>
    cases e with
    | other what => exact .refl
    | cget code what =>
      simp only [workerMove]
      split <;> exact ⟨rfl, rfl, rfl, rfl⟩
  | recording n => exact persistMove_place
  | sleeping n => exact .refl
  | returned => exact .refl
  | threw e => exact .refl

theorem persistMove_crashed {next failed : WorkerPc} (h : (persistMove f c part pc next failed).crashed = true) :
    (persistMove f c part pc next failed).action = .none := by
  cases f with
  | ok => cases h
  | fail k => cases h
  | crash k => rfl

/-- A process that dies does nothing to the task. -/
theorem workerMove_crashed (h : (workerMove env url path f g c part pc).crashed = true) :
    (workerMove env url path f g c part pc).action = .none := by
  cases pc with
  | attempt n =>
    cases path with
    | error e => cases h
    | ok p =>
      simp only [workerMove] at h ⊢
      split at h
      · rename_i hlt
        cases f with
        | ok => cases h
        | fail k => cases h
        | crash k => simp [hlt]
      · split at h <;> cases h
  | opening n start =>
    cases f with
    | ok => cases h
    | fail k => cases h
    | crash k => rfl
  | announcing n start => exact persistMove_crashed h
  | receiving n blocks result =>
    cases blocks with
    | nil => cases result <;> cases h
    | cons b bs =>
      cases f with
      | ok => cases h
      | fail k => cases h
      | crash k => rfl
  | flushing n blocks result => exact persistMove_crashed h
  | closing n =>
    simp only [workerMove] at h
    split at h <;> cases h
  | storing n => exact persistMove_crashed h
  | caught n e =>
    cases e with
    | other what => cases h
    | cget code what =>
      simp only [workerMove] at h
      split at h <;> cases h
  | recording n => exact persistMove_crashed h
  | _ => cases h

end Moves

/-! ## What a step leaves alone -/

section Steps

variable {t t' u : DownloadTask} {env : Env} {s : Session} {i : Nat} {c c' d : Chunk} {pc : WorkerPc} {p : Path}

theorem DownloadTask.SameRequest.refl : t.SameRequest t := ⟨rfl, rfl, rfl, rfl, rfl, rfl⟩

theorem DownloadTask.SameRequest.trans (h : t.SameRequest t') (h' : t'.SameRequest u) : t.SameRequest u :=
  ⟨h'.1.trans h.1, h'.2.1.trans h.2.1, h'.2.2.1.trans h.2.2.1, h'.2.2.2.1.trans h.2.2.2.1,
    h'.2.2.2.2.1.trans h.2.2.2.2.1, h'.2.2.2.2.2.trans h.2.2.2.2.2⟩

/-- The records differ in what the threads of a download write. -/
def DownloadTask.WorkedOn (t t' : DownloadTask) : Prop :=
  ∃ st e n cs u, t' = { t with status := st, lastError := e, downloaded := n, chunks := cs, updatedAt := u }

theorem DownloadTask.WorkedOn.refl : t.WorkedOn t := ⟨_, _, _, _, _, rfl⟩

theorem DownloadTask.WorkedOn.trans (h : t.WorkedOn t') (h' : t'.WorkedOn u) : t.WorkedOn u := by
  obtain ⟨_, _, _, _, _, rfl⟩ := h
  obtain ⟨_, _, _, _, _, rfl⟩ := h'
  exact ⟨_, _, _, _, _, rfl⟩

theorem DownloadTask.WorkedOn.request (h : t.WorkedOn t') : t.SameRequest t' := by
  obtain ⟨_, _, _, _, _, rfl⟩ := h
  exact ⟨rfl, rfl, rfl, rfl, rfl, rfl⟩

theorem chunkPath_congr (ht : t.SameRequest t') (hc : c'.tempPath = c.tempPath) : chunkPath t' c' = chunkPath t c := by
  simp only [chunkPath, hc, ht.2.2.2.1]

/-- Chunks that keep their places stay apart. -/
theorem PartsApart.of_places {tasks tasks' : List DownloadTask} (h : PartsApart tasks)
    (hback : ∀ u ∈ tasks', ∀ (j : Nat) (d : Chunk), u.chunks[j]? = some d →
      ∃ v ∈ tasks, v.SameRequest u ∧ ∃ e, v.chunks[j]? = some e ∧ e.tempPath = d.tempPath) : PartsApart tasks' := by
  intro t ht u hu j k c d p hc hd hpc hpd
  obtain ⟨t', ht', hst, c', hc', hcp⟩ := hback t ht j c hc
  obtain ⟨u', hu', hsu, d', hd', hdp⟩ := hback u hu k d hd
  rw [chunkPath_congr hst hcp.symm] at hpc
  rw [chunkPath_congr hsu hdp.symm] at hpd
  obtain ⟨hid, hjk⟩ := h t' ht' u' hu' j k c' d' p hc' hd' hpc hpd
  exact ⟨by rw [hst.1, hsu.1, hid], hjk⟩

/-- Part files that stay as they are. -/
theorem partOn_congr {w w' : World} (ht : t.SameRequest t') (hc : c'.tempPath = c.tempPath)
    (hp : ∀ p, chunkPath t c = .ok p → w'.disk.parts p = w.disk.parts p) :
    t'.partOn w'.disk c' = t.partOn w.disk c := by
  unfold DownloadTask.partOn
  rw [chunkPath_congr ht hc]
  cases h : chunkPath t c with
  | error e => rfl
  | ok p => exact hp p h

theorem stepped_workedOn : s.task.WorkedOn (s.stepped env i c pc).task := by
  unfold Session.stepped
  cases (s.workerMove env c pc).action with
  | persist saved => cases saved <;> exact ⟨_, _, _, _, _, rfl⟩
  | _ => exact ⟨_, _, _, _, _, rfl⟩

@[simp] theorem stepped_same : s.task.SameRequest (s.stepped env i c pc).task := stepped_workedOn.request

@[simp] theorem stepped_chunks :
    (s.stepped env i c pc).task.chunks = s.task.chunks.set i
      (s.task.move env s.world.tick c (s.task.partOn s.world.disk c) pc).chunk := by
  simp only [Session.stepped, apply_chunks, moved_chunks]
  rfl

/-- A step writes its own part file. -/
theorem stepped_part : (s.stepped env i c pc).task.partOn (s.stepped env i c pc).world.disk
      (s.task.move env s.world.tick c (s.task.partOn s.world.disk c) pc).chunk =
    (s.task.move env s.world.tick c (s.task.partOn s.world.disk c) pc).file (chunkPath s.task c)
      (s.task.partOn s.world.disk c) := by
  have hpath : chunkPath (s.stepped env i c pc).task
      (s.task.move env s.world.tick c (s.task.partOn s.world.disk c) pc).chunk =
      chunkPath s.task c := chunkPath_congr stepped_same workerMove_place.2.2.2
  unfold DownloadTask.partOn at hpath ⊢
  rw [hpath, Session.stepped, apply_parts, Session.moved]
  cases h : chunkPath s.task c with
  | error e => simp [WorkerMove.file, Except.toOption]
  | ok p => simp [WorkerMove.file, Except.toOption, Session.workerMove, DownloadTask.move, Session.part, h]

/-- A step writes no other part file. -/
theorem stepped_parts (h : chunkPath s.task c ≠ .ok p) :
    (s.stepped env i c pc).world.disk.parts p = s.world.disk.parts p := by
  rw [Session.stepped, apply_parts, Session.moved]
  cases hc : chunkPath s.task c with
  | error e => rfl
  | ok q =>
    have hne : p ≠ q := fun hp => h (by rw [hc, hp])
    simp [hne]

/-- A step logs no save but that of the task as the step leaves it. -/
theorem stepped_log {e : Event} (h : e ∈ (s.stepped env i c pc).world.log) :
    e ∈ s.world.log ∨ e = .saved (s.stepped env i c pc).task ∨ ∀ t, e ≠ .saved t := by
  unfold Session.stepped at h ⊢
  cases ha : (s.workerMove env c pc).action with
  | none => rw [ha] at h; exact .inl h
  | recompute => rw [ha] at h; exact .inl h
  | count n => rw [ha] at h; exact .inl h
  | setDownloading =>
    rw [ha] at h
    rcases List.mem_cons.1 h with rfl | h
    exacts [.inr (.inr (by simp)), .inl h]
  | setRetrying message =>
    rw [ha] at h
    rcases List.mem_cons.1 h with rfl | h
    exacts [.inr (.inr (by simp)), .inl h]
  | request start stop n =>
    rw [ha] at h
    rcases List.mem_cons.1 h with rfl | h
    exacts [.inr (.inr (by simp)), .inl h]
  | persist saved =>
    rw [ha] at h
    cases saved with
    | false => exact .inl h
    | true =>
      rcases List.mem_cons.1 h with rfl | h
      exacts [.inr (.inl rfl), .inl h]

/-- A step saves the task as it leaves it, or saves nothing. -/
theorem stepped_files :
    (s.stepped env i c pc).world.disk.tasks = s.world.disk.tasks ∧ s.world.log ⊆ (s.stepped env i c pc).world.log ∨
      ∃ w : World, w.disk.tasks = s.world.disk.tasks ∧ w.log = s.world.log ∧
        (s.stepped env i c pc).world = w.saveTask (s.stepped env i c pc).task := by
  have hmoved : (s.moved i c (s.workerMove env c pc)).world.disk.tasks = s.world.disk.tasks := by
    unfold Session.moved
    dsimp only
    split <;> rfl
  unfold Session.stepped
  cases ha : (s.workerMove env c pc).action with
  | none => exact .inl ⟨hmoved, List.Subset.refl _⟩
  | recompute => exact .inl ⟨hmoved, List.Subset.refl _⟩
  | count n => exact .inl ⟨hmoved, List.Subset.refl _⟩
  | setDownloading => exact .inl ⟨hmoved, List.subset_cons_self _ _⟩
  | setRetrying message => exact .inl ⟨hmoved, List.subset_cons_self _ _⟩
  | request start stop n => exact .inl ⟨hmoved, List.subset_cons_self _ _⟩
  | persist saved =>
    cases saved with
    | false => exact .inl ⟨hmoved, List.Subset.refl _⟩
    | true => exact .inr ⟨(s.moved i c (s.workerMove env c pc)).world, hmoved, rfl, rfl⟩

theorem stepped_status : (s.stepped env i c pc).task.status = s.task.status ∨
    (s.stepped env i c pc).task.status = .downloading ∨ (s.stepped env i c pc).task.status = .retrying := by
  unfold Session.stepped
  cases ha : (s.workerMove env c pc).action with
  | setDownloading => exact .inr (.inl rfl)
  | setRetrying message => exact .inr (.inr rfl)
  | persist saved => cases saved <;> exact .inl rfl
  | _ => exact .inl rfl

theorem stepped_crashed (h : (s.workerMove env c pc).crashed = true) :
    (s.stepped env i c pc).world.log = s.world.log := by
  have ha : (s.workerMove env c pc).action = .none := workerMove_crashed h
  rw [Session.stepped, ha]
  rfl

end Steps

end Cget
