import Cget.Operations
/-!
# Status changes and the transition table

`isValidTransition` declares which status may follow which; nothing calls it. Here every
change an operation makes is checked against it: the log has each assignment to
`task.status`, and `EachChange` looks at each one with the status before it. `exceeds` are
the changes that are not in the table.
-/

namespace Cget

open Prog SchedState

/-! ## The table -/

/-- `task_state.cpp`. -/
def isValidTransition (current next : TaskStatus) : Bool :=
  current = next ||
    match current with
    | .created => next = .pending || next = .queued || next = .failed
    | .pending => next = .queued || next = .paused || next = .failed
    | .queued => next = .downloading || next = .paused || next = .cancelled || next = .failed
    | .downloading =>
      next = .paused || next = .retrying || next = .failed || next = .completed || next = .cancelled ||
        next = .pendingRecovery || next = .metadataMismatch
    | .retrying =>
      next = .queued || next = .downloading || next = .failed || next = .paused || next = .pendingRecovery
    | .paused => next = .queued || next = .downloading || next = .removed || next = .failed
    | .failed => next = .queued || next = .removed
    | .completed => next = .removed
    | .cancelled => next = .removed
    | .corrupted => next = .removed
    | .pendingRecovery =>
      next = .paused || next = .queued || next = .removed || next = .metadataMismatch || next = .failed
    | .metadataMismatch => next = .removed || next = .failed
    | .removed => false

/-! ## Changes -/

/-- The status of each task after the events, newest first. -/
def statusAfter (start : TaskId → TaskStatus) : List Event → TaskId → TaskStatus
  | [] => start
  | .assigned id st :: es => Function.update (statusAfter start es) id st
  | _ :: es => statusAfter start es

/-- The changes of status that the events assign: old and new. -/
def changes (start : TaskId → TaskStatus) : List Event → List (TaskStatus × TaskStatus)
  | [] => []
  | .assigned id st :: es => (statusAfter start es id, st) :: changes start es
  | _ :: es => changes start es

/-- Each change is one that `allowed` has. -/
def EachChange (allowed : TaskStatus → TaskStatus → Bool) (start : TaskId → TaskStatus) (es : List Event) : Prop :=
  ∀ c ∈ changes start es, allowed c.1 c.2

instance EachChange.decide {allowed : TaskStatus → TaskStatus → Bool} {start : TaskId → TaskStatus} {es : List Event} :
    Decidable (EachChange allowed start es) := inferInstanceAs (Decidable (∀ c ∈ changes start es, allowed c.1 c.2))

/-- The changes beside the table of `recoverTasks`, `download` after its start, and the
scheduler with `prepareTask`. -/
def recoverExceeds (a b : TaskStatus) : Bool := (a = .pending || a = .queued || a = .retrying) && b = .completed

def downloadExceeds (a b : TaskStatus) : Bool :=
  (a = .retrying && (b = .completed || b = .metadataMismatch)) || (a = .completed && b = .failed)

def scheduleExceeds (a b : TaskStatus) : Bool :=
  ((a = .pending || a = .failed) && b = .downloading) || (a = .failed && b = .retrying)

/-- The changes an operation may make that are not in the table. -/
def Operation.exceeds : Operation → TaskStatus → TaskStatus → Bool
  | .create _ _, _, _ => false
  | .download _ _, a, b =>
    ((a = .downloading || a = .cancelled || a = .removed) && b = .queued) || downloadExceeds a b
  | .pause _ _, a, b => (a = .created || a = .failed || a = .cancelled) && b = .paused
  | .remove _ _, a, b =>
    (a = .created || a = .pending || a = .queued || a = .downloading || a = .retrying) && b = .removed
  | .recover _ _, a, b => recoverExceeds a b
  | .queue _, a, b => recoverExceeds a b || scheduleExceeds a b || downloadExceeds a b

def Operation.allows (op : Operation) (a b : TaskStatus) : Bool := isValidTransition a b || op.exceeds a b

/-- The status each task is loaded with, or created with. -/
def Operation.loaded (op : Operation) (w : World) (id : TaskId) : TaskStatus :=
  match op with
  | .create _ _ => .created
  | _ => ((w.disk.loadTask id).map (·.status)).getD .created

/-- A directory scan meets no file twice. -/
def Operation.ScansOnce : Operation → Prop
  | .recover _ scan => scan.Nodup
  | .queue r => r.scan.Nodup ∧ r.scanAgain.Nodup
  | _ => True

variable {env : Env} {envs : TaskId → Env} {allowed : TaskStatus → TaskStatus → Bool} {start cur : TaskId → TaskStatus}
  {L : List Event} {w w' : World} {τ : TaskId} {t : DownloadTask} {s : Session}

/-! ## Recording -/

/-- All changes since `L` are allowed, and `cur` is the status of each task now. -/
structure Recorded (allowed : TaskStatus → TaskStatus → Bool) (start : TaskId → TaskStatus) (L : List Event) (w : World)
    (cur : TaskId → TaskStatus) : Prop where
  since : ∃ es, w.log = es ++ L ∧ EachChange allowed start es ∧ statusAfter start es = cur

theorem Recorded.nothing (h : w.log = L) : Recorded allowed start L w start := ⟨[], h, List.forall_mem_nil _, rfl⟩

theorem Recorded.assign (h : Recorded allowed start L w cur) (id : TaskId) (st : TaskStatus)
    (hst : allowed (cur id) st) :
    Recorded allowed start L (w.record (.assigned id st)) (Function.update cur id st) := by
  obtain ⟨es, hlog, heach, rfl⟩ := h.since
  exact ⟨.assigned id st :: es, by rw [World.record, hlog]; rfl, List.forall_mem_cons.2 ⟨hst, heach⟩, rfl⟩

theorem Recorded.quiet (h : Recorded allowed start L w cur) {e : Event} (he : ∀ id st, e ≠ .assigned id st)
    (hlog : w'.log = e :: w.log) :
    Recorded allowed start L w' cur := by
  obtain ⟨es, hes, heach, rfl⟩ := h.since
  refine ⟨e :: es, by rw [hlog, hes]; rfl, ?_⟩
  cases e with
  | assigned id st => exact absurd rfl (he id st)
  | saved t => exact ⟨heach, rfl⟩
  | fetched id b => exact ⟨heach, rfl⟩
  | requested id q => exact ⟨heach, rfl⟩

theorem Recorded.same (h : Recorded allowed start L w cur) (hlog : w'.log = w.log) :
    Recorded allowed start L w' cur := by
  obtain ⟨es, hes, heach⟩ := h.since
  exact ⟨es, hlog.trans hes, heach⟩

/-- A session on task `τ` with a status of `A`, the other tasks being as in `cur`. -/
structure At (allowed : TaskStatus → TaskStatus → Bool) (start : TaskId → TaskStatus) (L : List Event)
    (cur : TaskId → TaskStatus) (τ : TaskId) (A : TaskStatus → Prop) (s : Session) : Prop where
  id : s.task.id = τ
  status : A s.task.status
  recorded : Recorded allowed start L s.world (Function.update cur τ s.task.status)

variable {A B : TaskStatus → Prop}

theorem At.mono (h : At allowed start L cur τ A s) (hA : ∀ st, A st → B st) : At allowed start L cur τ B s :=
  ⟨h.id, hA _ h.status, h.recorded⟩

/-- The data of a transfer changes no status. -/
theorem at_tolerates : ToleratesData (At allowed start L cur τ A) where
  tick s n h := ⟨h.id, h.status, h.recorded.same rfl⟩
  task s t h ht := ⟨ht.1.1.trans h.id, by rw [ht.1.2.2.2.2.2]; exact h.status, by
    rw [ht.1.2.2.2.2.2]
    exact h.recorded.same rfl⟩
  saved s h := ⟨h.id, h.status, h.recorded.quiet (e := .saved s.task) (by simp) rfl⟩
  part s p b h := ⟨h.id, h.status, h.recorded.same rfl⟩
  progress s t h ht := ⟨ht.1.trans h.id, by rw [ht.2.2.2.2.2]; exact h.status, by
    rw [ht.2.2.2.2.2]
    exact h.recorded.same rfl⟩
  logged s e h he := ⟨h.id, h.status, h.recorded.quiet (e := e) (by rintro id st rfl; exact he) rfl⟩

/-- An allowed change. -/
theorem At.setStatus (h : At allowed start L cur τ A s) (st : TaskStatus) (hst : ∀ a, A a → allowed a st) :
    At allowed start L cur τ (· = st) (s.setStatus st) := by
  obtain rfl := h.id
  have hchange : allowed (Function.update cur s.task.id s.task.status s.task.id) st := by
    rw [Function.update_self]
    exact hst _ h.status
  have hassign := h.recorded.assign s.task.id st hchange
  rw [Function.update_idem] at hassign
  exact ⟨rfl, rfl, hassign⟩

/-! ## Sessions -/

/-- The changes of a transfer and its end. -/
structure AllowsTransfer (allowed : TaskStatus → TaskStatus → Bool) : Prop where
  table : ∀ a b, isValidTransition a b → allowed a b
  exceeds : ∀ a b, downloadExceeds a b → allowed a b

/-- At work. -/
def Working (st : TaskStatus) : Prop := st = .downloading ∨ st = .retrying

/-- A failure was set, or the task is completed. -/
def Over (st : TaskStatus) : Prop := st = .failed ∨ st = .metadataMismatch ∨ st = .completed

/-- How the body of a session is left with the exception `e`: at work, or because the last save
failed. -/
def Leaves (allowed : TaskStatus → TaskStatus → Bool) (start : TaskId → TaskStatus) (L : List Event)
    (cur : TaskId → TaskStatus) (τ : TaskId) (e : Exn) (s : Session) : Prop :=
  At allowed start L cur τ Working s ∨ (e = saveError ∧ At allowed start L cur τ Over s)

/-- The status no longer matters. -/
def Recording (allowed : TaskStatus → TaskStatus → Bool) (start : TaskId → TaskStatus) (L : List Event)
    (cur : TaskId → TaskStatus) (τ : TaskId) : Session → Prop := At allowed start L cur τ fun _ => True

section Sessions

variable (hallowed : AllowsTransfer allowed)

theorem At.recording (h : At allowed start L cur τ A s) : Recording allowed start L cur τ s := h.mono fun _ _ => trivial

include hallowed in
theorem AllowsTransfer.failed {a : TaskStatus} (h : Working a ∨ Over a) : allowed a .failed := by
  rcases h with (rfl | rfl) | rfl | rfl | rfl
  · exact hallowed.table _ _ rfl
  · exact hallowed.table _ _ rfl
  · exact hallowed.table _ _ rfl
  · exact hallowed.table _ _ rfl
  · exact hallowed.exceeds _ _ rfl

include hallowed in
theorem AllowsTransfer.mismatch {a : TaskStatus} (h : Working a) : allowed a .metadataMismatch := by
  rcases h with rfl | rfl
  · exact hallowed.table _ _ rfl
  · exact hallowed.exceeds _ _ rfl

/-- `setFailure`, whether its save goes through or not. -/
theorem at_setFailure {st : TaskStatus} {message : Text} (h : At allowed start L cur τ A s)
    (hst : ∀ a, A a → allowed a st) :
    wp (setFailure env st message) (fun _ => At allowed start L cur τ (· = st))
      (fun e s' => e = saveError ∧ At allowed start L cur τ (· = st) s') (Recording allowed start L cur τ) s := by
  have hset := h.setStatus _ hst
  have hfailed : At allowed start L cur τ (· = st) (s.failed env st message) := ⟨hset.id, rfl, hset.recorded.same rfl⟩
  refine wp_setFailure (fun _ => ?_) (fun k _ => ⟨rfl, ?_⟩) (fun k _ => ?_)
  · exact at_tolerates.saved _ (at_tolerates.tick _ _ hfailed)
  · exact at_tolerates.tick _ _ hfailed
  · exact (at_tolerates.tick _ _ hfailed).recording

/-- A failure, and what the callers look at afterwards. -/
def Failing (st : TaskStatus) : Prop := st = .failed ∨ st = .metadataMismatch

/-- `setFailure` in a `catch` clause. -/
theorem at_catch {st : TaskStatus} {message : Text} (hf : Failing st) (h : At allowed start L cur τ A s)
    (hst : ∀ a, A a → allowed a st) :
    wp (setFailure env st message) (fun _ => At allowed start L cur τ Failing)
      (fun _ => Recording allowed start L cur τ) (Recording allowed start L cur τ) s :=
  wp_mono (at_setFailure h hst) (fun _ _ h => h.mono fun _ heq => heq ▸ hf) (fun _ _ h => h.2.recording) (fun _ h => h)

include hallowed in
/-- The `catch` clauses. -/
theorem at_failWith {e : Exn} (h : Leaves allowed start L cur τ e s) :
    wp (failWith env e) (fun _ => At allowed start L cur τ Failing) (fun _ => Recording allowed start L cur τ)
      (Recording allowed start L cur τ) s := by
  rcases h with h | ⟨rfl, h⟩
  · unfold failWith
    split
    · exact at_catch (.inr rfl) h fun a ha => hallowed.mismatch ha
    · exact at_catch (.inl rfl) h fun a ha => hallowed.failed (.inl ha)
  · exact at_catch (.inl rfl) h fun a ha => hallowed.failed (.inr ha)

/-- An operation on the data, at work. -/
theorem at_data {α : Type} {m : EngineM α} (h : At allowed start L cur τ Working s)
    (hm : Keeps (At allowed start L cur τ Working) m) :
    wp m (fun _ => At allowed start L cur τ Working) (Leaves allowed start L cur τ)
      (Recording allowed start L cur τ) s :=
  wp_mono (hm s h) (fun _ _ h => h) (fun _ _ h => .inl h) (fun _ h => h.recording)

/-- `setFailure` in the body of a session. -/
theorem at_fails {st : TaskStatus} {message : Text} (hf : Failing st) (h : At allowed start L cur τ Working s)
    (hst : ∀ a, Working a → allowed a st) :
    wp (setFailure env st message) (fun _ => At allowed start L cur τ Failing) (Leaves allowed start L cur τ)
      (Recording allowed start L cur τ) s := by
  have hover : ∀ a, a = st → Over a := by
    rintro a rfl
    rcases hf with rfl | rfl
    exacts [.inl rfl, .inr (.inl rfl)]
  exact wp_mono (at_setFailure h hst) (fun _ _ h => h.mono fun _ heq => heq ▸ hf)
    (fun _ _ h => .inr ⟨h.1, h.2.mono hover⟩) (fun _ h => h)

/-! ### Workers -/

/-- A step of a worker sets Downloading or Retrying, or no status. -/
theorem at_stepWorker (hd : A .downloading) (hr : A .retrying) (had : ∀ a, A a → allowed a .downloading)
    (har : ∀ a, A a → allowed a .retrying) (i : Nat) (pc : WorkerPc) :
    Keeps (At allowed start L cur τ A) (stepWorker env i pc) :=
  at_tolerates.stepWorker (fun _ h => (h.setStatus _ had).mono fun _ heq => heq ▸ hd)
    (fun _ h => (h.setStatus _ har).mono fun _ heq => heq ▸ hr) i pc

include hallowed in
theorem at_runPool (workers : List PoolWorker) : Keeps (At allowed start L cur τ Working) (runPool env workers) := by
  refine runPool_keeps (at_stepWorker (.inl rfl) (.inr rfl) (fun a ha => ?_) fun a ha => ?_) workers
  · rcases ha with rfl | rfl <;> exact hallowed.table _ _ rfl
  · rcases ha with rfl | rfl <;> exact hallowed.table _ _ rfl

/-! ### Transfers -/

/-- What a transfer ends with, and the status then. -/
def Ended (allowed : TaskStatus → TaskStatus → Bool) (start : TaskId → TaskStatus) (L : List Event)
    (cur : TaskId → TaskStatus) (τ : TaskId) : TransferEnd → Session → Prop
  | .transferred => At allowed start L cur τ Working
  | .failed => At allowed start L cur τ Failing

include hallowed in
theorem at_transferWithRange (info : RemoteFileInfo) (h : At allowed start L cur τ Working s) :
    wp (transferWithRange env info) (Ended allowed start L cur τ) (Leaves allowed start L cur τ)
      (Recording allowed start L cur τ) s := by
  unfold transferWithRange
  rw [wp_bind]
  refine wp_mono (at_data h at_tolerates.ensureTaskTempDir) (fun _ s₁ h₁ => ?_) (fun _ _ h => h) (fun _ h => h)
  rw [wp_bind, wp_updateTask, wp_bind, wp_updateTask, wp_bind]
  have hplanned := at_tolerates.progress _ (recomputeDownloaded (planRange env info.fileSize s₁.task)) h₁
    ⟨rfl, rfl, rfl, rfl, rfl, rfl⟩
  refine wp_mono (at_data hplanned at_tolerates.persistTask) (fun _ s₂ h₂ => ?_) (fun _ _ h => h) (fun _ h => h)
  rw [wp_bind, wp_get, wp_bind, wp_updateTask, wp_bind]
  have hmarked := at_tolerates.progress _ (markDone s₂.task) h₂ ⟨rfl, rfl, rfl, rfl, rfl, rfl⟩
  refine wp_mono (at_data hmarked (at_runPool hallowed _)) (fun errors s₃ h₃ => ?_) (fun _ _ h => h) (fun _ h => h)
  cases errors with
  | nil =>
    rw [wp_bind, wp_get]
    split
    · exact h₃
    · rw [wp_bind]
      exact wp_mono (at_fails (.inl rfl) h₃ fun a ha => hallowed.failed (.inl ha)) (fun _ _ h => h) (fun _ _ h => h)
        (fun _ h => h)
  | cons first rest =>
    dsimp only
    split
    · rw [wp_bind, wp_updateTask, wp_bind]
      have hempty := at_tolerates.progress _ { s₃.task with
          chunks := []
          downloaded := 0
          lastError := some (text "server ignored Range request; falling back to single-stream download") } h₃
        ⟨rfl, rfl, rfl, rfl, rfl, rfl⟩
      refine wp_mono (at_data hempty at_tolerates.persistTask) (fun _ s₄ h₄ => ?_) (fun _ _ h => h) (fun _ h => h)
      rw [wp_bind]
      exact wp_mono (at_data h₄ (at_tolerates.transferSingleStream info)) (fun _ _ h => h) (fun _ _ h => h)
        (fun _ h => h)
    · rw [wp_bind]
      split
      · exact wp_mono (at_fails (.inr rfl) h₃ fun a ha => hallowed.mismatch ha) (fun _ _ h => h) (fun _ _ h => h)
          (fun _ h => h)
      · exact wp_mono (at_fails (.inl rfl) h₃ fun a ha => hallowed.failed (.inl ha)) (fun _ _ h => h) (fun _ _ h => h)
          (fun _ h => h)

include hallowed in
theorem at_transferFrom (info : RemoteFileInfo) (h : At allowed start L cur τ Working s) :
    wp (transferFrom env info) (Ended allowed start L cur τ) (Leaves allowed start L cur τ)
      (Recording allowed start L cur τ) s := by
  unfold transferFrom
  rw [wp_bind, wp_updateTask, wp_bind]
  have hknown := at_tolerates.progress _ (rememberMetadata s.task info) h ⟨rfl, rfl, rfl, rfl, rfl, rfl⟩
  refine wp_mono (at_data hknown at_tolerates.persistTask) (fun _ s₁ h₁ => ?_) (fun _ _ h => h) (fun _ h => h)
  rw [wp_bind, wp_get]
  split
  · exact at_transferWithRange hallowed info h₁
  · rw [wp_bind]
    exact wp_mono (at_data h₁ (at_tolerates.transferSingleStream info)) (fun _ _ h => h) (fun _ _ h => h) (fun _ h => h)

/-- `beginTask` sets Downloading. -/
theorem at_beginTask (h : At allowed start L cur τ A s) (hst : ∀ a, A a → allowed a .downloading) :
    wp (beginTask env) (fun _ => At allowed start L cur τ Working) (Leaves allowed start L cur τ)
      (Recording allowed start L cur τ) s := by
  have hbegun : At allowed start L cur τ Working (s.begun env) := by
    have hset := h.setStatus _ hst
    exact ⟨hset.id, .inl rfl, hset.recorded.same rfl⟩
  refine wp_beginTask (fun _ => ?_) (fun k _ => .inl ?_) (fun k _ => ?_)
  · exact at_tolerates.saved _ (at_tolerates.tick _ _ hbegun)
  · exact at_tolerates.tick _ _ hbegun
  · exact (at_tolerates.tick _ _ hbegun).recording

include hallowed in
theorem at_transfer (h : At allowed start L cur τ A s) (hst : ∀ a, A a → allowed a .downloading) :
    wp (transfer env) (Ended allowed start L cur τ) (Leaves allowed start L cur τ)
      (Recording allowed start L cur τ) s := by
  unfold transfer
  rw [wp_bind]
  refine wp_mono (at_beginTask h hst) (fun _ s₁ h₁ => ?_) (fun _ _ h => h) (fun _ h => h)
  rw [wp_bind]
  refine wp_mono (at_data h₁ at_tolerates.fetchMetadata) (fun info s₂ h₂ => ?_) (fun _ _ h => h) (fun _ h => h)
  rw [wp_bind, wp_get]
  split
  · rw [wp_bind]
    exact wp_mono (at_fails (.inr rfl) h₂ fun a ha => hallowed.mismatch ha) (fun _ _ h => h) (fun _ _ h => h)
      (fun _ h => h)
  · exact at_transferFrom hallowed info h₂

/-! ### The end of a session -/

include hallowed in
theorem at_verifyChecksum {b : Bytes} (h : At allowed start L cur τ Working s)
    (hb : s.world.disk.out s.task.targetPath = some b) :
    wp (verifyChecksum env) (fun ok => At allowed start L cur τ (if ok then Working else Failing))
      (Leaves allowed start L cur τ) (Recording allowed start L cur τ) s := by
  have hticked : ∀ n, At allowed start L cur τ Working { s with world := { s.world with tick := n } } := fun n =>
    at_tolerates.tick s n h
  refine wp_verifyChecksum hb (fun n _ => hticked n) (fun n digest _ _ _ => ?_) (fun n _ _ _ => .inl (hticked n))
    (fun n _ _ => (hticked n).recording)
  exact at_fails (.inl rfl) (hticked n) fun a ha => hallowed.failed (.inl ha)

/-- The last save. -/
theorem at_persistDone (h : At allowed start L cur τ (· = .completed) s) :
    wp (persistTask env) (fun _ => Recording allowed start L cur τ) (Leaves allowed start L cur τ)
      (Recording allowed start L cur τ) s := by
  have htouched : At allowed start L cur τ (· = .completed) (s.touched env) :=
    at_tolerates.progress _ _ h ⟨rfl, rfl, rfl, rfl, rfl, rfl⟩
  refine wp_persistTask (fun _ => ?_) (fun k _ => .inr ⟨rfl, ?_⟩) (fun k _ => ?_)
  · exact (at_tolerates.saved _ (at_tolerates.tick _ _ htouched)).recording
  · exact (at_tolerates.tick _ _ htouched).mono fun _ heq => .inr (.inr heq)
  · exact (at_tolerates.tick _ _ htouched).recording

include hallowed in
theorem at_mergeAndComplete (h : At allowed start L cur τ Working s) :
    wp (mergeAndComplete env) (fun _ => Recording allowed start L cur τ) (Leaves allowed start L cur τ)
      (Recording allowed start L cur τ) s := by
  unfold mergeAndComplete
  simp only [wp_bind, wp_get, onWorld, wp_focus]
  have hmerged : ∀ w', OnlyTarget s.task.targetPath s.world w' →
      At allowed start L cur τ Working { s with world := w' } :=
    fun w' hw => ⟨h.id, h.status, h.recorded.same hw.log⟩
  refine wp_mono mergeChunks_wp ?_ (fun _ w' hw => .inl (hmerged w' hw.1)) (fun w' hw => (hmerged w' hw.1).recording)
  rintro _ w' ⟨hw, -, b, -, hb⟩
  refine wp_mono (at_verifyChecksum hallowed (hmerged w' hw) hb) (fun ok s₁ h₁ => ?_) (fun _ _ h => h) (fun _ h => h)
  cases ok with
  | false => exact At.recording h₁
  | true =>
    have hcounted : At allowed start L cur τ Working
        { s₁ with task := { s₁.task with downloaded := s₁.task.fileSize } } :=
      at_tolerates.progress _ _ h₁ ⟨rfl, rfl, rfl, rfl, rfl, rfl⟩
    have hdone := hcounted.setStatus .completed fun a ha => by
      rcases ha with rfl | rfl
      exacts [hallowed.table _ _ rfl, hallowed.exceeds _ _ rfl]
    rw [if_pos rfl, wp_bind, wp_updateTask, wp_bind, setStatus, wp_modify, wp_bind, wp_updateTask]
    exact at_persistDone (at_tolerates.progress _ _ hdone ⟨rfl, rfl, rfl, rfl, rfl, rfl⟩)

include hallowed in
theorem at_download (h : At allowed start L cur τ A s) (hst : ∀ a, A a → allowed a .downloading) :
    Recording allowed start L cur τ ((download env).run s).2 := by
  refine wp_const.1 ?_
  unfold download
  rw [wp_tryCatch, wp_bind]
  have hcatch : ∀ e s', Leaves allowed start L cur τ e s' →
      wp (failWith env e) (fun _ => Recording allowed start L cur τ) (fun _ => Recording allowed start L cur τ)
        (Recording allowed start L cur τ) s' :=
    fun e s' h => wp_mono (at_failWith hallowed h) (fun _ _ h => h.recording) (fun _ _ h => h) (fun _ h => h)
  refine wp_mono (at_transfer hallowed h hst) (fun r s₁ h₁ => ?_) hcatch (fun _ h => h)
  cases r with
  | transferred => exact wp_mono (at_mergeAndComplete hallowed h₁) (fun _ _ h => h) hcatch (fun _ h => h)
  | failed => exact At.recording h₁

/-! ### Prepared tasks -/

/-- What `prepareTask` leaves. -/
def Prepared (st : TaskStatus) : Prop := Working st ∨ Failing st

include hallowed in
theorem at_prepareTask (h : At allowed start L cur τ A s) (hst : ∀ a, A a → allowed a .downloading) :
    wp (prepareTask env) (fun _ => At allowed start L cur τ Prepared) (fun _ => Recording allowed start L cur τ)
      (Recording allowed start L cur τ) s := by
  unfold prepareTask
  rw [wp_tryCatch]
  have hcatch : ∀ e s', Leaves allowed start L cur τ e s' →
      wp (failWith env e) (fun _ => At allowed start L cur τ Prepared) (fun _ => Recording allowed start L cur τ)
        (Recording allowed start L cur τ) s' :=
    fun e s' h => wp_mono (at_failWith hallowed h) (fun _ _ h => h.mono fun _ => .inr) (fun _ _ h => h) (fun _ h => h)
  have hprepare : ∀ info, Keeps (At allowed start L cur τ Working) (prepareFrom env info) := by
    intro info
    unfold prepareFrom prepareChunks
    refine KeepsOr.bind (at_tolerates.changeTask fun _ => ⟨rfl, rfl, rfl, rfl, rfl, rfl⟩) fun _ => ?_
    refine KeepsOr.bind (KeepsOr.get_bind fun s => ?_) fun _ => at_tolerates.persistTask
    split
    · refine at_tolerates.ensureTaskTempDir.bind fun _ => ?_
      refine KeepsOr.bind (at_tolerates.changeTask fun _ => ⟨rfl, rfl, rfl, rfl, rfl, rfl⟩) fun _ => ?_
      exact at_tolerates.changeTask fun _ => ⟨rfl, rfl, rfl, rfl, rfl, rfl⟩
    · exact KeepsOr.pure _
  rw [wp_bind]
  refine wp_mono (at_beginTask h hst) (fun _ s₁ h₁ => ?_) hcatch (fun _ h => h)
  rw [wp_bind]
  refine wp_mono (at_data h₁ at_tolerates.fetchMetadata) (fun info s₂ h₂ => ?_) hcatch (fun _ h => h)
  rw [wp_bind, wp_get]
  split
  · exact wp_mono (at_fails (.inr rfl) h₂ fun a ha => hallowed.mismatch ha) (fun _ _ h => h.mono fun _ => .inr) hcatch
      (fun _ h => h)
  · exact wp_mono (at_data h₂ (hprepare info)) (fun _ _ h => h.mono fun _ => .inl) hcatch (fun _ h => h)

include hallowed in
theorem at_finalize (h : At allowed start L cur τ Prepared s) :
    Recording allowed start L cur τ ((finalizePreparedTask env).run s).2 := by
  refine wp_const.1 ?_
  unfold finalizePreparedTask
  rw [wp_bind, wp_get]
  split
  · exact wp_mono (at_tolerates.persistTask s h) (fun _ _ h => h.recording) (fun _ _ h => h.recording)
      (fun _ h => h.recording)
  · rename_i hunfinished
    have hworking : At allowed start L cur τ Working s := by
      refine ⟨h.id, h.status.resolve_right fun hf => ?_, h.recorded⟩
      rcases hf with hf | hf <;> rw [hf] at hunfinished <;> exact hunfinished rfl
    have hleft : ∀ e s', Leaves allowed start L cur τ e s' → Recording allowed start L cur τ s' := by
      rintro e s' (h | ⟨-, h⟩) <;> exact h.recording
    split
    · exact wp_mono (at_fails (.inl rfl) hworking fun a ha => hallowed.failed (.inl ha))
        (fun _ _ h => h.recording) hleft (fun _ h => h)
    · exact wp_mono (at_mergeAndComplete hallowed hworking) (fun _ _ h => h) hleft (fun _ h => h)

end Sessions

end Cget
