import Cget.OutputPath
import Cget.Selection
import Mathlib.Data.List.Pairwise
/-!
# Creating without force

`createTask` looks for a free output path when the task is created, `mergeChunks` removes
and replaces whatever is at that path, and at its temp name, when the task is completed. A
`Ledger` is a run of the manager with what was there at each creation: as long as no request
resolves to a file that an earlier task uses, a call writes to files of the tasks that it
runs only, which belong to no other task and were not there when that task was created.
-/

namespace Cget

open Prog

/-! ## Runs with their creations -/

/-- A task of the run, and the output files there were when it was created. -/
structure CreatedTask where
  task : DownloadTask
  before : Path → Option Bytes

/-- The files a task's merge writes to, and so all that the task produces. -/
def CreatedTask.Owns (c : CreatedTask) (p : Path) : Prop :=
  OneFile p c.task.targetPath ∨ OneFile p (tempTarget c.task.targetPath)

structure Ledger where
  world : World
  created : List CreatedTask := []

inductive Call where
  | create (env : Env) (places : Places) (request : CreateTaskRequest)
  | operate (op : Operation)

/-- The task a call of `createTask` returns. -/
def createdTask (env : Env) (places : Places) (q : CreateTaskRequest) (w : World) : Option DownloadTask :=
  match ((createRequested env places q).run w).1 with
  | .ok t => some t
  | _ => none

def Call.step (L : Ledger) : Call → Ledger
  | .create env places q =>
    { world := ((createRequested env places q).run L.world).2
      created := ((createdTask env places q L.world).map (⟨·, L.world.disk.out⟩)).toList ++ L.created }
  | .operate op => { L with world := op.step L.world }

/-- The calls of the sequence: creations without force, and every other operation. -/
def Call.Unforced : Call → Prop
  | .create _ _ q => q.forceOverwrite = false
  | .operate (.create _ _) => False
  | .operate _ => True

/-- The file `p` and its temp file are used by no task so far, and the temp file is not there. -/
structure Ledger.Unused (L : Ledger) (p : Path) : Prop where
  free : L.world.disk.out (tempTarget p) = none
  apart : ∀ c ∈ L.created, ¬ c.Owns p ∧ ¬ c.Owns (tempTarget p)

/-- A request does not resolve to a file in use. -/
def Call.Apart (L : Ledger) : Call → Prop
  | .create env places q => ∀ p, q.resolved env places L.world.disk = .ok p → L.Unused p
  | .operate _ => True

/-- The tasks a call downloads: the one it names, or those the queue selects. -/
def Call.Runs (L : Ledger) (t : CreatedTask) : Call → Prop
  | .operate (.download _ id) => t.task.id = id
  | .operate (.queue r) => ∃ l, selected r L.world = some l ∧ ∃ u ∈ l, u.id = t.task.id
  | _ => False

/-- Wherever the call puts, replaces or removes a file, it is one of a task that it runs. The file
was not there when the task was created, and no other task of the sequence owns, or ever produced,
a file at that path. -/
def Call.Spares (L : Ledger) (c : Call) : Prop :=
  ∀ p, (c.step L).world.disk.out p ≠ L.world.disk.out p →
    ∃ t ∈ L.created, c.Runs L t ∧ t.Owns p ∧ t.before p = none ∧ ∀ u ∈ L.created, u.Owns p → u = t

variable {env : Env} {places : Places} {q : CreateTaskRequest} {w w' : World} {L : Ledger} {p : Path} {t : DownloadTask}

/-! ## Creation -/

/-- The files and the saves are the same. -/
structure SameStore (w w' : World) : Prop where
  disk : w'.disk = w.disk
  saved : ∀ t, .saved t ∈ w'.log ↔ .saved t ∈ w.log

theorem SameStore.refl : SameStore w w := ⟨rfl, fun _ => Iff.rfl⟩

theorem SameStore.ticked (h : SameStore w w') {n : Nat} : SameStore w { w' with tick := n } := ⟨h.disk, h.saved⟩

theorem SameStore.assigned (h : SameStore w w') {id : TaskId} {st : TaskStatus} :
    SameStore w (w'.record (.assigned id st)) :=
  ⟨h.disk, fun t => by simpa [World.record] using h.saved t⟩

/-- An operation without effect. -/
theorem fileOp_sameStore {e : Exn} : Keeps (SameStore w) (fileOp env id (fun _ d => d) e) := fun _ h =>
  wp_fileOp (fun _ => h.ticked) (fun _ _ => h.ticked) (fun _ _ => h.ticked)

theorem ensureDirectories_sameStore : Keeps (SameStore w) (ensureDirectories env) := by
  unfold ensureDirectories
  exact fileOp_sameStore.bind fun _ => fileOp_sameStore.bind fun _ => fileOp_sameStore.bind fun _ => fileOp_sameStore

theorem resolveOutputPath_wp {w₁ : World} (h : SameStore w w₁) :
    wp (resolveOutputPath env places q.outputPath q.name q.forceOverwrite)
      (fun p w' => SameStore w w' ∧ q.resolved env places w.disk = .ok p) (fun _ => SameStore w) (SameStore w) w₁ := by
  unfold resolveOutputPath
  rw [wp_bind]
  refine wp_mono (ensureDirectories_sameStore w₁ h) (fun _ w₂ h₂ => ?_) (fun _ _ h => h) (fun _ h => h)
  rw [wp_bind, wp_get, wp_bind]
  refine wp_ofExcept (fun target htarget => ?_) fun _ _ => h₂
  rw [wp_bind]
  refine wp_mono (fileOp_sameStore w₂ h₂) (fun _ w₃ h₃ => ?_) (fun _ _ h => h) (fun _ h => h)
  rw [wp_bind, wp_get]
  refine wp_ofExcept (fun p hp => ⟨h₃, ?_⟩) fun _ _ => h₃
  rw [h₂.disk] at htarget
  rw [h₃.disk] at hp
  rw [CreateTaskRequest.resolved, htarget]
  exact hp

/-- A task that is created is saved, and nothing else is. -/
theorem createRequested_wp :
    wp (createRequested env places q)
      (fun t w' => q.resolved env places w.disk = .ok t.targetPath ∧ t.chunks = [] ∧ ∃ w₁, SameStore w w₁ ∧
        w' = w₁.saveTask t)
      (fun _ => SameStore w) (SameStore w) w := by
  unfold createRequested
  rw [wp_bind]
  refine wp_ofExcept (fun _ _ => ?_) fun _ _ => .refl
  rw [wp_bind]
  refine wp_mono (ensureDirectories_sameStore w .refl) (fun _ w₁ h₁ => ?_) (fun _ _ h => h) (fun _ h => h)
  rw [wp_bind]
  refine wp_ofExcept (fun _ _ => ?_) fun _ _ => h₁
  rw [wp_bind]
  refine wp_mono (resolveOutputPath_wp h₁) ?_ (fun _ _ h => h) (fun _ h => h)
  rintro target w₂ ⟨h₂, hresolved⟩
  unfold createTask ensureTaskTempDir
  rw [wp_bind]
  refine wp_mono (fileOp_sameStore w₂ h₂) (fun _ w₃ h₃ => ?_) (fun _ _ h => h) (fun _ h => h)
  rw [wp_bind, wp_modify, wp_bind]
  exact wp_saveTask (fun _ => ⟨hresolved, rfl, _, h₃.assigned.ticked, rfl⟩) (fun _ _ => h₃.assigned.ticked) fun _ _ =>
    h₃.assigned.ticked

/-! ## The tasks of a ledger -/

/-- It is a version of a created task. -/
def Ledger.Targets (created : List CreatedTask) (t : DownloadTask) : Prop :=
  ∃ c ∈ created, t.id = c.task.id ∧ t.targetPath = c.task.targetPath

/-- No two tasks share a file, and none of a task's files was there before it. -/
structure Ledger.Apart (L : Ledger) : Prop where
  filed : Filed (Ledger.Targets L.created) L.world
  coherent : L.world.disk.Coherent
  apart : L.created.Pairwise fun c d => ∀ p, c.Owns p → ¬ d.Owns p
  fresh : ∀ c ∈ L.created, ∀ p, c.Owns p → c.before p = none

theorem Filed.sameStore {P : DownloadTask → Prop} (h : Filed P w) (hw : SameStore w w') : Filed P w' := by
  refine ⟨fun t ht => h.saved t ((hw.saved t).1 ht), fun id x hx => ?_⟩
  rw [hw.disk] at hx
  obtain ⟨t, hxt, hid, hsaved⟩ := h.stored id x hx
  exact ⟨t, hxt, hid, (hw.saved t).2 hsaved⟩

theorem Filed.mono {P R : DownloadTask → Prop} (h : Filed P w) (hPR : ∀ t, P t → R t) : Filed R w :=
  ⟨fun t ht => (h.saved t ht).imp id (hPR t), h.stored⟩

theorem Ledger.Targets.origin {created : List CreatedTask} {t t' : DownloadTask} (ht : t.SameOrigin t')
    (h : Ledger.Targets created t) : Ledger.Targets created t' := by
  obtain ⟨c, hc, hid, htarget⟩ := h
  exact ⟨c, hc, ht.1.trans hid, ht.2.2.1.trans htarget⟩

/-- Only files of tasks of `P` may differ from those in `w₀`, and paths of one file agree. -/
structure Within (P : DownloadTask → Prop) (w₀ w : World) : Prop where
  out : ∀ p, (∀ t, P t → ¬ OneFile p t.targetPath ∧ ¬ OneFile p (tempTarget t.targetPath)) →
    w.disk.out p = w₀.disk.out p
  coherent : w.disk.Coherent

/-- Sessions on tasks of `P` write to their files only. -/
theorem within_rule {P : DownloadTask → Prop} (horigin : ∀ t t' : DownloadTask, t.SameOrigin t' → P t → P t')
    (w₀ : World) :
    JobRule (Within P w₀) P where
  origin := horigin
  tick _ _ h := ⟨h.out, h.coherent⟩
  parts _ _ h := ⟨h.out, h.coherent⟩
  logged _ _ _ h := ⟨h.out, h.coherent⟩
  saved _ _ _ _ h := ⟨h.out, h.coherent⟩
  out _ _ t hw ht h :=
    ⟨fun p hp => (hw.out p (hp t ht).1 (hp t ht).2).trans (h.out p hp), hw.coherent h.coherent⟩

theorem Within.refl {P : DownloadTask → Prop} (h : w.disk.Coherent) : Within P w w := ⟨fun _ _ => rfl, h⟩

/-! ## Operations that write no output file -/

theorem out_saveTask {out : Path → Option Bytes} : Keeps (fun w : World => w.disk.out = out)
    (saveTask env t) := fun _ h =>
  wp_saveTask (fun _ => h) (fun _ _ => h) fun _ _ => h

theorem out_pauseTask {out : Path → Option Bytes} {id : TaskId} (h : w.disk.out = out) :
    wp (pauseTask env id) (fun _ w' => w'.disk.out = out) (fun _ w' => w'.disk.out = out)
      (fun w' => w'.disk.out = out) w := by
  unfold pauseTask
  rw [wp_bind]
  refine wp_loadTask (fun t _ => ?_) fun _ => h
  split
  · exact h
  · rw [wp_bind, wp_modify]
    exact out_saveTask _ h

theorem out_removeTask {out : Path → Option Bytes} {id : TaskId} (h : w.disk.out = out) :
    wp (removeTask env id) (fun _ w' => w'.disk.out = out) (fun _ w' => w'.disk.out = out)
      (fun w' => w'.disk.out = out) w := by
  have hdrop : ∀ g : TaskFiles → TaskFiles,
      Keeps (fun w : World => w.disk.out = out)
        (ignoringErrors (filesOp env.fault id g (fun _ d => d) .fileSystemError "remove")) :=
    fun g => dropFile_keeps (fun _ _ h => h) fun _ h => h
  unfold removeTask
  rw [wp_bind]
  refine wp_loadTask (fun t _ => ?_) fun _ => h
  rw [wp_bind, wp_modify]
  refine (out_saveTask.bind fun _ => KeepsOr.bind ?_ fun _ => ?_) _ h
  · unfold removeTaskFiles
    exact (hdrop _).bind fun _ => (hdrop _).bind fun _ => hdrop _
  · unfold removeTaskTempDir
    split
    · exact KeepsOr.throw _
    · exact fun _ h => wp_fileOp (fun _ => h) (fun _ _ => h) fun _ _ => h

theorem out_recoverLoop {out : Path → Option Bytes} : ∀ ts : List DownloadTask,
    Keeps (fun w : World => w.disk.out = out) (recoverLoop env ts)
  | [] => KeepsOr.pure _
  | t :: ts => by
    have hrest : Keeps (fun w : World => w.disk.out = out) (recoverLoop env ts) := out_recoverLoop ts
    unfold recoverLoop
    split
    · exact hrest.bind fun _ => KeepsOr.pure _
    · intro w h
      rw [wp_bind]
      refine wp_mono (repairFromDisk_wp t w) ?_ (fun _ _ hw => hw.out.trans h) (fun _ hw => hw.out.trans h)
      rintro t' _ ⟨w₁, hw₁, -, rfl⟩
      have hout : (w₁.noted t t').disk.out = out := by rw [noted_disk, hw₁.out, h]
      exact (out_saveTask.bind fun _ => hrest.bind fun _ => KeepsOr.pure _) _ hout

theorem out_recoverTasks {out : Path → Option Bytes} (scan : List TaskId) :
    Keeps (fun w : World => w.disk.out = out) (recoverTasks env scan) := by
  unfold recoverTasks
  exact KeepsOr.get_bind fun w => out_recoverLoop _

/-! ## Calls -/

/-- What a creation does to the ledger. -/
theorem create_cases (env : Env) (places : Places) (q : CreateTaskRequest) (L : Ledger) :
    (∃ w', SameStore L.world w' ∧ (Call.create env places q).step L = { L with world := w' }) ∨
      ∃ t w₁, q.resolved env places L.world.disk = .ok t.targetPath ∧ t.chunks = [] ∧ SameStore L.world w₁ ∧
        (Call.create env places q).step L =
          { world := w₁.saveTask t, created := ⟨t, L.world.disk.out⟩ :: L.created } := by
  have hwp : wp (createRequested env places q) _ _ _ L.world := createRequested_wp
  rcases hrun : (createRequested env places q).run L.world with ⟨t | e | _, w'⟩
  · right
    obtain ⟨hresolved, hchunks, w₁, hw₁, rfl⟩ := (wp_of_ok hrun).1 hwp
    exact ⟨t, w₁, hresolved, hchunks, hw₁, by simp [Call.step, createdTask, hrun]⟩
  · exact .inl ⟨w', (wp_of_thrown hrun).1 hwp, by simp [Call.step, createdTask, hrun]⟩
  · exact .inl ⟨w', (wp_of_stopped hrun).1 hwp, by simp [Call.step, createdTask, hrun]⟩

/-- A new task on an unused path. -/
theorem Ledger.Apart.create (h : L.Apart) {w₁ : World} (hw : SameStore L.world w₁) (hchunks : t.chunks = [])
    (hfree : L.world.disk.out t.targetPath = none) (hunused : L.Unused t.targetPath) :
    Ledger.Apart { world := w₁.saveTask t, created := ⟨t, L.world.disk.out⟩ :: L.created } := by
  refine ⟨?_, ?_, List.pairwise_cons.2 ⟨fun d hd p hp hdp => ?_, h.apart⟩, fun c hc p hp => ?_⟩
  · have hnew : Ledger.Targets (⟨t, L.world.disk.out⟩ :: L.created) t := ⟨_, List.mem_cons_self, rfl, rfl⟩
    refine ((h.filed.sameStore hw).mono fun u hu => ?_).save ⟨.inl hchunks, hnew⟩
    obtain ⟨c, hc, hct⟩ := hu
    exact ⟨c, List.mem_cons_of_mem _ hc, hct⟩
  · have hcoherent := h.coherent
    rw [← hw.disk] at hcoherent
    exact hcoherent
  · rcases hp with hp | hp
    · exact (hunused.apart d hd).1 (hdp.imp hp.symm.trans hp.symm.trans)
    · exact (hunused.apart d hd).2 (hdp.imp hp.symm.trans hp.symm.trans)
  · rcases List.mem_cons.1 hc with rfl | hc
    · rcases hp with hp | hp
      · exact (h.coherent _ _ hp).trans hfree
      · exact (h.coherent _ _ hp).trans hunused.free
    · exact h.fresh c hc p hp

/-- A version of a task that the operation runs. -/
def RunTarget (L : Ledger) (op : Operation) (t : DownloadTask) : Prop :=
  ∃ c ∈ L.created, (Call.operate op).Runs L c ∧ t.id = c.task.id ∧ t.targetPath = c.task.targetPath

theorem RunTarget.origin {op : Operation} {t t' : DownloadTask} (ht : t.SameOrigin t') (h : RunTarget L op t) :
    RunTarget L op t' := by
  obtain ⟨c, hc, hruns, hid, htarget⟩ := h
  exact ⟨c, hc, hruns, ht.1.trans hid, ht.2.2.1.trans htarget⟩

theorem within_queue (h : L.Apart) (r : QueueRun) :
    Within (RunTarget L (.queue r)) L.world ((Operation.queue r).step L.world) := by
  have hout : wp (recoverTasks r.recover r.scan) _ _ _ L.world := out_recoverTasks r.scan L.world rfl
  have hfiled : wp (recoverTasks r.recover r.scan) _ _ _ L.world :=
    recoverTasks_keeps (filed_rule fun _ _ ht h => h.origin ht) r.scan L.world h.filed
  have hsame : ∀ {w : World}, w.disk.out = L.world.disk.out → Within (RunTarget L (.queue r)) L.world w := fun hw => by
    refine ⟨fun p _ => by rw [hw], ?_⟩
    have hcoherent := h.coherent
    unfold Disk.Coherent
    rw [hw]
    exact hcoherent
  refine wp_const.1 (show wp (runQueuedTasks r) _ _ _ L.world from ?_)
  unfold runQueuedTasks
  rw [wp_bind]
  rcases hrun : (recoverTasks r.recover r.scan).run L.world with ⟨ts | e | _, w₁⟩
  · rw [wp_of_ok hrun] at hout hfiled ⊢
    rw [wp_bind, wp_get]
    refine ((KeepsOr.ofExcept _).bind fun _ => (runRunnable_keeps (within_rule (fun _ _ ht h => h.origin ht) L.world)
      fun t ht => ?_).bind fun _ => KeepsOr.pure _) w₁ (hsame hout)
    have hselected : selected r L.world =
        some ((w₁.disk.loadAllTasks r.recover r.scanAgain).filter (fun t => runnableStatus t.status)) := by
      simp only [selected, hrun]
    obtain ⟨hlisted, hst⟩ := List.mem_filter.1 ht
    obtain ⟨hlaid, c, hc, hid, htarget⟩ :=
      (filed_rule fun _ _ ht h => h.origin ht).loadsAll hfiled hlisted (uncorrupted_of_runnable hst)
    exact ⟨hlaid, c, hc, ⟨_, hselected, t, ht, hid⟩, hid, htarget⟩
  · rw [wp_of_thrown hrun] at hout ⊢
    exact hsame hout
  · rw [wp_of_stopped hrun] at hout ⊢
    exact hsame hout

/-- An operation on the tasks of the ledger. -/
theorem Ledger.Apart.within (h : L.Apart) {op : Operation} (hop : (Call.operate op).Unforced) :
    Within (RunTarget L op) L.world (op.step L.world) := by
  have hsame : ∀ {w : World}, w.disk.out = L.world.disk.out → Within (RunTarget L op) L.world w := fun hw => by
    refine ⟨fun p _ => by rw [hw], ?_⟩
    have hcoherent := h.coherent
    unfold Disk.Coherent
    rw [hw]
    exact hcoherent
  cases op with
  | create env r => exact hop.elim
  | download env id =>
    refine wp_const.1 (downloadStored_keeps (within_rule (fun _ _ ht h => h.origin ht) L.world) (fun t hload => ?_)
      (.refl h.coherent))
    obtain ⟨hname, hlaid, c, hc, hid, htarget⟩ := h.filed.job hload
    exact ⟨hlaid, c, hc, hid.symm.trans hname, hid, htarget⟩
  | pause env id => exact hsame (wp_const.1 (out_pauseTask rfl))
  | remove env id => exact hsame (wp_const.1 (out_removeTask rfl))
  | recover env scan => exact hsame ((out_recoverTasks scan).run L.world rfl)
  | queue r => exact within_queue h r

theorem Ledger.Apart.operate (h : L.Apart) {op : Operation} (hop : (Call.operate op).Unforced) :
    Filed (Ledger.Targets L.created) (op.step L.world) := by
  refine (filed_rule fun _ _ ht h => h.origin ht).step ?_ h.filed
  cases op with
  | create env r => exact hop.elim
  | _ => trivial

theorem Call.apart_step (h : L.Apart) {c : Call} (hunforced : c.Unforced) (hapart : c.Apart L) : (c.step L).Apart := by
  cases c with
  | create env places q =>
    obtain ⟨w', hw', hstep⟩ | ⟨t, w₁, hresolved, hchunks, hw₁, hstep⟩ := create_cases env places q L
    · rw [hstep]
      have hcoherent := h.coherent
      rw [← hw'.disk] at hcoherent
      exact ⟨h.filed.sameStore hw', hcoherent, h.apart, h.fresh⟩
    · rw [hstep]
      exact h.create hw₁ hchunks (resolved_free hunforced hresolved) (hapart _ hresolved)
  | operate op => exact ⟨h.operate hunforced, (h.within hunforced).coherent, h.apart, h.fresh⟩

/-- Two tasks of the ledger that own a file are one. -/
theorem Ledger.Apart.owner (h : L.Apart) {c d : CreatedTask} (hc : c ∈ L.created) (hd : d ∈ L.created) (hcp : c.Owns p)
    (hdp : d.Owns p) : d = c := by
  by_contra hne
  have hsymm : Std.Symm fun c d : CreatedTask => ∀ p, c.Owns p → ¬ d.Owns p := ⟨fun c d hcd p hdp hcp => hcd p hcp hdp⟩
  exact h.apart.forall hd hc hne p hdp hcp

theorem Call.spares (h : L.Apart) {c : Call} (hunforced : c.Unforced) : c.Spares L := by
  intro p hchanged
  cases c with
  | create env places q =>
    obtain ⟨w', hw', hstep⟩ | ⟨t, w₁, -, -, hw₁, hstep⟩ := create_cases env places q L
    · rw [hstep, hw'.disk] at hchanged
      exact absurd rfl hchanged
    · rw [hstep] at hchanged
      have hsame : (w₁.saveTask t).disk.out = L.world.disk.out := by rw [← hw₁.disk]; rfl
      rw [hsame] at hchanged
      exact absurd rfl hchanged
  | operate op =>
    have howner : ∃ c ∈ L.created, (Call.operate op).Runs L c ∧ c.Owns p := by
      by_contra hnone
      push Not at hnone
      refine hchanged ((h.within hunforced).out p ?_)
      rintro t ⟨c, hc, hruns, -, htarget⟩
      rw [htarget]
      exact not_or.1 (hnone c hc hruns)
    obtain ⟨c, hc, hruns, hcp⟩ := howner
    exact ⟨c, hc, hruns, hcp, h.fresh c hc p hcp, fun u hu hup => h.owner hc hu hcp hup⟩

/-! ## Runs -/

/-- No two tasks complete onto the same file. -/
def Ledger.Distinct (L : Ledger) : Prop := L.created.Pairwise fun c d => ¬ OneFile c.task.targetPath d.task.targetPath

/-- In every run of creations without force, of downloads and of all other operations, in
which no request resolves to a file that an earlier task uses or whose temp file is there: a call
changes files of the tasks it runs only, which were not there when the task was created and
are of no other task of the sequence, and no two tasks have the same target. -/
theorem unforced_calls_spare (parts out : Path → Option Bytes) (hout : ∀ p q, OneFile p q → out p = out q)
    (calls : List Call)
    (h : GuardedRun Call.step (fun L c => c.Unforced ∧ c.Apart L) { world := .fresh parts out } calls) :
    GuardedRun Call.step (fun L c => c.Spares L) { world := .fresh parts out } calls ∧
      (calls.foldl Call.step { world := .fresh parts out }).Distinct := by
  have hstart : Ledger.Apart { world := .fresh parts out } := ⟨Filed.fresh, hout, .nil, by simp⟩
  have hstep : ∀ (L : Ledger) (c : Call), L.Apart → c.Unforced ∧ c.Apart L → (c.step L).Apart := fun L c hL hc =>
    Call.apart_step hL hc.1 hc.2
  refine ⟨GuardedRun.of_inv hstep (fun L c hL hc => Call.spares hL hc.1) hstart h, ?_⟩
  refine (GuardedRun.inv hstep hstart h).apart.imp fun {c d} hcd htarget => ?_
  exact hcd c.task.targetPath (.inl .refl) (.inl htarget)

instance (c : CreatedTask) (p : Path) : Decidable (c.Owns p) := inferInstanceAs (Decidable (_ ∨ _))

instance (L : Ledger) (p : Path) : Decidable (L.Unused p) :=
  decidable_of_iff (L.world.disk.out (tempTarget p) = none ∧ ∀ c ∈ L.created, ¬ c.Owns p ∧ ¬ c.Owns (tempTarget p))
    ⟨fun h => ⟨h.1, h.2⟩, fun h => ⟨h.free, h.apart⟩⟩

def createCall (id : TaskId) (name : Option Text) : Call :=
  .create oneByteEnv { generatedId := id } { url := text "http://a/b", fileName := name }

/-- A server whose file has changed. -/
def changedEnv : Env :=
  { oneByteEnv with
    protocol := { oneByteEnv.protocol with downloadSingle := fun _ => { blocks := [{ data := [8] }] } } }

def downloadCalls : List Call :=
  [.operate (.download oneByteEnv (text "a")), .operate (.download changedEnv (text "b"))]

/-- Two requests for different files. -/
theorem unforced_calls_spare_two :
    GuardedRun Call.step (fun L c => c.Spares L) { world := .fresh (fun _ => none) fun _ => none }
        (createCall (text "a") none :: createCall (text "b") (some (text "c")) :: downloadCalls) ∧
      Ledger.Distinct ((createCall (text "a") none :: createCall (text "b")
        (some (text "c")) :: downloadCalls).foldl Call.step
        { world := .fresh (fun _ => none) fun _ => none }) := by
  refine unforced_calls_spare (fun _ => none) (fun _ => none) (fun _ _ _ => rfl) _
    ⟨⟨rfl, ?_⟩, ⟨rfl, ?_⟩, ⟨trivial, trivial⟩, ⟨trivial, trivial⟩, trivial⟩
  · intro p hp
    obtain rfl : text "/home/user/.cget/downloads/b" = p := Except.ok.inj (Eq.trans (by decide +kernel) hp)
    decide +kernel
  · intro p hp
    obtain rfl : text "/home/user/.cget/downloads/c" = p := Except.ok.inj (Eq.trans (by decide +kernel) hp)
    decide +kernel

/-- Two tasks for one URL are created before the first of them runs. -/
def twinCalls : List Call :=
  [createCall (text "a") none, createCall (text "b") none, .operate (.download oneByteEnv (text "a"))]

/-- The second download removes the file of the first task. -/
theorem second_download_overwrites :
    ∃ (parts out : Path → Option Bytes) (calls : List Call), (∀ c ∈ calls, c.Unforced) ∧
      ¬ GuardedRun Call.step (fun L c => c.Spares L) { world := .fresh parts out } calls ∧
      ¬ (calls.foldl Call.step { world := .fresh parts out }).Distinct := by
  refine ⟨fun _ => none, fun _ => none, twinCalls ++ [.operate (.download changedEnv (text "b"))], ?_, fun h => ?_, ?_⟩
  · simp [twinCalls, createCall, Call.Unforced]
  · obtain ⟨-, hspares, -⟩ := GuardedRun.append.1 h
    obtain ⟨t, -, -, -, -, honly⟩ := hspares (text "/home/user/.cget/downloads/b") (by decide +kernel)
    have howned : ∀ c ∈ (twinCalls.foldl Call.step { world := .fresh (fun _ => none) fun _ => none }).created,
        c.Owns (text "/home/user/.cget/downloads/b") := by decide +kernel
    have hids : (twinCalls.foldl Call.step { world := .fresh (fun _ => none) fun _ => none }).created.map (·.task.id) =
        [text "b", text "a"] := by decide +kernel
    have hsame : ∀ id ∈ (twinCalls.foldl Call.step { world := .fresh (fun _ => none) fun _ => none }).created.map
      (·.task.id),
        id = t.task.id := by
      intro id hid
      obtain ⟨c, hc, rfl⟩ := List.mem_map.1 hid
      rw [honly c hc (howned c hc)]
    rw [hids] at hsame
    have htwins : text "b" = text "a" :=
      (hsame _ List.mem_cons_self).trans (hsame _ (List.mem_cons_of_mem _ List.mem_cons_self)).symm
    exact absurd htwins (by decide +kernel)
  · unfold Ledger.Distinct
    decide +kernel

end Cget
