import Cget.Commit
import Cget.Conformance
/-!
# Removing a task

`removeTask` loads the task, commits it as Removed and deletes its main file, its backup,
its temp file and its temp directory, in this order. The commit has just moved the version
before it to the backup, so a crash between the first two deletions brings that version back.
-/

namespace Cget

open Prog

variable {env : Env} {w w' : World} {t u : DownloadTask} {id : TaskId}

/-! ## A removed task in `downloadTask` -/

/-- A server whose transfers fail at once. -/
def Protocol.refusing : Protocol where
  fetchMetadata _ := .ok {}
  downloadRange _ _ _ _ := { result := .error (.other []) }
  downloadSingle _ := { result := .error (.other []) }

def refusingEnv : Env := { protocol := .refusing }

/-- The request of a single stream is made, and refused. -/
theorem refused_single (s : Session) :
    wp (transferSingleStream refusingEnv {}) (fun _ _ => False)
      (fun _ s' => .requested s.task.id .single ∈ s'.world.log) (fun _ => False) s := by
  simp [transferSingleStream, ensureTaskTempDir, truncateFile, onWorld, fileOp, wp_operation, refusingEnv, persistTask,
    saveTask, Protocol.refusing, receiveSingle, World.saveTask, Session.record, World.record]

/-- `downloadTask` has no check for Removed: a transfer begins. -/
theorem removed_task_transfers (ht : t.status = .removed) (w : World) :
    .requested t.id .single ∈ ((downloadTask refusingEnv).run { world := w, task := t }).2.world.log := by
  refine (wp_const (I := fun s : Session => .requested t.id .single ∈ s.world.log)).1 ?_
  simp only [downloadTask, wp_bind, wp_get, ht, setStatus, onWorld]
  rw [if_neg (by decide), if_neg (by decide)]
  simp only [wp_bind, wp_get, wp_modify, wp_focus]
  refine wp_saveTask (fun _ => ?_) (fun _ h => by cases h) (fun _ h => by cases h)
  refine wp_withEngine (fun _ h => by cases h) ?_
  simp only [download, wp_tryCatch, transfer, wp_bind]
  refine wp_beginTask (fun _ => ?_) (fun _ h => by cases h) (fun _ h => by cases h)
  refine wp_fetchMetadata (fun _ h => by cases h) (fun info h => ?_)
  cases h
  simp only [wp_get]
  rw [if_neg (by simp [metadataChanged, Session.record])]
  simp only [transferFrom, wp_bind, wp_updateTask]
  refine wp_persistTask (fun _ => ?_) (fun _ h => by cases h) (fun _ h => by cases h)
  simp only [wp_get]
  rw [if_neg (by simp [ranged]), wp_bind]
  refine wp_mono (refused_single _) (fun _ _ h => h.elim) (fun e s' h => ?_) (fun _ h => h.elim)
  exact wp_failWith (fun _ _ => List.mem_cons_of_mem _ (List.mem_cons_of_mem _ h)) (fun _ _ _ h => by cases h)
    (fun _ _ _ h => by cases h)

/-! ## The deletions -/

/-- What the deletions from operation `n` on leave of the main file and the backup. -/
structure Deletes (f : Nat → Fault) (n : Nat) (d d' : TaskFiles) : Prop where
  main : d'.main = if f n = .ok then none else d.main
  bak : f n = .ok → d'.bak = if f (n + 1) = .ok then none else d.bak

theorem removeTaskFiles_deletes (env : Env) (id : TaskId) (w : World) :
    wp (removeTaskFiles env id) (fun _ w' => Deletes env.fault w.tick (w.files id) (w'.files id) ∧ w'.tick = w.tick + 3)
      (fun _ _ => False) (fun w' => Deletes env.fault w.tick (w.files id) (w'.files id)) w := by
  simp only [removeTaskFiles, wp_bind, ignoringErrors, wp_tryCatch, filesOp, wp_operation, wp_pure]
  cases h0 : env.fault w.tick <;> cases h1 : env.fault (w.tick + 1) <;> cases h2 : env.fault (w.tick + 2) <;>
    simp [h1, h2] <;> constructor <;> simp [h0, h1]

/-- The temp directory is not among the files of the store. -/
theorem removeTaskTempDir_files (env : Env) (id n : TaskId) (w : World) :
    (((removeTaskTempDir env id).run w).2.files n) = w.files n := by
  refine (wp_const (I := fun w' : World => w'.files n = w.files n)).1 ?_
  unfold removeTaskTempDir
  split
  · rfl
  · exact wp_fileOp (fun _ => rfl) (fun _ _ => rfl) fun _ _ => rfl

/-- The world after the commit of `removeTask`. -/
def World.removing (env : Env) (id : TaskId) (t : DownloadTask) (w : World) : World :=
  ({ w.record (.assigned id .removed) with tick := w.tick + 1 } : World).saveTask (removedTask env t)

/-- Once the commit went through, `removeTask` is its deletions. -/
theorem removeTask_commits (hload : w.disk.loadTask id = some t) (hsaved : env.saveFault w.tick = .ok) :
    (removeTask env id).run w = (removeTaskFiles env id >>= fun _ => removeTaskTempDir env id).run
      (w.removing env id t) := by
  have hloaded : (loadTask id).run w = (.ok t, w) := by
    simp only [loadTask, run_bind_ok (rfl : (get : Prog World Exn World).run w = (.ok w, w)), hload]
    rfl
  have hrecorded : (modify (·.record (.assigned id .removed)) : Prog World Exn PUnit).run w =
      (.ok ⟨⟩, w.record (.assigned id .removed)) := rfl
  have hcommitted : (saveTask env (removedTask env t)).run (w.record (.assigned id .removed)) =
      (.ok (), w.removing env id t) := by
    simp only [saveTask, operation, World.record, hsaved]
    rfl
  rw [removeTask, run_bind_ok hloaded, run_bind_ok hrecorded, run_bind_ok hcommitted]

theorem removing_files (htask : t.id = id) :
    (w.removing env id t).files id = (w.files id).commit (.written (removedTask env t)) := by
  have hid : (removedTask env t).id = id := htask
  simp only [World.removing, World.files, World.saveTask, hid, Function.update_self]
  rfl

/-- The removed version passes the loader's check as the loaded one did. -/
theorem removedTask_loads (env : Env) (hload : w.disk.loadTask id = some t) :
    taskFromJson (.written (removedTask env t)) = some (removedTask env t) := by
  have hfits : ∀ c ∈ t.chunks, c.start ≤ c.stop ∧ c.downloaded ≤ c.size := load_fits hload
  exact taskFromJson_written hfits

/-! ## After a crash -/

/-- The task loads as Removed or not at all, and no `downloadTask` starts a transfer of it. -/
def StaysRemoved (id : TaskId) (w : World) : Prop :=
  ∀ t, w.disk.loadTask id = some t → t.status = .removed ∧
    ∀ (env : Env) (r : Request), .requested t.id r ∉
      ((downloadTask env).run { world := { w with log := [] }, task := t }).2.world.log

theorem staysRemoved_iff : StaysRemoved id w ↔ w.disk.loadTask id = none := by
  constructor
  · intro hstays
    by_contra hne
    obtain ⟨t, ht⟩ := Option.ne_none_iff_exists'.1 hne
    obtain ⟨hremoved, hno⟩ := hstays t ht
    exact hno refusingEnv .single (removed_task_transfers hremoved _)
  · intro hnone t ht
    rw [hnone] at ht
    cases ht

/-- The main file is there and does not load. -/
def TaskFiles.Corrupt (d : TaskFiles) : Prop := d.main.isSome ∧ d.main.bind taskFromJson = none

/-- The backup of the commit is the version before it, and loads if that did. -/
theorem commit_backup {d : TaskFiles} {x : TaskText} (hload : d.load = some t) :
    (d.commit x).bak.bind taskFromJson = none ↔ d.Corrupt := by
  cases hm : d.main with
  | none =>
    have hbak : d.bak.bind taskFromJson = some t := by rw [← hload, load_backup (by simp [hm])]
    simp [TaskFiles.commit, TaskFiles.Corrupt, hm, hbak]
  | some y => simp [TaskFiles.commit, TaskFiles.Corrupt, hm]

/-- However a removal ends once its commit went through, the task stays removed if and only
if its main file was deleted and so was the backup, unless that holds a corrupted version. -/
theorem removal_stays_iff (hload : w.disk.loadTask id = some t) (htask : t.id = id)
    (hsaved : env.saveFault w.tick = .ok) :
    StaysRemoved id ((removeTask env id).run w).2 ↔
      env.fault (w.tick + 1) = .ok ∧ (env.fault (w.tick + 2) = .ok ∨ (w.files id).Corrupt) := by
  obtain ⟨hmain, hbak⟩ : Deletes env.fault (w.tick + 1) ((w.files id).commit (.written (removedTask env t)))
      (((removeTask env id).run w).2.files id) := by
    rw [← removing_files htask, removeTask_commits hload hsaved]
    refine (wp_const (I := fun w' : World => Deletes env.fault (w.tick + 1) ((w.removing env id t).files id)
      (w'.files id))).1 ?_
    rw [wp_bind]
    refine wp_mono (removeTaskFiles_deletes env id _) (fun _ w₁ h => ?_) (fun _ _ h => h.elim) fun _ h => h
    rw [wp_const, removeTaskTempDir_files]
    exact h.1
  rw [staysRemoved_iff]
  change (((removeTask env id).run w).2.files id).load = none ↔ _
  by_cases hfirst : env.fault (w.tick + 1) = .ok
  · rw [if_pos hfirst] at hmain
    rw [load_backup (by simp [hmain]), hbak hfirst]
    split
    · rename_i hsecond
      exact iff_of_true rfl ⟨hfirst, .inl hsecond⟩
    · rename_i hsecond
      rw [commit_backup (d := w.files id) hload]
      exact ⟨fun hc => ⟨hfirst, .inr hc⟩, fun ⟨_, hc⟩ => hc.resolve_left hsecond⟩
  · rw [if_neg hfirst] at hmain
    rw [load_readable (by simp [hmain, TaskFiles.commit]) (removedTask_loads env hload)]
    simp [hfirst]

/-- A task `a` that was saved twice. -/
def savedTwice : World :=
  ({} : World).onFiles (text "a") fun _ =>
  { main := some (.written { id := text "a" }), bak := some (.written { id := text "a" }) }

/-- A crash at operation `n`. -/
def crashingAt (n : Nat) : Env := { protocol := .silent, fault := fun m => if m = n then .crash 0 else .ok }

/-- A crash before the temp file is deleted comes too late to bring the task back. -/
theorem removal_stays_after_two :
    StaysRemoved (text "a") ((removeTask (crashingAt 3) (text "a")).run savedTwice).2 :=
  (removal_stays_iff (t := { id := text "a" }) (by decide) rfl rfl).2 ⟨rfl, .inl rfl⟩

/-- A crash between the main file and the backup: the task is back as it was before. -/
theorem removal_comes_back :
    ¬StaysRemoved (text "a") ((removeTask (crashingAt 2) (text "a")).run savedTwice).2 := by
  intro hstays
  have hload : ((removeTask (crashingAt 2) (text "a")).run savedTwice).2.disk.loadTask (text "a") =
      some { id := text "a" } := by decide
  exact absurd (hstays _ hload).1 (by decide)

/-! ## Removing what is listed -/

/-- A path in the task's temp directory. -/
def InTempDir (env : Env) (id : TaskId) (p : Path) : Prop := (joinPath (taskTempDir env id) []).isPrefixOf p

/-- The store lists `id`. -/
def Lists (d : Disk) (id : TaskId) : Prop :=
  ∃ (env : Env) (scan : List TaskId), ∃ u ∈ d.loadAllTasks env scan, u.id = id

/-- What a removal is to leave: nothing of the task, and all of the others. -/
structure Gone (env : Env) (id : TaskId) (w w' : World) : Prop where
  unlisted : ¬Lists w'.disk id
  unloadable : w'.disk.loadTask id = none
  noParts : ∀ p, InTempDir env id p → w'.disk.parts p = none
  others : ∀ n, n ≠ id → w'.files n = w.files n
  otherParts : ∀ n, n ≠ id → w.files n ≠ {} → ∀ p, InTempDir env n p → w'.disk.parts p = w.disk.parts p

/-- `removeTask` returns, and the task is gone. -/
def Removes (env : Env) (id : TaskId) (w : World) : Prop :=
  ∃ w', (removeTask env id).run w = (.ok (), w') ∧ Gone env id w w'

/-- What it takes: the task loads, no other file has a task of this id, the commit goes
through, the id is no path traversal, and no part file is in another task's temp directory too. -/
structure Removable (env : Env) (id : TaskId) (w : World) : Prop where
  loads : (w.disk.loadTask id).isSome
  alone : ∀ n u, n ≠ id → (w.files n).main.isSome → w.disk.loadTask n = some u → u.id ≠ id
  saves : env.saveFault w.tick = .ok
  safe : isPathTraversal id = false
  apart : ∀ n, n ≠ id → w.files n ≠ {} → ∀ p, InTempDir env id p → InTempDir env n p → w.disk.parts p = none

/-- An entry of the listing comes from a main file, and carries its id or that of the task in it. -/
theorem lists_iff {d : Disk} : Lists d id ↔ ∃ n, (d.tasks n).main.isSome ∧
    ((∃ u, d.loadTask n = some u ∧ u.id = id) ∨ (d.loadTask n = none ∧ n = id)) := by
  constructor
  · rintro ⟨env, scan, u, hu, hid⟩
    obtain ⟨n, -, hmain, hload | ⟨hload, rfl⟩⟩ := mem_loadAllTasks hu
    · exact ⟨n, hmain, .inl ⟨u, hload, hid⟩⟩
    · exact ⟨n, hmain, .inr ⟨hload, hid⟩⟩
  · rintro ⟨n, hmain, h⟩
    let env : Env := { protocol := .silent }
    refine ⟨env, [n], (d.loadTask n).getD (corruptedTask env n), ?_, ?_⟩
    · simp [Disk.loadAllTasks, hmain]
    · rcases h with ⟨u, hload, hid⟩ | ⟨hload, hid⟩
      · simp [hload, hid]
      · rw [hload]
        exact hid

theorem removeTaskFiles_run (hdel : ∀ n, env.fault n = .ok) (id : TaskId) (w : World) :
    (removeTaskFiles env id).run w = (.ok (), { w.onFiles id (fun _ => {}) with tick := w.tick + 3 }) := by
  have hdrop : ∀ (w : World) (g : TaskFiles → TaskFiles),
      (ignoringErrors (filesOp env.fault id g (fun _ d => d) .fileSystemError "remove")).run w =
        (.ok (), { w.onFiles id g with tick := w.tick + 1 }) := by
    intro w g
    change (Prog.tryCatch _ _).run w = _
    simp only [Prog.tryCatch, filesOp, operation, hdel]
    rfl
  rw [removeTaskFiles, run_bind_ok (hdrop _ _), run_bind_ok (hdrop _ _), hdrop]
  simp [World.onFiles]

theorem removeTaskTempDir_run (hdel : ∀ n, env.fault n = .ok) (hsafe : isPathTraversal id = false) (w : World) :
    (removeTaskTempDir env id).run w =
      (.ok (), { w with disk := w.disk.removeParts (taskTempDir env id), tick := w.tick + 1 }) := by
  simp only [removeTaskTempDir, hsafe, Bool.false_eq_true, if_false, fileOp, operation, hdel]

/-- A run of `removeTask` that returns has loaded the task, committed it and found its id safe. -/
theorem removeTask_returned (h : (removeTask env id).run w = (.ok (), w')) :
    (w.disk.loadTask id).isSome ∧ env.saveFault w.tick = .ok ∧ isPathTraversal id = false := by
  have hwp : wp (removeTask env id)
      (fun _ _ => (w.disk.loadTask id).isSome ∧ env.saveFault w.tick = .ok ∧ isPathTraversal id = false)
      (fun _ _ => True) (fun _ => True) w := by
    rw [removeTask, wp_bind]
    refine wp_loadTask (fun t hload => ?_) fun _ => trivial
    rw [wp_bind, wp_modify, wp_bind]
    refine wp_saveTask (fun hsaved => ?_) (fun _ _ => trivial) (fun _ _ => trivial)
    rw [wp_bind]
    refine wp_mono (removeTaskFiles_deletes env id _) (fun _ w₁ _ => ?_) (fun _ _ _ => trivial) (fun _ _ => trivial)
    unfold removeTaskTempDir
    split
    · exact trivial
    · rename_i hsafe
      exact wp_fileOp (fun _ => ⟨by simp [hload], hsaved, by simpa using hsafe⟩) (fun _ _ => trivial)
        (fun _ _ => trivial)
  exact (wp_of_ok h).1 hwp

/-- Without the files of `id` and its temp directory, the task is gone. -/
theorem Removable.gone (h : Removable env id w) (htasks : w'.disk.tasks = Function.update w.disk.tasks id {})
    (hin : ∀ p, InTempDir env id p → w'.disk.parts p = none)
    (hout : ∀ p, ¬InTempDir env id p → w'.disk.parts p = w.disk.parts p) : Gone env id w w' := by
  have hself : w'.disk.tasks id = {} := by rw [htasks, Function.update_self]
  have hother : ∀ n, n ≠ id → w'.disk.tasks n = w.disk.tasks n := fun n hn => by rw [htasks, Function.update_of_ne hn]
  refine ⟨fun hlists => ?_, by rw [Disk.loadTask, hself]; rfl, hin, hother, fun n hn hstored p hpn => ?_⟩
  · obtain ⟨n, hmain, hentry⟩ := lists_iff.1 hlists
    have hn : n ≠ id := by
      rintro rfl
      rw [hself] at hmain
      cases hmain
    rw [Disk.loadTask, hother n hn] at hentry
    rw [hother n hn] at hmain
    rcases hentry with ⟨u, hload, hid⟩ | ⟨-, hid⟩
    exacts [h.alone n u hn hmain hload hid, hn hid]
  · by_cases hp : InTempDir env id p
    · rw [hin p hp, h.apart n hn hstored p hp hpn]
    · exact hout p hp

/-- A removable task in the file of its id is removed. -/
theorem Removable.removes (h : Removable env id w) (hload : w.disk.loadTask id = some t) (htask : t.id = id)
    (hdel : ∀ n, env.fault n = .ok) : Removes env id w := by
  have hrun := removeTask_commits hload h.saves
  rw [run_bind_ok (removeTaskFiles_run hdel id _), removeTaskTempDir_run hdel h.safe] at hrun
  have hid : (removedTask env t).id = id := htask
  refine ⟨_, hrun, h.gone ?_ (fun p hp => if_pos hp) fun p hp => if_neg hp⟩
  simp [Disk.removeParts, World.onFiles, World.removing, World.saveTask, World.record, hid]

/-- If deletions succeed, a listed task is removed if and only if it is removable. -/
theorem listed_removed_iff (hlisted : Lists w.disk id) (hdel : ∀ n, env.fault n = .ok) :
    Removes env id w ↔ Removable env id w := by
  constructor
  · rintro ⟨w', hrun, hgone⟩
    obtain ⟨hloads, hsaves, hsafe⟩ := removeTask_returned hrun
    refine ⟨hloads, fun n u hn hmain hload hid => hgone.unlisted (lists_iff.2 ?_), hsaves, hsafe,
      fun n hn hstored p hp hpn => ?_⟩
    · have hsame : w'.disk.tasks n = w.disk.tasks n := hgone.others n hn
      refine ⟨n, by rwa [hsame], .inl ⟨u, ?_, hid⟩⟩
      rwa [Disk.loadTask, hsame]
    · rw [← hgone.otherParts n hn hstored p hpn]
      exact hgone.noParts p hp
  · intro h
    obtain ⟨t, hload⟩ := Option.isSome_iff_exists.1 h.loads
    refine h.removes hload ?_ hdel
    -- the entry is the one of the file of `id`
    obtain ⟨n, hmain, ⟨u, hu, hid⟩ | ⟨hnone, rfl⟩⟩ := lists_iff.1 hlisted
    · by_cases hn : n = id
      · subst hn
        rwa [← Option.some.inj (hu.symm.trans hload)]
      · exact absurd hid (h.alone n u hn hmain hu)
    · rw [hload] at hnone
      cases hnone

section TwoTasks

/-- Task `a`, and a file of task `b` that does not parse, each with a part file in its directory. -/
def tornNeighbour : World where
  disk :=
    { tasks := Function.update (Function.update (fun _ => {}) (text "b") { main := some .torn }) (text "a")
        { main := some (.written { id := text "a" }) }
      parts := Function.update (Function.update (fun _ => none)
        (text "/home/user/.cget/temp/a/chunk_0.part") (some [2]))
        (text "/home/user/.cget/temp/b/chunk_0.part") (some [1]) }

def workingStore : Env := { protocol := .silent }

theorem tornNeighbour_lists (h : (tornNeighbour.disk.tasks id).main.isSome)
    (hid : tornNeighbour.disk.loadTask id = none ∨ ∃ u, tornNeighbour.disk.loadTask id = some u ∧ u.id = id) :
    Lists tornNeighbour.disk id :=
  lists_iff.2 ⟨id, h, hid.symm.imp (fun h => h) fun h => ⟨h, rfl⟩⟩

/-- `a` is removed, beside a neighbour that is not. -/
theorem removes_beside_torn : Removes workingStore (text "a") tornNeighbour := by
  refine (listed_removed_iff (tornNeighbour_lists (by decide) (.inr ⟨{ id := text "a" }, by decide, rfl⟩))
    fun _ => rfl).2
    ⟨by decide, fun n u hn hmain hload => ?_, rfl, by decide, fun n hn hstored p hp hpn => ?_⟩
  · by_cases hb : n = text "b"
    · subst hb
      have hnone : tornNeighbour.disk.loadTask (text "b") = none := by decide
      rw [hnone] at hload
      cases hload
    · simp [tornNeighbour, World.files, Function.update_of_ne hn, Function.update_of_ne hb] at hmain
  · have hapart : ∀ p, InTempDir workingStore (text "b") p → p ≠ text "/home/user/.cget/temp/a/chunk_0.part" := by
      rintro _ hp rfl
      have hout : ¬(joinPath (taskTempDir workingStore (text "b")) []).isPrefixOf
          (text "/home/user/.cget/temp/a/chunk_0.part") := by decide
      exact hout hp
    have hne : p ≠ text "/home/user/.cget/temp/b/chunk_0.part" := by
      rintro rfl
      have hout : ¬(joinPath (taskTempDir workingStore (text "a")) []).isPrefixOf
          (text "/home/user/.cget/temp/b/chunk_0.part") := by decide
      exact hout hp
    -- the only other task that is stored is `b`
    obtain rfl : n = text "b" := by
      by_contra hb
      exact hstored (by simp [tornNeighbour, World.files, Function.update_of_ne hn, Function.update_of_ne hb])
    simp [tornNeighbour, Function.update_of_ne hne, Function.update_of_ne (hapart p hpn)]

/-- `b` is listed, and `removeTask` throws. -/
theorem torn_task_not_removed :
    Lists tornNeighbour.disk (text "b") ∧ (∀ n, workingStore.fault n = .ok) ∧
      ¬Removes workingStore (text "b") tornNeighbour := by
  refine ⟨tornNeighbour_lists (by decide) (.inl (by decide)), fun _ => rfl, ?_⟩
  rintro ⟨w', hrun, -⟩
  exact absurd (removeTask_returned hrun).1 (by decide)

end TwoTasks

end Cget
