import Cget.Commit
import Cget.Conformance
import Mathlib.Data.List.Dedup
/-!
# Point lookup and directory scan

`loadTask` takes a backup whose main file is missing, `loadAllTasks` looks for main files.
They agree as long as no call leaves a backup that loads without its main file, and two
steps can: the removal of the main file before its backup, and the retry of a failed rename.
-/

namespace Cget

open Prog

variable {f : Nat → Fault} {t : DownloadTask} {w : World} {d d' : TaskFiles} {id : TaskId} {n : Nat}

/-! ## Calls -/

/-- A call of the store, with the faults it meets. -/
inductive StoreCall where
  | save (env : Env) (t : DownloadTask)
  | remove (env : Env) (id : TaskId)

/-- The file whose task the call is about. -/
def StoreCall.subject : StoreCall → TaskId
  | .save _ t => t.id
  | .remove _ id => id

def StoreCall.run : StoreCall → Prog World Exn Unit
  | .save env t => saveTaskFiles env.fault t
  | .remove env id => removeTaskFiles env id

/-- What the call leaves, whether it completes, fails or crashes. -/
def StoreCall.step (w : World) (call : StoreCall) : World := (call.run.run w).2

/-! ## One task's files -/

/-- A backup without main file does not load. -/
def TaskFiles.Listed (d : TaskFiles) : Prop := d.main = none → d.bak.bind taskFromJson = none

theorem listed_iff : d.Listed ↔ (d.load.isSome → d.main.isSome) := by
  cases hm : d.main <;> simp [TaskFiles.Listed, TaskFiles.load, hm]

/-- The backup part of a save that starts at operation `n` goes through. -/
def BacksUp (f : Nat → Fault) (n : Nat) (d : TaskFiles) : Prop :=
  (f n = .ok ∨ ((∃ k, f n = .fail k) ∧ d.bak = none)) ∧ f (n + 1) = .ok

/-- The rename at operation `n` fails, and after the main file is removed it does not go through either. -/
def Unlinks (f : Nat → Fault) (n : Nat) : Prop := (∃ k, f n = .fail k) ∧ f (n + 1) = .ok ∧ f (n + 2) ≠ .ok

/-- A save leaves the old version in the backup alone. -/
def Displaces (f : Nat → Fault) (n : Nat) (d : TaskFiles) : Prop :=
  WritesTmp f n ∧ (d.main.bind taskFromJson).isSome ∧ BacksUp f (n + 3) d ∧ Unlinks f (n + 5)

/-- A removal takes the main file and leaves a backup that loads. -/
def HalfRemoves (f : Nat → Fault) (n : Nat) (d : TaskFiles) : Prop :=
  f n = .ok ∧ f (n + 1) ≠ .ok ∧ (d.bak.bind taskFromJson).isSome

theorem backupTaskFile_exact (id : TaskId) :
    wp (backupTaskFile f id)
      (fun _ w' => w'.files id = { w.files id with bak := (w.files id).main } ∧ w'.tick = w.tick + 2 ∧
        BacksUp f w.tick (w.files id))
      (fun _ w' => (w'.files id).main = (w.files id).main ∧ ¬BacksUp f w.tick (w.files id))
      (fun w' => (w'.files id).main = (w.files id).main ∧ ¬BacksUp f w.tick (w.files id)) w := by
  simp only [backupTaskFile, wp_bind, ignoringErrors, wp_tryCatch, filesOp, wp_operation, wp_pure, wp_get,
    wp_ite, wp_throw]
  cases h : f w.tick with
  | crash k => simp [BacksUp, h]
  | ok =>
    simp only [files_onFiles, files_tick, Option.isSome_none, Bool.false_eq_true, if_false, tick_onFiles]
    cases h1 : f (w.tick + 1) with
    | ok => simp [BacksUp, h, h1]
    | fail k => by_cases hk : k = 0 <;> simp [BacksUp, h1, hk]
    | crash k => by_cases hk : k = 0 <;> simp [BacksUp, h1, hk]
  | fail k =>
    simp only [files_onFiles, files_tick, tick_onFiles]
    cases hb : (w.files id).bak with
    | some x => simp [BacksUp, h, hb]
    | none =>
      simp only [Option.isSome_none, Bool.false_eq_true, if_false]
      cases h1 : f (w.tick + 1) with
      | ok => simp [BacksUp, h, h1, hb]
      | fail j => by_cases hj : j = 0 <;> simp [BacksUp, h1, hj]
      | crash j => by_cases hj : j = 0 <;> simp [BacksUp, h1, hj]

/-- What the rename step leaves of a backup, and when it leaves no main file. -/
theorem renameIntoPlace_main (id : TaskId) (htmp : (w.files id).tmp.isSome) :
    wp (renameIntoPlace f id)
      (fun _ w' => (w'.files id).bak = (w.files id).bak ∧
        ((w'.files id).main = none ↔ Unlinks f w.tick ∨ ((w.files id).main = none ∧ ¬Renames f w.tick)))
      (fun _ w' => (w'.files id).bak = (w.files id).bak ∧
        ((w'.files id).main = none ↔ Unlinks f w.tick ∨ ((w.files id).main = none ∧ ¬Renames f w.tick)))
      (fun w' => (w'.files id).bak = (w.files id).bak ∧
        ((w'.files id).main = none ↔ Unlinks f w.tick ∨ ((w.files id).main = none ∧ ¬Renames f w.tick))) w := by
  obtain ⟨x, hx⟩ := Option.isSome_iff_exists.1 htmp
  simp only [renameIntoPlace, wp_tryCatch, renameTmp, filesOp, wp_operation]
  cases h : f w.tick with
  | ok => simp [Unlinks, Renames, h, hx]
  | crash k => simp [Unlinks, Renames, h]
  | fail k =>
    simp only [wp_bind, ignoringErrors, wp_tryCatch, wp_operation, tick_onFiles]
    cases h1 : f (w.tick + 1) <;> cases h2 : f (w.tick + 2) <;> simp [Unlinks, Renames, h, h1, h2, hx]

/-- A save keeps a listed task listed, unless it displaces it. -/
theorem saveTaskFiles_listed (t : DownloadTask) (w : World) (h : (w.files t.id).Listed) :
    (((saveTaskFiles f t).run w).2.files t.id).Listed ↔ ¬Displaces f w.tick (w.files t.id) := by
  refine (wp_const (I := fun w' : World => (w'.files t.id).Listed ↔ ¬Displaces f w.tick (w.files t.id))).1 ?_
  have early : ∀ w' : World, (w'.files t.id).main = (w.files t.id).main ∧ (w'.files t.id).bak = (w.files t.id).bak ∧
      ¬WritesTmp f w.tick → ((w'.files t.id).Listed ↔ ¬Displaces f w.tick (w.files t.id)) := by
    rintro w' ⟨hm, hb, hw⟩
    refine iff_of_true ?_ fun hd => hw hd.1
    rwa [TaskFiles.Listed, hm, hb]
  simp only [saveTaskFiles, wp_bind, wp_get, wp_ite]
  refine wp_mono (writeTmpFile_wp t) ?_ (fun _ => early) early
  rintro _ w1 ⟨hf1, ht1, hw⟩
  rw [hf1]
  have hbak1 : ∀ n, BacksUp f n (w1.files t.id) ↔ BacksUp f n (w.files t.id) := by simp [BacksUp, hf1]
  cases hm : (w.files t.id).main with
  | none =>
    simp only [Option.isSome_none, Bool.false_eq_true, if_false]
    have fresh : ∀ w' : World, (w'.files t.id).bak = (w1.files t.id).bak →
        ((w'.files t.id).Listed ↔ ¬Displaces f w.tick (w.files t.id)) := by
      intro w' hb
      refine iff_of_true (fun _ => ?_) fun hd => by simpa [hm] using hd.2.1
      rw [hb, hf1]
      exact h hm
    exact wp_mono (renameIntoPlace_main t.id (by simp [hf1])) (fun _ w' h => fresh w' h.1)
      (fun _ w' h => fresh w' h.1) fun w' h => fresh w' h.1
  | some x =>
    simp only [Option.isSome_some, if_true]
    have failed : ∀ w' : World, (w'.files t.id).main = (w1.files t.id).main ∧ ¬BacksUp f w1.tick (w1.files t.id) →
        ((w'.files t.id).Listed ↔ ¬Displaces f w.tick (w.files t.id)) := by
      rintro w' ⟨hm', hb⟩
      refine iff_of_true (fun hnone => by simp [hm', hf1, hm] at hnone) fun hd => hb ?_
      rw [hbak1, ht1]
      exact hd.2.2.1
    refine wp_mono (backupTaskFile_exact t.id) ?_ (fun _ => failed) failed
    rintro _ w2 ⟨hf2, ht2, hb⟩
    rw [hbak1, ht1] at hb
    have done : ∀ w' : World, ((w'.files t.id).bak = (w2.files t.id).bak ∧
        ((w'.files t.id).main = none ↔ Unlinks f w2.tick ∨ ((w2.files t.id).main = none ∧ ¬Renames f w2.tick))) →
        ((w'.files t.id).Listed ↔ ¬Displaces f w.tick (w.files t.id)) := by
      rintro w' ⟨hb', hm'⟩
      have hx : (w2.files t.id).bak = some x := by simp [hf2, hf1, hm]
      have hunlinks : (w'.files t.id).main = none ↔ Unlinks f (w.tick + 5) := by
        rw [hm', ht2, ht1]
        simp [hf2, hf1, hm]
      rw [TaskFiles.Listed, hunlinks, hb', hx, Displaces, hm]
      cases hload : taskFromJson x <;> simp [hload, hw, hb]
    exact wp_mono (renameIntoPlace_main t.id (by simp [hf2, hf1])) (fun _ => done) (fun _ => done) done

/-- So does a removal, unless it stops halfway. -/
theorem removeTaskFiles_listed (env : Env) (id : TaskId) (w : World) (h : (w.files id).Listed) :
    (((removeTaskFiles env id).run w).2.files id).Listed ↔ ¬HalfRemoves env.fault w.tick (w.files id) := by
  refine (wp_const (I := fun w' : World => (w'.files id).Listed ↔ ¬HalfRemoves env.fault w.tick (w.files id))).1 ?_
  simp only [removeTaskFiles, wp_bind, ignoringErrors, wp_tryCatch, filesOp, wp_operation, wp_pure]
  cases h0 : env.fault w.tick <;> cases h1 : env.fault (w.tick + 1) <;> cases h2 : env.fault (w.tick + 2) <;>
    simp [TaskFiles.Listed, HalfRemoves, h0, h1, h2] <;> simpa [TaskFiles.Listed] using h

/-! ## Files in general -/

section Rules

variable {I : TaskId → TaskFiles → Prop}

theorem filesOp_keeps {full : TaskFiles → TaskFiles} {part : Nat → TaskFiles → TaskFiles} {code : ErrorCode}
    {what : String} (hfull : ∀ d, I id d → I id (full d)) (hpart : ∀ k d, I id d → I id (part k d)) :
    Keeps (fun w => ∀ n, I n (w.files n)) (filesOp f id full part code what) := by
  intro w h
  have hon : ∀ (m : Nat) (g : TaskFiles → TaskFiles), (∀ d, I id d → I id (g d)) →
      ∀ n, I n ((({ w with tick := m } : World).onFiles id g).files n) := by
    intro m g hg n
    by_cases hn : n = id
    · subst hn
      rw [files_onFiles]
      exact hg _ (h n)
    · simpa [World.files, World.onFiles, Function.update_of_ne hn] using h n
  rw [filesOp, wp_operation]
  split
  exacts [hon _ _ hfull, hon _ _ (hpart _), hon _ _ (hpart _)]

/-- Kept by everything the store does to the files of a task called `id`. -/
structure StoreClosed (id : TaskId) (I : TaskFiles → Prop) : Prop where
  tear : ∀ d, I d → I { d with tmp := some .torn }
  write : ∀ d t, t.id = id → I d → I { d with tmp := some (.written t) }
  backUp : ∀ d, I d → I { d with bak := d.main }
  tearBackup : ∀ d, I d → I { d with bak := some .torn }
  rename : ∀ d, I d → I { d with main := d.tmp, tmp := none }
  dropMain : ∀ d, I d → I { d with main := none }
  dropBackup : ∀ d, I d → I { d with bak := none }
  dropTmp : ∀ d, I d → I { d with tmp := none }

theorem ignoringErrors_keeps {J : World → Prop} {m : Prog World Exn Unit} (h : Keeps J m) :
    Keeps J (ignoringErrors m) :=
  KeepsOr.tryCatch h fun _ => KeepsOr.pure ()

theorem StoreClosed.writeTmp (h : StoreClosed t.id (I t.id)) :
    Keeps (fun w => ∀ n, I n (w.files n)) (writeTmpFile f t) := by
  unfold writeTmpFile
  refine (filesOp_keeps (fun _ hd => hd) fun _ _ hd => hd).bind fun _ => ?_
  refine (filesOp_keeps h.tear fun _ _ hd => hd).bind fun _ => ?_
  exact filesOp_keeps (fun d => h.write d t rfl) fun _ _ hd => hd

theorem StoreClosed.backup (h : StoreClosed id (I id)) : Keeps (fun w => ∀ n, I n (w.files n))
    (backupTaskFile f id) := by
  unfold backupTaskFile
  refine (ignoringErrors_keeps (filesOp_keeps h.dropBackup fun _ _ hd => hd)).bind fun _ => KeepsOr.get_bind fun w => ?_
  split
  · exact KeepsOr.throw _
  · refine filesOp_keeps h.backUp fun k d hd => ?_
    split
    exacts [hd, h.tearBackup d hd]

theorem StoreClosed.move (h : StoreClosed id (I id)) : Keeps (fun w => ∀ n, I n (w.files n))
    (renameIntoPlace f id) := by
  have hrename : Keeps (fun w => ∀ n, I n (w.files n)) (renameTmp f id) := filesOp_keeps h.rename fun _ _ hd => hd
  unfold renameIntoPlace
  refine KeepsOr.tryCatch hrename fun _ => ?_
  exact (ignoringErrors_keeps (filesOp_keeps h.dropMain fun _ _ hd => hd)).bind fun _ => hrename

theorem StoreClosed.save (h : StoreClosed t.id (I t.id)) : Keeps (fun w => ∀ n, I n (w.files n))
    (saveTaskFiles f t) := by
  unfold saveTaskFiles
  refine h.writeTmp.bind fun _ => KeepsOr.get_bind fun w => ?_
  dsimp only
  split
  exacts [h.backup.bind fun _ => h.move, h.move]

theorem StoreClosed.remove {env : Env} (h : StoreClosed id (I id)) :
    Keeps (fun w => ∀ n, I n (w.files n)) (removeTaskFiles env id) := by
  unfold removeTaskFiles
  refine (ignoringErrors_keeps (filesOp_keeps h.dropMain fun _ _ hd => hd)).bind fun _ => ?_
  refine (ignoringErrors_keeps (filesOp_keeps h.dropBackup fun _ _ hd => hd)).bind fun _ => ?_
  exact ignoringErrors_keeps (filesOp_keeps h.dropTmp fun _ _ hd => hd)

theorem StoreClosed.step {call : StoreCall} (h : StoreClosed call.subject (I call.subject))
    (hI : ∀ n, I n (w.files n)) :
    ∀ n, I n ((call.step w).files n) := by
  cases call with
  | save env t => exact Keeps.run h.save w hI
  | remove env id => exact Keeps.run h.remove w hI

end Rules

/-- A call leaves the files of the other tasks alone. -/
theorem StoreCall.step_other {call : StoreCall} (h : id ≠ call.subject) : (call.step w).files id = w.files id := by
  have hclosed : StoreClosed call.subject fun d => call.subject ≠ call.subject → d = w.files call.subject := by
    constructor <;> intros <;> contradiction
  exact StoreClosed.step (I := fun n d => n ≠ call.subject → d = w.files n) hclosed (fun _ _ => rfl) id h

/-- If it is a version of a task, it is one of the task `id`. -/
def VersionOf (id : TaskId) (x : Option TaskText) : Prop := ∀ t, x = some (.written t) → t.id = id

structure TaskFiles.Own (id : TaskId) (d : TaskFiles) : Prop where
  main : VersionOf id d.main
  bak : VersionOf id d.bak
  tmp : VersionOf id d.tmp

theorem versionOf_none : VersionOf id none := fun _ h => by cases h

theorem versionOf_torn : VersionOf id (some .torn) := fun _ h => by cases h

theorem versionOf_written (h : t.id = id) : VersionOf id (some (.written t)) := fun _ ht => by
  cases ht
  exact h

theorem own_closed (id : TaskId) : StoreClosed id (TaskFiles.Own id) where
  tear _ h := ⟨h.main, h.bak, versionOf_torn⟩
  write _ _ ht h := ⟨h.main, h.bak, versionOf_written ht⟩
  backUp _ h := ⟨h.main, h.main, h.tmp⟩
  tearBackup _ h := ⟨h.main, versionOf_torn, h.tmp⟩
  rename _ h := ⟨h.tmp, h.bak, versionOf_none⟩
  dropMain _ h := ⟨versionOf_none, h.bak, h.tmp⟩
  dropBackup _ h := ⟨h.main, versionOf_none, h.tmp⟩
  dropTmp _ h := ⟨h.main, h.bak, versionOf_none⟩

theorem TaskFiles.Own.load (h : d.Own id) (hload : d.load = some t) : t.id = id := by
  rcases load_spec hload with hm | hb
  exacts [h.main t hm, h.bak t hb]

/-! ## Runs -/

/-- The scan meets each main file once. -/
def Scans (scan : List TaskId) (d : Disk) : Prop := scan.Nodup ∧ d.ScannedBy scan

/-- The scan has exactly one entry for each task that loads, with the same contents. -/
def Agrees (env : Env) (d : Disk) : Prop :=
  ∀ scan : List TaskId, Scans scan d → ∀ id t, d.loadTask id = some t →
    (d.loadAllTasks env scan).filter (fun u => u.id = id) = [t]

/-- The call leaves no task that loads without main file. -/
def StoreCall.KeepsListed (w : World) : StoreCall → Prop
  | .save env t => ¬Displaces env.fault w.tick (w.files t.id)
  | .remove env id => ¬HalfRemoves env.fault w.tick (w.files id)

theorem step_listed {call : StoreCall} (h : ∀ id, (w.files id).Listed) :
    (∀ id, ((call.step w).files id).Listed) ↔ call.KeepsListed w := by
  have hsubject : ((call.step w).files call.subject).Listed ↔ call.KeepsListed w := by
    cases call with
    | save env t => exact saveTaskFiles_listed t w (h _)
    | remove env id => exact removeTaskFiles_listed env id w (h _)
  refine ⟨fun hall => hsubject.1 (hall _), fun hkeeps id => ?_⟩
  by_cases hid : id = call.subject
  · subst hid
    exact hsubject.2 hkeeps
  · rw [StoreCall.step_other hid]
    exact h id

/-- Under distinct keys, a key selects the one entry that has it. -/
theorem filter_key {α κ : Type} [DecidableEq κ] {key : α → κ} {a : α} {k : κ} (ha : key a = k) : ∀ {l : List α},
    (l.map key).Nodup → a ∈ l → l.filter (fun b => key b = k) = [a]
  | b :: l, hn, hmem => by
    rw [List.map_cons, List.nodup_cons] at hn
    rcases List.mem_cons.1 hmem with rfl | hmem
    · have hrest : l.filter (fun b => key b = k) = [] := by
        refine List.filter_eq_nil_iff.2 fun c hc hck => hn.1 ?_
        rw [ha, ← of_decide_eq_true hck]
        exact List.mem_map_of_mem hc
      simp [ha, hrest]
    · have hb : key b ≠ k := fun hbk => hn.1 (by rw [hbk, ← ha]; exact List.mem_map_of_mem hmem)
      simp [hb, filter_key ha hn.2 hmem]

theorem agrees_iff {env : Env} (hown : ∀ id, (w.files id).Own id) (hscan : ∃ scan, Scans scan w.disk) :
    Agrees env w.disk ↔ ∀ id, (w.files id).Listed := by
  have hnamed : ∀ id t, w.disk.loadTask id = some t → t.id = id := fun id t h => (hown id).load h
  constructor
  · intro hagree id
    rw [listed_iff]
    intro hload
    obtain ⟨t, ht⟩ := Option.isSome_iff_exists.1 hload
    obtain ⟨scan, hscan⟩ := hscan
    have hentry : t ∈ (w.disk.loadAllTasks env scan).filter (fun u => u.id = id) := by simp [hagree scan hscan id t ht]
    obtain ⟨hmem, hid⟩ := List.mem_filter.1 hentry
    have hid : t.id = id := by simpa using hid
    -- the entry comes from a main file, and under its own name
    obtain ⟨n, -, hmain, hn | ⟨hn, rfl⟩⟩ := mem_loadAllTasks hmem
    · obtain rfl : n = id := (hnamed n t hn).symm.trans hid
      exact hmain
    · obtain rfl : n = id := hid
      cases hn.symm.trans ht
  · intro hlisted scan hscan id t ht
    have hmain : (w.disk.tasks id).main.isSome := listed_iff.1 (hlisted id) (Option.isSome_iff_exists.2 ⟨t, ht⟩)
    exact filter_key (hnamed id t ht) (loadAllTasks_nodup hnamed hscan.1) (loadAllTasks_mem (hscan.2 id hmain) hmain ht)

theorem run_other {calls : List StoreCall} (h : id ∉ calls.map StoreCall.subject) :
    (calls.foldl StoreCall.step w).files id = w.files id := by
  induction calls generalizing w with
  | nil => rfl
  | cons call calls ih =>
    rw [List.map_cons, List.mem_cons, not_or] at h
    rw [List.foldl_cons, ih h.2, StoreCall.step_other h.1]

/-- All main files of a run are files the calls are about. -/
theorem run_scans {parts out : Path → Option Bytes} (calls : List StoreCall) :
    Scans (calls.map StoreCall.subject).dedup (calls.foldl StoreCall.step (World.fresh parts out)).disk := by
  refine ⟨List.nodup_dedup _, fun id hmain => List.mem_dedup.2 ?_⟩
  by_contra hid
  have hnone := run_other (w := World.fresh parts out) hid
  simp only [World.files] at hnone
  rw [hnone] at hmain
  cases hmain

/-- Lookup and scan agree in every state of a run of the store if and only if no call of it
leaves a version in the backup that has lost its main file. -/
theorem lookup_agrees_with_scan_iff (env : Env) (parts out : Path → Option Bytes) (calls : List StoreCall) :
    (∀ n, Agrees env ((calls.take n).foldl StoreCall.step (World.fresh parts out)).disk) ↔
      GuardedRun StoreCall.step (fun w call => call.KeepsListed w) (World.fresh parts out) calls := by
  have hown : ∀ (cs : List StoreCall) id, ((cs.foldl StoreCall.step (World.fresh parts out)).files id).Own id := by
    intro cs
    refine run_inv (I := fun w : World => ∀ id, (w.files id).Own id) (fun w call h => ?_) fun id => ?_
    · exact StoreClosed.step (own_closed _) h
    · exact ⟨versionOf_none, versionOf_none, versionOf_none⟩
  rw [← GuardedRun.iff_states (I := fun w : World => ∀ id, (w.files id).Listed) (fun w call h => step_listed h)
    fun id _ => rfl]
  exact forall_congr' fun n => agrees_iff (hown _) ⟨_, run_scans _⟩

/-- A task saved twice, whose removal dies between the main file and the backup. -/
def interruptedRemoval : List StoreCall :=
  [.save { protocol := .silent } { id := text "a" }, .save { protocol := .silent } { id := text "a" },
    .remove { protocol := .silent, fault := fun n => if n = 11 then .crash 0 else .ok } (text "a")]

/-- `loadTask` still finds the task, the scan does not. -/
theorem removal_hides_task :
    ¬∀ n, Agrees { protocol := .silent }
      ((interruptedRemoval.take n).foldl StoreCall.step (World.fresh (fun _ => none) fun _ => none)).disk := by
  intro h
  have hlast := h 3 [text "a"] (run_scans interruptedRemoval) (text "a") { id := text "a" } (by decide)
  revert hlast
  decide

end Cget
