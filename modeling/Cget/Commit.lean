import Cget.Persistence
/-!
# A crash or a failure while a task file is saved

`saveTask` writes `.tmp`, moves the old version to `.bak` and renames. We follow every
way it can end. With a main file that loads, or none, a following load always finds the
old task or the new one. With a corrupted main file and a good backup, the case `loadTask`
has its fallback for, the first thing the commit does is to drop that backup: from there
to the rename no version loads.
-/

namespace Cget

variable {f : Nat → Fault} {t old : DownloadTask} {w : World}

@[simp] theorem files_onFiles (id : TaskId) (g : TaskFiles → TaskFiles) :
    (w.onFiles id g).files id = g (w.files id) := by
  simp [World.files, World.onFiles]

@[simp] theorem tick_onFiles (id : TaskId) (g : TaskFiles → TaskFiles) : (w.onFiles id g).tick = w.tick := rfl

@[simp] theorem files_tick (id : TaskId) (n : Nat) : ({ w with tick := n } : World).files id = w.files id := rfl

/-- The rename at operation `n` takes place, at once or after the main file was removed. -/
def Renames (f : Nat → Fault) (n : Nat) : Prop :=
  f n = .ok ∨ (∃ k, f n = .fail k) ∧ (∀ k, f (n + 1) ≠ .crash k) ∧ f (n + 2) = .ok

/-- From operation `n` on, `saveTask` gets as far as a complete `.tmp`. -/
def WritesTmp (f : Nat → Fault) (n : Nat) : Prop := f n = .ok ∧ f (n + 1) = .ok ∧ f (n + 2) = .ok

/-- What the last two steps leave of the files `d` they start from. -/
def AfterRename (renamed : Prop) (d d' : TaskFiles) : Prop :=
  (renamed ∧ d' = { main := d.tmp, bak := d.bak, tmp := none }) ∨
    (¬ renamed ∧ d'.bak = d.bak ∧ (d'.main = d.main ∨ d'.main = none))

theorem renameIntoPlace_files (id : TaskId) :
    AfterRename (Renames f w.tick) (w.files id) (((renameIntoPlace f id).run w).2.files id) := by
  refine (Prog.wp_const (I := fun w' : World => AfterRename (Renames f w.tick) (w.files id) (w'.files id))).1 ?_
  simp only [renameIntoPlace, Prog.wp_tryCatch, renameTmp, filesOp, wp_operation]
  cases h : f w.tick with
  | ok => exact .inl ⟨.inl h, by simp⟩
  | crash k => exact .inr ⟨by simp [Renames, h], by simp, .inl (by simp)⟩
  | fail k =>
    simp only [Prog.wp_bind, ignoringErrors, Prog.wp_tryCatch, wp_operation, tick_onFiles]
    have hfirst : Renames f w.tick ↔ (∀ k, f (w.tick + 1) ≠ .crash k) ∧ f (w.tick + 2) = .ok := by
      simp [Renames, h]
    cases h1 : f (w.tick + 1) <;> cases h2 : f (w.tick + 2) <;>
      simp [AfterRename, hfirst, h1, h2]

/-- What a backup that did not go through leaves: the old one, or nothing that loads. -/
def BackupFailed (f : Nat → Fault) (n : Nat) (d d' : TaskFiles) : Prop :=
  d'.main = d.main ∧
    ((d'.bak = d.bak ∧ (d.bak.isSome → f n ≠ .ok)) ∨
      ((d'.bak = none ∨ d'.bak = some .torn) ∧ (d.bak.isSome → f n = .ok) ∧ f (n + 1) ≠ .ok))

theorem backupTaskFile_wp (id : TaskId) :
    Prog.wp (backupTaskFile f id)
      (fun _ w' => w'.files id = { w.files id with bak := (w.files id).main } ∧ w'.tick = w.tick + 2 ∧
        ((w.files id).bak.isSome → f w.tick = .ok) ∧ f (w.tick + 1) = .ok)
      (fun _ w' => BackupFailed f w.tick (w.files id) (w'.files id))
      (fun w' => BackupFailed f w.tick (w.files id) (w'.files id)) w := by
  simp only [backupTaskFile, Prog.wp_bind, ignoringErrors, Prog.wp_tryCatch, filesOp, wp_operation,
    Prog.wp_pure, Prog.wp_get, Prog.wp_ite, Prog.wp_throw]
  cases h : f w.tick with
  | crash k => exact ⟨by simp, .inl ⟨by simp, by simp [h]⟩⟩
  | ok =>
    simp only [files_onFiles, files_tick, Option.isSome_none, Bool.false_eq_true, if_false, tick_onFiles]
    cases h1 : f (w.tick + 1) with
    | ok => simp
    | fail k => by_cases hk : k = 0 <;> simp [BackupFailed, h, h1, hk]
    | crash k => by_cases hk : k = 0 <;> simp [BackupFailed, h, h1, hk]
  | fail k =>
    simp only [files_onFiles, files_tick, tick_onFiles]
    cases hb : (w.files id).bak with
    | some x => simp [BackupFailed, h, hb]
    | none =>
      simp only [Option.isSome_none, Bool.false_eq_true, if_false, false_implies]
      cases h1 : f (w.tick + 1) with
      | ok => simp
      | fail j => by_cases hj : j = 0 <;> simp [BackupFailed, hb, h1, hj]
      | crash j => by_cases hj : j = 0 <;> simp [BackupFailed, hb, h1, hj]

theorem writeTmpFile_wp (t : DownloadTask) :
    Prog.wp (writeTmpFile f t)
      (fun _ w' => w'.files t.id = { w.files t.id with tmp := some (.written t) } ∧ w'.tick = w.tick + 3 ∧
        WritesTmp f w.tick)
      (fun _ w' => (w'.files t.id).main = (w.files t.id).main ∧ (w'.files t.id).bak = (w.files t.id).bak ∧
        ¬ WritesTmp f w.tick)
      (fun w' => (w'.files t.id).main = (w.files t.id).main ∧ (w'.files t.id).bak = (w.files t.id).bak ∧
        ¬ WritesTmp f w.tick) w := by
  simp only [writeTmpFile, Prog.wp_bind, filesOp, wp_operation]
  cases h0 : f w.tick <;> cases h1 : f (w.tick + 1) <;> cases h2 : f (w.tick + 2) <;>
    simp [WritesTmp, h0, h1, h2]

/-- The ways a save whose first operation is `n` can leave the files `d`. -/
inductive SaveEnds (f : Nat → Fault) (n : Nat) (t : DownloadTask) (d d' : TaskFiles) : Prop
  | early : ¬ WritesTmp f n → d'.main = d.main → d'.bak = d.bak → SaveEnds f n t d d'
  | fresh : WritesTmp f n → d.main = none →
      AfterRename (Renames f (n + 3)) { d with tmp := some (.written t) } d' → SaveEnds f n t d d'
  | noBackup : WritesTmp f n → d.main.isSome → BackupFailed f (n + 3) d d' → SaveEnds f n t d d'
  | backup : WritesTmp f n → d.main.isSome → (d.bak.isSome → f (n + 3) = .ok) → f (n + 4) = .ok →
      AfterRename (Renames f (n + 5)) { main := d.main, bak := d.main, tmp := some (.written t) } d' →
      SaveEnds f n t d d'

theorem saveTaskFiles_ends (t : DownloadTask) (w : World) :
    SaveEnds f w.tick t (w.files t.id) (((saveTaskFiles f t).run w).2.files t.id) := by
  refine (Prog.wp_const (I := fun w' : World => SaveEnds f w.tick t (w.files t.id) (w'.files t.id))).1 ?_
  simp only [saveTaskFiles, Prog.wp_bind, Prog.wp_get, Prog.wp_ite]
  refine Prog.wp_mono (writeTmpFile_wp t) ?_ (fun _ _ h => .early h.2.2 h.1 h.2.1) (fun _ h => .early h.2.2 h.1 h.2.1)
  rintro _ w1 ⟨hf1, ht1, hw⟩
  rw [hf1]
  have rename : ∀ w2 : World, Prog.wp (renameIntoPlace f t.id)
      (fun _ w' => AfterRename (Renames f w2.tick) (w2.files t.id) (w'.files t.id))
      (fun _ w' => AfterRename (Renames f w2.tick) (w2.files t.id) (w'.files t.id))
      (fun w' => AfterRename (Renames f w2.tick) (w2.files t.id) (w'.files t.id)) w2 := fun w2 =>
    (Prog.wp_const (I := fun w' : World => AfterRename (Renames f w2.tick) (w2.files t.id) (w'.files t.id))).2
      (renameIntoPlace_files t.id)
  cases hm : (w.files t.id).main with
  | none =>
    simp only [Option.isSome_none, Bool.false_eq_true, if_false]
    have fresh : ∀ w' : World, AfterRename (Renames f w1.tick) (w1.files t.id) (w'.files t.id) →
        SaveEnds f w.tick t (w.files t.id) (w'.files t.id) := fun w' h =>
      .fresh hw hm (by rwa [hf1, ht1] at h)
    exact Prog.wp_mono (rename w1) (fun _ => fresh) (fun _ => fresh) fresh
  | some x =>
    simp only [Option.isSome_some, if_true]
    have failed : ∀ w' : World, BackupFailed f w1.tick (w1.files t.id) (w'.files t.id) →
        SaveEnds f w.tick t (w.files t.id) (w'.files t.id) := fun w' h =>
      .noBackup hw (by simp [hm]) (by simpa [BackupFailed, hf1, ht1] using h)
    refine Prog.wp_mono (backupTaskFile_wp t.id) ?_ (fun _ => failed) failed
    rintro _ w2 ⟨hf2, ht2, hdrop, hcopy⟩
    have done : ∀ w' : World, AfterRename (Renames f w2.tick) (w2.files t.id) (w'.files t.id) →
        SaveEnds f w.tick t (w.files t.id) (w'.files t.id) := by
      intro w' h
      rw [hf2, ht2, hf1, ht1] at h
      rw [hf1, ht1] at hdrop
      rw [ht1] at hcopy
      exact .backup hw (by simp [hm]) hdrop hcopy h
    exact Prog.wp_mono (rename w2) (fun _ => done) (fun _ => done) done

/-- Nothing loads any more: a corrupted main file, its good backup dropped, and no
loadable new version moved into place. -/
def LosesBackup (f : Nat → Fault) (n : Nat) (t : DownloadTask) (d : TaskFiles) : Prop :=
  (∃ x, d.main = some x ∧ taskFromJson x = none) ∧ WritesTmp f n ∧ f (n + 3) = .ok ∧
    ¬ (f (n + 4) = .ok ∧ Renames f (n + 5) ∧ (taskFromJson (.written t)).isSome)

theorem load_readable {d : TaskFiles} {x : TaskText} {u : DownloadTask} (hm : d.main = some x)
    (hx : taskFromJson x = some u) : d.load = some u := by
  simp [TaskFiles.load, hm, hx]

theorem load_backup {d : TaskFiles} (hm : d.main.bind taskFromJson = none) :
    d.load = d.bak.bind taskFromJson := by
  simp [TaskFiles.load, hm]

/-- After the rename step: the new version if it went through and loads, else what the
backup holds. -/
theorem load_afterRename {r : Prop} {d d' : TaskFiles} {t u : DownloadTask} (h : AfterRename r d d')
    (htmp : d.tmp = some (.written t)) (hbak : d.bak.bind taskFromJson = some u)
    (hmain : d.main.bind taskFromJson = none ∨ d.main.bind taskFromJson = some u) :
    d'.load = some u ∨ d'.load = some t := by
  rcases h with ⟨-, rfl⟩ | ⟨-, hb, hm | hm⟩
  · cases ht : taskFromJson (.written t) with
    | none => left; simp [TaskFiles.load, htmp, ht, hbak]
    | some t' =>
      obtain ⟨he, -⟩ := taskFromJson_some ht
      cases he
      right; simp [TaskFiles.load, htmp, ht]
  · left
    rcases hmain with hmain | hmain <;> simp [TaskFiles.load, hm, hb, hmain, hbak]
  · left; simp [TaskFiles.load, hm, hb, hbak]

/-- With a main file that loads, or none, no way to end loses the old version. -/
theorem SaveEnds.load_of_not_corrupt {n : Nat} {d d' : TaskFiles} (hend : SaveEnds f n t d d')
    (hload : d.load = some old) (hmain : d.main = none ∨ d.main.bind taskFromJson = some old) :
    d'.load = some old ∨ d'.load = some t := by
  cases hend with
  | early _ hm hb => exact .inl (by rw [← hload, TaskFiles.load, TaskFiles.load, hm, hb])
  | fresh _ hm h =>
    have hbak : d.bak.bind taskFromJson = some old := by rw [← hload, load_backup (by simp [hm])]
    exact load_afterRename h rfl hbak (.inl (by simp [hm]))
  | noBackup _ hs h =>
    have hm : d'.main = d.main := h.1
    rcases hmain with hmain | hmain
    · simp [hmain] at hs
    · exact .inl (by simp [TaskFiles.load, hm, hmain])
  | backup _ hs _ _ h =>
    rcases hmain with hmain | hmain
    · simp [hmain] at hs
    · exact load_afterRename h rfl hmain (.inr hmain)

/-- With a corrupted main file, the old version is in the backup alone. -/
theorem SaveEnds.load_of_corrupt {n : Nat} {d d' : TaskFiles} {x : TaskText} (hend : SaveEnds f n t d d')
    (hload : d.load = some old) (hm : d.main = some x) (hx : taskFromJson x = none) :
    (d'.load = some old ∨ d'.load = some t) ↔
      ¬ (WritesTmp f n ∧ f (n + 3) = .ok ∧
        ¬ (f (n + 4) = .ok ∧ Renames f (n + 5) ∧ (taskFromJson (.written t)).isSome)) := by
  have hmain : d.main.bind taskFromJson = none := by simp [hm, hx]
  have hbak : d.bak.bind taskFromJson = some old := by rw [← hload, load_backup hmain]
  have hsome : d.bak.isSome := by
    cases hb : d.bak with
    | none => simp [hb] at hbak
    | some y => rfl
  cases hend with
  | early hw hm' hb' =>
    have : d'.load = some old := by rw [← hload, TaskFiles.load, TaskFiles.load, hm', hb']
    simp [this, hw]
  | fresh _ h0 _ => simp [hm] at h0
  | noBackup hw _ h =>
    obtain ⟨hm', ⟨hb', hkept⟩ | ⟨hb', hdrop, hcopy⟩⟩ := h
    · have : d'.load = some old := by rw [← hload, TaskFiles.load, TaskFiles.load, hm', hb']
      simp [this, hkept hsome]
    · have : d'.load = none := by
        rw [load_backup (by rw [hm', hmain])]
        rcases hb' with hb' | hb' <;> simp [hb', taskFromJson]
      simp [this, hw, hdrop hsome, hcopy]
  | backup hw _ hdrop hcopy h =>
    rcases h with ⟨hr, rfl⟩ | ⟨hr, hb', hm'⟩
    · cases ht : taskFromJson (.written t) with
      | none =>
        have : TaskFiles.load { main := some (.written t), bak := d.main, tmp := none } = none := by
          simp [TaskFiles.load, ht, hm, hx]
        simp [this, hw, hdrop hsome]
      | some t' =>
        obtain ⟨he, -⟩ := taskFromJson_some ht
        cases he
        have : TaskFiles.load { main := some (.written t), bak := d.main, tmp := none } = some t := by
          simp [TaskFiles.load, ht]
        simp [this, hcopy, hr]
    · have : d'.load = none := by
        rcases hm' with hm' | hm' <;> simp [TaskFiles.load, hb', hm', hm, hx]
      simp [this, hw, hdrop hsome, hr]

/-- Whatever fails or crashes in `saveTask`, a following load returns the old task or the
new one exactly when the save does not lose the last good copy. -/
theorem save_loadable_iff (f : Nat → Fault) (t old : DownloadTask) (w : World)
    (hload : (w.files t.id).load = some old) :
    ((((saveTaskFiles f t).run w).2.files t.id).load = some old ∨
      (((saveTaskFiles f t).run w).2.files t.id).load = some t) ↔ ¬ LosesBackup f w.tick t (w.files t.id) := by
  have hend := saveTaskFiles_ends (f := f) t w
  cases hm : (w.files t.id).main with
  | none =>
    have : ¬ LosesBackup f w.tick t (w.files t.id) := fun ⟨⟨x, hx, _⟩, _⟩ => by simp [hm] at hx
    simp [hend.load_of_not_corrupt hload (.inl hm), this]
  | some x =>
    cases hx : taskFromJson x with
    | none =>
      rw [hend.load_of_corrupt hload hm hx]
      simp [LosesBackup, hm, hx]
    | some u =>
      have hu : (w.files t.id).main.bind taskFromJson = some old := by
        rw [← hload, load_readable hm hx]
        simp [hm, hx]
      have : ¬ LosesBackup f w.tick t (w.files t.id) := fun ⟨⟨y, hy, hy'⟩, _⟩ => by
        rw [hm] at hy
        cases hy
        simp [hx] at hy'
      simp [hend.load_of_not_corrupt hload (.inr hu), this]

/-- A failed rename over a readable main file: the old version is still what loads. -/
theorem save_loadable_after_failed_rename :
    ((((saveTaskFiles (fun n => if n = 5 then .fail 0 else if n = 6 then .crash 0 else .ok)
        { id := text "a", fileSize := 2 }).run
        (({} : World).onFiles (text "a") (fun d => { d with main := some (.written { id := text "a" }) }))).2.files
        (text "a")).load = some { id := text "a" } ∨
      (((saveTaskFiles (fun n => if n = 5 then .fail 0 else if n = 6 then .crash 0 else .ok)
        { id := text "a", fileSize := 2 }).run
        (({} : World).onFiles (text "a") (fun d => { d with main := some (.written { id := text "a" }) }))).2.files
        (text "a")).load = some { id := text "a", fileSize := 2 }) :=
  (save_loadable_iff _ _ { id := text "a" } _ (by decide)).2 (by
    rintro ⟨⟨x, hx, hx'⟩, -⟩
    have : x = .written { id := text "a" } := by simpa using hx.symm
    simp [this, taskFromJson] at hx')

/-- The process dies while the backup is copied, over a corrupted main file with a good
backup: the task that loaded before does not load any more. -/
theorem save_loses_good_backup :
    ∃ (f : Nat → Fault) (t old : DownloadTask) (w : World), (w.files t.id).load = some old ∧
      ¬ ((((saveTaskFiles f t).run w).2.files t.id).load = some old ∨
        (((saveTaskFiles f t).run w).2.files t.id).load = some t) :=
  ⟨fun n => if n = 4 then .crash 0 else .ok, { id := text "a", fileSize := 2 }, { id := text "a" },
    ({} : World).onFiles (text "a")
      (fun _ => { main := some .torn, bak := some (.written { id := text "a" }), tmp := none }), by decide, by decide⟩

/-- Without faults the operations come to the one step `saveTask` takes elsewhere. -/
theorem saveTaskFiles_ok (hf : ∀ n, f n = .ok) (t : DownloadTask) (w : World) :
    Prog.wp (saveTaskFiles f t) (fun _ w' => w'.disk = (w.saveTask t).disk) (fun _ _ => False) (fun _ => False) w := by
  simp only [saveTaskFiles, writeTmpFile, backupTaskFile, renameIntoPlace, renameTmp, ignoringErrors, filesOp,
    Prog.wp_bind, Prog.wp_tryCatch, Prog.wp_get, Prog.wp_ite, Prog.wp_pure, wp_operation, hf, files_onFiles]
  cases hm : w.disk.tasks t.id with
  | mk main bak tmp => cases main <;> simp [World.onFiles, World.saveTask, World.files, TaskFiles.commit, hm]

end Cget
