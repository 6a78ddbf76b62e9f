import Cget.JsonCut
import Cget.Settings
import Cget.World
/-!
# A crash or a failure while the settings are saved

`ConfigManager::save` writes a temporary file and renames it over `config.json`; if that fails it
removes `config.json` and renames once more. The write itself is never checked, so a file that
was cut short is renamed as well, and a second rename that fails leaves no file at all.
-/

namespace Cget

namespace ConfigManager

open Json

/-! ## The save, operation by operation -/

/-- The files a save touches. -/
structure ConfigFiles where
  config : Option Text := none
  temp : Option Text := none
  deriving DecidableEq, Repr

/-- How each operation of a save ends; the directories are there. -/
structure SaveFaults where
  create : Fault := .ok
  write : Fault := .ok
  rename : Fault := .ok
  remove : Fault := .ok
  renameAgain : Fault := .ok
  deriving DecidableEq, Repr

/-- An operation that is done in full, or in part with an exception or the death of the process. -/
def fileStep (fault : Fault) (full : ConfigFiles → ConfigFiles) (part : Nat → ConfigFiles → ConfigFiles) (e : Exn) :
    Prog ConfigFiles Exn Unit where
  run d := match fault with
    | .ok => (.ok (), full d)
    | .fail k => (.thrown e, part k d)
    | .crash k => (.stopped, part k d)

/-- An operation whose failure nobody looks at. -/
def unchecked (m : Prog ConfigFiles Exn Unit) : Prog ConfigFiles Exn Unit := tryCatch m fun _ => pure ()

/-- What `save` writes. -/
def savedText (c : Config) : Text := stringify (toJson (normalize c)) 2

def commitError (message : Text) : Exn := .cget .fileSystemError (text "failed to commit config: " ++ message)

/-- A rename takes place or it does not. -/
def renameTemp (fault : Fault) (message : Text) : Prog ConfigFiles Exn Unit :=
  fileStep fault (fun d => { config := d.temp, temp := none }) (fun _ d => d) (commitError message)

/-- The rename, tried once more after removing `config.json`. -/
def commit (faults : SaveFaults) (message : Text) : Prog ConfigFiles Exn Unit :=
  tryCatch (renameTemp faults.rename message) fun _ => do
    unchecked (fileStep faults.remove (fun d => { d with config := none }) (fun _ d => d) (.other message))
    renameTemp faults.renameAgain message

/-- `ConfigManager::save`, with the name of its temporary file and what the system says of a failure. -/
def saveFiles (tmp message : Text) (faults : SaveFaults) (c : Config) : Prog ConfigFiles Exn Unit := do
  fileStep faults.create (fun d => { d with temp := some [] }) (fun _ d => d)
    (.cget .permissionDeniedError (text "failed to write config: " ++ tmp))
  unchecked (fileStep faults.write (fun d => { d with temp := some (savedText c) })
    (fun k d => { d with temp := some ((savedText c).take k) }) (.other message))
  commit faults message

/-! ## What a save leaves -/

/-- The temporary file was opened and the process outlived the write. -/
def SaveFaults.Written (f : SaveFaults) : Prop := f.create = .ok ∧ ∀ k, f.write ≠ .crash k

/-- The temporary file becomes `config.json`, at once or after the removal. -/
def SaveFaults.Renames (f : SaveFaults) : Prop :=
  f.Written ∧ (f.rename = .ok ∨ (∃ k, f.rename = .fail k) ∧ (∀ k, f.remove ≠ .crash k) ∧ f.renameAgain = .ok)

/-- `config.json` is removed and nothing takes its place. -/
def SaveFaults.Loses (f : SaveFaults) : Prop :=
  f.Written ∧ (∃ k, f.rename = .fail k) ∧ f.remove = .ok ∧ f.renameAgain ≠ .ok

/-- What a write leaves of a text. -/
def SaveFaults.written (f : SaveFaults) (t : Text) : Text :=
  match f.write with
  | .fail k => t.take k
  | _ => t

variable {tmp message : Text} {faults : SaveFaults} {c before : Config} {d : ConfigFiles} {environment : Environment}
  {old : Text}

/-- The three ways a save can leave `config.json`. -/
inductive ConfigLeft (faults : SaveFaults) (t : Text) (d d' : ConfigFiles) : Prop
  | renamed : faults.Renames → ¬ faults.Loses → d'.config = some (faults.written t) → ConfigLeft faults t d d'
  | lost : faults.Loses → d'.config = none → ConfigLeft faults t d d'
  | kept : ¬ faults.Renames → ¬ faults.Loses → d'.config = d.config → ConfigLeft faults t d d'

theorem wp_fileStep {fault : Fault} {full : ConfigFiles → ConfigFiles}
    {part : Nat → ConfigFiles → ConfigFiles} {e : Exn}
    {Q : Unit → ConfigFiles → Prop} {E : Exn → ConfigFiles → Prop} {S : ConfigFiles → Prop} :
    Prog.wp (fileStep fault full part e) Q E S d ↔
      match fault with
      | .ok => Q () (full d)
      | .fail k => E e (part k d)
      | .crash k => S (part k d) := by
  cases fault <;> rfl

theorem commit_left {t : Text} {d' : ConfigFiles} (hwritten : faults.Written)
    (htemp : d'.temp = some (faults.written t)) (hconfig : d'.config = d.config) :
    Prog.wp (commit faults message) (fun _ => ConfigLeft faults t d) (fun _ => ConfigLeft faults t d)
      (ConfigLeft faults t d) d' := by
  simp only [commit, unchecked, renameTemp, Prog.wp_bind, Prog.wp_tryCatch, wp_fileStep, Prog.wp_pure]
  cases hrename : faults.rename with
  | ok => exact .renamed ⟨hwritten, .inl hrename⟩ (by simp [SaveFaults.Loses, hrename]) htemp
  | crash k => exact .kept (by simp [SaveFaults.Renames, hrename]) (by simp [SaveFaults.Loses, hrename]) hconfig
  | fail k =>
    cases hremove : faults.remove with
    | crash j =>
      exact .kept (by simp [SaveFaults.Renames, hrename, hremove]) (by simp [SaveFaults.Loses, hremove]) hconfig
    | ok =>
      cases hagain : faults.renameAgain with
      | ok =>
        exact .renamed ⟨hwritten, .inr ⟨⟨k, hrename⟩, by simp [hremove], hagain⟩⟩
          (by simp [SaveFaults.Loses, hagain]) htemp
      | fail j => exact .lost ⟨hwritten, ⟨k, hrename⟩, hremove, by simp [hagain]⟩ rfl
      | crash j => exact .lost ⟨hwritten, ⟨k, hrename⟩, hremove, by simp [hagain]⟩ rfl
    | fail j =>
      cases hagain : faults.renameAgain with
      | ok =>
        exact .renamed ⟨hwritten, .inr ⟨⟨k, hrename⟩, by simp [hremove], hagain⟩⟩
          (by simp [SaveFaults.Loses, hagain]) htemp
      | fail i =>
        exact .kept (by simp [SaveFaults.Renames, hrename, hagain]) (by simp [SaveFaults.Loses, hremove]) hconfig
      | crash i =>
        exact .kept (by simp [SaveFaults.Renames, hrename, hagain]) (by simp [SaveFaults.Loses, hremove]) hconfig

theorem saveFiles_left (tmp message : Text) (faults : SaveFaults) (c : Config) (d : ConfigFiles) :
    ConfigLeft faults (savedText c) d ((saveFiles tmp message faults c).run d).2 := by
  refine (Prog.wp_const (I := fun d' => ConfigLeft faults (savedText c) d d')).1 ?_
  simp only [saveFiles, unchecked, Prog.wp_bind, Prog.wp_tryCatch, wp_fileStep, Prog.wp_pure]
  have early : ¬ faults.Written → ConfigLeft faults (savedText c) d d :=
    fun h => .kept (fun hr => h hr.1) (fun hl => h hl.1) rfl
  cases hcreate : faults.create with
  | fail k => exact early fun h => by simp [SaveFaults.Written, hcreate] at h
  | crash k => exact early fun h => by simp [SaveFaults.Written, hcreate] at h
  | ok =>
    cases hwrite : faults.write with
    | crash k => exact .kept (fun h => h.1.2 k hwrite) (fun h => h.1.2 k hwrite) rfl
    | ok => exact commit_left ⟨hcreate, by simp [hwrite]⟩ (by simp [SaveFaults.written, hwrite]) rfl
    | fail k => exact commit_left ⟨hcreate, by simp [hwrite]⟩ (by simp [SaveFaults.written, hwrite]) rfl

/-- Without faults this is `save`. -/
theorem saveFiles_save (c : Config) (d : ConfigFiles) : (saveFiles tmp message {} c).run d =
    (.ok (), { config := ((save c).run d.config).2, temp := none }) := rfl

/-! ## What is loaded next -/

/-- The next `load` finds a file and returns the old settings or the new ones. -/
def AllOrNothing (environment : Environment) (old : Text) (c : Config) (d : ConfigFiles) : Prop :=
  d.config ≠ none ∧ ∃ settings, ((load environment).run d.config).1 = .ok settings ∧
    (((load environment).run (some old)).1 = .ok settings ∨
      ((load environment).run (some (savedText c))).1 = .ok settings)

/-- What becomes `config.json` is whole, but for the newline at its end, and something does if the old
file is removed. -/
def SaveFaults.Safe (f : SaveFaults) (size : Nat) : Prop :=
  (f.Renames → ∀ k, f.write = .fail k → size ≤ k + 1) ∧ ¬ f.Loses

theorem exists_bind {α β : Type} {m : Except Exn α} {f : α → Except Exn β} (hm : ∃ a, m = .ok a)
    (hf : ∀ a, ∃ b, f a = .ok b) :
    ∃ b, m >>= f = .ok b := by
  obtain ⟨a, rfl⟩ := hm
  exact hf a

theorem fromEnv_other {α : Type} {name : Text} {parse : Text → Except Exn α} {out out' a : α}
    (h : fromEnv environment name parse out = .ok a) : ∃ b, fromEnv environment name parse out' = .ok b := by
  unfold fromEnv at h ⊢
  cases hvalue : environment name with
  | none => exact ⟨out', rfl⟩
  | some value =>
    rw [hvalue] at h
    exact ⟨a, h⟩

theorem fromEnv_total {α : Type} {name : Text} {read : Text → α} {out : α} :
    ∃ b, fromEnv environment name (fun value => .ok (read value)) out = .ok b := by
  unfold fromEnv
  cases environment name <;> exact ⟨_, rfl⟩

/-- Whether the variables can be applied does not depend on the settings they go over. -/
theorem applyEnv_other {c' layered : Config} (h : applyEnv environment c = .ok layered) :
    ∃ layered', applyEnv environment c' = .ok layered' := by
  obtain ⟨_, hthreads, h⟩ := bind_ok h
  obtain ⟨_, hactive, h⟩ := bind_ok h
  obtain ⟨_, hretries, h⟩ := bind_ok h
  obtain ⟨_, hdelay, h⟩ := bind_ok h
  obtain ⟨_, hrate, h⟩ := bind_ok h
  obtain ⟨_, hworkers, h⟩ := bind_ok h
  obtain ⟨_, hchunks, h⟩ := bind_ok h
  obtain ⟨_, hglobal, h⟩ := bind_ok h
  obtain ⟨_, htask, -⟩ := bind_ok h
  refine exists_bind (fromEnv_other hthreads) fun _ => ?_
  refine exists_bind (fromEnv_other hactive) fun _ => ?_
  refine exists_bind (fromEnv_other hretries) fun _ => ?_
  refine exists_bind (fromEnv_other hdelay) fun _ => ?_
  refine exists_bind (fromEnv_other hrate) fun _ => ?_
  refine exists_bind (fromEnv_other hworkers) fun _ => ?_
  refine exists_bind (fromEnv_other hchunks) fun _ => ?_
  refine exists_bind (fromEnv_other hglobal) fun _ => ?_
  refine exists_bind (fromEnv_other htask) fun _ => ?_
  refine exists_bind fromEnv_total fun _ => ?_
  refine exists_bind fromEnv_total fun _ => ?_
  exact exists_bind fromEnv_total fun _ => ⟨_, rfl⟩

/-- What is loaded from a text depends on what it is read as. -/
theorem load_of_parse {t : Text} {v : Value} (h : parse t = .ok v) (h' : parse old = .ok v) :
    ((load environment).run (some t)).1 = ((load environment).run (some old)).1 := by
  have hconfig : configOf t = configOf old := by rw [configOf, h, configOf, h']
  rw [run_load, run_load, readConfig, readConfig, hconfig]
  cases (do pure (normalize (← applyEnv environment (← configOf old))) : Except Exn Config) <;> rfl

theorem load_result {t : Text} {settings : Config} :
    ((load environment).run (some t)).1 = .ok settings ↔ readConfig environment t = .ok settings := by
  rw [run_load]
  cases readConfig environment t with
  | error e => exact ⟨fun h => (by cases h), fun h => (by cases h)⟩
  | ok a => exact ⟨fun h => (by cases h; rfl), fun h => (by cases h; rfl)⟩

theorem parse_of_load {t : Text} {settings : Config} (h : ((load environment).run (some t)).1 = .ok settings) :
    ∃ v, parse t = .ok v := by
  obtain ⟨base, -, hbase, -⟩ := readConfig_ok (load_result.1 h)
  obtain ⟨root, hroot, -⟩ := bind_ok hbase
  exact ⟨root, hroot⟩

theorem parse_savedText (c : Config) : parse (savedText c) = .ok (toJson (normalize c)) :=
  parse_stringify (readable_toJson _) 2

/-- A saved file loads wherever any file loads. -/
theorem load_savedText (h : ((load environment).run (some old)).1 = .ok before) (c : Config) :
    ∃ settings, ((load environment).run (some (savedText c))).1 = .ok settings := by
  obtain ⟨base, layered, -, hlayered, -⟩ := readConfig_ok (load_result.1 h)
  have hconfig : configOf (savedText c) = .ok (normalize c).written :=
    ok_bind (parse_savedText c) (ok_bind (applyLegacyConfig_toJson _) (applyNestedConfig_toJson _))
  obtain ⟨layered', hlayered'⟩ : ∃ layered', applyEnv environment (normalize c).written = .ok layered' :=
    applyEnv_other hlayered
  refine ⟨normalize layered', load_result.2 ?_⟩
  rw [readConfig, hconfig]
  change Except.mapError _ (applyEnv environment (normalize c).written >>= fun layered => pure (normalize layered)) = _
  rw [hlayered']
  rfl

/-- After a save that may fail or be cut off anywhere, the next `load` returns the old settings or
the new ones, exactly if no cut file was renamed and the old one was not removed for nothing. -/
theorem save_all_or_nothing_iff (environment : Environment) (old : Text) (before : Config)
    (hold : ((load environment).run (some old)).1 = .ok before) (tmp message : Text) (faults : SaveFaults) (c : Config)
    (temp : Option Text) :
    AllOrNothing environment old c ((saveFiles tmp message faults c).run { config := some old, temp }).2 ↔
      faults.Safe (savedText c).length := by
  have hleft := saveFiles_left tmp message faults c { config := some old, temp }
  generalize ((saveFiles tmp message faults c).run { config := some old, temp }).2 = d at hleft
  have htaken := fun k u => parse_take_iff (u := u) (parse_savedText c) k
  unfold AllOrNothing SaveFaults.Safe
  cases hleft with
  | lost hlost hconfig => exact iff_of_false (fun h => h.1 hconfig) (fun h => h.2 hlost)
  | kept hrenames hlost hconfig =>
    rw [hconfig]
    exact iff_of_true ⟨Option.some_ne_none _, before, hold, .inl hold⟩ ⟨fun h => absurd h hrenames, hlost⟩
  | renamed hrenames hlost hconfig =>
    rw [hconfig]
    constructor
    · rintro ⟨-, settings, hload, -⟩
      refine ⟨fun _ k hk => ?_, hlost⟩
      obtain ⟨v, hv⟩ := parse_of_load hload
      rw [SaveFaults.written, hk] at hv
      exact ((htaken k v).1 hv).1
    · rintro ⟨hwhole, -⟩
      have hparse : parse (faults.written (savedText c)) = .ok (toJson (normalize c)) := by
        unfold SaveFaults.written
        split
        · rename_i k hk
          exact (htaken k _).2 ⟨hwhole hrenames k hk, rfl⟩
        · exact parse_savedText c
      obtain ⟨settings, hsettings⟩ := load_savedText hold c
      rw [load_of_parse hparse (parse_savedText c)]
      exact ⟨Option.some_ne_none _, settings, hsettings, .inr hsettings⟩

theorem save_all_or_nothing_newline :
    AllOrNothing noVariables emptyObject {} ((saveFiles (text "config.json.1.1.tmp") []
      { write := .fail ((savedText {}).length - 1) } {}).run { config := some emptyObject }).2 := by
  have hold : ((load noVariables).run (some emptyObject)).1 = .ok {} := by decide +kernel
  refine (save_all_or_nothing_iff noVariables emptyObject {} hold (text "config.json.1.1.tmp") [] _ {} none).2 ⟨?_, ?_⟩
  · intro _ k hk
    cases hk
    omega
  · rintro ⟨-, ⟨k, hk⟩, -⟩
    cases hk

/-- A write that runs out of space after one byte goes unnoticed and replaces a good file. -/
theorem cut_write_is_renamed : ¬ ∀ (environment : Environment) (old : Text) (before : Config),
    ((load environment).run (some old)).1 = .ok before →
    ∀ (tmp message : Text) (faults : SaveFaults) (c : Config) (temp : Option Text),
      AllOrNothing environment old c ((saveFiles tmp message faults c).run { config := some old, temp }).2 := by
  intro h
  have hold : ((load noVariables).run (some emptyObject)).1 = .ok {} := by decide +kernel
  obtain ⟨-, settings, hload, -⟩ :=
    h noVariables emptyObject {} hold (text "config.json.1.1.tmp") [] { write := .fail 1 } {} none
  obtain ⟨v, hv⟩ := parse_of_load (t := [123]) hload
  cases hv

end ConfigManager

end Cget
