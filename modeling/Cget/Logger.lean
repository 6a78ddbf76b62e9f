import Cget.Lib.Prog
import Cget.Lib.Slots
import Cget.Settings
import Cget.Timestamps
import Mathlib.Data.List.Forall2
import Mathlib.Data.List.Sublists
/-!
# The log files

`logger.cpp`: what `Logger::write` appends to `cget.log` and how `rotateIfNeeded` moves the
full file to `cget.log.1`, that one to `cget.log.2` and so on. The calls of a run are taken one
after the other, as the mutex of a `Logger` orders them; each brings the options its `Logger`
has then (`configure` replaces them). Any file operation may fail, and the process may die in it.
-/

namespace Cget

open Prog
open scoped List

/-! ## Levels -/

inductive LogLevel where
  | trace | debug | info | warn | error | fatal | off
  deriving DecidableEq, Repr

def severity : LogLevel → Nat
  | .trace => 0
  | .debug => 1
  | .info => 2
  | .warn => 3
  | .error => 4
  | .fatal => 5
  | .off => 6

/-- `toString(LogLevel)`. -/
def LogLevel.toText : LogLevel → Text
  | .trace => text "TRACE"
  | .debug => text "DEBUG"
  | .info => text "INFO"
  | .warn => text "WARN"
  | .error => text "ERROR"
  | .fatal => text "FATAL"
  | .off => text "OFF"

def logLevelFromString (value : Text) : LogLevel :=
  let normalized := lower value
  if normalized = text "trace" then .trace
  else if normalized = text "debug" then .debug
  else if normalized = text "info" then .info
  else if normalized = text "warn" ∨ normalized = text "warning" then .warn
  else if normalized = text "error" then .error
  else if normalized = text "fatal" then .fatal
  else if normalized = text "off" ∨ normalized = text "none" then .off
  else .info

/-- A level means what its normal form in the configuration means. -/
theorem logLevelFromString_normalLevel (value : Text) :
    logLevelFromString (ConfigManager.normalLevel value) = logLevelFromString value := by
  unfold ConfigManager.normalLevel
  split
  · simp only [logLevelFromString, ConfigManager.lower_lower]
  · rename_i hinvalid
    simp only [ConfigManager.isValidLogLevelName, List.mem_cons, List.not_mem_nil, or_false, not_or, decide_eq_true_eq]
      at hinvalid
    have hinfo : logLevelFromString (text "info") = .info := by decide
    rw [hinfo]
    simp [logLevelFromString, hinvalid]

structure LoggerOptions where
  level : LogLevel := .info
  console : Bool := false
  maxFileBytes : UInt64 := 1024 * 1024
  maxRotatedFiles : UInt32 := 3
  deriving DecidableEq, Repr

def loggerOptionsFromConfig (c : ConfigManager.Config) : LoggerOptions where
  level := logLevelFromString c.logging.level
  console := c.logging.console
  maxFileBytes := c.logging.maxFileBytes
  maxRotatedFiles := c.logging.maxRotatedFiles

def shouldWrite (options : LoggerOptions) (level : LogLevel) : Bool :=
  severity level ≥ severity options.level ∧ options.level ≠ .off

/-! ## The log directory -/

/-- How the n-th operation on the log directory ends. -/
structure LogEnv where
  /-- If it creates the directories or appends. -/
  fault : Nat → Fault := fun _ => .ok
  /-- If it asks for a file or its size, removes a file or renames one. -/
  moveFault : Nat → Fault := fun _ => .ok

/-- `cget.log` is slot 0, `cget.log.<n>` slot n. `appended` lists what the appends so far have
left in `cget.log`, oldest first; the program never reads it. -/
structure LogDir where
  files : Slots Bytes := fun _ => none
  tick : Nat := 0
  appended : List Bytes := []

/-- An operation reports whether it was done; the part of it that is done when it fails, or when
the process dies in it, is `part k`. -/
def logOp (f : Nat → Fault) (full : LogDir → LogDir) (part : Nat → LogDir → LogDir) : Prog LogDir Exn Bool where
  run d := match f d.tick with
    | .ok => (.ok true, full { d with tick := d.tick + 1 })
    | .fail k => (.ok false, part k { d with tick := d.tick + 1 })
    | .crash k => (.stopped, part k { d with tick := d.tick + 1 })

/-- The directories themselves are always as they were. -/
def ensureLogDirectories (env : LogEnv) : Prog LogDir Exn Unit := do
  if !(← logOp env.fault id fun _ => id) then
    throw (.cget .fileSystemError (text "failed to create logs directory: "))

/-- `std::filesystem::exists` with an error code. -/
def logExists (env : LogEnv) (i : Nat) : Prog LogDir Exn Bool := do
  let done ← logOp env.moveFault id fun _ => id
  let d ← get
  return done && (d.files i).isSome

/-- `std::filesystem::file_size` of `cget.log` with an error code. -/
def logSize (env : LogEnv) : Prog LogDir Exn Nat := do
  let done ← logOp env.moveFault id fun _ => id
  let d ← get
  match d.files 0 with
  | some b => return if done then b.length else 2 ^ 64 - 1
  | none => return 2 ^ 64 - 1

def logRemove (env : LogEnv) (i : Nat) : Prog LogDir Exn Bool :=
  logOp env.moveFault (fun d => { d with files := d.files.clear i }) fun _ => id

def logRename (env : LogEnv) (i : Nat) : Prog LogDir Exn Bool :=
  logOp env.moveFault (fun d => { d with files := d.files.lift i }) fun _ => id

/-- Opening `cget.log` with `std::ios::app` makes it exist. -/
def logOpen (env : LogEnv) : Prog LogDir Exn Bool :=
  logOp env.fault (fun d => { d with files := d.files.front ((d.files 0).getD []) }) fun _ => id

/-- `cget.log` ends with `b`. -/
def LogDir.append (d : LogDir) (b : Bytes) : LogDir where
  files := d.files.front ((d.files 0).getD [] ++ b)
  tick := d.tick
  appended := d.appended ++ [b]

/-- One line put into the stream, if it is open. -/
def logAppend (env : LogEnv) (line : Bytes) : Prog LogDir Exn Unit := do
  if ← logOpen env then
    let _ ← logOp env.fault (·.append line) fun k d => d.append (line.take k)

/-- The loop of `rotateIfNeeded` from `index` down to 1. -/
def rotateFrom (env : LogEnv) : (index : Nat) → Prog LogDir Exn Unit
  | 0 => pure ()
  | current + 1 => do
    if ← logExists env current then
      let _ ← logRemove env (current + 1)
      let _ ← logRename env current
    rotateFrom env current

def rotateIfNeeded (env : LogEnv) (options : LoggerOptions) : Prog LogDir Exn Unit := do
  if options.maxFileBytes = 0 ∨ options.maxRotatedFiles = 0 then return
  if !(← logExists env 0) then return
  if (← logSize env) < options.maxFileBytes.toNat then return
  rotateFrom env options.maxRotatedFiles.toNat

/-- A call of one of `trace` to `fatal`. -/
structure LogCall where
  options : LoggerOptions := {}
  level : LogLevel
  /-- What the clock shows. -/
  now : Nat
  message : Text

/-- The line of a call, with its end. -/
def LogCall.line (c : LogCall) : Text :=
  formatTimestamp c.now ++ text " [" ++ c.level.toText ++ text "] " ++ c.message ++ text "\n"

/-- `Logger::write`. -/
def LogCall.write (env : LogEnv) (c : LogCall) : Prog LogDir Exn Unit := do
  if !shouldWrite c.options c.level then return
  try
    ensureLogDirectories env
    rotateIfNeeded env c.options
    logAppend env c.line
  catch _ => pure ()

/-- A process that makes these calls. -/
def logSession (env : LogEnv) (calls : List LogCall) : Prog LogDir Exn Unit := forM calls (LogCall.write env)

/-- What one process after the other leaves. -/
def logSessions (env : LogEnv) (sessions : List (List LogCall)) (d : LogDir) : LogDir :=
  sessions.foldl (fun d calls => ((logSession env calls).run d).2) d

/-- The lines the calls ask for. -/
def logLines (calls : List LogCall) : List Text :=
  (calls.filter fun c => shouldWrite c.options c.level).map (·.line)

variable {env : LogEnv} {d : LogDir} {c : LogCall} {calls : List LogCall} {I : LogDir → Prop}

/-! ## What keeps what -/

theorem wp_logOp {f : Nat → Fault} {full : LogDir → LogDir} {part : Nat → LogDir → LogDir} {Q : Bool → LogDir → Prop}
    {E : Exn → LogDir → Prop} {S : LogDir → Prop} (hok : f d.tick = .ok → Q true (full { d with tick := d.tick + 1 }))
    (hfail : ∀ k, f d.tick = .fail k → Q false (part k { d with tick := d.tick + 1 }))
    (hcrash : ∀ k, f d.tick = .crash k → S (part k { d with tick := d.tick + 1 })) :
    wp (logOp f full part) Q E S d := by
  simp only [wp, logOp]
  cases h : f d.tick with
  | ok => exact hok h
  | fail k => exact hfail k h
  | crash k => exact hcrash k h

/-- What does not depend on the time, and is kept when a file is removed or renamed. -/
structure Rotatable (I : LogDir → Prop) : Prop where
  tick : ∀ d n, I d → I { d with tick := n }
  clear : ∀ d i, I d → I { d with files := d.files.clear i }
  lift : ∀ d i, I d → I { d with files := d.files.lift i }

/-- Asking changes nothing. -/
theorem keeps_look (htick : ∀ d n, I d → I { d with tick := n }) (f : Nat → Fault) : Keeps I (logOp f id fun _ => id) :=
  fun d hd => wp_logOp (fun _ => htick d _ hd) (fun _ _ => htick d _ hd) (fun _ _ => htick d _ hd)

theorem keeps_logExists (htick : ∀ d n, I d → I { d with tick := n }) (i : Nat) : Keeps I (logExists env i) :=
  (keeps_look htick _).bind fun _ => KeepsOr.get_bind fun _ => KeepsOr.pure _

theorem keeps_logSize (htick : ∀ d n, I d → I { d with tick := n }) : Keeps I (logSize env) := by
  refine (keeps_look htick _).bind fun _ => KeepsOr.get_bind fun d => ?_
  cases d.files 0 with
  | none => exact KeepsOr.pure _
  | some b => exact KeepsOr.pure _

theorem keeps_rotateFrom (hI : Rotatable I) : ∀ index, Keeps I (rotateFrom env index)
  | 0 => KeepsOr.pure _
  | current + 1 => by
    unfold rotateFrom
    refine (keeps_logExists hI.tick current).bind fun there => ?_
    cases there with
    | false => exact keeps_rotateFrom hI current
    | true =>
      refine KeepsOr.bind (m := logRemove env (current + 1)) (fun d hd => ?_) fun _ => ?_
      · exact wp_logOp (fun _ => hI.clear _ _ (hI.tick d _ hd)) (fun _ _ => hI.tick d _ hd) (fun _ _ => hI.tick d _ hd)
      refine KeepsOr.bind (m := logRename env current) (fun d hd => ?_) fun _ => keeps_rotateFrom hI current
      exact wp_logOp (fun _ => hI.lift _ _ (hI.tick d _ hd)) (fun _ _ => hI.tick d _ hd) (fun _ _ => hI.tick d _ hd)

theorem keeps_rotateIfNeeded (hI : Rotatable I) (options : LoggerOptions) : Keeps I (rotateIfNeeded env options) := by
  unfold rotateIfNeeded
  split
  · exact KeepsOr.pure _
  refine (keeps_logExists hI.tick 0).bind fun there => ?_
  cases there with
  | false => exact KeepsOr.pure _
  | true =>
    refine (keeps_logSize hI.tick).bind fun size => ?_
    split
    · exact KeepsOr.pure _
    · exact keeps_rotateFrom hI _

/-- A call ends in `J`, and never with an exception. `I` holds before, `M` once the files are
rotated. -/
theorem write_ends {M J : LogDir → Prop} (htick : ∀ d n, I d → I { d with tick := n }) (hI : ∀ d, I d → J d)
    (hM : ∀ d, M d → J d) (hrotate : ∀ d, I d → wp (rotateIfNeeded env c.options) (fun _ => M) (fun _ => J) J d)
    (hMtick : ∀ d n, M d → M { d with tick := n })
    (hopen : ∀ d, M d → M { d with files := d.files.front ((d.files 0).getD []) })
    (hput : shouldWrite c.options c.level → ∀ d b, b <+: c.line → M d → J (d.append b)) (d : LogDir) (hd : I d) :
    wp (c.write env) (fun _ => J) (fun _ _ => False) J d := by
  unfold LogCall.write
  by_cases hwanted : shouldWrite c.options c.level = true
  · simp only [hwanted, Bool.not_true, Bool.false_eq_true, if_false, wp_tryCatch, wp_bind, wp_pure]
    refine wp_mono (Q := fun _ => I) (E := fun _ => J) (S := J) ?_ (fun _ d hd => ?_) (fun _ _ h => h) fun _ h => h
    · unfold ensureLogDirectories
      rw [wp_bind]
      exact wp_logOp (fun _ => htick d _ hd) (fun _ _ => hI _ (htick d _ hd)) (fun _ _ => hI _ (htick d _ hd))
    refine wp_mono (hrotate d hd) (fun _ d hd => ?_) (fun _ _ h => h) fun _ h => h
    unfold logAppend logOpen
    rw [wp_bind]
    refine wp_logOp (fun _ => ?_) (fun _ _ => hM _ (hMtick d _ hd)) (fun _ _ => hM _ (hMtick d _ hd))
    simp only [if_true, wp_bind, wp_pure]
    have hopened := hMtick _ (d.tick + 1 + 1) (hopen _ (hMtick d (d.tick + 1) hd))
    exact wp_logOp (fun _ => hput hwanted _ _ (List.prefix_refl _) hopened)
      (fun k _ => hput hwanted _ _ (List.take_prefix k _) hopened)
      (fun k _ => hput hwanted _ _ (List.take_prefix k _) hopened)
  · simp only [hwanted, Bool.not_false, if_true]
    exact hI d hd

/-- What every call of every session keeps, the sessions keep. `I` says what the lines asked for so
far have to do with the files, `D` what is left of that when the process dies in a call. -/
theorem sessions_run {I D : List Text → LogDir → Prop} (hdead : ∀ ls ms d, D ls d → I (ls ++ ms) d) :
    ∀ (sessions : List (List LogCall)) (ls : List Text) (d : LogDir),
      (∀ c ∈ sessions.flatten, ∀ ls d, I ls d →
        wp (c.write env) (fun _ => I (ls ++ logLines [c])) (fun _ _ => False) (D (ls ++ logLines [c])) d) →
      I ls d → I (ls ++ logLines sessions.flatten) (logSessions env sessions d) := by
  -- One session may end with any of its calls.
  have hsession : ∀ (calls : List LogCall) (ls : List Text) (d : LogDir),
      (∀ c ∈ calls, ∀ ls d, I ls d →
        wp (c.write env) (fun _ => I (ls ++ logLines [c])) (fun _ _ => False) (D (ls ++ logLines [c])) d) →
      I ls d → I (ls ++ logLines calls) ((logSession env calls).run d).2 := by
    intro calls
    induction calls with
    | nil =>
      intro ls d _ hd
      rw [show logLines [] = [] from rfl, List.append_nil]
      exact hd
    | cons c calls ih =>
      intro ls d hstep hd
      have hlines : ls ++ logLines (c :: calls) = ls ++ logLines [c] ++ logLines calls := by
        rw [List.append_assoc, ← List.singleton_append, logLines, List.filter_append, List.map_append,
          logLines, logLines]
      rw [hlines]
      apply wp_const.1
      rw [logSession, List.forM_cons, wp_bind]
      refine wp_mono (hstep c List.mem_cons_self ls d hd) (fun _ d' hd' => ?_) (fun _ _ h => h.elim) fun _ hd' =>
        hdead _ _ _ hd'
      exact wp_const.2 (ih _ _ (fun c hc => hstep c (List.mem_cons_of_mem _ hc)) hd')
  intro sessions
  induction sessions with
  | nil =>
    intro ls d _ hd
    simpa [logLines, logSessions] using hd
  | cons calls sessions ih =>
    intro ls d hstep hd
    have hlines : ls ++ logLines (calls :: sessions).flatten = ls ++ logLines calls ++ logLines sessions.flatten := by
      rw [List.flatten_cons, List.append_assoc, logLines, List.filter_append, List.map_append, logLines, logLines]
    rw [hlines]
    exact ih _ _ (fun c hc => hstep c (List.mem_append_right _ hc))
      (hsession calls ls d (fun c hc => hstep c (List.mem_append_left _ hc)) hd)

theorem sessions_keep {I : LogDir → Prop} (sessions : List (List LogCall))
    (hstep : ∀ c ∈ sessions.flatten, ∀ d, I d → wp (c.write env) (fun _ => I) (fun _ _ => False) I d) (d : LogDir)
    (hd : I d) :
    I (logSessions env sessions d) :=
  sessions_run (I := fun _ => I) (D := fun _ => I) (fun _ _ _ h => h) sessions [] d (fun c hc _ => hstep c hc) hd

/-! ## The order of the lines -/

/-- Going by `g`, the files hold, in order and in one piece each, some of what they held at first and
some of what has been appended since. -/
def InOrder (files : Slots Bytes) (d : LogDir) : Prop :=
  ∃ g : Slots (List Bytes),
    d.files = (fun i => (g i).map List.flatten) ∧ ∀ n, (Slots.below n g).flatten <+ files.below n ++ d.appended

section InOrder

variable {files : Slots Bytes}

theorem inOrder_first (files : Slots Bytes) : InOrder files { files := files } := by
  refine ⟨fun i => (files i).map fun b => [b], ?_, fun n => ?_⟩
  · funext i
    cases h : files i <;> simp [h]
  · rw [Slots.below_map]
    have hpieces : ((files.below n).map fun b => [b]).flatten = files.below n := by
      induction files.below n with
      | nil => rfl
      | cons b bs ih => simpa using ih
    rw [hpieces]
    exact List.sublist_append_left _ _

theorem inOrder_rotatable : Rotatable (InOrder files) where
  tick := fun _ _ h => h
  clear := by
    rintro d i ⟨g, hg, hord⟩
    refine ⟨g.clear i, ?_, fun n => ((Slots.clear_sublist g i n).flatten).trans (hord n)⟩
    rw [Slots.map_clear, hg]
  lift := by
    rintro d i ⟨g, hg, hord⟩
    refine ⟨g.lift i, ?_, fun n => ((Slots.lift_sublist g i n).flatten).trans (hord n)⟩
    rw [Slots.map_lift, hg]

theorem InOrder.put (h : InOrder files d) (p : List Bytes) {d' : LogDir}
    (hfiles : d'.files = d.files.front ((d.files 0).getD [] ++ p.flatten)) (happended : d'.appended = d.appended ++ p) :
    InOrder files d' := by
  obtain ⟨g, hg, hord⟩ := h
  refine ⟨g.front ((g 0).getD [] ++ p), ?_, fun n => ?_⟩
  · rw [Slots.map_front, hfiles, hg]
    cases h : g 0 <;> simp [h]
  · cases n with
    | zero => exact List.nil_sublist _
    | succ n =>
      rw [Slots.below_put, happended, ← List.append_assoc]
      exact (hord (n + 1)).append (List.Sublist.refl p)

theorem inOrder_write (c : LogCall) (d : LogDir) (hd : InOrder files d) :
    wp (c.write env) (fun _ => InOrder files) (fun _ _ => False) (InOrder files) d :=
  write_ends (M := InOrder files) inOrder_rotatable.tick (fun _ h => h) (fun _ h => h)
    (keeps_rotateIfNeeded inOrder_rotatable c.options) inOrder_rotatable.tick (fun _ h => h.put [] (by simp) (by simp))
    (fun _ _ b _ h => h.put [b] (by simp [LogDir.append]) rfl) d hd

end InOrder

/-- What was appended: lines, in the order of the calls, each in full or cut short. -/
def Drawn (ls : List Text) (d : LogDir) : Prop := List.SublistForall₂ (· <+: ·) d.appended ls

theorem Drawn.more {ls : List Text} (h : Drawn ls d) (ms : List Text) : Drawn (ls ++ ms) d := by
  obtain ⟨l, hcut, hsub⟩ := List.sublistForall₂_iff.1 h
  exact List.sublistForall₂_iff.2 ⟨l, hcut, hsub.trans (List.sublist_append_left _ _)⟩

theorem Drawn.put {ls : List Text} {b line : Text} (h : Drawn ls d) (hb : b <+: line) :
    Drawn (ls ++ [line]) (d.append b) := by
  obtain ⟨l, hcut, hsub⟩ := List.sublistForall₂_iff.1 h
  refine List.sublistForall₂_iff.2 ⟨l ++ [line], ?_, hsub.append (List.Sublist.refl _)⟩
  exact List.rel_append hcut (.cons hb .nil)

theorem drawn_rotatable (ls : List Text) : Rotatable (Drawn ls) :=
  ⟨fun _ _ h => h, fun _ _ h => h, fun _ _ h => h⟩

theorem logLines_written (h : shouldWrite c.options c.level) : logLines [c] = [c.line] := by simp [logLines, h]

theorem drawn_write (c : LogCall) (ls : List Text) (d : LogDir) (hd : Drawn ls d) :
    wp (c.write env) (fun _ => Drawn (ls ++ logLines [c])) (fun _ _ => False) (Drawn (ls ++ logLines [c])) d := by
  refine write_ends (M := Drawn ls) (drawn_rotatable ls).tick (fun _ h => h.more _) (fun _ h => h.more _)
    (fun d hd => ?_) (drawn_rotatable ls).tick (fun _ h => h) (fun hwanted d b hb h => ?_) d hd
  · exact wp_mono (keeps_rotateIfNeeded (drawn_rotatable ls) c.options d hd) (fun _ _ h => h) (fun _ _ h => h.more _)
      fun _ h => h.more _
  · rw [logLines_written hwanted]
    exact h.put hb

theorem drawn_sessions (env : LogEnv) (sessions : List (List LogCall)) (files : Slots Bytes) :
    Drawn (logLines sessions.flatten) (logSessions env sessions { files := files }) :=
  sessions_run (D := Drawn) (fun _ ms _ h => h.more ms) sessions [] _ (fun c _ ls d hd => drawn_write c ls d hd) .nil

/-- Whatever fails and wherever a process dies, the log files read from the oldest to the newest hold
in their order whole files of before, then lines of the calls that the level lets through, each at
most once and in full or cut short: rotation never mixes, repeats or reorders lines. -/
theorem log_in_order (env : LogEnv) (sessions : List (List LogCall)) (files : Slots Bytes) (n : ℕ) :
    ∃ old new : List Bytes,
      ((logSessions env sessions { files := files }).files.below n).flatten = (old ++ new).flatten ∧
      old <+ files.below n ∧ List.SublistForall₂ (· <+: ·) new (logLines sessions.flatten) := by
  have hord : InOrder files (logSessions env sessions { files := files }) :=
    sessions_keep sessions (fun c _ d hd => inOrder_write c d hd) _ (inOrder_first files)
  obtain ⟨g, hg, hsub⟩ := hord
  obtain ⟨old, new, hsplit, hold, hnew⟩ := List.sublist_append_iff.1 (hsub n)
  refine ⟨old, new, ?_, hold, ?_⟩
  · rw [hg, Slots.below_map, ← hsplit, List.flatten_flatten]
  · have hself : List.SublistForall₂ (· <+: ·) new (logSessions env sessions { files := files }).appended :=
      hnew.sublistForall₂
    exact IsTrans.trans _ _ _ hself (drawn_sessions env sessions files)

/-! ## The end of the log -/

section Tail

variable {m : UInt64} {n : UInt32} {B : ℕ} {base : Bytes}

/-- The files up to `cget.log.<n>` hold, without a gap, the end of all there ever was. -/
def TailOf (base : Bytes) (n : ℕ) (d : LogDir) : Prop := (d.files.below (n + 1)).flatten <:+ base ++ d.appended.flatten

theorem TailOf.put {n : ℕ} (h : TailOf base n d) (b : Bytes) : TailOf base n (d.append b) := by
  obtain ⟨lost, hlost⟩ := h
  refine ⟨lost, ?_⟩
  simp only [LogDir.append, Slots.below_put, List.flatten_append, List.flatten_cons, List.flatten_nil, List.append_nil]
  rw [← List.append_assoc, hlost, List.append_assoc]

theorem TailOf.opened {n : ℕ} (h : TailOf base n d) :
    TailOf base n { d with files := d.files.front ((d.files 0).getD []) } := by
  have hsame : (Slots.below (n + 1) (d.files.front ((d.files 0).getD []))).flatten =
      (d.files.below (n + 1)).flatten := by
    simpa using Slots.below_put (s := d.files) [] n
  change (Slots.below (n + 1) (d.files.front ((d.files 0).getD []))).flatten <:+ _
  rw [hsame]
  exact h

theorem wp_logExists {Q : Bool → LogDir → Prop} {E : Exn → LogDir → Prop} {S : LogDir → Prop} {i : ℕ}
    (hmove : ∀ j k, env.moveFault j ≠ .fail k) (hQ : Q (d.files i).isSome { d with tick := d.tick + 1 })
    (hS : S { d with tick := d.tick + 1 }) : wp (logExists env i) Q E S d := by
  unfold logExists
  rw [wp_bind]
  refine wp_logOp (fun _ => ?_) (fun k h => absurd h (hmove _ k)) (fun _ _ => hS)
  simpa using hQ

/-- Below the top, a round of the loop moves a file into an empty slot. -/
theorem rotateFrom_tail (hmove : ∀ j k, env.moveFault j ≠ .fail k) {n : ℕ} :
    ∀ (index : ℕ) (d : LogDir), index ≤ n → TailOf base n d → (index < n → d.files index = none) →
      wp (rotateFrom env index) (fun _ d => TailOf base n d ∧ (0 < n → d.files 0 = none)) (fun _ _ => False)
        (TailOf base n) d
  | 0, d, _, htail, hfree => ⟨htail, hfree⟩
  | current + 1, d, hle, htail, hfree => by
    rw [rotateFrom, wp_bind]
    refine wp_logExists hmove ?_ htail
    cases hthere : d.files current with
    | none => exact rotateFrom_tail hmove current _ (by omega) htail fun _ => hthere
    | some b =>
      simp only [Option.isSome_some, if_true, wp_bind]
      -- What `remove` takes away is the oldest file or nothing.
      have hcleared : TailOf base n { d with files := d.files.clear (current + 1) } := by
        by_cases htop : current + 1 = n
        · subst htop
          exact (Slots.clear_suffix d.files (current + 1)).flatten.trans htail
        · rwa [Slots.clear_empty (hfree (by omega))]
      refine wp_logOp (fun _ => ?_) (fun k h => absurd h (hmove _ k)) (fun _ _ => htail)
      refine wp_logOp (fun _ => ?_) (fun k h => absurd h (hmove _ k)) (fun _ _ => hcleared)
      refine rotateFrom_tail hmove current _ (by omega) ?_ fun _ => Slots.lift_self
      change (Slots.below (n + 1) ((d.files.clear (current + 1)).lift current)).flatten <:+ _
      rw [Slots.lift_below Slots.clear_self (by omega)]
      exact hcleared

/-- No file is longer than `B`. -/
def Small (B : ℕ) (d : LogDir) : Prop := ∀ i b, d.files i = some b → b.length ≤ B

theorem small_rotatable : Rotatable (Small B) where
  tick := fun _ _ h => h
  clear := by
    intro d i h j b hj
    by_cases hji : j = i
    · subst hji
      simp at hj
    · exact h j b (by simpa [Slots.clear_of_ne hji] using hj)
  lift := by
    intro d i h j b hj
    by_cases hthere : (d.files i).isSome
    · by_cases hji : j = i
      · subst hji
        simp at hj
      by_cases hji' : j = i + 1
      · subst hji'
        exact h i b (by simpa [Slots.lift_succ hthere] using hj)
      · exact h j b (by simpa [Slots.lift_of_ne hji hji'] using hj)
    · rw [Slots.lift_empty (by simpa using hthere)] at hj
      exact h j b hj

/-- `cget.log` is missing or below the limit. -/
def Roomy (m : UInt64) (d : LogDir) : Prop := ((d.files 0).getD []).length < m.toNat

theorem Small.put (h : Small B d) {b : Bytes} (hlen : ((d.files 0).getD []).length + b.length ≤ B) :
    Small B (d.append b) := by
  intro i b' hi
  by_cases h0 : i = 0
  · subst h0
    obtain rfl : (d.files 0).getD [] ++ b = b' := by simpa [LogDir.append] using hi
    simpa using hlen
  · exact h i b' (by simpa [LogDir.append, Slots.front_of_pos h0] using hi)

theorem Small.opened (h : Small B d) : Small B { d with files := d.files.front ((d.files 0).getD []) } := by
  intro i b hi
  by_cases h0 : i = 0
  · subst h0
    cases hb : d.files 0 with
    | none =>
      obtain rfl : [] = b := by simpa [hb] using hi
      exact Nat.zero_le _
    | some b' =>
      obtain rfl : b' = b := by simpa [hb] using hi
      exact h 0 b' hb
  · exact h i b (by simpa [Slots.front_of_pos h0] using hi)

/-- The options under which files are rotated. -/
structure Rotates (m : UInt64) (n : UInt32) (options : LoggerOptions) : Prop where
  bytes : options.maxFileBytes = m
  files : options.maxRotatedFiles = n

/-- A rotation that gets through leaves room in `cget.log`. -/
theorem rotateIfNeeded_tail (hmove : ∀ j k, env.moveFault j ≠ .fail k) (hm : 0 < m) (hn : 0 < n)
    {options : LoggerOptions} (ho : Rotates m n options) (d : LogDir) (hd : TailOf base n.toNat d) :
    wp (rotateIfNeeded env options) (fun _ d => TailOf base n.toNat d ∧ Roomy m d) (fun _ _ => False)
      (TailOf base n.toNat) d := by
  have hm' : 0 < m.toNat := hm
  have hn' : 0 < n.toNat := hn
  have hsome : ¬(options.maxFileBytes = 0 ∨ options.maxRotatedFiles = 0) := by
    rw [ho.bytes, ho.files]
    rintro (rfl | rfl)
    · exact absurd hm (by decide)
    · exact absurd hn (by decide)
  unfold rotateIfNeeded
  rw [if_neg hsome, wp_bind]
  refine wp_logExists hmove ?_ hd
  cases hb : d.files 0 with
  | none =>
    refine ⟨hd, ?_⟩
    simpa [Roomy, hb] using hm'
  | some b =>
    simp only [Option.isSome_some, Bool.not_true, Bool.false_eq_true, if_false, wp_bind]
    unfold logSize
    rw [wp_bind]
    refine wp_logOp (fun _ => ?_) (fun k h => absurd h (hmove _ k)) (fun _ _ => hd)
    simp only [id, wp_bind, wp_get, hb, if_true, wp_pure, wp_ite]
    split
    · rename_i hlt
      refine ⟨hd, ?_⟩
      rw [ho.bytes] at hlt
      simpa [Roomy, hb] using hlt
    · rw [ho.files]
      have hloop := rotateFrom_tail hmove n.toNat { d with tick := d.tick + 1 + 1 } le_rfl hd (by omega)
      refine wp_mono hloop (fun _ d' h => ⟨h.1, ?_⟩) (fun _ _ h => h) fun _ h => h
      simpa [Roomy, h.2 hn'] using hm'

theorem tail_write (hmove : ∀ j k, env.moveFault j ≠ .fail k) (hm : 0 < m) (hn : 0 < n) (hc : Rotates m n c.options)
    (d : LogDir) (hd : TailOf base n.toNat d) :
    wp (c.write env) (fun _ => TailOf base n.toNat) (fun _ _ => False) (TailOf base n.toNat) d :=
  write_ends (M := TailOf base n.toNat) (fun _ _ h => h) (fun _ h => h) (fun _ h => h)
    (fun d hd => wp_mono (rotateIfNeeded_tail hmove hm hn hc d hd) (fun _ _ h => h.1) (fun _ _ h => h.elim)
      fun _ h => h)
    (fun _ _ h => h) (fun _ h => h.opened) (fun _ _ b _ h => h.put b) d hd

theorem small_write (hmove : ∀ j k, env.moveFault j ≠ .fail k) (hm : 0 < m) (hn : 0 < n) (hc : Rotates m n c.options)
    (hline : m.toNat + c.line.length ≤ B + 1) (d : LogDir) (hd : TailOf base n.toNat d ∧ Small B d) :
    wp (c.write env) (fun _ d => TailOf base n.toNat d ∧ Small B d) (fun _ _ => False)
      (fun d => TailOf base n.toNat d ∧ Small B d) d := by
  refine write_ends (M := fun d => (TailOf base n.toNat d ∧ Small B d) ∧ Roomy m d) (fun _ _ h => h) (fun _ h => h)
    (fun _ h => h.1) (fun d hd => ?_) (fun _ _ h => h) (fun d hd => ?_) (fun _ d b hb hd => ?_) d hd
  · have hboth := wp_and (rotateIfNeeded_tail hmove hm hn hc d hd.1)
      (keeps_rotateIfNeeded small_rotatable c.options d hd.2)
    exact wp_mono hboth (fun _ _ h => ⟨⟨h.1.1, h.2⟩, h.1.2⟩) (fun _ _ h => h.1.elim) fun _ h => h
  · obtain ⟨⟨htail, hsmall⟩, hroom⟩ := hd
    exact ⟨⟨htail.opened, hsmall.opened⟩, by simpa [Roomy] using hroom⟩
  · obtain ⟨⟨htail, hsmall⟩, hroom⟩ := hd
    have hlen := hb.length_le
    unfold Roomy at hroom
    exact ⟨htail.put b, hsmall.put (by omega)⟩

end Tail

section Rotates

variable {m : UInt64} {n : UInt32}

/-- While no check, removal or renaming fails, the files up to the last rotated one hold, without a
gap, the end of what was there and was appended since, wherever processes die and appends fail; and
no file outgrows the limit by more than a line. -/
theorem log_holds_tail (env : LogEnv) (sessions : List (List LogCall)) (files : Slots Bytes)
    (hmove : ∀ j k, env.moveFault j ≠ .fail k) (hm : 0 < m) (hn : 0 < n)
    (hcalls : ∀ c ∈ sessions.flatten, Rotates m n c.options) (B : ℕ)
    (hlines : ∀ c ∈ sessions.flatten, m.toNat + c.line.length ≤ B + 1)
    (hfiles : ∀ i b, files i = some b → b.length ≤ B) :
    let d := logSessions env sessions { files := files }
    (d.files.below (n.toNat + 1)).flatten <:+ (files.below (n.toNat + 1)).flatten ++ d.appended.flatten ∧
      List.SublistForall₂ (· <+: ·) d.appended (logLines sessions.flatten) ∧ ∀ i b, d.files i = some b →
      b.length ≤ B := by
  have hfirst : TailOf (files.below (n.toNat + 1)).flatten n.toNat { files := files } := by
    simp [TailOf]
  have hrun := sessions_keep sessions
    (fun c hc d hd => small_write hmove hm hn (hcalls c hc) (hlines c hc) d hd) _ ⟨hfirst, hfiles⟩
  exact ⟨hrun.1, drawn_sessions env sessions files, hrun.2⟩

/-- A line for files that hold 64 bytes. -/
def diskFull : LogCall where
  options := { level := .warn, maxFileBytes := 64, maxRotatedFiles := 2 }
  level := .error
  now := 0
  message := text "disk full"

theorem diskFull_rotates : Rotates 64 2 diskFull.options := ⟨rfl, rfl⟩

/-- The first process dies between two renames; the next one finds no `cget.log.1`. -/
def diesRotating : LogEnv where
  moveFault n := if n = 30 then .crash 0 else .ok

theorem log_holds_tail_diesRotating :
    let d := logSessions diesRotating [List.replicate 9 diskFull, [diskFull]] {}
    (d.files.below 3).flatten <:+ (Slots.below 3 fun _ => none).flatten ++ d.appended.flatten ∧
      List.SublistForall₂ (· <+: ·) d.appended (logLines [List.replicate 9 diskFull, [diskFull]].flatten) ∧
      ∀ i b, d.files i = some b → b.length ≤ 64 + diskFull.line.length := by
  have hcall : ∀ c ∈ [List.replicate 9 diskFull, [diskFull]].flatten, c = diskFull := by
    intro c hc
    simpa using hc
  refine log_holds_tail (m := 64) (n := 2) diesRotating _ (fun _ => none) (fun j k => ?_) (by decide) (by decide)
    (fun c hc => ?_) _ (fun c hc => ?_) (by simp)
  · simp only [diesRotating]
    split <;> simp
  · rw [hcall c hc]
    exact diskFull_rotates
  · rw [hcall c hc]
    change 64 + diskFull.line.length ≤ 64 + diskFull.line.length + 1
    omega

end Rotates

end Cget
