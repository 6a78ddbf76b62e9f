import Cget.Config
import Cget.JsonNumbers
/-!
# What the config file keeps

A setting is followed through the layers of `load` and through `save`: clamping, the
environment and the way through JSON each act on every setting by itself. From this come the
round trip of the file, and what `config set` leaves alone.
-/

namespace Cget

namespace ConfigManager

open Json

/-! ## Settings one by one -/

inductive SettingValue where
  | uint32 (n : UInt32)
  | uint64 (n : UInt64)
  | flag (b : Bool)
  | name (level : Text)
  | policy (p : SchedulingPolicy)
  | limit (bytesPerSec : Option UInt64)
  | proxy (url : Option Text)
  deriving DecidableEq, Repr

def Setting.get (c : Config) : Setting → SettingValue
  | .maxThreads => .uint32 c.download.maxThreads
  | .maxActiveTasks => .uint32 c.download.maxActiveTasks
  | .maxDownloadRateBytesPerSec => .uint64 c.download.maxDownloadRateBytesPerSec
  | .maxGlobalWorkers => .uint32 c.scheduler.maxGlobalWorkers
  | .maxConcurrentTasks => .uint32 c.scheduler.maxConcurrentTasks
  | .maxChunksPerTask => .uint32 c.scheduler.maxChunksPerTask
  | .maxChunkQueueSize => .uint32 c.scheduler.maxChunkQueueSize
  | .policy => .policy c.scheduler.policy
  | .metricsEnabled => .flag c.metrics.enabled
  | .sampleIntervalMs => .uint32 c.metrics.sampleIntervalMs
  | .globalRateLimit => .limit c.rateLimit.globalBytesPerSec
  | .defaultPerTaskRateLimit => .limit c.rateLimit.defaultPerTaskBytesPerSec
  | .maxRetries => .uint32 c.network.maxRetries
  | .retryBaseDelayMs => .uint32 c.network.retryBaseDelayMs
  | .proxy => .proxy c.network.proxyUrl
  | .flushIntervalMs => .uint32 c.persistence.flushIntervalMs
  | .logLevel => .name c.logging.level
  | .logConsole => .flag c.logging.console
  | .maxFileBytes => .uint64 c.logging.maxFileBytes
  | .maxRotatedFiles => .uint32 c.logging.maxRotatedFiles

/-- What a range makes of a value. -/
def SettingValue.clamped (lo hi : UInt32) : SettingValue → SettingValue
  | .uint32 n => .uint32 (clamp lo hi n)
  | v => v

/-- What `normalize` makes of the value of a setting. -/
def Setting.normalized (v : SettingValue) : Setting → SettingValue
  | .maxThreads => v.clamped 1 32
  | .maxActiveTasks => v.clamped 1 16
  | .maxGlobalWorkers => v.clamped 1 128
  | .maxConcurrentTasks | .maxChunksPerTask => v.clamped 1 64
  | .maxChunkQueueSize => v.clamped 1 65536
  | .sampleIntervalMs | .retryBaseDelayMs | .flushIntervalMs => v.clamped 100 60000
  | .maxRetries => v.clamped 0 10
  | .maxRotatedFiles => v.clamped 0 16
  | .logLevel => match v with
    | .name level => .name (normalLevel level)
    | v => v
  | _ => v

/-- A limit as it comes back from its text. -/
def limitBack : Option UInt64 → Option UInt64
  | some n => if n = 0 then none else some (rounded n)
  | none => none

/-- A value as it comes back from JSON. -/
def SettingValue.written : SettingValue → SettingValue
  | .uint64 n => .uint64 (rounded n)
  | .limit l => .limit (limitBack l)
  | v => v

def Config.written (c : Config) : Config :=
  { c with
    download := { c.download with maxDownloadRateBytesPerSec := rounded c.download.maxDownloadRateBytesPerSec }
    rateLimit := {
      globalBytesPerSec := limitBack c.rateLimit.globalBytesPerSec
      defaultPerTaskBytesPerSec := limitBack c.rateLimit.defaultPerTaskBytesPerSec }
    logging := { c.logging with maxFileBytes := rounded c.logging.maxFileBytes } }

variable {c c' : Config} {s : Setting} {environment : Environment}

theorem toNat_clamp (lo hi n : UInt32) : (clamp lo hi n).toNat = max lo.toNat (min n.toNat hi.toNat) := by
  have hmin : (min n hi).toNat = min n.toNat hi.toNat := by
    change (if n ≤ hi then n else hi).toNat = _
    split <;> rename_i h <;> simp only [UInt32.le_iff_toNat_le] at h <;> omega
  rw [← hmin]
  change (if lo ≤ min n hi then min n hi else lo).toNat = _
  split <;> rename_i h <;> simp only [UInt32.le_iff_toNat_le] at h <;> omega

theorem clamp_zero (hi n : UInt32) : clamp 0 hi n = min n hi := by
  apply UInt32.toNat_inj.1
  rw [toNat_clamp]
  change max 0 (min n.toNat hi.toNat) = (if n ≤ hi then n else hi).toNat
  split <;> rename_i h <;> simp only [UInt32.le_iff_toNat_le] at h <;> omega

theorem clamp_clamp (lo hi n : UInt32) : clamp lo hi (clamp lo hi n) = clamp lo hi n := by
  apply UInt32.toNat_inj.1
  rw [toNat_clamp, toNat_clamp]
  omega

theorem toLower_toLower (b : UInt8) : toLower (toLower b) = toLower b := by
  unfold toLower
  split
  · rename_i h
    have hb : 65 ≤ b.toNat ∧ b.toNat ≤ 90 := by simpa only [UInt8.le_iff_toNat_le, UInt8.reduceToNat] using h
    have hsum : (b + 32).toNat = b.toNat + 32 := by
      rw [UInt8.toNat_add]
      exact Nat.mod_eq_of_lt (by simp only [UInt8.reduceToNat]; omega)
    rw [if_neg]
    simp only [UInt8.le_iff_toNat_le, hsum, UInt8.reduceToNat]
    omega
  · rfl

theorem lower_lower (t : Text) : lower (lower t) = lower t := by
  rw [lower, lower, List.map_map]
  exact List.map_congr_left fun b _ => toLower_toLower b

theorem normalLevel_normalLevel (level : Text) : normalLevel (normalLevel level) = normalLevel level := by
  unfold normalLevel
  split
  · rename_i h
    have hvalid : isValidLogLevelName (lower level) = true := by
      rw [isValidLogLevelName, lower_lower]
      exact h
    rw [if_pos hvalid, lower_lower]
  · rfl

theorem get_normalize (c : Config) (s : Setting) : s.get (normalize c) = s.normalized (s.get c) := by
  cases s <;> simp only [Setting.get, Setting.normalized, SettingValue.clamped, normalize, clamp_zero]

theorem get_written (c : Config) (s : Setting) : s.get c.written = (s.get c).written := by
  cases s <;> rfl

theorem clamped_clamped (v : SettingValue) (lo hi : UInt32) : (v.clamped lo hi).clamped lo hi = v.clamped lo hi := by
  cases v with
  | uint32 n => exact congrArg SettingValue.uint32 (clamp_clamp lo hi n)
  | _ => rfl

theorem normalized_normalized (v : SettingValue) (s : Setting) : s.normalized (s.normalized v) = s.normalized v := by
  cases s with
  | logLevel =>
    cases v with
    | name level => exact congrArg SettingValue.name (normalLevel_normalLevel level)
    | _ => rfl
  | maxDownloadRateBytesPerSec | policy | metricsEnabled | globalRateLimit | defaultPerTaskRateLimit | proxy
  | logConsole | maxFileBytes => rfl
  | _ => exact clamped_clamped v _ _

/-- `normalize` is idempotent. -/
theorem normalize_normalize (c : Config) : normalize (normalize c) = normalize c := by
  have hlevel := normalLevel_normalLevel c.logging.level
  simp only [normalize, ← clamp_zero, clamp_clamp, hlevel]

/-- What is written is not clamped again. -/
theorem normalize_written (c : Config) : normalize c.written = (normalize c).written := rfl

/-! ## The file and back -/

section RoundTrip

variable {key : Text} {v : Value} {entries : List (Text × Value)}

theorem readField_objectOf {α : Type} {read : Value → Except Exn α} {a out : α} (hread : read v = .ok a)
    (h : lastOf key entries = some v) : readField read (objectOf entries) key out = .ok a := by
  unfold readField
  rw [contains_objectOf h, if_pos rfl]
  exact ok_bind (field_objectOf h) hread

theorem readField_missing {α : Type} {read : Value → Except Exn α} {out : α} (h : lastOf key entries = none) :
    readField read (objectOf entries) key out = .ok out := by
  have hfind : find key (entries.foldl (fun o p => assign p.1 p.2 o) []) = none := (find_foldl []).trans h
  have hcontains : (objectOf entries).contains key = false := by
    change (find key (entries.foldl (fun o p => assign p.1 p.2 o) [])).isSome = false
    rw [hfind]
    rfl
  rw [readField, hcontains, if_neg Bool.false_ne_true]

theorem readNullable_missing {α : Type} {read : Value → Except Exn α} {out : α} (h : lastOf key entries = none) :
    readNullable read (objectOf entries) key out = .ok out := readField_missing h

theorem readNullable_objectOf {α : Type} {read : Value → Except Exn α} {a out : α} (hnull : v.isNull = false)
    (hread : read v = .ok a) (h : lastOf key entries = some v) : readNullable read (objectOf entries) key out = .ok a :=
  readField_objectOf (by rw [hnull, if_neg Bool.false_ne_true]; exact hread) h

theorem asUint64_ofUint64_floor (n : Nat) : (Value.ofUint64 n).asUint64 = .ok (Binary64.nearest n).floor.toNat := by
  change (if Binary64.nearest (n : Rat) < 0 then _ else pure (Binary64.nearest (n : Rat)).floor.toNat) = _
  rw [if_neg (not_lt.2 (Binary64.nearest_nonneg (Nat.cast_nonneg n)))]
  rfl

theorem readUint32_objectOf {n out : UInt32} (h : lastOf key entries = some (uint32 n)) :
    readUint32 (objectOf entries) key out = .ok n := by
  have hn : n.toNat ≤ 2 ^ 53 := n.toNat_lt.le.trans (by norm_num)
  refine readField_objectOf (ok_bind (asUint64_ofUint64 hn) ?_) h
  exact congrArg Except.ok (UInt32.ofNat_toNat)

theorem readUint64_objectOf {n out : UInt64} (h : lastOf key entries = some (uint64 n)) :
    readUint64 (objectOf entries) key out = .ok (rounded n) :=
  readField_objectOf (ok_bind (asUint64_ofUint64_floor n.toNat) rfl) h

theorem readLimit_objectOf {l out : Option UInt64} (h : lastOf key entries = some (.string (limitText l))) :
    readLimit (objectOf entries) key out = .ok (limitBack l) := by
  have hlimit : parseBandwidthLimit (limitText l) = .ok (limitBack l) := by
    cases l with
    | none => rfl
    | some n => exact parseBandwidthLimit_decimal n
  exact readNullable_objectOf rfl (ok_bind rfl hlimit) h

/-- A proxy that was not set stays unset, over the default. -/
theorem readProxy_objectOf {p : Option Text} (h : lastOf key entries = some (optional .string p)) :
    readProxy (objectOf entries) key none = .ok p := by
  refine readField_objectOf ?_ h
  cases p <;> rfl

theorem schedulingPolicyFromString_policyText (p : SchedulingPolicy) :
    schedulingPolicyFromString (policyText p) = .ok p := by
  cases p <;> rfl

theorem readGroup_objectOf {α : Type} {read : Value → α → Except Exn α} {group : List (Text × Value)} {a c : α}
    (hread : read (objectOf group) c = .ok a) (h : lastOf key entries = some (objectOf group)) :
    readGroup read (objectOf entries) key c = .ok a :=
  readField_objectOf (by rw [show isObject (objectOf group) = true from rfl, if_pos rfl]; exact hread) h

end RoundTrip

/-- The file has none of the flat keys. -/
theorem applyLegacyConfig_toJson (c : Config) : applyLegacyConfig (toJson c) {} = .ok {} := by
  unfold applyLegacyConfig toJson
  refine ok_bind (readField_missing rfl) ?_
  refine ok_bind (readField_missing rfl) ?_
  refine ok_bind (readField_missing rfl) ?_
  refine ok_bind (readField_missing rfl) ?_
  refine ok_bind (readField_missing rfl) ?_
  exact ok_bind (readNullable_missing rfl) rfl

theorem downloadFromJson_toJson (c : DownloadConfig) : downloadFromJson (downloadToJson c) {} =
    .ok { c with maxDownloadRateBytesPerSec := rounded c.maxDownloadRateBytesPerSec } := by
  unfold downloadFromJson downloadToJson
  refine ok_bind (readUint32_objectOf rfl) ?_
  refine ok_bind (readUint32_objectOf rfl) ?_
  exact ok_bind (readUint64_objectOf rfl) rfl

theorem schedulerFromJson_toJson (c : SchedulerConfig) : schedulerFromJson (schedulerToJson c) {} = .ok c := by
  unfold schedulerFromJson schedulerToJson
  refine ok_bind (readUint32_objectOf rfl) ?_
  refine ok_bind (readUint32_objectOf rfl) ?_
  refine ok_bind (readUint32_objectOf rfl) ?_
  refine ok_bind (readUint32_objectOf rfl) ?_
  exact ok_bind (readNullable_objectOf rfl (ok_bind rfl (schedulingPolicyFromString_policyText c.policy)) rfl) rfl

theorem metricsFromJson_toJson (c : MetricsConfig) : metricsFromJson (metricsToJson c) {} = .ok c := by
  unfold metricsFromJson metricsToJson
  refine ok_bind (readField_objectOf rfl rfl) ?_
  exact ok_bind (readUint32_objectOf rfl) rfl

theorem rateLimitFromJson_toJson (c : RateLimitConfig) : rateLimitFromJson (rateLimitToJson c) {} =
    .ok ⟨limitBack c.globalBytesPerSec, limitBack c.defaultPerTaskBytesPerSec⟩ := by
  unfold rateLimitFromJson rateLimitToJson
  refine ok_bind (readLimit_objectOf rfl) ?_
  exact ok_bind (readLimit_objectOf rfl) rfl

theorem networkFromJson_toJson (c : NetworkConfig) : networkFromJson (networkToJson c) {} = .ok c := by
  unfold networkFromJson networkToJson
  refine ok_bind (readUint32_objectOf rfl) ?_
  refine ok_bind (readUint32_objectOf rfl) ?_
  exact ok_bind (readProxy_objectOf rfl) rfl

theorem persistenceFromJson_toJson (c : PersistenceConfig) : persistenceFromJson (persistenceToJson c) {} = .ok c := by
  unfold persistenceFromJson persistenceToJson
  exact ok_bind (readUint32_objectOf rfl) rfl

theorem loggingFromJson_toJson (c : LoggingConfig) : loggingFromJson (loggingToJson c) {} =
    .ok { c with maxFileBytes := rounded c.maxFileBytes } := by
  unfold loggingFromJson loggingToJson
  refine ok_bind (readNullable_objectOf (v := .string c.level) rfl rfl rfl) ?_
  refine ok_bind (readField_objectOf rfl rfl) ?_
  refine ok_bind (readUint64_objectOf rfl) ?_
  exact ok_bind (readUint32_objectOf rfl) rfl

/-- Every group is read from what was written for it. -/
theorem applyNestedConfig_toJson (c : Config) : applyNestedConfig (toJson c) {} = .ok c.written := by
  unfold applyNestedConfig toJson
  refine ok_bind (readGroup_objectOf (downloadFromJson_toJson c.download) rfl) ?_
  refine ok_bind (readGroup_objectOf (schedulerFromJson_toJson c.scheduler) rfl) ?_
  refine ok_bind (readGroup_objectOf (metricsFromJson_toJson c.metrics) rfl) ?_
  refine ok_bind (readGroup_objectOf (rateLimitFromJson_toJson c.rateLimit) rfl) ?_
  refine ok_bind (readGroup_objectOf (networkFromJson_toJson c.network) rfl) ?_
  refine ok_bind (readGroup_objectOf (persistenceFromJson_toJson c.persistence) rfl) ?_
  exact ok_bind (readGroup_objectOf (loggingFromJson_toJson c.logging) rfl) rfl

theorem readable_toJson (c : Config) : Readable (toJson c) := by
  have huint32 : ∀ n : UInt32, Readable (uint32 n) := fun n => readable_ofUint64 (n.toNat_lt.le.trans (by norm_num))
  have huint64 : ∀ n : UInt64, Readable (uint64 n) := fun n => readable_ofUint64 n.toNat_lt.le
  unfold toJson downloadToJson schedulerToJson metricsToJson rateLimitToJson networkToJson persistenceToJson
    loggingToJson
  apply readable_objectOf
  simp only [List.forall_mem_cons, List.not_mem_nil, false_implies, implies_true, and_true]
  refine ⟨?_, ?_, ?_, ?_, ?_, ?_, ?_⟩
  all_goals
    apply readable_objectOf
    simp only [List.forall_mem_cons, List.not_mem_nil, false_implies, implies_true, and_true]
  · exact ⟨huint32 _, huint32 _, huint64 _⟩
  · exact ⟨huint32 _, huint32 _, huint32 _, huint32 _, .string _⟩
  · exact ⟨.bool _, huint32 _⟩
  · exact ⟨.string _, .string _⟩
  · exact ⟨huint32 _, huint32 _, readable_optional fun _ _ => .string _⟩
  · exact huint32 _
  · exact ⟨.string _, .bool _, huint64 _, huint32 _⟩

/-- No `CGET_` variable is set. -/
def noVariables : Environment := fun _ => none

theorem readConfig_toJson (c : Config) : readConfig noVariables (stringify (toJson c) 2) = .ok
    (normalize c.written) := by
  have hconfig : configOf (stringify (toJson c) 2) = .ok c.written :=
    ok_bind (parse_stringify (readable_toJson c) 2) (ok_bind (applyLegacyConfig_toJson c) (applyNestedConfig_toJson c))
  rw [readConfig, hconfig]
  rfl

theorem run_load (environment : Environment) (file : Text) :
    (load environment).run (some file) = (Prog.ofExcept (readConfig environment file)).run (some file) := rfl

/-- What is loaded from the text that `save` writes. -/
theorem load_saved (c : Config) : (load noVariables).run (some (stringify (toJson (normalize c)) 2)) =
    (.ok (normalize c).written, some (stringify (toJson (normalize c)) 2)) := by
  have hread := readConfig_toJson (normalize c)
  rw [normalize_written, normalize_normalize] at hread
  rw [run_load, hread]
  rfl

/-- Loading what was saved gives the normalised settings, as JSON holds them. -/
theorem load_save (c : Config) (file : Option Text) :
    (do save c; load noVariables : Prog (Option Text) Exn Config).run file =
      (.ok (normalize c).written, some (stringify (toJson (normalize c)) 2)) := by
  have hsave : (save c).run file = (.ok (), some (stringify (toJson (normalize c)) 2)) := rfl
  rw [Prog.run_bind_ok hsave, load_saved]

/-- The 64-bit settings and the limits are numbers a double holds exactly. -/
structure Config.Exact (c : Config) : Prop where
  rate : c.download.maxDownloadRateBytesPerSec.toNat ≤ 2 ^ 53
  maxFileBytes : c.logging.maxFileBytes.toNat ≤ 2 ^ 53
  globalLimit : ∀ n ∈ c.rateLimit.globalBytesPerSec, n.toNat ≤ 2 ^ 53
  taskLimit : ∀ n ∈ c.rateLimit.defaultPerTaskBytesPerSec, n.toNat ≤ 2 ^ 53

/-- A limit of 0 taken for no limit. -/
def unlimitedZero (l : Option UInt64) : Option UInt64 := if l = some 0 then none else l

def Config.withoutZeroLimits (c : Config) : Config :=
  { c with rateLimit := {
      globalBytesPerSec := unlimitedZero c.rateLimit.globalBytesPerSec
      defaultPerTaskBytesPerSec := unlimitedZero c.rateLimit.defaultPerTaskBytesPerSec } }

theorem limitBack_exact {l : Option UInt64} (h : ∀ n ∈ l, Binary64.Whole n.toNat) : limitBack l = unlimitedZero l := by
  cases l with
  | none => rfl
  | some n =>
    simp only [limitBack, unlimitedZero, Option.some.injEq, rounded_whole (h n rfl)]

theorem written_exact (h : c.Exact) : c.written = c.withoutZeroLimits := by
  have hglobal := limitBack_exact (l := c.rateLimit.globalBytesPerSec) fun n hn =>
    Binary64.whole_of_le (h.globalLimit n hn)
  have htask := limitBack_exact (l := c.rateLimit.defaultPerTaskBytesPerSec) fun n hn =>
    Binary64.whole_of_le (h.taskLimit n hn)
  simp only [Config.written, Config.withoutZeroLimits, rounded_whole (Binary64.whole_of_le h.rate),
    rounded_whole (Binary64.whole_of_le h.maxFileBytes), hglobal, htask]

/-- Without `CGET_` variables, `load` after `save` returns the normalised settings, and
normalising them once more changes nothing. -/
theorem config_round_trip (c : Config) (h : c.Exact) (file : Option Text) :
    ((do save c; load noVariables : Prog (Option Text) Exn Config).run file).1 = .ok (normalize c).withoutZeroLimits ∧
      normalize (normalize c) = normalize c := by
  have hexact : (normalize c).Exact := ⟨h.rate, h.maxFileBytes, h.globalLimit, h.taskLimit⟩
  refine ⟨?_, normalize_normalize c⟩
  rw [load_save, written_exact hexact]

/-- Values out of range, a level in capitals, a proxy of bytes that JSON escapes, and a large number. -/
def oddConfig : Config where
  download := { maxThreads := 99, maxDownloadRateBytesPerSec := 9007199254740992 }
  rateLimit := { globalBytesPerSec := some 0, defaultPerTaskBytesPerSec := some 12345 }
  network := { maxRetries := 11, proxyUrl := some [34, 92, 0, 255] }
  logging := { level := text "WARN" }

theorem config_round_trip_odd :
    ((do save oddConfig; load noVariables : Prog (Option Text) Exn Config).run none).1 =
      .ok { download := { maxThreads := 32, maxDownloadRateBytesPerSec := 9007199254740992 }
            rateLimit := { globalBytesPerSec := none, defaultPerTaskBytesPerSec := some 12345 }
            network := { maxRetries := 10, proxyUrl := some [34, 92, 0, 255] }
            logging := { level := text "warn" } } := by
  have hexact : oddConfig.Exact := ⟨by decide, by decide, by rintro n ⟨⟩; decide, by rintro n ⟨⟩; decide⟩
  rw [(config_round_trip oddConfig hexact none).1]
  exact congrArg Outcome.ok (by decide +kernel)

/-! ## One setting at a time -/

/-- `set` writes one setting of the object it saves. -/
theorem get_update {key value : Text} (h : s.update key value c = .ok c') {f : Setting} (hf : f ≠ s) :
    f.get c' = f.get c := by
  cases s
  all_goals
    obtain ⟨a, -, ha⟩ := bind_ok h
    cases ha
    cases f <;> first | rfl | exact absurd rfl hf

/-- What the environment gives for a setting: a variable that is set to something usable. -/
def Setting.override (environment : Environment) : Setting → Option SettingValue
  | .maxThreads => positive "CGET_MAX_THREADS"
  | .maxActiveTasks => positive "CGET_MAX_ACTIVE_TASKS"
  | .maxRetries => positive "CGET_MAX_RETRIES"
  | .retryBaseDelayMs => positive "CGET_RETRY_BASE_DELAY_MS"
  | .maxDownloadRateBytesPerSec => (usable "CGET_MAX_DOWNLOAD_RATE_BYTES_PER_SEC"
      (parseUint64 (text "CGET_MAX_DOWNLOAD_RATE_BYTES_PER_SEC"))).map .uint64
  | .maxGlobalWorkers => positive "CGET_MAX_GLOBAL_WORKERS"
  | .maxChunksPerTask => positive "CGET_MAX_CHUNKS_PER_TASK"
  | .globalRateLimit => (usable "CGET_GLOBAL_RATE_LIMIT" parseBandwidthLimit).map .limit
  | .defaultPerTaskRateLimit => (usable "CGET_TASK_DEFAULT_RATE_LIMIT" parseBandwidthLimit).map .limit
  | .proxy => (environment (text "CGET_PROXY")).map
      (fun value => .proxy (if value = [] ∨ value = text "none" then none else some value))
  | .logLevel =>
    ((environment (text "CGET_LOG_LEVEL")).filter isValidLogLevelName).map (fun value => .name (lower value))
  | .logConsole => ((environment (text "CGET_LOG_CONSOLE")).bind parseBoolValue).map .flag
  | _ => none
where
  usable {α : Type} (name : String) (parse : Text → Except Exn α) : Option α :=
    (environment (text name)).bind (fun value => (parse value).toOption)
  positive (name : String) : Option SettingValue := (usable name (parsePositiveUint (text name))).map .uint32

theorem fromEnv_ok {α : Type} {name : Text} {parse : Text → Except Exn α} {out a : α}
    (h : fromEnv environment name parse out = .ok a) :
    a = ((environment name).bind (fun value => (parse value).toOption)).getD out := by
  unfold fromEnv at h
  cases hvalue : environment name with
  | none =>
    rw [hvalue] at h
    cases h
    rfl
  | some value =>
    rw [hvalue] at h
    simp only [Option.bind_some]
    simp only at h
    rw [h]
    rfl

/-- The environment acts on each setting by itself. -/
theorem get_applyEnv (h : applyEnv environment c = .ok c') (s : Setting) :
    s.get c' = (s.override environment).getD (s.get c) := by
  have getD_map : ∀ {α : Type} (f : α → SettingValue) (o : Option α) (a : α), (o.map f).getD (f a) = f (o.getD a) := by
    intro α f o a
    cases o <;> rfl
  obtain ⟨maxThreads, hthreads, h⟩ := bind_ok h
  obtain ⟨maxActiveTasks, hactive, h⟩ := bind_ok h
  obtain ⟨maxRetries, hretries, h⟩ := bind_ok h
  obtain ⟨retryBaseDelayMs, hdelay, h⟩ := bind_ok h
  obtain ⟨rate, hrate, h⟩ := bind_ok h
  obtain ⟨maxGlobalWorkers, hworkers, h⟩ := bind_ok h
  obtain ⟨maxChunksPerTask, hchunks, h⟩ := bind_ok h
  obtain ⟨globalBytesPerSec, hglobal, h⟩ := bind_ok h
  obtain ⟨defaultPerTaskBytesPerSec, htask, h⟩ := bind_ok h
  obtain ⟨proxyUrl, hproxy, h⟩ := bind_ok h
  obtain ⟨level, hlevel, h⟩ := bind_ok h
  obtain ⟨console, hconsole, h⟩ := bind_ok h
  cases h
  cases s with
  | maxThreads => exact (congrArg SettingValue.uint32 (fromEnv_ok hthreads)).trans (getD_map ..).symm
  | maxActiveTasks => exact (congrArg SettingValue.uint32 (fromEnv_ok hactive)).trans (getD_map ..).symm
  | maxRetries => exact (congrArg SettingValue.uint32 (fromEnv_ok hretries)).trans (getD_map ..).symm
  | retryBaseDelayMs => exact (congrArg SettingValue.uint32 (fromEnv_ok hdelay)).trans (getD_map ..).symm
  | maxDownloadRateBytesPerSec => exact (congrArg SettingValue.uint64 (fromEnv_ok hrate)).trans (getD_map ..).symm
  | maxGlobalWorkers => exact (congrArg SettingValue.uint32 (fromEnv_ok hworkers)).trans (getD_map ..).symm
  | maxChunksPerTask => exact (congrArg SettingValue.uint32 (fromEnv_ok hchunks)).trans (getD_map ..).symm
  | globalRateLimit => exact (congrArg SettingValue.limit (fromEnv_ok hglobal)).trans (getD_map ..).symm
  | defaultPerTaskRateLimit => exact (congrArg SettingValue.limit (fromEnv_ok htask)).trans (getD_map ..).symm
  | proxy =>
    have hvalue := fromEnv_ok hproxy
    change SettingValue.proxy proxyUrl = ((environment (text "CGET_PROXY")).map _).getD (.proxy c.network.proxyUrl)
    rw [hvalue]
    cases environment (text "CGET_PROXY") <;> rfl
  | logLevel =>
    have hvalue := fromEnv_ok hlevel
    change SettingValue.name level =
      (((environment (text "CGET_LOG_LEVEL")).filter isValidLogLevelName).map _).getD (.name c.logging.level)
    rw [hvalue]
    cases environment (text "CGET_LOG_LEVEL") with
    | none => rfl
    | some value =>
      rw [Option.filter_some, Option.bind_some]
      split <;> rfl
  | logConsole =>
    have hvalue := fromEnv_ok hconsole
    change SettingValue.flag console =
      (((environment (text "CGET_LOG_CONSOLE")).bind parseBoolValue).map SettingValue.flag).getD
        (.flag c.logging.console)
    rw [hvalue]
    cases environment (text "CGET_LOG_CONSOLE") with
    | none => rfl
    | some value =>
      rw [Option.bind_some, Option.bind_some]
      cases parseBoolValue value <;> rfl
  | _ => rfl

/-! ## Numbers from a file -/

/-- The 64-bit settings and the limits are numbers a double holds. -/
structure Config.Whole (c : Config) : Prop where
  rate : Binary64.Whole c.download.maxDownloadRateBytesPerSec.toNat
  maxFileBytes : Binary64.Whole c.logging.maxFileBytes.toNat
  globalLimit : ∀ n ∈ c.rateLimit.globalBytesPerSec, Binary64.Whole n.toNat
  taskLimit : ∀ n ∈ c.rateLimit.defaultPerTaskBytesPerSec, Binary64.Whole n.toNat

theorem multiplierOf_pos {unit : Text} {m : Rat} (h : multiplierOf unit = .ok m) : 0 < m := by
  unfold multiplierOf at h
  repeat' split at h
  all_goals first | (cases h; norm_num) | cases h

theorem parseBandwidthLimit_whole {value : Text} {l : Option UInt64} (h : parseBandwidthLimit value = .ok l) :
    ∀ n ∈ l, Binary64.Whole n.toNat := by
  rintro n ⟨⟩
  unfold parseBandwidthLimit at h
  dsimp only at h
  split at h
  · cases h
  split at h
  · cases h
  split at h
  · cases h
  rename_i number _
  split at h
  · cases h
  rename_i hpositive
  obtain ⟨multiplier, hmultiplier, h⟩ := bind_ok h
  split at h
  · cases h
  · cases h
    rw [UInt64.toNat_ofNat']
    apply Binary64.Whole.mod_two_pow
    exact Binary64.whole_floor (mul_nonneg (not_le.1 hpositive).le (multiplierOf_pos hmultiplier).le)

variable {v : Value} {key : Text}

theorem readField_ok {α : Type} {read : Value → Except Exn α} {out a : α} (h : readField read v key out = .ok a) :
    a = out ∨ ∃ u, v.field key = .ok u ∧ read u = .ok a := by
  unfold readField at h
  split at h
  · exact .inr (bind_ok h)
  · cases h
    exact .inl rfl

theorem readUint64_whole {out n : UInt64} (hv : Numbers IsDouble v) (hout : Binary64.Whole out.toNat)
    (h : readUint64 v key out = .ok n) : Binary64.Whole n.toNat := by
  rcases readField_ok h with rfl | ⟨u, hu, h⟩
  · exact hout
  · obtain ⟨m, hm, h⟩ := bind_ok h
    cases h
    rw [UInt64.toNat_ofNat']
    exact (asUint64_whole (hv.field hu) hm).mod_two_pow 64

theorem readLimit_whole {out l : Option UInt64} (hout : ∀ n ∈ out, Binary64.Whole n.toNat)
    (h : readLimit v key out = .ok l) :
    ∀ n ∈ l, Binary64.Whole n.toNat := by
  rcases readField_ok h with rfl | ⟨u, -, h⟩
  · exact hout
  · dsimp only at h
    split at h
    · cases h
      exact hout
    · obtain ⟨value, -, h⟩ := bind_ok h
      exact parseBandwidthLimit_whole h

theorem readGroup_ok {α : Type} {read : Value → α → Except Exn α} {a out : α} (hv : Numbers IsDouble v)
    (h : readGroup read v key out = .ok a) : a = out ∨ ∃ u, Numbers IsDouble u ∧ read u out = .ok a := by
  rcases readField_ok h with rfl | ⟨u, hu, h⟩
  · exact .inl rfl
  · split at h
    · exact .inr ⟨u, hv.field hu, h⟩
    · cases h
      exact .inl rfl

theorem applyLegacyConfig_whole (hv : Numbers IsDouble v) (hc : c.Whole) (h : applyLegacyConfig v c = .ok c') :
    c'.Whole := by
  obtain ⟨_, -, h⟩ := bind_ok h
  obtain ⟨_, -, h⟩ := bind_ok h
  obtain ⟨_, -, h⟩ := bind_ok h
  obtain ⟨_, -, h⟩ := bind_ok h
  obtain ⟨rate, hrate, h⟩ := bind_ok h
  obtain ⟨_, -, h⟩ := bind_ok h
  cases h
  exact ⟨readUint64_whole hv hc.rate hrate, hc.maxFileBytes, hc.globalLimit, hc.taskLimit⟩

theorem applyNestedConfig_whole (hv : Numbers IsDouble v) (hc : c.Whole) (h : applyNestedConfig v c = .ok c') :
    c'.Whole := by
  obtain ⟨download, hdownload, h⟩ := bind_ok h
  obtain ⟨_, -, h⟩ := bind_ok h
  obtain ⟨_, -, h⟩ := bind_ok h
  obtain ⟨rateLimit, hrateLimit, h⟩ := bind_ok h
  obtain ⟨_, -, h⟩ := bind_ok h
  obtain ⟨_, -, h⟩ := bind_ok h
  obtain ⟨logging, hlogging, h⟩ := bind_ok h
  cases h
  have hlimits : (∀ n ∈ rateLimit.globalBytesPerSec, Binary64.Whole n.toNat) ∧
      ∀ n ∈ rateLimit.defaultPerTaskBytesPerSec, Binary64.Whole n.toNat := by
    rcases readGroup_ok hv hrateLimit with rfl | ⟨u, -, h⟩
    · exact ⟨hc.globalLimit, hc.taskLimit⟩
    · obtain ⟨global, hglobal, h⟩ := bind_ok h
      obtain ⟨task, htask, h⟩ := bind_ok h
      cases h
      exact ⟨readLimit_whole hc.globalLimit hglobal, readLimit_whole hc.taskLimit htask⟩
  refine ⟨?_, ?_, hlimits.1, hlimits.2⟩
  · rcases readGroup_ok hv hdownload with rfl | ⟨u, hu, h⟩
    · exact hc.rate
    · obtain ⟨_, -, h⟩ := bind_ok h
      obtain ⟨_, -, h⟩ := bind_ok h
      obtain ⟨rate, hrate, h⟩ := bind_ok h
      cases h
      exact readUint64_whole hu hc.rate hrate
  · rcases readGroup_ok hv hlogging with rfl | ⟨u, hu, h⟩
    · exact hc.maxFileBytes
    · obtain ⟨_, -, h⟩ := bind_ok h
      obtain ⟨_, -, h⟩ := bind_ok h
      obtain ⟨bytes, hbytes, h⟩ := bind_ok h
      obtain ⟨_, -, h⟩ := bind_ok h
      cases h
      exact readUint64_whole hu hc.maxFileBytes hbytes

/-- A file gives numbers that doubles hold. -/
theorem configOf_whole {file : Text} (h : configOf file = .ok c) : c.Whole := by
  obtain ⟨root, hroot, h⟩ := bind_ok h
  obtain ⟨legacy, hlegacy, h⟩ := bind_ok h
  have hdefault : Config.Whole {} :=
    ⟨Binary64.whole_of_le (by decide), Binary64.whole_of_le (by decide), by rintro n ⟨⟩, by rintro n ⟨⟩⟩
  have hdoubles := parse_doubles hroot
  exact applyNestedConfig_whole hdoubles (applyLegacyConfig_whole hdoubles hdefault hlegacy) h

/-- Such settings come back from JSON as they are, limits of 0 apart. -/
theorem written_get_iff (h : c.Whole) (s : Setting) : (s.get c).written = s.get c ↔ s.get c ≠ .limit (some 0) := by
  have hlimit : ∀ l : Option UInt64, (∀ n ∈ l, Binary64.Whole n.toNat) →
      ((SettingValue.limit l).written = .limit l ↔ SettingValue.limit l ≠ .limit (some 0)) := by
    intro l hl
    rw [SettingValue.written, limitBack_exact hl, unlimitedZero]
    by_cases hzero : l = some 0
    · simp [hzero]
    · simp [hzero]
  cases s
  case globalRateLimit => exact hlimit _ h.globalLimit
  case defaultPerTaskRateLimit => exact hlimit _ h.taskLimit
  case maxDownloadRateBytesPerSec => simp [Setting.get, SettingValue.written, rounded_whole h.rate]
  case maxFileBytes => simp [Setting.get, SettingValue.written, rounded_whole h.maxFileBytes]
  all_goals simp [Setting.get, SettingValue.written]

/-! ## What config set leaves alone -/

/-- All settings but `s` are the same. -/
def OnlyChanges (s : Setting) (before after : Config) : Prop := ∀ f : Setting, f ≠ s → f.get after = f.get before

/-- What the variables put over a setting is what is stored for it, once clamped and written. -/
def Setting.undisturbed (environment : Environment) (before : Config) (f : Setting) : Bool :=
  match f.override environment with
  | some v => (f.normalized v).written = f.get before
  | none => f.get before ≠ .limit (some 0)

theorem readConfig_ok {file : Text} (h : readConfig environment file = .ok c) :
    ∃ base layered, configOf file = .ok base ∧ applyEnv environment base = .ok layered ∧ c = normalize layered := by
  unfold readConfig at h
  cases hbase : configOf file with
  | error e =>
    rw [hbase] at h
    cases h
  | ok base =>
    rw [hbase] at h
    cases hover : applyEnv environment base with
    | error e =>
      change Except.mapError _ (do pure (normalize (← applyEnv environment base))) = _ at h
      rw [hover] at h
      cases h
    | ok layered =>
      change Except.mapError _ (do pure (normalize (← applyEnv environment base))) = _ at h
      rw [hover] at h
      cases h
      exact ⟨base, layered, rfl, hover, rfl⟩

theorem run_bind_result {α β : Type} {m : Prog (Option Text) Exn α} {g : α → Prog (Option Text) Exn β} {r : β}
    {file file' : Option Text} (h : (m >>= g).run file = (.ok r, file')) :
    ∃ a file₁, m.run file = (.ok a, file₁) ∧ (g a).run file₁ = (.ok r, file') := by
  rcases hm : m.run file with ⟨a | e | _, file₁⟩
  · rw [Prog.run_bind_ok hm] at h
    exact ⟨a, file₁, rfl, h⟩
  · rw [Prog.run_bind_thrown hm] at h
    cases h
  · rw [Prog.run_bind_stopped hm] at h
    cases h

theorem run_ofExcept {α : Type} {x : Except Exn α} {a : α} {file file' : Option Text}
    (h : (Prog.ofExcept x).run file = (.ok a, file')) : x = .ok a ∧ file' = file := by
  cases x with
  | error e => cases h
  | ok b =>
    cases h
    exact ⟨rfl, rfl⟩

/-- What an accepted `set` does: the loaded settings, one of them updated, are saved. -/
theorem set_saves {key value file : Text} {file' : Option Text} (hkey : canonicalKeyName key = .ok s)
    (h : (set environment key value).run (some file) = (.ok (), file')) :
    ∃ c c', readConfig environment file = .ok c ∧ s.update key value c = .ok c' ∧
      file' = some (stringify (toJson (normalize c')) 2) := by
  obtain ⟨s', _, hs, h⟩ := run_bind_result h
  obtain ⟨hs, rfl⟩ := run_ofExcept hs
  rw [hkey] at hs
  cases hs
  obtain ⟨c, _, hrun, h⟩ := run_bind_result h
  rw [run_load] at hrun
  obtain ⟨hload, rfl⟩ := run_ofExcept hrun
  obtain ⟨c', _, hrun', h⟩ := run_bind_result h
  obtain ⟨hupdate, rfl⟩ := run_ofExcept hrun'
  exact ⟨c, c', hload, hupdate, (congrArg Prod.snd h).symm⟩

/-- The value of a setting that the file keeps after an accepted `set` of another one. -/
theorem get_after_set {file : Text} {before : Config} (hbefore : readConfig noVariables file = .ok before)
    (hload : readConfig environment file = .ok c) {key value : Text} (hupdate : s.update key value c = .ok c')
    {f : Setting}
    (hf : f ≠ s) : f.get (normalize c').written = f.get before ↔ f.undisturbed environment before := by
  obtain ⟨base, layered, hbase, hover, rfl⟩ := readConfig_ok hload
  obtain ⟨base', layered', hbase', hnone, rfl⟩ := readConfig_ok hbefore
  rw [hbase] at hbase'
  cases hbase'
  cases hnone
  have hwhole : (normalize base).Whole := by
    have h := configOf_whole hbase
    exact ⟨h.rate, h.maxFileBytes, h.globalLimit, h.taskLimit⟩
  have hafter : f.get (normalize c').written = (f.normalized (f.get layered)).written := by
    rw [get_written, get_normalize, get_update hupdate hf, get_normalize, normalized_normalized]
  rw [hafter, get_applyEnv hover f, Setting.undisturbed]
  cases f.override environment with
  | some v => simp
  | none =>
    rw [Option.getD_none, ← get_normalize, written_get_iff hwhole f]
    simp

/-- After an accepted `set` the file holds the old settings but for the key's, exactly when
every variable over another setting repeats what is stored, and no other stored limit is 0. -/
theorem set_changes_only_key_iff (environment : Environment) (key value file : Text) (file' : Option Text) (s : Setting)
    (before : Config) (hkey : canonicalKeyName key = .ok s) (hbefore : readConfig noVariables file = .ok before)
    (hset : (set environment key value).run (some file) = (.ok (), file')) :
    (∃ after, ((load noVariables).run file').1 = .ok after ∧ OnlyChanges s before after) ↔
      ∀ f : Setting, f ≠ s → f.undisturbed environment before := by
  obtain ⟨c, c', hload, hupdate, rfl⟩ := set_saves hkey hset
  rw [load_saved]
  constructor
  · rintro ⟨after, hcases, honly⟩ f hf
    cases hcases
    exact (get_after_set hbefore hload hupdate hf).1 (honly f hf)
  · intro h
    exact ⟨_, rfl, fun f hf => (get_after_set hbefore hload hupdate hf).2 (h f hf)⟩

/-- The variable `CGET_MAX_THREADS` alone. -/
def threadVariable : Environment := fun name => if name = text "CGET_MAX_THREADS" then some (text "16") else none

/-- An empty JSON object. -/
def emptyObject : Text := [123, 125]

/-- The key's own variable does no harm. -/
theorem set_changes_only_key_threads :
    ∃ after, ((load noVariables).run
      ((set threadVariable (text "max_threads") (text "5")).run (some emptyObject)).2).1 =
      .ok after ∧ OnlyChanges .maxThreads {} after := by
  have hset : (set threadVariable (text "max_threads") (text "5")).run (some emptyObject) =
      (.ok (), ((set threadVariable (text "max_threads") (text "5")).run (some emptyObject)).2) :=
    Prod.ext (by decide +kernel) rfl
  refine (set_changes_only_key_iff threadVariable (text "max_threads") (text "5") emptyObject _ .maxThreads {}
    (by decide +kernel) (by decide +kernel) hset).2 ?_
  intro f hf
  cases f <;> first | exact absurd rfl hf | decide +kernel

/-- The variable for the threads is written to the file by a `set` of the retries. -/
theorem set_writes_variable :
    ¬ ∀ (environment : Environment) (key value file : Text) (file' : Option Text) (s : Setting) (before : Config),
      canonicalKeyName key = .ok s → readConfig noVariables file = .ok before →
      (set environment key value).run (some file) = (.ok (), file') →
      ∃ after, ((load noVariables).run file').1 = .ok after ∧ OnlyChanges s before after := by
  intro h
  have hset : (set threadVariable (text "max_retries") (text "5")).run (some emptyObject) =
      (.ok (), ((set threadVariable (text "max_retries") (text "5")).run (some emptyObject)).2) :=
    Prod.ext (by decide +kernel) rfl
  obtain ⟨after, hafter, honly⟩ := h threadVariable (text "max_retries") (text "5") emptyObject
    ((set threadVariable (text "max_retries") (text "5")).run (some emptyObject)).2 .maxRetries {}
    (by decide +kernel) (by decide +kernel) hset
  have hthreads : ((load noVariables).run
      ((set threadVariable (text "max_retries") (text "5")).run (some emptyObject)).2).1 =
      .ok { download := { maxThreads := 16 }, network := { maxRetries := 5 } } := by decide +kernel
  rw [hthreads] at hafter
  cases hafter
  exact absurd (honly .maxThreads (by decide)) (by decide)

end ConfigManager

end Cget
