import Cget.Settings
/-!
# Layers of settings

Where each setting stands: its variable, its key in a group of the file, its flat key in older
files. The three passes of `load` over these act on every setting by itself: each leaves it or
takes it from its own place.
-/

namespace Cget

namespace ConfigManager

open Json

/-! ## Where a setting stands -/

/-- What a setting is: a number within bounds, any 64-bit number, or something else. -/
inductive Kind where
  | narrow (lo hi : UInt32)
  | wide
  | flag
  | name
  | policy
  | limit
  | proxy
  deriving DecidableEq, Repr

def Setting.kind : Setting → Kind
  | .maxThreads => .narrow 1 32
  | .maxActiveTasks => .narrow 1 16
  | .maxGlobalWorkers => .narrow 1 128
  | .maxConcurrentTasks | .maxChunksPerTask => .narrow 1 64
  | .maxChunkQueueSize => .narrow 1 65536
  | .sampleIntervalMs | .retryBaseDelayMs | .flushIntervalMs => .narrow 100 60000
  | .maxRetries => .narrow 0 10
  | .maxRotatedFiles => .narrow 0 16
  | .maxDownloadRateBytesPerSec | .maxFileBytes => .wide
  | .metricsEnabled | .logConsole => .flag
  | .logLevel => .name
  | .policy => .policy
  | .globalRateLimit | .defaultPerTaskRateLimit => .limit
  | .proxy => .proxy

/-- The group of the file a setting stands in. -/
def Setting.group : Setting → Text
  | .maxThreads | .maxActiveTasks | .maxDownloadRateBytesPerSec => text "download"
  | .maxGlobalWorkers | .maxConcurrentTasks | .maxChunksPerTask | .maxChunkQueueSize | .policy => text "scheduler"
  | .metricsEnabled | .sampleIntervalMs => text "metrics"
  | .globalRateLimit | .defaultPerTaskRateLimit => text "rate_limit"
  | .maxRetries | .retryBaseDelayMs | .proxy => text "network"
  | .flushIntervalMs => text "persistence"
  | .logLevel | .logConsole | .maxFileBytes | .maxRotatedFiles => text "logging"

/-- Its key in the group. -/
def Setting.field : Setting → Text
  | .maxThreads => text "max_threads"
  | .maxActiveTasks => text "max_active_tasks"
  | .maxDownloadRateBytesPerSec => text "max_download_rate_bytes_per_sec"
  | .maxGlobalWorkers => text "max_global_workers"
  | .maxConcurrentTasks => text "max_concurrent_tasks"
  | .maxChunksPerTask => text "max_chunks_per_task"
  | .maxChunkQueueSize => text "max_chunk_queue_size"
  | .policy => text "policy"
  | .metricsEnabled => text "enabled"
  | .sampleIntervalMs => text "sample_interval_ms"
  | .globalRateLimit => text "global"
  | .defaultPerTaskRateLimit => text "default_per_task"
  | .maxRetries => text "max_retries"
  | .retryBaseDelayMs => text "retry_base_delay_ms"
  | .proxy => text "proxy"
  | .flushIntervalMs => text "flush_interval_ms"
  | .logLevel => text "level"
  | .logConsole => text "console"
  | .maxFileBytes => text "max_file_bytes"
  | .maxRotatedFiles => text "max_rotated_files"

/-- Its flat key in older files. -/
def Setting.flatKey : Setting → Option Text
  | .maxThreads => text "max_threads"
  | .maxActiveTasks => text "max_active_tasks"
  | .maxRetries => text "max_retries"
  | .retryBaseDelayMs => text "retry_base_delay_ms"
  | .maxDownloadRateBytesPerSec => text "max_download_rate_bytes_per_sec"
  | .proxy => text "proxy_url"
  | _ => none

/-- Its variable. -/
def Setting.variable : Setting → Option Text
  | .maxThreads => text "CGET_MAX_THREADS"
  | .maxActiveTasks => text "CGET_MAX_ACTIVE_TASKS"
  | .maxRetries => text "CGET_MAX_RETRIES"
  | .retryBaseDelayMs => text "CGET_RETRY_BASE_DELAY_MS"
  | .maxDownloadRateBytesPerSec => text "CGET_MAX_DOWNLOAD_RATE_BYTES_PER_SEC"
  | .maxGlobalWorkers => text "CGET_MAX_GLOBAL_WORKERS"
  | .maxChunksPerTask => text "CGET_MAX_CHUNKS_PER_TASK"
  | .globalRateLimit => text "CGET_GLOBAL_RATE_LIMIT"
  | .defaultPerTaskRateLimit => text "CGET_TASK_DEFAULT_RATE_LIMIT"
  | .proxy => text "CGET_PROXY"
  | .logLevel => text "CGET_LOG_LEVEL"
  | .logConsole => text "CGET_LOG_CONSOLE"
  | _ => none

/-- The entry of an object; nothing else has entries. -/
def entryOf (v : Value) (key : Text) : Option Value :=
  match v with
  | .object o => find key o
  | _ => none

def Setting.nested (document : Value) (s : Setting) : Option Value :=
  (entryOf document s.group).bind (entryOf · s.field)

def Setting.flat (document : Value) (s : Setting) : Option Value := s.flatKey.bind (entryOf document)

/-! ## What the passes take from a layer -/

/-- Where `null` counts as missing. -/
def Kind.nullable : Kind → Bool
  | .name | .policy | .limit | .proxy => true
  | _ => false

/-- A variable that names no level and no switch is passed over. -/
def Kind.names (value : Text) : Kind → Bool
  | .name => isValidLogLevelName value
  | .flag => (parseBoolValue value).isSome
  | _ => true

/-- What is read from an entry. -/
def Kind.read (v : Value) : Kind → Option SettingValue
  | .narrow _ _ => v.asUint64.toOption.map fun n => .uint32 (UInt32.ofNat n)
  | .wide => v.asUint64.toOption.map fun n => .uint64 (UInt64.ofNat n)
  | .flag => (asBool v).toOption.map .flag
  | .name => v.asString.toOption.map .name
  | .policy => (v.asString >>= schedulingPolicyFromString).toOption.map .policy
  | .limit => (v.asString >>= parseBandwidthLimit).toOption.map .limit
  | .proxy => v.asString.toOption.map fun url => .proxy (some url)

/-- What is read from the variable `name`. -/
def Kind.parse (name value : Text) : Kind → Option SettingValue
  | .narrow _ _ => (parsePositiveUint name value).toOption.map .uint32
  | .wide => (parseUint64 name value).toOption.map .uint64
  | .flag => (parseBoolValue value).map .flag
  | .name => some (.name (lower value))
  | .policy => none
  | .limit => (parseBandwidthLimit value).toOption.map .limit
  | .proxy => some (.proxy (if value = [] ∨ value = text "none" then none else some value))

/-- An entry that is there was read; otherwise the value stays. -/
def Took (k : Kind) (entry : Option Value) (before after : SettingValue) : Prop :=
  (entry.filter fun v => !(k.nullable && v.isNull)).elim (some before) k.read = some after

section Passes

variable {α : Type} {v u : Value} {key : Text} {k : Kind} {c c' : Config} {f : α → SettingValue}
  {read : Value → Except Exn α} {a out : α} {environment : Environment}

theorem toOption_map {x : Except Exn α} {b : α} (h : x = .ok b) : x.toOption.map f = some (f b) := by rw [h]; rfl

theorem readField_entry (h : readField read v key out = .ok a) :
    entryOf v key = none ∧ a = out ∨ ∃ w, entryOf v key = some w ∧ read w = .ok a := by
  unfold readField at h
  cases v with
  | object o =>
    change (if (find key o).isSome then _ else _) = _ at h
    change find key o = none ∧ _ ∨ ∃ w, find key o = some w ∧ _
    cases hfind : find key o with
    | none =>
      rw [hfind] at h
      cases h
      exact .inl ⟨rfl, rfl⟩
    | some w =>
      rw [hfind, Option.isSome_some, if_pos rfl] at h
      obtain ⟨w', hw, h⟩ := bind_ok h
      obtain ⟨o', ho, hw⟩ := bind_ok hw
      cases ho
      rw [hfind] at hw
      cases hw
      exact .inr ⟨w, rfl, h⟩
  | _ =>
    cases h
    exact .inl ⟨rfl, rfl⟩

/-- A field that cannot be `null`. -/
theorem readField_took (hk : k.nullable = false) (hread : ∀ w b, read w = .ok b → k.read w = some (f b))
    (h : readField read v key out = .ok a) : Took k (entryOf v key) (f out) (f a) := by
  unfold Took
  rcases readField_entry h with ⟨hentry, rfl⟩ | ⟨w, hentry, hw⟩
  · rw [hentry]
    rfl
  · rw [hentry, Option.filter_some, hk, Bool.false_and]
    exact hread w a hw

/-- A field where `null` counts as missing. -/
theorem readNullable_took (hk : k.nullable = true) (hread : ∀ w b, read w = .ok b → k.read w = some (f b))
    (h : readNullable read v key out = .ok a) : Took k (entryOf v key) (f out) (f a) := by
  unfold Took
  rcases readField_entry h with ⟨hentry, rfl⟩ | ⟨w, hentry, hw⟩
  · rw [hentry]
    rfl
  · rw [hentry, Option.filter_some, hk, Bool.true_and]
    split at hw
    · rename_i hnull
      cases hw
      rw [hnull]
      rfl
    · rename_i hnull
      rw [Bool.not_eq_true _ |>.mp hnull]
      exact hread w a hw

theorem readUint32_took {lo hi n out : UInt32} (h : readUint32 v key out = .ok n) :
    Took (.narrow lo hi) (entryOf v key) (.uint32 out) (.uint32 n) := by
  refine readField_took rfl (fun w b hb => ?_) h
  obtain ⟨m, hm, hb⟩ := bind_ok hb
  cases hb
  exact toOption_map (f := fun n => .uint32 (UInt32.ofNat n)) hm

theorem readUint64_took {n out : UInt64} (h : readUint64 v key out = .ok n) :
    Took .wide (entryOf v key) (.uint64 out) (.uint64 n) := by
  refine readField_took rfl (fun w b hb => ?_) h
  obtain ⟨m, hm, hb⟩ := bind_ok hb
  cases hb
  exact toOption_map (f := fun n => .uint64 (UInt64.ofNat n)) hm

theorem readBool_took {b out : Bool} (h : readBool v key out = .ok b) :
    Took .flag (entryOf v key) (.flag out) (.flag b) :=
  readField_took rfl (fun _ _ => toOption_map) h

theorem readString_took {t out : Text} (h : readString v key out = .ok t) :
    Took .name (entryOf v key) (.name out) (.name t) :=
  readNullable_took rfl (fun _ _ => toOption_map) h

theorem readLimit_took {l out : Option UInt64} (h : readLimit v key out = .ok l) :
    Took .limit (entryOf v key) (.limit out) (.limit l) := readNullable_took rfl (fun _ _ => toOption_map) h

theorem readProxy_took {url out : Option Text} (h : readProxy v key out = .ok url) :
    Took .proxy (entryOf v key) (.proxy out) (.proxy url) := by
  refine readNullable_took rfl (fun w b hb => ?_) h
  obtain ⟨t, ht, hb⟩ := bind_ok hb
  cases hb
  exact toOption_map (f := fun url => .proxy (some url)) ht

theorem took_nothing (k : Kind) (x : SettingValue) : Took k none x x := rfl

/-- A field of a group; a group that is no object has none. -/
theorem readGroup_took {read : Value → α → Except Exn α} {field : Text} (g : α → SettingValue)
    (h : readGroup read v key out = .ok a)
    (hread : ∀ u b, read u out = .ok b → Took k (entryOf u field) (g out) (g b)) :
    Took k ((entryOf v key).bind (entryOf · field)) (g out) (g a) := by
  rcases readField_entry h with ⟨hentry, rfl⟩ | ⟨u, hentry, hu⟩
  · rw [hentry]
    exact took_nothing k _
  · rw [hentry, Option.bind_some]
    cases u with
    | object o => exact hread _ a hu
    | _ =>
      cases hu
      exact took_nothing k _

/-- The flat keys act on each setting by itself. -/
theorem get_applyLegacyConfig (h : applyLegacyConfig v c = .ok c') (s : Setting) :
    Took s.kind (s.flat v) (s.get c) (s.get c') := by
  obtain ⟨maxThreads, hthreads, h⟩ := bind_ok h
  obtain ⟨maxActiveTasks, hactive, h⟩ := bind_ok h
  obtain ⟨maxRetries, hretries, h⟩ := bind_ok h
  obtain ⟨retryBaseDelayMs, hdelay, h⟩ := bind_ok h
  obtain ⟨rate, hrate, h⟩ := bind_ok h
  obtain ⟨proxyUrl, hproxy, h⟩ := bind_ok h
  cases h
  cases s with
  | maxThreads => exact readUint32_took hthreads
  | maxActiveTasks => exact readUint32_took hactive
  | maxRetries => exact readUint32_took hretries
  | retryBaseDelayMs => exact readUint32_took hdelay
  | maxDownloadRateBytesPerSec => exact readUint64_took hrate
  | proxy => exact readProxy_took hproxy
  | _ => exact took_nothing _ _

theorem downloadFromJson_took {d d' : DownloadConfig} (h : downloadFromJson v d = .ok d') :
    Took (.narrow 1 32) (entryOf v (text "max_threads")) (.uint32 d.maxThreads) (.uint32 d'.maxThreads) ∧
      Took (.narrow 1 16) (entryOf v (text "max_active_tasks")) (.uint32 d.maxActiveTasks) (.uint32 d'.maxActiveTasks) ∧
      Took .wide (entryOf v (text "max_download_rate_bytes_per_sec")) (.uint64 d.maxDownloadRateBytesPerSec)
        (.uint64 d'.maxDownloadRateBytesPerSec) := by
  obtain ⟨maxThreads, hthreads, h⟩ := bind_ok h
  obtain ⟨maxActiveTasks, hactive, h⟩ := bind_ok h
  obtain ⟨rate, hrate, h⟩ := bind_ok h
  cases h
  exact ⟨readUint32_took hthreads, readUint32_took hactive, readUint64_took hrate⟩

theorem schedulerFromJson_took {d d' : SchedulerConfig} (h : schedulerFromJson v d = .ok d') :
    Took (.narrow 1 128) (entryOf v (text "max_global_workers")) (.uint32 d.maxGlobalWorkers)
      (.uint32 d'.maxGlobalWorkers) ∧
      Took (.narrow 1 64) (entryOf v (text "max_concurrent_tasks")) (.uint32 d.maxConcurrentTasks)
        (.uint32 d'.maxConcurrentTasks) ∧
      Took (.narrow 1 64) (entryOf v (text "max_chunks_per_task")) (.uint32 d.maxChunksPerTask)
        (.uint32 d'.maxChunksPerTask) ∧
      Took (.narrow 1 65536) (entryOf v (text "max_chunk_queue_size")) (.uint32 d.maxChunkQueueSize)
        (.uint32 d'.maxChunkQueueSize) ∧
      Took .policy (entryOf v (text "policy")) (.policy d.policy) (.policy d'.policy) := by
  obtain ⟨maxGlobalWorkers, hworkers, h⟩ := bind_ok h
  obtain ⟨maxConcurrentTasks, hconcurrent, h⟩ := bind_ok h
  obtain ⟨maxChunksPerTask, hchunks, h⟩ := bind_ok h
  obtain ⟨maxChunkQueueSize, hqueue, h⟩ := bind_ok h
  obtain ⟨policy, hpolicy, h⟩ := bind_ok h
  cases h
  exact ⟨readUint32_took hworkers, readUint32_took hconcurrent, readUint32_took hchunks, readUint32_took hqueue,
    readNullable_took rfl (fun _ _ => toOption_map) hpolicy⟩

theorem metricsFromJson_took {d d' : MetricsConfig} (h : metricsFromJson v d = .ok d') :
    Took .flag (entryOf v (text "enabled")) (.flag d.enabled) (.flag d'.enabled) ∧
      Took (.narrow 100 60000) (entryOf v (text "sample_interval_ms")) (.uint32 d.sampleIntervalMs)
        (.uint32 d'.sampleIntervalMs) := by
  obtain ⟨enabled, henabled, h⟩ := bind_ok h
  obtain ⟨sampleIntervalMs, hinterval, h⟩ := bind_ok h
  cases h
  exact ⟨readBool_took henabled, readUint32_took hinterval⟩

theorem rateLimitFromJson_took {d d' : RateLimitConfig} (h : rateLimitFromJson v d = .ok d') :
    Took .limit (entryOf v (text "global")) (.limit d.globalBytesPerSec) (.limit d'.globalBytesPerSec) ∧
      Took .limit (entryOf v (text "default_per_task")) (.limit d.defaultPerTaskBytesPerSec)
        (.limit d'.defaultPerTaskBytesPerSec) := by
  obtain ⟨globalBytesPerSec, hglobal, h⟩ := bind_ok h
  obtain ⟨defaultPerTaskBytesPerSec, htask, h⟩ := bind_ok h
  cases h
  exact ⟨readLimit_took hglobal, readLimit_took htask⟩

theorem networkFromJson_took {d d' : NetworkConfig} (h : networkFromJson v d = .ok d') :
    Took (.narrow 0 10) (entryOf v (text "max_retries")) (.uint32 d.maxRetries) (.uint32 d'.maxRetries) ∧
      Took (.narrow 100 60000) (entryOf v (text "retry_base_delay_ms")) (.uint32 d.retryBaseDelayMs)
        (.uint32 d'.retryBaseDelayMs) ∧
      Took .proxy (entryOf v (text "proxy")) (.proxy d.proxyUrl) (.proxy d'.proxyUrl) := by
  obtain ⟨maxRetries, hretries, h⟩ := bind_ok h
  obtain ⟨retryBaseDelayMs, hdelay, h⟩ := bind_ok h
  obtain ⟨proxyUrl, hproxy, h⟩ := bind_ok h
  cases h
  exact ⟨readUint32_took hretries, readUint32_took hdelay, readProxy_took hproxy⟩

theorem persistenceFromJson_took {d d' : PersistenceConfig} (h : persistenceFromJson v d = .ok d') :
    Took (.narrow 100 60000) (entryOf v (text "flush_interval_ms")) (.uint32 d.flushIntervalMs)
      (.uint32 d'.flushIntervalMs) := by
  obtain ⟨flushIntervalMs, hinterval, h⟩ := bind_ok h
  cases h
  exact readUint32_took hinterval

theorem loggingFromJson_took {d d' : LoggingConfig} (h : loggingFromJson v d = .ok d') :
    Took .name (entryOf v (text "level")) (.name d.level) (.name d'.level) ∧
      Took .flag (entryOf v (text "console")) (.flag d.console) (.flag d'.console) ∧
      Took .wide (entryOf v (text "max_file_bytes")) (.uint64 d.maxFileBytes) (.uint64 d'.maxFileBytes) ∧
      Took (.narrow 0 16) (entryOf v (text "max_rotated_files")) (.uint32 d.maxRotatedFiles)
        (.uint32 d'.maxRotatedFiles) := by
  obtain ⟨level, hlevel, h⟩ := bind_ok h
  obtain ⟨console, hconsole, h⟩ := bind_ok h
  obtain ⟨maxFileBytes, hbytes, h⟩ := bind_ok h
  obtain ⟨maxRotatedFiles, hfiles, h⟩ := bind_ok h
  cases h
  exact ⟨readString_took hlevel, readBool_took hconsole, readUint64_took hbytes, readUint32_took hfiles⟩

/-- The groups act on each setting by itself. -/
theorem get_applyNestedConfig (h : applyNestedConfig v c = .ok c') (s : Setting) :
    Took s.kind (s.nested v) (s.get c) (s.get c') := by
  obtain ⟨download, hdownload, h⟩ := bind_ok h
  obtain ⟨scheduler, hscheduler, h⟩ := bind_ok h
  obtain ⟨metrics, hmetrics, h⟩ := bind_ok h
  obtain ⟨rateLimit, hrateLimit, h⟩ := bind_ok h
  obtain ⟨network, hnetwork, h⟩ := bind_ok h
  obtain ⟨persistence, hpersistence, h⟩ := bind_ok h
  obtain ⟨logging, hlogging, h⟩ := bind_ok h
  cases h
  cases s with
  | maxThreads =>
    exact readGroup_took (fun d => .uint32 d.maxThreads) hdownload fun _ _ h => (downloadFromJson_took h).1
  | maxActiveTasks =>
    exact readGroup_took (fun d => .uint32 d.maxActiveTasks) hdownload fun _ _ h => (downloadFromJson_took h).2.1
  | maxDownloadRateBytesPerSec =>
    exact readGroup_took (fun d => .uint64 d.maxDownloadRateBytesPerSec) hdownload fun _ _ h =>
      (downloadFromJson_took h).2.2
  | maxGlobalWorkers =>
    exact readGroup_took (fun d => .uint32 d.maxGlobalWorkers) hscheduler fun _ _ h => (schedulerFromJson_took h).1
  | maxConcurrentTasks =>
    exact readGroup_took (fun d => .uint32 d.maxConcurrentTasks) hscheduler fun _ _ h => (schedulerFromJson_took h).2.1
  | maxChunksPerTask =>
    exact readGroup_took (fun d => .uint32 d.maxChunksPerTask) hscheduler fun _ _ h => (schedulerFromJson_took h).2.2.1
  | maxChunkQueueSize =>
    exact readGroup_took (fun d => .uint32 d.maxChunkQueueSize) hscheduler fun _ _ h =>
      (schedulerFromJson_took h).2.2.2.1
  | policy =>
    exact readGroup_took (fun d => .policy d.policy) hscheduler fun _ _ h => (schedulerFromJson_took h).2.2.2.2
  | metricsEnabled => exact readGroup_took (fun d => .flag d.enabled) hmetrics fun _ _ h => (metricsFromJson_took h).1
  | sampleIntervalMs =>
    exact readGroup_took (fun d => .uint32 d.sampleIntervalMs) hmetrics fun _ _ h => (metricsFromJson_took h).2
  | globalRateLimit =>
    exact readGroup_took (fun d => .limit d.globalBytesPerSec) hrateLimit fun _ _ h => (rateLimitFromJson_took h).1
  | defaultPerTaskRateLimit =>
    exact readGroup_took (fun d => .limit d.defaultPerTaskBytesPerSec) hrateLimit fun _ _ h =>
      (rateLimitFromJson_took h).2
  | maxRetries => exact readGroup_took (fun d => .uint32 d.maxRetries) hnetwork fun _ _ h => (networkFromJson_took h).1
  | retryBaseDelayMs =>
    exact readGroup_took (fun d => .uint32 d.retryBaseDelayMs) hnetwork fun _ _ h => (networkFromJson_took h).2.1
  | proxy => exact readGroup_took (fun d => .proxy d.proxyUrl) hnetwork fun _ _ h => (networkFromJson_took h).2.2
  | flushIntervalMs =>
    exact readGroup_took (fun d => .uint32 d.flushIntervalMs) hpersistence fun _ _ h => persistenceFromJson_took h
  | logLevel => exact readGroup_took (fun d => .name d.level) hlogging fun _ _ h => (loggingFromJson_took h).1
  | logConsole => exact readGroup_took (fun d => .flag d.console) hlogging fun _ _ h => (loggingFromJson_took h).2.1
  | maxFileBytes =>
    exact readGroup_took (fun d => .uint64 d.maxFileBytes) hlogging fun _ _ h => (loggingFromJson_took h).2.2.1
  | maxRotatedFiles =>
    exact readGroup_took (fun d => .uint32 d.maxRotatedFiles) hlogging fun _ _ h => (loggingFromJson_took h).2.2.2

/-! ### The environment -/

/-- A variable that is set to something usable was parsed; otherwise the value stays. -/
def TookVariable (environment : Environment) (s : Setting) (before after : SettingValue) : Prop :=
  ((s.variable.bind environment).filter (s.kind.names ·)).elim (some before)
    (s.kind.parse (s.variable.getD []) ·) = some after

theorem fromEnv_took {s : Setting} {name : Text} {parse : Text → Except Exn α} (g : α → SettingValue)
    (hname : s.variable = some name) (hparse : ∀ value b, environment name = some value → parse value = .ok b →
      (if s.kind.names value then s.kind.parse name value else some (g out)) = some (g b))
    (h : fromEnv environment name parse out = .ok a) : TookVariable environment s (g out) (g a) := by
  rw [TookVariable, hname, Option.bind_some, Option.getD_some]
  unfold fromEnv at h
  cases hvalue : environment name with
  | none =>
    rw [hvalue] at h
    cases h
    rfl
  | some value =>
    rw [hvalue] at h
    have hread := hparse value a hvalue h
    rw [Option.filter_some]
    split at hread
    · rename_i hnames
      rw [if_pos hnames]
      exact hread
    · rename_i hnames
      rw [if_neg hnames]
      exact hread

/-- The variables act on each setting by itself. -/
theorem get_applyEnv_took (h : applyEnv environment c = .ok c') (s : Setting) :
    TookVariable environment s (s.get c) (s.get c') := by
  obtain ⟨maxThreads, hthreads, h⟩ := bind_ok h
  obtain ⟨maxActiveTasks, hactive, h⟩ := bind_ok h
  obtain ⟨maxRetries, hretries, h⟩ := bind_ok h
  obtain ⟨retryBaseDelayMs, hdelay, h⟩ := bind_ok h
  obtain ⟨rate, hrate, h⟩ := bind_ok h
  obtain ⟨maxGlobalWorkers, hworkers, h⟩ := bind_ok h
  obtain ⟨maxChunksPerTask, hchunks, h⟩ := bind_ok h
  obtain ⟨globalBytesPerSec, hglobal, h⟩ := bind_ok h
  obtain ⟨defaultPerTaskBytesPerSec, htask, h⟩ := bind_ok h
  obtain ⟨proxyUrl, hproxy, h⟩ := bind_ok h
  obtain ⟨level, hlevel, h⟩ := bind_ok h
  obtain ⟨console, hconsole, h⟩ := bind_ok h
  cases h
  cases s with
  | maxThreads => exact fromEnv_took .uint32 rfl (fun _ _ _ => toOption_map) hthreads
  | maxActiveTasks => exact fromEnv_took .uint32 rfl (fun _ _ _ => toOption_map) hactive
  | maxRetries => exact fromEnv_took .uint32 rfl (fun _ _ _ => toOption_map) hretries
  | retryBaseDelayMs => exact fromEnv_took .uint32 rfl (fun _ _ _ => toOption_map) hdelay
  | maxDownloadRateBytesPerSec => exact fromEnv_took .uint64 rfl (fun _ _ _ => toOption_map) hrate
  | maxGlobalWorkers => exact fromEnv_took .uint32 rfl (fun _ _ _ => toOption_map) hworkers
  | maxChunksPerTask => exact fromEnv_took .uint32 rfl (fun _ _ _ => toOption_map) hchunks
  | globalRateLimit => exact fromEnv_took .limit rfl (fun _ _ _ => toOption_map) hglobal
  | defaultPerTaskRateLimit => exact fromEnv_took .limit rfl (fun _ _ _ => toOption_map) htask
  | proxy =>
    exact fromEnv_took .proxy rfl (fun _ _ _ h => congrArg (some ∘ SettingValue.proxy) (Except.ok.inj h)) hproxy
  | logLevel =>
    refine fromEnv_took .name rfl (fun value b _ h => ?_) hlevel
    cases h
    change (if isValidLogLevelName value = true then _ else _) = _
    split <;> rfl
  | logConsole =>
    refine fromEnv_took .flag rfl (fun value b _ h => ?_) hconsole
    cases h
    change (if (parseBoolValue value).isSome = true then (parseBoolValue value).map SettingValue.flag else _) = _
    cases parseBoolValue value <;> rfl
  | _ => rfl

end Passes

end ConfigManager

end Cget
