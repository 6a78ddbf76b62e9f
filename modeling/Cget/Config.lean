import Cget.Bandwidth
import Cget.JsonObject
import Cget.Lib.Prog
import Cget.Scheduler
/-!
# Configuration

`config_manager.cpp`: the settings, their JSON, and the layers `load` puts over each other.
The state of a `ConfigManager` program is the text of `config.json`, if there is one. A
`Setting` names a field by its canonical key; what is proved of the settings is proved once
for all of them.
-/

namespace Cget

namespace ConfigManager

open Json

structure DownloadConfig where
  maxThreads : UInt32 := 8
  maxActiveTasks : UInt32 := 2
  maxDownloadRateBytesPerSec : UInt64 := 0
  deriving DecidableEq, Repr

structure SchedulerConfig where
  maxGlobalWorkers : UInt32 := 16
  maxConcurrentTasks : UInt32 := 4
  maxChunksPerTask : UInt32 := 4
  maxChunkQueueSize : UInt32 := 1024
  policy : SchedulingPolicy := .fifo
  deriving DecidableEq, Repr

structure MetricsConfig where
  enabled : Bool := true
  sampleIntervalMs : UInt32 := 1000
  deriving DecidableEq, Repr

structure RateLimitConfig where
  globalBytesPerSec : Option UInt64 := none
  defaultPerTaskBytesPerSec : Option UInt64 := none
  deriving DecidableEq, Repr

structure NetworkConfig where
  maxRetries : UInt32 := 3
  retryBaseDelayMs : UInt32 := 1000
  proxyUrl : Option Text := none
  deriving DecidableEq, Repr

structure PersistenceConfig where
  flushIntervalMs : UInt32 := 1000
  deriving DecidableEq, Repr

structure LoggingConfig where
  level : Text := text "info"
  console : Bool := false
  maxFileBytes : UInt64 := 1024 * 1024
  maxRotatedFiles : UInt32 := 3
  deriving DecidableEq, Repr

structure Config where
  download : DownloadConfig := {}
  scheduler : SchedulerConfig := {}
  metrics : MetricsConfig := {}
  rateLimit : RateLimitConfig := {}
  network : NetworkConfig := {}
  persistence : PersistenceConfig := {}
  logging : LoggingConfig := {}
  deriving DecidableEq, Repr

/-! ## To JSON -/

/-- `toString` of a policy. -/
def policyText : SchedulingPolicy → Text
  | .fifo => text "fifo"
  | .smallTaskFirst => text "small_task_first"

def uint32 (n : UInt32) : Value := .ofUint64 n.toNat

def uint64 (n : UInt64) : Value := .ofUint64 n.toNat

def downloadToJson (c : DownloadConfig) : Value := objectOf [
  (text "max_threads", uint32 c.maxThreads),
  (text "max_active_tasks", uint32 c.maxActiveTasks),
  (text "max_download_rate_bytes_per_sec", uint64 c.maxDownloadRateBytesPerSec)]

def schedulerToJson (c : SchedulerConfig) : Value := objectOf [
  (text "max_global_workers", uint32 c.maxGlobalWorkers),
  (text "max_concurrent_tasks", uint32 c.maxConcurrentTasks),
  (text "max_chunks_per_task", uint32 c.maxChunksPerTask),
  (text "max_chunk_queue_size", uint32 c.maxChunkQueueSize),
  (text "policy", .string (policyText c.policy))]

def metricsToJson (c : MetricsConfig) : Value := objectOf [
  (text "enabled", .bool c.enabled),
  (text "sample_interval_ms", uint32 c.sampleIntervalMs)]

def limitText : Option UInt64 → Text
  | some n => decimal n.toNat
  | none => text "unlimited"

def rateLimitToJson (c : RateLimitConfig) : Value := objectOf [
  (text "global", .string (limitText c.globalBytesPerSec)),
  (text "default_per_task", .string (limitText c.defaultPerTaskBytesPerSec))]

def networkToJson (c : NetworkConfig) : Value := objectOf [
  (text "max_retries", uint32 c.maxRetries),
  (text "retry_base_delay_ms", uint32 c.retryBaseDelayMs),
  (text "proxy", optional .string c.proxyUrl)]

def persistenceToJson (c : PersistenceConfig) : Value := objectOf [
  (text "flush_interval_ms", uint32 c.flushIntervalMs)]

def loggingToJson (c : LoggingConfig) : Value := objectOf [
  (text "level", .string c.level),
  (text "console", .bool c.console),
  (text "max_file_bytes", uint64 c.maxFileBytes),
  (text "max_rotated_files", uint32 c.maxRotatedFiles)]

def toJson (c : Config) : Value := objectOf [
  (text "download", downloadToJson c.download),
  (text "scheduler", schedulerToJson c.scheduler),
  (text "metrics", metricsToJson c.metrics),
  (text "rate_limit", rateLimitToJson c.rateLimit),
  (text "network", networkToJson c.network),
  (text "persistence", persistenceToJson c.persistence),
  (text "logging", loggingToJson c.logging)]

/-! ## Parsing values -/

def invalidCommand (what : Text) : Exn := .cget .invalidCommandError what

/-- `parsePositiveUintLocal`; the sum wraps at 64 bits. -/
def parsePositiveUint (key value : Text) : Except Exn UInt32 :=
  if value = [] ∨ ¬ value.all isDigit then .error (invalidCommand (key ++ text " requires a positive integer"))
  else
    let parsed := value.foldl (fun parsed c => parsed * 10 + (c - 48).toUInt64) (0 : UInt64)
    if parsed = 0 ∨ 2 ^ 32 ≤ parsed.toNat then .error (invalidCommand (key ++ text " is out of range"))
    else .ok parsed.toUInt32

/-- The loop of `parseUint64Local`. -/
def parseUint64From (key : Text) (parsed : UInt64) : Text → Except Exn UInt64
  | [] => .ok parsed
  | c :: s =>
    if ¬ isDigit c then .error (invalidCommand (key ++ text " requires an integer"))
    else if (0 - 1 - (c - 48).toUInt64) / 10 < parsed then .error (invalidCommand (key ++ text " is out of range"))
    else parseUint64From key (parsed * 10 + (c - 48).toUInt64) s

/-- `parseUint64Local`. -/
def parseUint64 (key value : Text) : Except Exn UInt64 :=
  if value = [] then .error (invalidCommand (key ++ text " requires an integer")) else parseUint64From key 0 value

/-- `parseBoolValue`. -/
def parseBoolValue (value : Text) : Option Bool :=
  if lower value ∈ [text "1", text "true", text "yes", text "on"] then some true
  else if lower value ∈ [text "0", text "false", text "no", text "off"] then some false
  else none

def parseBool (key value : Text) : Except Exn Bool :=
  match parseBoolValue value with
  | some b => .ok b
  | none => .error (invalidCommand (key ++ text " requires true or false"))

def schedulingPolicyFromString (value : Text) : Except Exn SchedulingPolicy :=
  if lower value = text "fifo" then .ok .fifo
  else if lower value = text "small_task_first" ∨ lower value = text "small-task-first" then .ok .smallTaskFirst
  else .error (invalidCommand (text "scheduler.policy must be fifo or small_task_first"))

def isValidLogLevelName (value : Text) : Bool :=
  lower value ∈ [text "trace", text "debug", text "info", text "warn", text "warning", text "error",
    text "fatal", text "off", text "none"]

/-! ## The layers -/

def asBool : Value → Except Exn Bool
  | .bool b => .ok b
  | _ => .error wrongType

def isObject : Value → Bool
  | .object _ => true
  | _ => false

/-- A field that is there is read, one that is not keeps its value. -/
def readField {α : Type} (read : Value → Except Exn α) (object : Value) (key : Text) (out : α) : Except Exn α :=
  if object.contains key then object.field key >>= read else .ok out

/-- The same, where `null` counts as missing. -/
def readNullable {α : Type} (read : Value → Except Exn α) (object : Value) (key : Text) (out : α) : Except Exn α :=
  readField (fun v => if v.isNull then .ok out else read v) object key out

def readUint32 : Value → Text → UInt32 → Except Exn UInt32 := readField (fun v => do pure (UInt32.ofNat (← v.asUint64)))

def readUint64 : Value → Text → UInt64 → Except Exn UInt64 := readField (fun v => do pure (UInt64.ofNat (← v.asUint64)))

def readString : Value → Text → Text → Except Exn Text := readNullable (·.asString)

def readBool : Value → Text → Bool → Except Exn Bool := readField asBool

def readLimit : Value → Text → Option UInt64 → Except Exn (Option UInt64) :=
  readNullable (fun v => v.asString >>= parseBandwidthLimit)

def readProxy : Value → Text → Option Text → Except Exn (Option Text) :=
  readNullable (fun v => do pure (some (← v.asString)))

def applyLegacyConfig (root : Value) (c : Config) : Except Exn Config := do
  let maxThreads ← readUint32 root (text "max_threads") c.download.maxThreads
  let maxActiveTasks ← readUint32 root (text "max_active_tasks") c.download.maxActiveTasks
  let maxRetries ← readUint32 root (text "max_retries") c.network.maxRetries
  let retryBaseDelayMs ← readUint32 root (text "retry_base_delay_ms") c.network.retryBaseDelayMs
  let maxDownloadRateBytesPerSec ←
    readUint64 root (text "max_download_rate_bytes_per_sec") c.download.maxDownloadRateBytesPerSec
  let proxyUrl ← readProxy root (text "proxy_url") c.network.proxyUrl
  pure { c with
    download := { maxThreads, maxActiveTasks, maxDownloadRateBytesPerSec }
    network := { maxRetries, retryBaseDelayMs, proxyUrl } }

def downloadFromJson (v : Value) (c : DownloadConfig) : Except Exn DownloadConfig := do
  let maxThreads ← readUint32 v (text "max_threads") c.maxThreads
  let maxActiveTasks ← readUint32 v (text "max_active_tasks") c.maxActiveTasks
  let maxDownloadRateBytesPerSec ← readUint64 v (text "max_download_rate_bytes_per_sec") c.maxDownloadRateBytesPerSec
  pure { maxThreads, maxActiveTasks, maxDownloadRateBytesPerSec }

def schedulerFromJson (v : Value) (c : SchedulerConfig) : Except Exn SchedulerConfig := do
  let maxGlobalWorkers ← readUint32 v (text "max_global_workers") c.maxGlobalWorkers
  let maxConcurrentTasks ← readUint32 v (text "max_concurrent_tasks") c.maxConcurrentTasks
  let maxChunksPerTask ← readUint32 v (text "max_chunks_per_task") c.maxChunksPerTask
  let maxChunkQueueSize ← readUint32 v (text "max_chunk_queue_size") c.maxChunkQueueSize
  let policy ← readNullable (fun v => v.asString >>= schedulingPolicyFromString) v (text "policy") c.policy
  pure { maxGlobalWorkers, maxConcurrentTasks, maxChunksPerTask, maxChunkQueueSize, policy }

def metricsFromJson (v : Value) (c : MetricsConfig) : Except Exn MetricsConfig := do
  let enabled ← readBool v (text "enabled") c.enabled
  let sampleIntervalMs ← readUint32 v (text "sample_interval_ms") c.sampleIntervalMs
  pure { enabled, sampleIntervalMs }

def rateLimitFromJson (v : Value) (c : RateLimitConfig) : Except Exn RateLimitConfig := do
  let globalBytesPerSec ← readLimit v (text "global") c.globalBytesPerSec
  let defaultPerTaskBytesPerSec ← readLimit v (text "default_per_task") c.defaultPerTaskBytesPerSec
  pure { globalBytesPerSec, defaultPerTaskBytesPerSec }

def networkFromJson (v : Value) (c : NetworkConfig) : Except Exn NetworkConfig := do
  let maxRetries ← readUint32 v (text "max_retries") c.maxRetries
  let retryBaseDelayMs ← readUint32 v (text "retry_base_delay_ms") c.retryBaseDelayMs
  let proxyUrl ← readProxy v (text "proxy") c.proxyUrl
  pure { maxRetries, retryBaseDelayMs, proxyUrl }

def persistenceFromJson (v : Value) (c : PersistenceConfig) : Except Exn PersistenceConfig := do
  let flushIntervalMs ← readUint32 v (text "flush_interval_ms") c.flushIntervalMs
  pure { flushIntervalMs }

def loggingFromJson (v : Value) (c : LoggingConfig) : Except Exn LoggingConfig := do
  let level ← readString v (text "level") c.level
  let console ← readBool v (text "console") c.console
  let maxFileBytes ← readUint64 v (text "max_file_bytes") c.maxFileBytes
  let maxRotatedFiles ← readUint32 v (text "max_rotated_files") c.maxRotatedFiles
  pure { level, console, maxFileBytes, maxRotatedFiles }

/-- A group that is missing or no object is passed over. -/
def readGroup {α : Type} (read : Value → α → Except Exn α) (root : Value) (key : Text) (c : α) : Except Exn α :=
  readField (fun v => if isObject v then read v c else .ok c) root key c

def applyNestedConfig (root : Value) (c : Config) : Except Exn Config := do
  let download ← readGroup downloadFromJson root (text "download") c.download
  let scheduler ← readGroup schedulerFromJson root (text "scheduler") c.scheduler
  let metrics ← readGroup metricsFromJson root (text "metrics") c.metrics
  let rateLimit ← readGroup rateLimitFromJson root (text "rate_limit") c.rateLimit
  let network ← readGroup networkFromJson root (text "network") c.network
  let persistence ← readGroup persistenceFromJson root (text "persistence") c.persistence
  let logging ← readGroup loggingFromJson root (text "logging") c.logging
  pure { download, scheduler, metrics, rateLimit, network, persistence, logging }

/-- What `std::getenv` returns. -/
abbrev Environment := Text → Option Text

/-- A variable that is set is parsed; `out` stays otherwise. -/
def fromEnv {α : Type} (environment : Environment) (name : Text) (parse : Text → Except Exn α) (out : α) :
    Except Exn α :=
  match environment name with
  | some value => parse value
  | none => .ok out

def positiveFromEnv (environment : Environment) (name : Text) (out : UInt32) : Except Exn UInt32 :=
  fromEnv environment name (parsePositiveUint name) out

def applyEnv (environment : Environment) (c : Config) : Except Exn Config := do
  let maxThreads ← positiveFromEnv environment (text "CGET_MAX_THREADS") c.download.maxThreads
  let maxActiveTasks ← positiveFromEnv environment (text "CGET_MAX_ACTIVE_TASKS") c.download.maxActiveTasks
  let maxRetries ← positiveFromEnv environment (text "CGET_MAX_RETRIES") c.network.maxRetries
  let retryBaseDelayMs ← positiveFromEnv environment (text "CGET_RETRY_BASE_DELAY_MS") c.network.retryBaseDelayMs
  let maxDownloadRateBytesPerSec ← fromEnv environment (text "CGET_MAX_DOWNLOAD_RATE_BYTES_PER_SEC")
    (parseUint64 (text "CGET_MAX_DOWNLOAD_RATE_BYTES_PER_SEC")) c.download.maxDownloadRateBytesPerSec
  let maxGlobalWorkers ← positiveFromEnv environment (text "CGET_MAX_GLOBAL_WORKERS") c.scheduler.maxGlobalWorkers
  let maxChunksPerTask ← positiveFromEnv environment (text "CGET_MAX_CHUNKS_PER_TASK") c.scheduler.maxChunksPerTask
  let globalBytesPerSec ← fromEnv environment
    (text "CGET_GLOBAL_RATE_LIMIT") parseBandwidthLimit c.rateLimit.globalBytesPerSec
  let defaultPerTaskBytesPerSec ←
    fromEnv environment (text "CGET_TASK_DEFAULT_RATE_LIMIT") parseBandwidthLimit c.rateLimit.defaultPerTaskBytesPerSec
  let proxyUrl ← fromEnv environment (text "CGET_PROXY")
    (fun value => .ok (if value = [] ∨ value = text "none" then none else some value)) c.network.proxyUrl
  let level ← fromEnv environment (text "CGET_LOG_LEVEL")
    (fun value => .ok (if isValidLogLevelName value then lower value else c.logging.level)) c.logging.level
  let console ← fromEnv environment (text "CGET_LOG_CONSOLE")
    (fun value => .ok ((parseBoolValue value).getD c.logging.console)) c.logging.console
  pure {
    download := { maxThreads, maxActiveTasks, maxDownloadRateBytesPerSec }
    scheduler := { c.scheduler with maxGlobalWorkers, maxChunksPerTask }
    metrics := c.metrics
    rateLimit := { globalBytesPerSec, defaultPerTaskBytesPerSec }
    network := { maxRetries, retryBaseDelayMs, proxyUrl }
    persistence := c.persistence
    logging := { c.logging with level, console } }

/-- `std::max(lo, std::min(n, hi))`. -/
def clamp (lo hi n : UInt32) : UInt32 := max lo (min n hi)

def normalLevel (level : Text) : Text := if isValidLogLevelName level then lower level else text "info"

def normalize (c : Config) : Config where
  download := { c.download with
    maxThreads := clamp 1 32 c.download.maxThreads
    maxActiveTasks := clamp 1 16 c.download.maxActiveTasks }
  scheduler := { c.scheduler with
    maxGlobalWorkers := clamp 1 128 c.scheduler.maxGlobalWorkers
    maxConcurrentTasks := clamp 1 64 c.scheduler.maxConcurrentTasks
    maxChunksPerTask := clamp 1 64 c.scheduler.maxChunksPerTask
    maxChunkQueueSize := clamp 1 65536 c.scheduler.maxChunkQueueSize }
  metrics := { c.metrics with sampleIntervalMs := clamp 100 60000 c.metrics.sampleIntervalMs }
  rateLimit := c.rateLimit
  network := { c.network with
    maxRetries := min c.network.maxRetries 10
    retryBaseDelayMs := clamp 100 60000 c.network.retryBaseDelayMs }
  persistence := { flushIntervalMs := clamp 100 60000 c.persistence.flushIntervalMs }
  logging := { c.logging with
    level := normalLevel c.logging.level
    maxRotatedFiles := min c.logging.maxRotatedFiles 16 }

/-! ## Loading and saving -/

/-- The settings of a file before the environment is applied. -/
def configOf (file : Text) : Except Exn Config := do
  let root ← parse file
  applyNestedConfig root (← applyLegacyConfig root {})

/-- The `try` block of `load`. -/
def readConfig (environment : Environment) (file : Text) : Except Exn Config :=
  (do pure (normalize (← applyEnv environment (← configOf file)))).mapError
    (fun e : Exn => .cget .jsonCorruptedError (text "failed to read config: " ++ e.what))

/-- `ConfigManager::save`. -/
def save (c : Config) : Prog (Option Text) Exn Unit := set (some (stringify (toJson (normalize c)) 2))

/-- `ConfigManager::load`. -/
def load (environment : Environment) : Prog (Option Text) Exn Config := do
  match ← get with
  | none =>
    save {}
    Prog.ofExcept (do pure (normalize (← applyEnv environment {})))
  | some file => Prog.ofExcept (readConfig environment file)

/-! ## Keys -/

inductive Setting where
  | maxThreads | maxActiveTasks | maxDownloadRateBytesPerSec
  | maxGlobalWorkers | maxConcurrentTasks | maxChunksPerTask | maxChunkQueueSize | policy
  | metricsEnabled | sampleIntervalMs
  | globalRateLimit | defaultPerTaskRateLimit
  | maxRetries | retryBaseDelayMs | proxy
  | flushIntervalMs
  | logLevel | logConsole | maxFileBytes | maxRotatedFiles
  deriving DecidableEq, Repr

def settings : List Setting := [
  .maxThreads, .maxActiveTasks, .maxDownloadRateBytesPerSec,
  .maxGlobalWorkers, .maxConcurrentTasks, .maxChunksPerTask, .maxChunkQueueSize, .policy,
  .metricsEnabled, .sampleIntervalMs, .globalRateLimit, .defaultPerTaskRateLimit,
  .maxRetries, .retryBaseDelayMs, .proxy, .flushIntervalMs,
  .logLevel, .logConsole, .maxFileBytes, .maxRotatedFiles]

/-- The canonical key. -/
def Setting.key : Setting → Text
  | .maxThreads => text "download.max_threads"
  | .maxActiveTasks => text "download.max_active_tasks"
  | .maxDownloadRateBytesPerSec => text "download.max_download_rate_bytes_per_sec"
  | .maxGlobalWorkers => text "scheduler.max_global_workers"
  | .maxConcurrentTasks => text "scheduler.max_concurrent_tasks"
  | .maxChunksPerTask => text "scheduler.max_chunks_per_task"
  | .maxChunkQueueSize => text "scheduler.max_chunk_queue_size"
  | .policy => text "scheduler.policy"
  | .metricsEnabled => text "metrics.enabled"
  | .sampleIntervalMs => text "metrics.sample_interval_ms"
  | .globalRateLimit => text "rate_limit.global"
  | .defaultPerTaskRateLimit => text "rate_limit.default_per_task"
  | .maxRetries => text "network.max_retries"
  | .retryBaseDelayMs => text "network.retry_base_delay_ms"
  | .proxy => text "network.proxy"
  | .flushIntervalMs => text "persistence.flush_interval_ms"
  | .logLevel => text "logging.level"
  | .logConsole => text "logging.console"
  | .maxFileBytes => text "logging.max_file_bytes"
  | .maxRotatedFiles => text "logging.max_rotated_files"

/-- The short key some settings have as well. -/
def Setting.shortKey : Setting → Option Text
  | .maxThreads => text "max_threads"
  | .maxActiveTasks => text "max_active_tasks"
  | .maxDownloadRateBytesPerSec => text "max_download_rate_bytes_per_sec"
  | .globalRateLimit => text "global_rate_limit"
  | .defaultPerTaskRateLimit => text "task_default_rate_limit"
  | .maxRetries => text "max_retries"
  | .retryBaseDelayMs => text "retry_base_delay_ms"
  | .proxy => text "proxy"
  | _ => none

def canonicalKeyName (key : Text) : Except Exn Setting :=
  match settings.find? (fun s => s.shortKey = some key || s.key = key) with
  | some s => .ok s
  | none => .error (invalidCommand (text "unknown config key: " ++ key))

/-- `parsePositiveUint`, and the check of a range that follows it. -/
def parseBounded (key value : Text) (lo hi : UInt32) (message : String) : Except Exn UInt32 := do
  let parsed ← parsePositiveUint key value
  if parsed < lo ∨ hi < parsed then throw (invalidCommand (text message)) else pure parsed

def parseProxy (value : Text) : Except Exn (Option Text) :=
  if value ∈ [text "none", text "off", text "disable", text "disabled"] then .ok none
  else if (text "http://").isPrefixOf value || (text "https://").isPrefixOf value ||
    (text "socks5://").isPrefixOf value then
    .ok (some value)
  else .error (invalidCommand (text "proxy must be none, http://..., https://..., or socks5://..."))

def parseLevel (value : Text) : Except Exn Text :=
  if isValidLogLevelName value then .ok (lower value)
  else .error (invalidCommand (text "logging.level must be trace, debug, info, warn, error, fatal, or off"))

/-- The branch of `set` for a setting. -/
def Setting.update (key value : Text) (c : Config) : Setting → Except Exn Config
  | .maxThreads => do
    let maxThreads ← parseBounded key value 0 32 "max_threads must be <= 32"
    pure { c with download := { c.download with maxThreads } }
  | .maxActiveTasks => do
    let maxActiveTasks ← parseBounded key value 0 16 "max_active_tasks must be <= 16"
    pure { c with download := { c.download with maxActiveTasks } }
  | .maxDownloadRateBytesPerSec => do
    let maxDownloadRateBytesPerSec ← parseUint64 key value
    pure { c with download := { c.download with maxDownloadRateBytesPerSec } }
  | .maxGlobalWorkers => do
    let maxGlobalWorkers ← parsePositiveUint key value
    pure { c with scheduler := { c.scheduler with maxGlobalWorkers } }
  | .maxConcurrentTasks => do
    let maxConcurrentTasks ← parsePositiveUint key value
    pure { c with scheduler := { c.scheduler with maxConcurrentTasks } }
  | .maxChunksPerTask => do
    let maxChunksPerTask ← parsePositiveUint key value
    pure { c with scheduler := { c.scheduler with maxChunksPerTask } }
  | .maxChunkQueueSize => do
    let maxChunkQueueSize ← parsePositiveUint key value
    pure { c with scheduler := { c.scheduler with maxChunkQueueSize } }
  | .policy => do
    let policy ← schedulingPolicyFromString value
    pure { c with scheduler := { c.scheduler with policy } }
  | .metricsEnabled => do
    let enabled ← parseBool key value
    pure { c with metrics := { c.metrics with enabled } }
  | .sampleIntervalMs => do
    let sampleIntervalMs ← parseBounded key value 100 60000 "metrics.sample_interval_ms must be between 100 and 60000"
    pure { c with metrics := { c.metrics with sampleIntervalMs } }
  | .globalRateLimit => do
    let globalBytesPerSec ← parseBandwidthLimit value
    pure { c with rateLimit := { c.rateLimit with globalBytesPerSec } }
  | .defaultPerTaskRateLimit => do
    let defaultPerTaskBytesPerSec ← parseBandwidthLimit value
    pure { c with rateLimit := { c.rateLimit with defaultPerTaskBytesPerSec } }
  | .maxRetries => do
    let maxRetries ← parseBounded key value 0 10 "max_retries must be <= 10"
    pure { c with network := { c.network with maxRetries } }
  | .retryBaseDelayMs => do
    let retryBaseDelayMs ← parseBounded key value 100 60000 "retry_base_delay_ms must be between 100 and 60000"
    pure { c with network := { c.network with retryBaseDelayMs } }
  | .proxy => do
    let proxyUrl ← parseProxy value
    pure { c with network := { c.network with proxyUrl } }
  | .flushIntervalMs => do
    let flushIntervalMs ← parseBounded key value 100 60000 "flush_interval_ms must be between 100 and 60000"
    pure { c with persistence := { flushIntervalMs } }
  | .logLevel => do
    let level ← parseLevel value
    pure { c with logging := { c.logging with level } }
  | .logConsole => do
    let console ← parseBool key value
    pure { c with logging := { c.logging with console } }
  | .maxFileBytes => do
    let maxFileBytes ← parseUint64 key value
    pure { c with logging := { c.logging with maxFileBytes } }
  | .maxRotatedFiles => do
    let maxRotatedFiles ← parseBounded key value 0 16 "logging.max_rotated_files must be <= 16"
    pure { c with logging := { c.logging with maxRotatedFiles } }

/-- `ConfigManager::set`. -/
def set (environment : Environment) (key value : Text) : Prog (Option Text) Exn Unit := do
  let setting ← Prog.ofExcept (canonicalKeyName key)
  let c ← load environment
  let c' ← Prog.ofExcept (setting.update key value c)
  save c'

end ConfigManager

end Cget
