import Cget.Commit
import Cget.JsonObject
/-!
# Task files as text

`taskToJson` and `taskFromJson` of `persistence_store.cpp`, byte by byte. Elsewhere a task
file that `saveTask` wrote is `TaskText.written t`; here it is the text `taskToJson t`, and
both load alike.
-/

namespace Cget

open Json

/-- `toString` of a chunk status. -/
def ChunkStatus.toText : ChunkStatus → Text
  | .pending => text "Pending"
  | .downloading => text "Downloading"
  | .paused => text "Paused"
  | .completed => text "Completed"
  | .failed => text "Failed"

def taskStatusFromString (value : Text) : Except Exn TaskStatus :=
  match [TaskStatus.created, .pending, .queued, .downloading, .paused, .retrying, .failed, .completed,
    .cancelled, .removed,
    .corrupted, .pendingRecovery, .metadataMismatch].find? (fun s => value = s.toText) with
  | some s => .ok s
  | none => .error (.other (text "unknown task status: " ++ value))

def chunkStatusFromString (value : Text) : Except Exn ChunkStatus :=
  match [ChunkStatus.pending, .downloading, .paused, .completed, .failed].find? (fun s => value = s.toText) with
  | some s => .ok s
  | none => .error (.other (text "unknown chunk status: " ++ value))

/-- How clock readings, in nanoseconds, are printed and read. -/
structure Timestamps where
  formatTimestamp : Nat → Text
  parseTimestamp : Text → Nat

def wholeSeconds (n : Nat) : Prop := n % 1000000000 = 0

instance : DecidablePred wholeSeconds := fun n => inferInstanceAs (Decidable (n % 1000000000 = 0))

namespace PersistenceStore

variable (ts : Timestamps)

/-! ## Writing -/

def chunkToJson (c : Chunk) : Value :=
  objectOf [
    (text "index", .ofUint64 c.index),
    (text "start", .ofUint64 c.start),
    (text "end", .ofUint64 c.stop),
    (text "downloaded", .ofUint64 c.downloaded),
    (text "status", .string c.status.toText),
    (text "retry_count", .ofUint64 c.retryCount),
    (text "temp_path", .string c.tempPath)]

/-- The object `taskToJson` prints. The total is a counter of 64 bits. -/
def taskObject (t : DownloadTask) : Value :=
  objectOf [
    (text "id", .string t.id),
    (text "url", .string t.url),
    (text "file_name", .string t.fileName),
    (text "target_path", .string t.targetPath),
    (text "temp_dir", .string t.tempDir),
    (text "status", .string t.status.toText),
    (text "file_size", .ofUint64 t.fileSize),
    (text "downloaded", .ofUint64 (t.downloaded % 2 ^ 64)),
    (text "created_at", .string (ts.formatTimestamp t.createdAt)),
    (text "updated_at", .string (ts.formatTimestamp t.updatedAt)),
    (text "started_at", optional (fun n => .string (ts.formatTimestamp n)) t.startedAt),
    (text "requested_threads", .ofUint64 t.requestedThreads),
    (text "last_error", optional .string t.lastError),
    (text "expected_sha256", optional .string t.expectedSha256),
    (text "remote_etag", optional .string t.remoteEtag),
    (text "remote_last_modified", optional .string t.remoteLastModified),
    (text "final_url", optional .string t.finalUrl),
    (text "task_rate_limit_bytes_per_sec", optional .ofUint64 t.taskRateLimitBytesPerSec),
    (text "scheduler_max_chunks", .ofUint64 t.schedulerMaxChunks),
    (text "scheduler_priority", .ofUint64 t.schedulerPriority),
    (text "peak_speed_bytes_per_sec", .number t.peakSpeedBytesPerSec),
    (text "failed_chunk_count", .ofUint64 t.failedChunks),
    (text "retry_count", .ofUint64 t.persistedRetryCount),
    (text "chunks", .array (t.chunks.map chunkToJson))]

def taskToJson (t : DownloadTask) : Text := stringify (taskObject ts t) 2

/-! ## Reading -/

/-- A field that may be missing or null. -/
def optionalField {α : Type} (root : Value) (key : Text) (read : Value → Except Exn α) : Except Exn (Option α) := do
  if root.contains key then
    let v ← root.field key
    if v.isNull then pure none
    else
      let a ← read v
      pure (some a)
  else pure none

/-- A field that keeps its default when it is missing. -/
def fieldOr {α : Type} (root : Value) (key : Text) (read : Value → Except Exn α) (default : α) : Except Exn α := do
  if root.contains key then
    let v ← root.field key
    read v
  else pure default

def uint64Field (root : Value) (key : Text) : Except Exn Nat := do
  let v ← root.field key
  v.asUint64

def stringField (root : Value) (key : Text) : Except Exn Text := do
  let v ← root.field key
  v.asString

def timeField (root : Value) (key : Text) : Except Exn Nat := do
  let s ← stringField root key
  pure (ts.parseTimestamp s)

def invalidChunkRange : Exn := .cget .jsonCorruptedError (text "invalid chunk range in task JSON")

def chunkFromJson (item : Value) : Except Exn Chunk := do
  let index ← uint64Field item (text "index")
  let start ← uint64Field item (text "start")
  let stop ← uint64Field item (text "end")
  let downloaded ← uint64Field item (text "downloaded")
  let status ← stringField item (text "status")
  let status ← chunkStatusFromString status
  let retryCount ← item.field (text "retry_count")
  let retryCount ← retryCount.asUint32
  let tempPath ← stringField item (text "temp_path")
  let c : Chunk := { index, start, stop, downloaded, status, retryCount, tempPath }
  if c.acceptable then pure c else throw invalidChunkRange

/-- What `taskFromJson` reads from the parsed text. -/
def taskFromObject (root : Value) : Except Exn DownloadTask := do
  let id ← stringField root (text "id")
  let url ← stringField root (text "url")
  let fileName ← stringField root (text "file_name")
  let targetPath ← stringField root (text "target_path")
  let tempDir ← stringField root (text "temp_dir")
  let status ← stringField root (text "status")
  let status ← taskStatusFromString status
  let fileSize ← uint64Field root (text "file_size")
  let downloaded ← uint64Field root (text "downloaded")
  let createdAt ← timeField ts root (text "created_at")
  let updatedAt ← timeField ts root (text "updated_at")
  let startedAt ← optionalField root (text "started_at") (·.asString)
  let lastError ← optionalField root (text "last_error") (·.asString)
  let expectedSha256 ← optionalField root (text "expected_sha256") (·.asString)
  let remoteEtag ← optionalField root (text "remote_etag") (·.asString)
  let remoteLastModified ← optionalField root (text "remote_last_modified") (·.asString)
  let finalUrl ← optionalField root (text "final_url") (·.asString)
  let taskRateLimitBytesPerSec ← optionalField root (text "task_rate_limit_bytes_per_sec") (·.asUint64)
  let schedulerMaxChunks ← fieldOr root (text "scheduler_max_chunks") (·.asUint32) 0
  let schedulerPriority ← fieldOr root (text "scheduler_priority") (·.asUint32) 0
  let peakSpeedBytesPerSec ← fieldOr root (text "peak_speed_bytes_per_sec") (·.asNumber) 0
  let failedChunks ← fieldOr root (text "failed_chunk_count") (·.asUint32) 0
  let persistedRetryCount ← fieldOr root (text "retry_count") (·.asUint32) 0
  let requestedThreads ← fieldOr root (text "requested_threads") (·.asUint32) 0
  let items ← root.field (text "chunks")
  let items ← items.asArray
  let chunks ← items.mapM chunkFromJson
  pure {
    id, url, fileName, targetPath, tempDir, status, fileSize, downloaded, chunks, createdAt, updatedAt,
    startedAt := startedAt.map ts.parseTimestamp, lastError, expectedSha256, remoteEtag, remoteLastModified, finalUrl,
    taskRateLimitBytesPerSec, schedulerMaxChunks, schedulerPriority, peakSpeedBytesPerSec, failedChunks,
    persistedRetryCount, requestedThreads }

/-- The handlers of `taskFromJson`: other exceptions become errors of the program. -/
def rethrown : Exn → Exn
  | .cget code what => .cget code what
  | .other what => .cget .jsonCorruptedError what

def taskFromJson (s : Text) : Except Exn DownloadTask := (parse s >>= taskFromObject ts).mapError rethrown

/-- `tryLoadTaskFile`. -/
def tryLoadTaskFile (file : Option Text) : Option DownloadTask := file.bind (fun s => (taskFromJson ts s).toOption)

end PersistenceStore

/-! ## Tasks that fit into a task file -/

/-- The numbers of a chunk are exact in JSON. -/
structure Chunk.Exact (c : Chunk) : Prop where
  index : c.index ≤ 2 ^ 53
  start : c.start ≤ 2 ^ 53
  stop : c.stop ≤ 2 ^ 53
  downloaded : c.downloaded ≤ 2 ^ 53
  retryCount : c.retryCount < 2 ^ 32

/-- The numbers of a task are exact in JSON, and its times are whole seconds. -/
structure DownloadTask.Exact (t : DownloadTask) : Prop where
  fileSize : t.fileSize ≤ 2 ^ 53
  downloaded : t.downloaded ≤ 2 ^ 53
  rateLimit : ∀ n ∈ t.taskRateLimitBytesPerSec, n ≤ 2 ^ 53
  peakSpeed : ∃ n : Nat, n ≤ 2 ^ 53 ∧ t.peakSpeedBytesPerSec = n
  schedulerMaxChunks : t.schedulerMaxChunks < 2 ^ 32
  schedulerPriority : t.schedulerPriority < 2 ^ 32
  failedChunks : t.failedChunks < 2 ^ 32
  persistedRetryCount : t.persistedRetryCount < 2 ^ 32
  requestedThreads : t.requestedThreads < 2 ^ 32
  createdAt : wholeSeconds t.createdAt
  updatedAt : wholeSeconds t.updatedAt
  startedAt : ∀ n ∈ t.startedAt, wholeSeconds n
  chunks : ∀ c ∈ t.chunks, c.Exact

/-- The numbers of a task but its rate limit are exact in JSON. -/
structure DownloadTask.ExactCounts (t : DownloadTask) : Prop where
  fileSize : t.fileSize ≤ 2 ^ 53
  downloaded : t.downloaded ≤ 2 ^ 53
  peakSpeed : ∃ n : Nat, n ≤ 2 ^ 53 ∧ t.peakSpeedBytesPerSec = n
  schedulerMaxChunks : t.schedulerMaxChunks < 2 ^ 32
  schedulerPriority : t.schedulerPriority < 2 ^ 32
  failedChunks : t.failedChunks < 2 ^ 32
  persistedRetryCount : t.persistedRetryCount < 2 ^ 32
  requestedThreads : t.requestedThreads < 2 ^ 32
  chunks : ∀ c ∈ t.chunks, c.Exact

theorem DownloadTask.Exact.counts {t : DownloadTask} (h : t.Exact) : t.ExactCounts :=
  ⟨h.fileSize, h.downloaded, h.peakSpeed, h.schedulerMaxChunks, h.schedulerPriority, h.failedChunks,
    h.persistedRetryCount, h.requestedThreads, h.chunks⟩

/-- The chunk its text holds: the numbers as doubles. -/
def Chunk.reread (c : Chunk) : Chunk :=
  { c with
    index := throughDouble c.index
    start := throughDouble c.start
    stop := throughDouble c.stop
    downloaded := throughDouble c.downloaded
    retryCount := throughDouble c.retryCount % 2 ^ 32 }

/-- The task its text holds: the times as they are printed, the numbers as doubles. -/
def DownloadTask.reread (ts : Timestamps) (t : DownloadTask) : DownloadTask :=
  { t with
    fileSize := throughDouble t.fileSize
    downloaded := throughDouble (t.downloaded % 2 ^ 64)
    chunks := t.chunks.map (·.reread)
    createdAt := ts.parseTimestamp (ts.formatTimestamp t.createdAt)
    updatedAt := ts.parseTimestamp (ts.formatTimestamp t.updatedAt)
    startedAt := t.startedAt.map (fun n => ts.parseTimestamp (ts.formatTimestamp n))
    taskRateLimitBytesPerSec := t.taskRateLimitBytesPerSec.map throughDouble
    schedulerMaxChunks := throughDouble t.schedulerMaxChunks % 2 ^ 32
    schedulerPriority := throughDouble t.schedulerPriority % 2 ^ 32
    failedChunks := throughDouble t.failedChunks % 2 ^ 32
    persistedRetryCount := throughDouble t.persistedRetryCount % 2 ^ 32
    requestedThreads := throughDouble t.requestedThreads % 2 ^ 32 }

theorem throughDouble_word {n : Nat} (h : n < 2 ^ 32) : throughDouble n % 2 ^ 32 = n := by
  rw [throughDouble_eq (by omega), Nat.mod_eq_of_lt h]

theorem Chunk.Exact.reread_eq {c : Chunk} (h : c.Exact) : c.reread = c := by
  rw [Chunk.reread, throughDouble_eq h.index, throughDouble_eq h.start, throughDouble_eq h.stop,
    throughDouble_eq h.downloaded, throughDouble_word h.retryCount]

/-- Exact numbers are held as they are. -/
theorem DownloadTask.ExactCounts.reread_eq {t : DownloadTask} (h : t.ExactCounts) (ts : Timestamps) :
    t.reread ts =
      { t with
        createdAt := ts.parseTimestamp (ts.formatTimestamp t.createdAt)
        updatedAt := ts.parseTimestamp (ts.formatTimestamp t.updatedAt)
        startedAt := t.startedAt.map (fun n => ts.parseTimestamp (ts.formatTimestamp n))
        taskRateLimitBytesPerSec := t.taskRateLimitBytesPerSec.map throughDouble } := by
  have hchunks : t.chunks.map (·.reread) = t.chunks := by
    rw [List.map_congr_left fun c hc => (h.chunks c hc).reread_eq, List.map_id']
  have hdownloaded := h.downloaded
  rw [DownloadTask.reread, hchunks, throughDouble_eq h.fileSize, Nat.mod_eq_of_lt (by omega),
    throughDouble_eq hdownloaded,
    throughDouble_word h.schedulerMaxChunks, throughDouble_word h.schedulerPriority, throughDouble_word h.failedChunks,
    throughDouble_word h.persistedRetryCount, throughDouble_word h.requestedThreads]

/-- A task with whole seconds and an exact rate limit is what its text holds. -/
theorem DownloadTask.Exact.reread_eq {ts : Timestamps} {t : DownloadTask}
    (hts : ∀ n, wholeSeconds n → ts.parseTimestamp (ts.formatTimestamp n) = n) (h : t.Exact) : t.reread ts = t := by
  have hstarted : t.startedAt.map (fun n => ts.parseTimestamp (ts.formatTimestamp n)) = t.startedAt := by
    cases hs : t.startedAt with
    | none => rfl
    | some n => exact congrArg some (hts n (h.startedAt n hs))
  have hrate : t.taskRateLimitBytesPerSec.map throughDouble = t.taskRateLimitBytesPerSec := by
    cases hr : t.taskRateLimitBytesPerSec with
    | none => rfl
    | some n => exact congrArg some (throughDouble_eq (h.rateLimit n hr))
  rw [h.counts.reread_eq, hts _ h.createdAt, hts _ h.updatedAt, hstarted, hrate]

/-- The numbers of a chunk fit 64 bits. -/
structure Chunk.InRange (c : Chunk) : Prop where
  index : c.index < 2 ^ 64
  start : c.start < 2 ^ 64
  stop : c.stop < 2 ^ 64
  downloaded : c.downloaded < 2 ^ 64
  retryCount : c.retryCount < 2 ^ 64

/-- The numbers of a task fit 64 bits, a rate limit up to its rounding, and its peak speed is a whole number. -/
structure DownloadTask.InRange (t : DownloadTask) : Prop where
  fileSize : t.fileSize < 2 ^ 64
  rateLimit : ∀ n ∈ t.taskRateLimitBytesPerSec, n ≤ 2 ^ 64
  peakSpeed : ∃ n : Nat, Binary64.Whole n ∧ n ≤ 2 ^ 64 ∧ t.peakSpeedBytesPerSec = n
  schedulerMaxChunks : t.schedulerMaxChunks < 2 ^ 64
  schedulerPriority : t.schedulerPriority < 2 ^ 64
  failedChunks : t.failedChunks < 2 ^ 64
  persistedRetryCount : t.persistedRetryCount < 2 ^ 64
  requestedThreads : t.requestedThreads < 2 ^ 64
  chunks : ∀ c ∈ t.chunks, c.InRange

theorem lt_64_of_le {n : Nat} (h : n ≤ 2 ^ 53) : n < 2 ^ 64 := by omega

theorem lt_64_of_lt_32 {n : Nat} (h : n < 2 ^ 32) : n < 2 ^ 64 := by omega

theorem Chunk.Exact.inRange {c : Chunk} (h : c.Exact) : c.InRange where
  index := lt_64_of_le h.index
  start := lt_64_of_le h.start
  stop := lt_64_of_le h.stop
  downloaded := lt_64_of_le h.downloaded
  retryCount := lt_64_of_lt_32 h.retryCount

theorem DownloadTask.Exact.inRange {t : DownloadTask} (h : t.Exact) : t.InRange where
  fileSize := lt_64_of_le h.fileSize
  rateLimit n hn := (lt_64_of_le (h.rateLimit n hn)).le
  peakSpeed := by
    obtain ⟨n, hn, hp⟩ := h.peakSpeed
    exact ⟨n, Binary64.whole_of_le hn, (lt_64_of_le hn).le, hp⟩
  schedulerMaxChunks := lt_64_of_lt_32 h.schedulerMaxChunks
  schedulerPriority := lt_64_of_lt_32 h.schedulerPriority
  failedChunks := lt_64_of_lt_32 h.failedChunks
  persistedRetryCount := lt_64_of_lt_32 h.persistedRetryCount
  requestedThreads := lt_64_of_lt_32 h.requestedThreads
  chunks c hc := (h.chunks c hc).inRange

/-- A task that its text holds as it is. -/
structure DownloadTask.KeptBy (ts : Timestamps) (t : DownloadTask) : Prop where
  inRange : t.InRange
  same : t.reread ts = t

theorem DownloadTask.Exact.kept {ts : Timestamps} {t : DownloadTask}
    (hts : ∀ n, wholeSeconds n → ts.parseTimestamp (ts.formatTimestamp n) = n) (h : t.Exact) : t.KeptBy ts :=
  ⟨h.inRange, h.reread_eq hts⟩

theorem taskStatusFromString_toText (s : TaskStatus) : taskStatusFromString s.toText = .ok s := by
  cases s <;> rfl

theorem chunkStatusFromString_toText (s : ChunkStatus) : chunkStatusFromString s.toText = .ok s := by
  cases s <;> rfl

namespace PersistenceStore

variable {ts : Timestamps} {key : Text} {entries : List (Text × Value)}

/-! ## Reading a field that was written -/

theorem stringField_objectOf {s : Text} (h : lastOf key entries = some (.string s)) :
    stringField (objectOf entries) key = .ok s :=
  ok_bind (field_objectOf h) rfl

theorem uint64Field_objectOf {n : Nat} (h : lastOf key entries = some (.ofUint64 n)) :
    uint64Field (objectOf entries) key = .ok (throughDouble n) :=
  ok_bind (field_objectOf h) (asUint64_throughDouble n)

theorem timeField_objectOf {s : Text} (h : lastOf key entries = some (.string s)) :
    timeField ts (objectOf entries) key = .ok (ts.parseTimestamp s) :=
  ok_bind (stringField_objectOf h) rfl

theorem fieldOr_objectOf {α : Type} {read : Value → Except Exn α} {default a : α} {v : Value} (hread : read v = .ok a)
    (h : lastOf key entries = some v) : fieldOr (objectOf entries) key read default = .ok a := by
  unfold fieldOr
  rw [contains_objectOf h, if_pos rfl]
  exact ok_bind (field_objectOf h) hread

theorem optionalField_objectOf {α β : Type} {read : Value → Except Exn β} {f : α → Value} {g : α → β} {a : Option α}
    (hread : ∀ x ∈ a, (f x).isNull = false ∧ read (f x) = .ok (g x)) (h : lastOf key entries = some (optional f a)) :
    optionalField (objectOf entries) key read = .ok (a.map g) := by
  unfold optionalField
  rw [contains_objectOf h, if_pos rfl]
  refine ok_bind (field_objectOf h) ?_
  cases a with
  | none => rfl
  | some x =>
    obtain ⟨hnull, hx⟩ := hread x rfl
    rw [Json.optional, hnull, if_neg Bool.false_ne_true]
    exact ok_bind hx rfl

theorem optionalString_objectOf {a : Option Text} (h : lastOf key entries = some (optional .string a)) :
    optionalField (objectOf entries) key (·.asString) = .ok a := by
  have hread : optionalField (objectOf entries) key (·.asString) = .ok (a.map id) :=
    optionalField_objectOf (f := Value.string) (fun x _ => ⟨rfl, rfl⟩) h
  rwa [Option.map_id] at hread

/-! ## Chunks and tasks -/

theorem chunkFromJson_chunkToJson (c : Chunk) :
    chunkFromJson (chunkToJson c) = if c.reread.acceptable then .ok c.reread else .error invalidChunkRange := by
  unfold chunkFromJson chunkToJson
  refine ok_bind (uint64Field_objectOf rfl) ?_
  refine ok_bind (uint64Field_objectOf rfl) ?_
  refine ok_bind (uint64Field_objectOf rfl) ?_
  refine ok_bind (uint64Field_objectOf rfl) ?_
  refine ok_bind (stringField_objectOf rfl) ?_
  refine ok_bind (chunkStatusFromString_toText c.status) ?_
  refine ok_bind (field_objectOf rfl) ?_
  refine ok_bind (asUint32_throughDouble c.retryCount) ?_
  exact ok_bind (stringField_objectOf rfl) rfl

theorem mapM_chunkFromJson (cs : List Chunk) : (cs.map chunkToJson).mapM chunkFromJson =
    if (cs.map (·.reread)).all (·.acceptable) then .ok (cs.map (·.reread)) else .error invalidChunkRange := by
  induction cs with
  | nil => rfl
  | cons c cs ih =>
    rw [List.map_cons, List.mapM_cons, chunkFromJson_chunkToJson, List.map_cons, List.all_cons]
    cases hc : c.reread.acceptable with
    | false => rfl
    | true =>
      refine ok_bind (a := c.reread) rfl ?_
      rw [ih]
      cases hcs : (cs.map (·.reread)).all (·.acceptable) <;> rfl

theorem taskFromObject_taskObject (t : DownloadTask) : taskFromObject ts (taskObject ts t) =
    if (t.reread ts).chunks.all (·.acceptable) then .ok (t.reread ts) else .error invalidChunkRange := by
  unfold taskFromObject taskObject
  refine ok_bind (stringField_objectOf rfl) ?_
  refine ok_bind (stringField_objectOf rfl) ?_
  refine ok_bind (stringField_objectOf rfl) ?_
  refine ok_bind (stringField_objectOf rfl) ?_
  refine ok_bind (stringField_objectOf rfl) ?_
  refine ok_bind (stringField_objectOf rfl) ?_
  refine ok_bind (taskStatusFromString_toText t.status) ?_
  refine ok_bind (uint64Field_objectOf rfl) ?_
  refine ok_bind (uint64Field_objectOf rfl) ?_
  refine ok_bind (timeField_objectOf rfl) ?_
  refine ok_bind (timeField_objectOf rfl) ?_
  refine ok_bind (optionalField_objectOf (g := ts.formatTimestamp) (fun n _ => ⟨rfl, rfl⟩) rfl) ?_
  refine ok_bind (optionalString_objectOf rfl) ?_
  refine ok_bind (optionalString_objectOf rfl) ?_
  refine ok_bind (optionalString_objectOf rfl) ?_
  refine ok_bind (optionalString_objectOf rfl) ?_
  refine ok_bind (optionalString_objectOf rfl) ?_
  refine ok_bind (optionalField_objectOf (g := throughDouble) (fun n _ => ⟨rfl, asUint64_throughDouble n⟩) rfl) ?_
  refine ok_bind (fieldOr_objectOf (asUint32_throughDouble t.schedulerMaxChunks) rfl) ?_
  refine ok_bind (fieldOr_objectOf (asUint32_throughDouble t.schedulerPriority) rfl) ?_
  refine ok_bind (fieldOr_objectOf (v := .number t.peakSpeedBytesPerSec) rfl rfl) ?_
  refine ok_bind (fieldOr_objectOf (asUint32_throughDouble t.failedChunks) rfl) ?_
  refine ok_bind (fieldOr_objectOf (asUint32_throughDouble t.persistedRetryCount) rfl) ?_
  refine ok_bind (fieldOr_objectOf (asUint32_throughDouble t.requestedThreads) rfl) ?_
  refine ok_bind (field_objectOf rfl) ?_
  refine ok_bind (a := t.chunks.map chunkToJson) rfl ?_
  rw [mapM_chunkFromJson]
  change _ = if (t.chunks.map (·.reread)).all (·.acceptable) then _ else _
  cases hall : (t.chunks.map (·.reread)).all (·.acceptable) with
  | false => rfl
  | true =>
    refine ok_bind (a := t.chunks.map (·.reread)) rfl ?_
    rw [Option.map_map]
    rfl

theorem readable_chunkToJson {c : Chunk} (h : c.InRange) : Readable (chunkToJson c) := by
  apply readable_objectOf
  simp only [List.forall_mem_cons, List.not_mem_nil, false_implies, implies_true, and_true]
  exact ⟨readable_ofUint64 h.index.le, readable_ofUint64 h.start.le, readable_ofUint64 h.stop.le,
    readable_ofUint64 h.downloaded.le, .string _, readable_ofUint64 h.retryCount.le, .string _⟩

theorem readable_taskObject {t : DownloadTask} (h : t.InRange) : Readable (taskObject ts t) := by
  have hstring : ∀ a : Option Text, Readable (Json.optional Value.string a) :=
    fun a => readable_optional fun x _ => .string x
  have hchunks : Readable (.array (t.chunks.map chunkToJson)) := by
    apply Readable.array
    intro v hv
    obtain ⟨c, hc, rfl⟩ := List.mem_map.1 hv
    exact readable_chunkToJson (h.chunks c hc)
  obtain ⟨peak, hwhole, hpeak, hp⟩ := h.peakSpeed
  apply readable_objectOf
  rw [hp]
  simp only [List.forall_mem_cons, List.not_mem_nil, false_implies, implies_true, and_true]
  exact ⟨.string _, .string _, .string _, .string _, .string _, .string _, readable_ofUint64 h.fileSize.le,
    readable_ofUint64 (Nat.mod_lt _ (Nat.two_pow_pos 64)).le, .string _, .string _,
    readable_optional fun _ _ => .string _,
    readable_ofUint64 h.requestedThreads.le, hstring _, hstring _, hstring _, hstring _, hstring _,
    readable_optional fun n hn => readable_ofUint64 (h.rateLimit n hn), readable_ofUint64 h.schedulerMaxChunks.le,
    readable_ofUint64 h.schedulerPriority.le, .number _ hwhole hpeak, readable_ofUint64 h.failedChunks.le,
    readable_ofUint64 h.persistedRetryCount.le, hchunks⟩

/-- What is read from the text of a task. -/
theorem taskFromJson_reread {t : DownloadTask} (h : t.InRange) : taskFromJson ts (taskToJson ts t) =
    if (t.reread ts).chunks.all (·.acceptable) then .ok (t.reread ts) else .error invalidChunkRange := by
  have hread : (parse (taskToJson ts t) >>= taskFromObject ts) =
      if (t.reread ts).chunks.all (·.acceptable) then .ok (t.reread ts) else .error invalidChunkRange :=
    ok_bind (parse_stringify (readable_taskObject h) 2) (taskFromObject_taskObject t)
  rw [taskFromJson, hread]
  split <;> rfl

theorem taskFromJson_taskToJson {t : DownloadTask} (h : t.KeptBy ts) :
    taskFromJson ts (taskToJson ts t) = if t.chunks.all (·.acceptable) then .ok t else .error invalidChunkRange := by
  rw [taskFromJson_reread h.inRange, h.same]

end PersistenceStore

/-! ## The texts the store keeps -/

open PersistenceStore

variable {ts : Timestamps}

/-- The bytes of a task file; `torn` stands for those that are no task. -/
def TaskText.bytes (ts : Timestamps) (torn : Text) : TaskText → Text
  | .written t => taskToJson ts t
  | .torn => torn

/-- `PersistenceStore::loadTask` on the bytes of the files. -/
def TaskFiles.loadBytes (ts : Timestamps) (torn : Text) (id : TaskId) (f : TaskFiles) : Except Exn DownloadTask :=
  match (tryLoadTaskFile ts (f.main.map (·.bytes ts torn))).or (tryLoadTaskFile ts (f.bak.map (·.bytes ts torn))) with
  | some t => .ok t
  | none => .error (.cget .jsonCorruptedError (text "task JSON is missing or corrupted: " ++ id))

theorem tryLoadTaskFile_some (s : Text) : tryLoadTaskFile ts
    (some s) = (PersistenceStore.taskFromJson ts s).toOption := rfl

theorem TaskText.bytes_written (torn : Text) (t : DownloadTask) :
    (TaskText.written t).bytes ts torn = taskToJson ts t := rfl

/-- A text loads as its bytes do. -/
theorem tryLoadTaskFile_bytes {torn : Text} (htorn : ∀ u, PersistenceStore.taskFromJson ts torn ≠ .ok u)
    {x : Option TaskText} (hx : ∀ t, x = some (.written t) → t.KeptBy ts) :
    tryLoadTaskFile ts (x.map (·.bytes ts torn)) = x.bind Cget.taskFromJson := by
  cases x with
  | none => rfl
  | some x =>
    cases x with
    | written t =>
      rw [Option.map_some, TaskText.bytes_written, tryLoadTaskFile_some, taskFromJson_taskToJson (hx t rfl),
        Option.bind_some, Cget.taskFromJson]
      split <;> rfl
    | torn =>
      rw [Option.map_some, TaskText.bytes, tryLoadTaskFile_some]
      cases h : PersistenceStore.taskFromJson ts torn with
      | ok u => exact absurd h (htorn u)
      | error e => rfl

/-- Loading from the texts is loading from the bytes. -/
theorem TaskFiles.loadBytes_eq {torn : Text} {f : TaskFiles}
    (htorn : ∀ u, PersistenceStore.taskFromJson ts torn ≠ .ok u)
    (hx : ∀ t, f.main = some (.written t) ∨ f.bak = some (.written t) → t.KeptBy ts) (id : TaskId) :
    (f.loadBytes ts torn id).toOption = f.load := by
  unfold TaskFiles.loadBytes TaskFiles.load
  rw [tryLoadTaskFile_bytes htorn fun t ht => hx t (.inl ht), tryLoadTaskFile_bytes htorn fun t ht => hx t (.inr ht)]
  cases (f.main.bind Cget.taskFromJson).or (f.bak.bind Cget.taskFromJson) <;> rfl

/-! ## After a save -/

section Save

variable {f : Nat → Fault} {t : DownloadTask} {w : World}

/-- A rename that went through leaves the new text. -/
theorem renameIntoPlace_renamed (id : TaskId) :
    Prog.wp (renameIntoPlace f id) (fun _ w' => (w'.files id).main = (w.files id).tmp) (fun _ _ => True)
      (fun _ => True) w := by
  simp only [renameIntoPlace, Prog.wp_tryCatch, renameTmp, filesOp, wp_operation]
  cases f w.tick with
  | ok => simp
  | crash k => trivial
  | fail k =>
    simp only [Prog.wp_bind, ignoringErrors, Prog.wp_tryCatch, wp_operation, tick_onFiles]
    cases f (w.tick + 1) <;> cases h₂ : f (w.tick + 1 + 1) <;> simp [h₂]

/-- A save that returns has written the task. -/
theorem saveTaskFiles_saved (t : DownloadTask) :
    Prog.wp (saveTaskFiles f t) (fun _ w' => (w'.files t.id).main = some (.written t)) (fun _ _ => True)
      (fun _ => True) w := by
  simp only [saveTaskFiles, Prog.wp_bind, Prog.wp_get, Prog.wp_ite]
  refine Prog.wp_mono (writeTmpFile_wp t) ?_ (fun _ _ _ => trivial) (fun _ _ => trivial)
  rintro _ w₁ ⟨hfiles, _, _⟩
  have htmp : (w₁.files t.id).tmp = some (.written t) := by rw [hfiles]
  have hrename : ∀ w₂ : World, (w₂.files t.id).tmp = some (.written t) →
      Prog.wp (renameIntoPlace f t.id) (fun _ w' => (w'.files t.id).main = some (.written t)) (fun _ _ => True)
        (fun _ => True) w₂ := by
    intro w₂ h₂
    refine Prog.wp_mono (renameIntoPlace_renamed t.id) ?_ (fun _ _ _ => trivial) (fun _ _ => trivial)
    exact fun _ _ h => h.trans h₂
  split
  · refine Prog.wp_mono (backupTaskFile_wp t.id) ?_ (fun _ _ _ => trivial) (fun _ _ => trivial)
    rintro _ w₂ ⟨hbackup, _⟩
    apply hrename
    rw [hbackup]
    exact htmp
  · exact hrename w₁ htmp

end Save

/-- A task is read back from its text, field by field, and from its file after a save. -/
theorem task_json_round_trip (ts : Timestamps)
    (hts : ∀ n, wholeSeconds n → ts.parseTimestamp (ts.formatTimestamp n) = n)
    (t : DownloadTask) (h : t.Exact) (hchunks : ∀ c ∈ t.chunks, c.start ≤ c.stop ∧ c.downloaded ≤ c.size) :
    PersistenceStore.taskFromJson ts (taskToJson ts t) = .ok t ∧
      ∀ (torn : Text) (f : Nat → Fault) (w : World), ((saveTaskFiles f t).run w).1 = .ok () →
        (((saveTaskFiles f t).run w).2.files t.id).loadBytes ts torn t.id = .ok t := by
  have hall : t.chunks.all (·.acceptable) = true := List.all_eq_true.2 fun c hc => (acceptable_iff c).2 (hchunks c hc)
  have hround : PersistenceStore.taskFromJson ts (taskToJson ts t) = .ok t := by
    rw [taskFromJson_taskToJson (h.kept hts), if_pos hall]
  refine ⟨hround, ?_⟩
  intro torn f w hok
  have hmain : (((saveTaskFiles f t).run w).2.files t.id).main = some (.written t) := by
    have hsaved := saveTaskFiles_saved (f := f) (w := w) t
    unfold Prog.wp at hsaved
    split at hsaved
    · rename_i hrun
      rw [hrun]
      exact hsaved
    · rename_i hrun
      rw [hrun] at hok
      cases hok
    · rename_i hrun
      rw [hrun] at hok
      cases hok
  rw [TaskFiles.loadBytes, hmain, Option.map_some, TaskText.bytes_written, tryLoadTaskFile_some, hround]
  rfl

/-- The start of the clock is printed as the source does; other times as a number. -/
def epochTimes : Timestamps where
  formatTimestamp n := if n = 0 then text "1970-01-01T00:00:00Z" else decimal n
  parseTimestamp s := if s = text "1970-01-01T00:00:00Z" then 0 else natOf s

theorem epochTimes_inverse (n : Nat) : epochTimes.parseTimestamp (epochTimes.formatTimestamp n) = n := by
  rcases Nat.eq_zero_or_pos n with rfl | hn
  · rfl
  · have hne : decimal n ≠ text "1970-01-01T00:00:00Z" := by
      intro he
      have hdigit := isDigit_decimal n 90 (he ▸ by decide +kernel)
      cases hdigit
    simp only [epochTimes, if_neg hn.ne', if_neg hne, natOf_decimal]

/-- A paused task with two chunks and optional fields. -/
def storedTask : DownloadTask where
  id := text "a"
  url := text "http://host/f"
  status := .paused
  fileSize := 20
  downloaded := 14
  chunks := [{ stop := 9, downloaded := 10, status := .completed, tempPath := text "chunk_0.part" },
    { index := 1, start := 10, stop := 19, downloaded := 4, status := .paused, retryCount := 2,
      tempPath := text "chunk_1.part" }]
  startedAt := some 0
  remoteEtag := some [34, 120, 34]
  taskRateLimitBytesPerSec := some 1000
  peakSpeedBytesPerSec := 7

theorem task_json_round_trip_storedTask :
    PersistenceStore.taskFromJson epochTimes (taskToJson epochTimes storedTask) = .ok storedTask ∧
      (((saveTaskFiles (fun _ => .ok) storedTask).run {}).2.files storedTask.id).loadBytes epochTimes
        [] storedTask.id = .ok storedTask := by
  have hexact : storedTask.Exact := by
    constructor
    all_goals try decide +kernel
    · exact ⟨7, by decide, rfl⟩
    · intro c hc
      simp only [storedTask, List.mem_cons, List.not_mem_nil, or_false] at hc
      rcases hc with rfl | rfl <;> constructor <;> decide
  obtain ⟨hround, hsave⟩ := task_json_round_trip epochTimes (fun n _ => epochTimes_inverse n) storedTask hexact
    (by decide +kernel)
  exact ⟨hround, hsave [] (fun _ => .ok) {} (by decide +kernel)⟩

end Cget
