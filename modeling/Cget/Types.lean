import Mathlib.Algebra.Order.Field.Rat
import Mathlib.Data.List.Infix
import Mathlib.Data.List.Sort
import Mathlib.Logic.Function.Basic
/-!
# Tasks, chunks and errors

The records of `types.h` and `errors.h`. Texts and paths are byte strings, as
`std::string` is. Counters, sizes and clock readings are natural numbers; a `double`
is a rational. The mutex of a task and the floating point fields of a snapshot
(progress, speeds, eta) are left out.
-/

namespace Cget

abbrev Bytes := List UInt8
abbrev Text := List UInt8
abbrev Path := List UInt8
abbrev TaskId := Text

/-- The bytes of a string literal of the source. -/
def text (s : String) : Text := s.toByteArray.data.toList

/-- `std::to_string` of an unsigned number. -/
def decimal (n : Nat) : Text := (Nat.toDigits 10 n).map (fun c => c.val.toUInt8)

inductive TaskStatus where
  | created | pending | queued | downloading | paused | retrying | failed | completed
  | cancelled | removed | corrupted | pendingRecovery | metadataMismatch
  deriving DecidableEq, Repr

/-- `toString` of a status. -/
def TaskStatus.toText : TaskStatus → Text
  | .created => text "Created"
  | .pending => text "Pending"
  | .queued => text "Queued"
  | .downloading => text "Downloading"
  | .paused => text "Paused"
  | .retrying => text "Retrying"
  | .failed => text "Failed"
  | .completed => text "Completed"
  | .cancelled => text "Cancelled"
  | .removed => text "Removed"
  | .corrupted => text "Corrupted"
  | .pendingRecovery => text "PendingRecovery"
  | .metadataMismatch => text "MetadataMismatch"

inductive ChunkStatus where
  | pending | downloading | paused | completed | failed
  deriving DecidableEq, Repr

inductive ErrorCode where
  | networkError | timeoutError | dnsError | httpStatusError | diskFullError | jsonCorruptedError
  | rangeNotSupportedError | metadataMismatchError | permissionDeniedError | pathTraversalError
  | fileAlreadyExistsError | taskNotFoundError | invalidStateTransitionError | invalidCommandError
  | invalidUrlError | fileSystemError | configError | checksumMismatchError | internalError
  deriving DecidableEq, Repr

/-- What is thrown: a `CgetError`, or another `std::exception` (only the former has a code). -/
inductive Exn where
  | cget (code : ErrorCode) (what : Text)
  | other (what : Text)
  deriving DecidableEq, Repr

def Exn.what : Exn → Text
  | .cget _ w => w
  | .other w => w

/-- A byte range `[start, stop]`, both ends included (`stop` is the source's `end`). -/
structure Chunk where
  index : Nat := 0
  start : Nat := 0
  stop : Nat := 0
  downloaded : Nat := 0
  status : ChunkStatus := .pending
  retryCount : Nat := 0
  tempPath : Path := []
  deriving DecidableEq, Repr

def Chunk.size (c : Chunk) : Nat :=
  if c.stop < c.start then 0 else c.stop - c.start + 1

structure RemoteFileInfo where
  fileSize : Nat := 0
  supportsRange : Bool := false
  etag : Option Text := none
  lastModified : Option Text := none
  finalUrl : Text := []
  deriving DecidableEq, Repr

structure DownloadTask where
  id : TaskId := []
  url : Text := []
  fileName : Text := []
  targetPath : Path := []
  tempDir : Path := []
  status : TaskStatus := .created
  fileSize : Nat := 0
  downloaded : Nat := 0
  chunks : List Chunk := []
  createdAt : Nat := 0
  updatedAt : Nat := 0
  startedAt : Option Nat := none
  lastError : Option Text := none
  expectedSha256 : Option Text := none
  remoteEtag : Option Text := none
  remoteLastModified : Option Text := none
  finalUrl : Option Text := none
  taskRateLimitBytesPerSec : Option Nat := none
  schedulerMaxChunks : Nat := 0
  schedulerPriority : Nat := 0
  peakSpeedBytesPerSec : Rat := 0
  failedChunks : Nat := 0
  persistedRetryCount : Nat := 0
  requestedThreads : Nat := 0
  deriving DecidableEq, Repr

/-- `recomputeDownloaded` of the engine. -/
def DownloadTask.chunkTotal (t : DownloadTask) : Nat := (t.chunks.map (·.downloaded)).sum

structure TaskSnapshot where
  id : TaskId
  url : Text
  fileName : Text
  targetPath : Path
  status : TaskStatus
  fileSize : Nat
  downloaded : Nat
  lastError : Option Text
  expectedSha256 : Option Text
  remoteEtag : Option Text
  remoteLastModified : Option Text
  finalUrl : Option Text
  taskRateLimitBytesPerSec : Option Nat
  completedChunks : Nat
  totalChunks : Nat
  runningChunks : Nat
  failedChunks : Nat
  retryCount : Nat
  schedulerMaxChunks : Nat
  schedulerPriority : Nat
  peakSpeedBytesPerSec : Rat
  deriving DecidableEq, Repr

def snapshotTask (t : DownloadTask) : TaskSnapshot where
  id := t.id
  url := t.url
  fileName := t.fileName
  targetPath := t.targetPath
  status := t.status
  fileSize := t.fileSize
  downloaded := t.downloaded
  lastError := t.lastError
  expectedSha256 := t.expectedSha256
  remoteEtag := t.remoteEtag
  remoteLastModified := t.remoteLastModified
  finalUrl := t.finalUrl
  taskRateLimitBytesPerSec := t.taskRateLimitBytesPerSec
  completedChunks := t.chunks.countP (·.status = .completed)
  totalChunks := t.chunks.length
  runningChunks := t.chunks.countP (·.status = .downloading)
  failedChunks := t.failedChunks + t.chunks.countP (·.status = .failed)
  retryCount := t.persistedRetryCount + (t.chunks.map (·.retryCount)).sum
  schedulerMaxChunks := t.schedulerMaxChunks
  schedulerPriority := t.schedulerPriority
  peakSpeedBytesPerSec := t.peakSpeedBytesPerSec

theorem Chunk.size_of_le {c : Chunk} (h : c.start ≤ c.stop) : c.size = c.stop - c.start + 1 := by
  simp [Chunk.size, Nat.not_lt.2 h]

theorem Chunk.size_pos {c : Chunk} (h : c.start ≤ c.stop) : 0 < c.size := by
  rw [c.size_of_le h]; omega

/-- A chunk of all of a file of `n` bytes. -/
theorem Chunk.size_whole {c : Chunk} {n : Nat} (hn : 0 < n) (hstart : c.start = 0) (hstop : c.stop = n - 1) :
    c.size = n := by
  rw [c.size_of_le (by omega)]; omega

/-! ## Decimal numbers -/

theorem byte_toChar_digit {c : Char} (h : c.isDigit = true) : Char.ofNat c.val.toUInt8.toNat = c := by
  have hc : 48 ≤ c.val.toNat ∧ c.val.toNat ≤ 57 := by
    simpa [Char.isDigit, UInt32.le_iff_toNat_le] using h
  have e : c.val.toUInt8.toNat = c.toNat := by
    rw [UInt32.toNat_toUInt8]
    exact Nat.mod_eq_of_lt (by simp only [Nat.reducePow]; omega)
  rw [e, Char.ofNat_toNat]

theorem decimal_injective : Function.Injective decimal := by
  have back : ∀ n, (decimal n).map (fun b => Char.ofNat b.toNat) = Nat.toDigits 10 n := by
    intro n
    rw [decimal, List.map_map]
    refine (List.map_congr_left fun c hc => ?_).trans (List.map_id _)
    exact byte_toChar_digit (Nat.isDigit_of_mem_toDigits (by omega) (by omega) hc)
  intro m n h
  have hd : Nat.toDigits 10 m = Nat.toDigits 10 n := by rw [← back m, ← back n, h]
  rw [← Nat.ofDigitChars_toDigits (b := 10) (n := m) (by omega) (by omega), hd,
    Nat.ofDigitChars_toDigits (by omega) (by omega)]

end Cget
