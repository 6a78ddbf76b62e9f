import Cget.Endings
/-!
# What a download brings to its merge

If no file operation of the transfer fails, the server's answers and the part files decide whether
`download` comes to its merge, and which bytes the merge then writes to its temp file. Nothing is asked
of the chunks but that each has a part file of its own.
-/

namespace Cget

open Prog

variable {env : Env} {t u u' : DownloadTask} {d d' : Disk} {s s₀ : Session} {info : RemoteFileInfo} {c c₀ : Chunk}
  {cs : List Chunk} {errors : List WorkerError} {b : Bytes}

/-! ## The bytes that arrive -/

/-- Bytes for the merge, and the length it checks them against. -/
structure Arrival where
  bytes : Bytes
  size : Nat
  deriving DecidableEq

/-- What the temp file holds when it passes the check. -/
def CommitFaults.temp (f : CommitFaults) (a : Arrival) : Option Bytes :=
  if f.directory = .ok ∧ f.openTemp = .ok then (f.write.cut a.bytes).filter (fun b => b.length = a.size) else none

/-- What the thread of a chunk throws, if it has one. -/
def thrown (env : Env) (t : DownloadTask) (d : Disk) (c : Chunk) : Option Exn :=
  if c.done then none else (chunkFate env t d c).error

namespace PoolJoined

variable (h : PoolJoined env s₀ ((rangeWorkers u).map (·.chunk)) errors s) (hsame : u.SameRequest s₀.task)
  (hchunks : s₀.task.chunks = (markDone u).chunks) (hparts : s₀.world.disk.parts = d.parts)

end PoolJoined

/-! ## Transfers -/

end Cget
