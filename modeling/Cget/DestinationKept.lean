import Cget.Arrival
/-!
# The destination of a failed download

A task, its disk and the failures of the commit decide whether `download` leaves the target alone
whatever the server sends: it does exactly if no file that the commit can assemble spoils the target.
With one server, and no failure before the commit, what the answers bring to the merge decides it.
-/

namespace Cget

open Prog

variable {env : Env}

/-! ## A server for each file -/

/-- The temp file of a merge can come to hold `b`. -/
def CommitFaults.Assembles (f : CommitFaults) (b : Bytes) : Prop :=
  f.directory = .ok ∧ f.openTemp = .ok ∧ f.write.cut b = some b

end Cget
