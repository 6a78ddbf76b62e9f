import Mathlib.Algebra.BigOperators.Group.List.Basic
/-!
# A running total beside its summands

Several parties add to counters of their own and, a moment later, to a common total.
`pending` is what a party has added to its counter and not yet to the total: the total is
balanced when these amounts are all that it lacks. Each of the two additions keeps that, a
total that is stored anew from counters read one by one keeps it if every counter still is
what was read and what is pending, and a balanced total with nothing pending is the sum.
-/

structure RunningTotal (G : Type) where
  total : G
  counters : List G
  pending : List G

namespace RunningTotal

variable {G : Type} [AddCommGroup G] {r : RunningTotal G} {l : List G} {i : Nat} {x n : G}

def Balanced (r : RunningTotal G) : Prop := r.total + r.pending.sum = r.counters.sum

/-- Party `i` adds `n` to its counter, which was `x`. -/
def count (r : RunningTotal G) (i : Nat) (x n : G) : RunningTotal G :=
  { r with counters := r.counters.set i (x + n), pending := r.pending.set i n }

/-- It adds to the total what it has added to its counter. -/
def report (r : RunningTotal G) (i : Nat) (n : G) : RunningTotal G :=
  { r with total := r.total + n, pending := r.pending.set i 0 }

/-- The total is stored anew, as the sum of what was read. -/
def reload (r : RunningTotal G) (read : List G) : RunningTotal G := { r with total := read.sum }

theorem sum_replace (h : l[i]? = some x) (n : G) : (l.set i n).sum = l.sum + (n - x) := by
  obtain ⟨hi, hx⟩ := List.getElem?_eq_some_iff.1 h
  rw [List.sum_set', dif_pos hi, hx, neg_add_eq_sub]

theorem Balanced.count (h : r.Balanced) (hx : r.counters[i]? = some x) (hp : r.pending[i]? = some 0) :
    (r.count i x n).Balanced := by
  unfold Balanced RunningTotal.count at *
  rw [sum_replace hp, sum_replace hx, sub_zero, ← add_assoc, h, add_sub_cancel_left]

theorem Balanced.report (h : r.Balanced) (hp : r.pending[i]? = some n) : (r.report i n).Balanced := by
  unfold Balanced RunningTotal.report at *
  rw [sum_replace hp, zero_sub, add_add_add_comm, add_neg_cancel, add_zero, h]

/-- What was read and what is pending make up the counters. -/
theorem balanced_reload {read : List G} (hlen : read.length = r.pending.length)
    (h : List.zipWith (· + ·) read r.pending = r.counters) : (r.reload read).Balanced := by
  unfold Balanced reload
  rw [List.sum_add_sum_eq_sum_zipWith_of_length_eq _ _ hlen, h]

/-- With nothing pending, a balanced total is the sum. -/
theorem Balanced.settled (h : r.Balanced) (hp : ∀ n ∈ r.pending, n = 0) : r.total = r.counters.sum := by
  rw [← h, List.sum_eq_zero hp, add_zero]

end RunningTotal
