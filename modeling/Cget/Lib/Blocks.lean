import Cget.Lib.Slices
import Mathlib.Algebra.BigOperators.Group.List.Basic
import Mathlib.Tactic.Ring
/-!
# Lists in blocks

`blocks n l` are the whole blocks of `n` items at the head of `l`. A state that is stepped
once for each block can take the items as they come: `absorb` keeps those of the block that
is not whole yet, and however many come at a time, the state is that of the whole blocks so
far.
-/

variable {α β σ : Type} {l p q : List α} {n : Nat}

def blocks (n : Nat) (l : List α) : List (List α) := (List.range (l.length / n)).map fun i => slice l (n * i) n

theorem blocks_of_lt (h : l.length < n) : blocks n l = [] := by
  rw [blocks, Nat.div_eq_of_lt h]
  rfl

theorem blocks_self (hn : 0 < n) (hp : p.length = n) : blocks n p = [p] := by
  rw [blocks, hp, Nat.div_self hn]
  simp [slice, ← hp]

/-- The blocks of a whole number of blocks, and those of the rest. -/
theorem blocks_append {m : Nat} (hn : 0 < n) (hp : p.length = n * m) :
    blocks n (p ++ q) = blocks n p ++ blocks n q := by
  have hcount : (p ++ q).length / n = m + q.length / n := by
    rw [List.length_append, hp, Nat.mul_add_div hn]
  rw [blocks, hcount, List.range_add, List.map_append, List.map_map, blocks, blocks, hp, Nat.mul_div_cancel_left m hn]
  congr 1
  · refine List.map_congr_left fun i hi => ?_
    have hle : n * i + n ≤ p.length := by
      rw [hp, ← Nat.mul_succ]
      exact Nat.mul_le_mul_left n (List.mem_range.1 hi)
    rw [slice, slice, List.drop_append_of_le_length (by omega),
      List.take_append_of_le_length (by rw [List.length_drop]; omega)]
  · refine List.map_congr_left fun i _ => ?_
    rw [Function.comp_apply, slice, slice, Nat.mul_add, ← hp, List.drop_length_add_append]

/-- The first block, and those of the rest. -/
theorem blocks_cons (hn : 0 < n) (hp : p.length = n) : blocks n (p ++ q) = p :: blocks n q := by
  rw [blocks_append hn (hp.trans (Nat.mul_one n).symm), blocks_self hn hp, List.singleton_append]

/-- What does not make a block goes on with what follows. -/
theorem blocks_append_rest (hn : 0 < n) :
    blocks n (p ++ q) = blocks n p ++ blocks n (p.drop (n * (p.length / n)) ++ q) := by
  have hwhole : (p.take (n * (p.length / n))).length = n * (p.length / n) := by
    rw [List.length_take]
    exact Nat.min_eq_left (Nat.mul_div_le _ _)
  have hrest : blocks n (p.drop (n * (p.length / n))) = [] := by
    refine blocks_of_lt ?_
    rw [List.length_drop, ← Nat.mod_eq_sub]
    exact Nat.mod_lt _ hn
  have hsplit (q : List α) : blocks n (p ++ q) =
      blocks n (p.take (n * (p.length / n))) ++ blocks n (p.drop (n * (p.length / n)) ++ q) := by
    rw [← blocks_append hn hwhole, ← List.append_assoc, List.take_append_drop]
  have hself := hsplit []
  rw [List.append_nil, List.append_nil, hrest, List.append_nil] at hself
  rw [hsplit, hself]

/-! ## Items made of items -/

section FlatMap

variable {k : Nat} {f : α → List β} (hf : ∀ a, (f a).length = k)

include hf

theorem drop_flatMap (l : List α) (i : Nat) : (l.flatMap f).drop (k * i) = (l.drop i).flatMap f := by
  induction i generalizing l with
  | zero => rfl
  | succ i ih =>
    cases l with
    | nil => simp
    | cons a l =>
      rw [Nat.mul_succ, Nat.add_comm, ← List.drop_drop, List.flatMap_cons, List.drop_left' (hf a), ih,
        List.drop_succ_cons]

theorem take_flatMap (l : List α) (i : Nat) : (l.flatMap f).take (k * i) = (l.take i).flatMap f := by
  induction i generalizing l with
  | zero => simp
  | succ i ih =>
    cases l with
    | nil => simp
    | cons a l =>
      rw [Nat.mul_succ, Nat.add_comm, List.flatMap_cons, List.take_add, List.take_left' (hf a),
        List.drop_left' (hf a), ih, List.take_succ_cons, List.flatMap_cons]

theorem slice_flatMap (l : List α) (i m : Nat) : slice (l.flatMap f) (k * i) (k * m) = (slice l i m).flatMap f := by
  rw [slice, slice, drop_flatMap hf, take_flatMap hf]

/-- Blocks of the items of blocks. -/
theorem blocks_flatMap (hk : 0 < k) (l : List α) : blocks (k * n) (l.flatMap f) = (blocks n l).map (·.flatMap f) := by
  have hlen : (l.flatMap f).length = k * l.length := by
    simp only [List.length_flatMap, hf, List.map_const', List.sum_replicate, nsmul_eq_mul, Nat.cast_id]
    exact Nat.mul_comm _ _
  rw [blocks, blocks, hlen, Nat.mul_div_mul_left _ _ hk, List.map_map]
  refine List.map_congr_left fun i _ => ?_
  rw [Nat.mul_assoc, slice_flatMap hf]
  rfl

end FlatMap

section Absorb

variable {f : σ → List α → σ} {h : σ}

/-- One item more: it completes a block, for which the state is stepped, or is kept. -/
def absorb (n : Nat) (f : σ → List α → σ) (s : σ × List α) (a : α) : σ × List α :=
  if (s.2 ++ [a]).length = n then (f s.1 (s.2 ++ [a]), []) else (s.1, s.2 ++ [a])

/-- What is kept is less than a block. -/
theorem absorb_lt (hn : 0 < n) {s : σ × List α} (hs : s.2.length < n) (a : α) : (absorb n f s a).2.length < n := by
  unfold absorb
  split
  · exact hn
  · simp only [List.length_append, List.length_singleton] at *
    omega

/-- The state of the whole blocks so far, and the rest. -/
theorem foldl_absorb (hn : 0 < n) (hp : p.length < n) :
    l.foldl (absorb n f) (h, p) = ((blocks n (p ++ l)).foldl f h, (p ++ l).drop (n * ((p ++ l).length / n))) := by
  induction l generalizing h p with
  | nil =>
    rw [List.append_nil, blocks_of_lt hp, Nat.div_eq_of_lt hp]
    rfl
  | cons a l ih =>
    rw [List.foldl_cons, List.append_cons]
    unfold absorb
    split
    · rename_i hwhole
      have hdiv : (p ++ [a] ++ l).length / n = l.length / n + 1 := by
        rw [List.length_append, hwhole, Nat.add_comm, Nat.add_div_right _ hn]
      refine (ih (p := []) hn).trans ?_
      rw [List.nil_append, blocks_cons hn hwhole, List.foldl_cons, hdiv, Nat.mul_succ, Nat.add_comm, ← List.drop_drop,
        List.drop_left' hwhole]
    · rename_i hpart
      have hlt : (p ++ [a]).length < n := by
        simp only [List.length_append, List.length_singleton] at *
        omega
      exact ih hlt

end Absorb
