import Mathlib.Data.List.Basic
/-!
# Slices of a list

`slice l i n` are the `n` items of `l` from `i` on. Pieces that are prefixes of consecutive
slices and have the full length between them make up the whole.
-/

variable {α : Type} {l p q : List α} {i j m n : Nat}

def slice (l : List α) (i n : Nat) : List α := (l.drop i).take n

theorem slice_length_le : (slice l i n).length ≤ n := by
  simp only [slice, List.length_take]
  omega

theorem slice_zero_length : slice l 0 l.length = l := by
  simp [slice]

theorem slice_add : slice l i (m + n) = slice l i m ++ slice l (i + m) n := by
  simp only [slice, List.take_add, List.drop_drop]

/-- What follows a prefix of a slice there continues it. -/
theorem prefix_slice_append (hp : p <+: slice l i n) (hq : q <+: slice l (i + p.length) (n - p.length)) :
    p ++ q <+: slice l i n := by
  have hle : p.length ≤ n := Nat.le_trans hp.length_le slice_length_le
  obtain ⟨r, hr⟩ := hq
  have hpe : p = slice l i p.length := by
    obtain ⟨t, ht⟩ := hp
    have := congrArg (List.take p.length) ht
    rwa [List.take_left', slice, List.take_take, Nat.min_eq_left hle] at this
    rfl
  refine ⟨r, ?_⟩
  rw [List.append_assoc, hr]
  calc p ++ slice l (i + p.length) (n - p.length)
      = slice l i p.length ++ slice l (i + p.length) (n - p.length) := by rw [← hpe]
    _ = slice l i n := by rw [← slice_add, Nat.add_sub_cancel' hle]

/-- What follows a part of the rest of a list there continues it. -/
theorem prefix_drop_append (hp : p <+: l.drop i) (hq : q <+: l.drop (i + p.length)) : p ++ q <+: l.drop i := by
  obtain ⟨r, hr⟩ := hp
  have hrest : l.drop (i + p.length) = r := by
    rw [← List.drop_drop, ← hr, List.drop_left]
  rw [hrest] at hq
  rw [← hr]
  exact (List.prefix_append_right_inj p).2 hq

/-- A part of the rest of a list is known by its length. -/
theorem prefix_drop_eq (hp : p <+: l.drop i) : p = slice l i p.length := List.prefix_iff_eq_take.1 hp

/-- Pieces, each a prefix of its slice, of slices that follow each other from `i` to `j`. -/
def Pieces (l : List α) : (i : Nat) → List (Nat × List α) → (j : Nat) → Prop
  | i, [], j => i = j
  | i, (n, p) :: ps, j => p <+: slice l i n ∧ Pieces l (i + n) ps j

theorem Pieces.length_le {ps : List (Nat × List α)} (h : Pieces l i ps j) :
    i ≤ j ∧ (ps.flatMap (·.2)).length ≤ j - i := by
  induction ps generalizing i with
  | nil => exact ⟨Nat.le_of_eq h, by simp⟩
  | cons np ps ih =>
    obtain ⟨n, p⟩ := np
    obtain ⟨hp, hps⟩ := h
    obtain ⟨hle, hlen⟩ := ih hps
    have := Nat.le_trans hp.length_le slice_length_le
    simp only [List.flatMap_cons, List.length_append]
    omega

/-- Pieces of full length are the whole. -/
theorem Pieces.whole {ps : List (Nat × List α)} (h : Pieces l i ps j) (hlen : (ps.flatMap (·.2)).length = j - i) :
    ps.flatMap (·.2) = slice l i (j - i) := by
  induction ps generalizing i with
  | nil =>
    obtain rfl : i = j := h
    simp [slice]
  | cons np ps ih =>
    obtain ⟨n, p⟩ := np
    obtain ⟨hp, hps⟩ := h
    have hple := Nat.le_trans hp.length_le slice_length_le
    obtain ⟨hle, hrest⟩ := hps.length_le
    simp only [List.flatMap_cons, List.length_append] at hlen ⊢
    have hslice : (slice l i n).length ≤ n := slice_length_le
    have hfull : p = slice l i n := hp.eq_of_length (by have := hp.length_le; omega)
    rw [ih hps (by omega), hfull, ← slice_add]
    congr 1
    omega
