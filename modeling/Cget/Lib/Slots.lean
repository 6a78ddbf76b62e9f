import Mathlib.Data.List.Basic
import Mathlib.Logic.Function.Basic
/-!
# Numbered slots

A family of slots, each empty or holding one thing, the newest in slot 0. Rotating it moves
things up by one slot; whatever is cleared or moved, what is left stays in order.
-/

/-- Slot 0 is the newest. -/
abbrev Slots (α : Type) := ℕ → Option α

namespace Slots

open scoped List

variable {α β : Type} {s t : Slots α} {i n : ℕ} {a : α}

/-- Whatever slot `i` holds is gone. -/
def clear (i : ℕ) (s : Slots α) : Slots α := Function.update s i none

/-- What slot `i` holds replaces what is in slot `i + 1`. -/
def lift (i : ℕ) (s : Slots α) : Slots α :=
  if (s i).isSome then Function.update (Function.update s (i + 1) (s i)) i none else s

/-- Slot 0 holds `a`. -/
def front (a : α) (s : Slots α) : Slots α := Function.update s 0 (some a)

/-- What the first `n` slots hold, oldest first. -/
def below : ℕ → Slots α → List α
  | 0, _ => []
  | n + 1, s => (s n).toList ++ below n s

/-! ## One slot at a time -/

@[simp] theorem clear_self : s.clear i i = none := Function.update_self ..

theorem clear_empty (h : s i = none) : s.clear i = s := by simp [clear, ← h]

theorem clear_of_ne {j : ℕ} (h : j ≠ i) : s.clear i j = s j := Function.update_of_ne h ..

@[simp] theorem front_zero : s.front a 0 = some a := Function.update_self ..

theorem front_of_pos {j : ℕ} (h : j ≠ 0) : s.front a j = s j := Function.update_of_ne h ..

@[simp] theorem lift_self : s.lift i i = none := by
  unfold lift
  split
  · exact Function.update_self ..
  · rename_i h
    simpa using h

theorem lift_succ (h : (s i).isSome) : s.lift i (i + 1) = s i := by
  rw [lift, if_pos h, Function.update_of_ne (by omega), Function.update_self]

theorem lift_of_ne {j : ℕ} (h : j ≠ i) (h' : j ≠ i + 1) : s.lift i j = s j := by
  unfold lift
  split
  · rw [Function.update_of_ne h, Function.update_of_ne h']
  · rfl

theorem lift_empty (h : s i = none) : s.lift i = s := by simp [lift, h]

/-! ## What the slots hold -/

theorem below_congr (h : ∀ i < n, s i = t i) : s.below n = t.below n := by
  induction n with
  | zero => rfl
  | succ n ih => rw [below, below, h n (by omega), ih fun i hi => h i (by omega)]

theorem below_map (f : α → β) (s : Slots α) (n : ℕ) : below n (fun i => (s i).map f) = (s.below n).map f := by
  induction n with
  | zero => rfl
  | succ n ih => cases hs : s n <;> simp [below, ih, hs]

theorem below_empty (h : ∀ i < n, s i = none) : s.below n = [] := by
  induction n with
  | zero => rfl
  | succ n ih => simp [below, h n (by omega), ih fun i hi => h i (by omega)]

/-- Slot 0 comes last. -/
theorem below_succ (s : Slots α) (n : ℕ) : s.below (n + 1) = below n (fun i => s (i + 1)) ++ (s 0).toList := by
  induction n with
  | zero => simp [below]
  | succ n ih => rw [below, ih, ← List.append_assoc, below]

theorem below_front (n : ℕ) : (s.front a).below (n + 1) = below n (fun i => s (i + 1)) ++ [a] := by
  rw [below_succ, front_zero]
  rfl

theorem clear_sublist (s : Slots α) (i n : ℕ) : (s.clear i).below n <+ s.below n := by
  induction n with
  | zero => exact List.Sublist.refl _
  | succ n ih =>
    apply List.Sublist.append _ ih
    by_cases h : n = i
    · subst h
      simp
    · rw [clear_of_ne h]

/-- Above the cleared slot nothing is lost. -/
theorem clear_suffix (s : Slots α) (n : ℕ) : (s.clear n).below (n + 1) <:+ s.below (n + 1) := by
  rw [below, below, clear_self, below_congr fun i hi => clear_of_ne (Nat.ne_of_lt hi)]
  exact List.suffix_append _ _

/-- Moving into an empty slot loses nothing. -/
theorem lift_below (h : s (i + 1) = none) (hn : i + 1 < n) : (s.lift i).below n = s.below n := by
  cases hi : s i with
  | none => rw [lift_empty hi]
  | some a =>
    induction n with
    | zero => omega
    | succ n ih =>
      by_cases hlast : n = i + 1
      · subst hlast
        have hsame : (s.lift i).below i = s.below i := below_congr fun j hj => lift_of_ne (by omega) (by omega)
        simp [below, lift_succ (s := s) (i := i) (by simp [hi]), hsame, h, hi]
      · rw [below, below, lift_of_ne (by omega) hlast, ih (by omega)]

theorem lift_clear (s : Slots α) (i : ℕ) (h : (s i).isSome) : (s.clear (i + 1)).lift i = s.lift i := by
  have hsome : ((s.clear (i + 1)) i).isSome := by rwa [clear_of_ne (by omega)]
  funext j
  by_cases hj : j = i
  · subst hj
    simp
  by_cases hj' : j = i + 1
  · subst hj'
    rw [lift_succ hsome, lift_succ h, clear_of_ne (by omega)]
  · rw [lift_of_ne hj hj', lift_of_ne hj hj', clear_of_ne hj']

theorem lift_sublist (s : Slots α) (i n : ℕ) : (s.lift i).below n <+ s.below n := by
  cases hi : s i with
  | none => rw [lift_empty hi]
  | some a =>
    by_cases hn : i + 1 < n
    · rw [← lift_clear s i (by simp [hi]), lift_below clear_self hn]
      exact clear_sublist s (i + 1) n
    · -- What is moved leaves the slots that are listed.
      have hsame : (s.lift i).below n = (s.clear i).below n := below_congr fun j hj => by
        by_cases hji : j = i
        · subst hji
          simp
        · rw [lift_of_ne hji (by omega), clear_of_ne hji]
      rw [hsame]
      exact clear_sublist s i n

/-- A list in slot 0 grows at the end. -/
theorem below_put {s : Slots (List β)} (p : List β) (n : ℕ) :
    (below (n + 1) (s.front ((s 0).getD [] ++ p))).flatten = (below (n + 1) s).flatten ++ p := by
  rw [below_front, below_succ]
  cases s 0 <;> simp

/-! ## Rotating -/

/-- From slot `n - 1` down, everything moves up by one. -/
def raised : ℕ → Slots α → Slots α
  | 0, s => s
  | n + 1, s => raised n (s.lift n)

theorem raised_above {j : ℕ} (h : n < j) : s.raised n j = s j := by
  induction n generalizing s with
  | zero => rfl
  | succ n ih => rw [raised, ih (by omega), lift_of_ne (by omega) (by omega)]

/-- The last slot keeps what it holds when nothing takes its place. -/
theorem raised_last (s : Slots α) (n : ℕ) : s.raised (n + 1) (n + 1) = (s n).or (s (n + 1)) := by
  rw [raised, raised_above (by omega)]
  cases h : s n with
  | none => rw [lift_empty h]; rfl
  | some a => rw [lift_succ (by simp [h]), h]; rfl

theorem raised_succ {i : ℕ} (h : i + 1 < n) : s.raised n (i + 1) = s i := by
  induction n generalizing s with
  | zero => omega
  | succ n ih =>
    rw [raised]
    by_cases hn : i + 1 = n
    · subst hn
      rw [raised_last, lift_self, lift_of_ne (by omega) (by omega), Option.or_none]
    · rw [ih (by omega), lift_of_ne (by omega) (by omega)]

/-- While the last slot is empty nothing is lost. -/
theorem raised_below (h : s n = none) : (s.raised n).below (n + 1) = s.below (n + 1) := by
  induction n generalizing s with
  | zero => rfl
  | succ n ih =>
    rw [raised, below, raised_above (by omega), ih lift_self, ← below, lift_below h (by omega)]

/-! ## Slots seen through a function -/

theorem map_clear (f : α → β) (s : Slots α) (i : ℕ) : (fun j => (s.clear i j).map f) = clear i
    fun j => (s j).map f := by
  funext j
  by_cases h : j = i
  · subst h
    simp
  · rw [clear_of_ne h, clear_of_ne h]

theorem map_lift (f : α → β) (s : Slots α) (i : ℕ) : (fun j => (s.lift i j).map f) = lift i fun j => (s j).map f := by
  cases hi : s i with
  | none => rw [lift_empty hi, lift_empty (by simp [hi])]
  | some a =>
    funext j
    by_cases hj : j = i
    · subst hj
      simp
    by_cases hj' : j = i + 1
    · subst hj'
      rw [lift_succ (by simp [hi]), lift_succ (by simp [hi])]
    · rw [lift_of_ne hj hj', lift_of_ne hj hj']

theorem map_front (f : α → β) (s : Slots α) (a : α) : (fun j => (s.front a j).map f) = front (f a)
    fun j => (s j).map f := by
  funext j
  by_cases h : j = 0
  · subst h
    simp
  · rw [front_of_pos h, front_of_pos h]

end Slots
