import Mathlib.Algebra.Order.Ring.Int
import Mathlib.Tactic.Positivity
/-!
# Arithmetic on machine words

Unsigned arithmetic on words of `w` bits, which notes when an operation does not give its
exact result: a sum or a product that wraps, a difference below zero, a division by zero.
A computation whose operations are all exact is the same computation on numbers.
-/

namespace Words

/-- A computation on words. The state says whether an operation was inexact so far. -/
abbrev Arith := StateM Bool

/-- The word an operation with the exact result `z` gives. -/
def toWord (w : Nat) (z : Int) : Arith Nat := do
  if z < 0 ∨ 2 ^ w ≤ z then set true
  pure (z % 2 ^ w).toNat

def add (w a b : Nat) : Arith Nat := toWord w (a + b)

def sub (w a b : Nat) : Arith Nat := toWord w (a - b)

def mul (w a b : Nat) : Arith Nat := toWord w (a * b)

def div (a b : Nat) : Arith Nat := do
  if b = 0 then set true
  pure (a / b)

variable {w a b : Nat}

theorem toWord_exact {z : Int} (h : 0 ≤ z) (hw : z < 2 ^ w) : toWord w z = pure z.toNat := by
  have hin : ¬ (z < 0 ∨ 2 ^ w ≤ z) := by omega
  rw [toWord, if_neg hin, Int.emod_eq_of_lt h hw]

theorem add_exact (h : a + b < 2 ^ w) : add w a b = pure (a + b) := by
  rw [add, toWord_exact (by omega) (by exact_mod_cast h)]
  rfl

theorem sub_exact (h : b ≤ a) (ha : a < 2 ^ w) : sub w a b = pure (a - b) := by
  have ha' : (a : Int) < 2 ^ w := by exact_mod_cast ha
  rw [sub, toWord_exact (by omega) (by omega)]
  congr 1
  omega

theorem mul_exact (h : a * b < 2 ^ w) : mul w a b = pure (a * b) := by
  rw [mul, toWord_exact (by positivity) (by exact_mod_cast h)]
  rfl

theorem div_exact (h : 0 < b) : div a b = pure (a / b) := by
  rw [div, if_neg (by omega)]

/-- A product that wraps is noted. -/
theorem mul_wrapped (h : 2 ^ w ≤ a * b) : mul w a b = (do set true; pure (a * b % 2 ^ w)) := by
  have hz : ((a : Int) * b < 0 ∨ (2 : Int) ^ w ≤ a * b) := .inr (by exact_mod_cast h)
  have hmod : ((a : Int) * b) % 2 ^ w = ((a * b % 2 ^ w : Nat) : Int) := by push_cast; rfl
  rw [mul, toWord, if_pos hz, hmod, Int.toNat_natCast]

end Words
