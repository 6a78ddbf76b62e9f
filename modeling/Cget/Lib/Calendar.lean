import Mathlib.Data.List.Range
import Mathlib.Tactic.Linarith
/-!
# Seconds and calendar dates

The days since 1970 split into years, months and days of the Gregorian calendar, and the
way back. Both go through consecutive blocks: a day lies in one year among the years, and
in one month among the months of that year.
-/

namespace Calendar

/-! ## Places in consecutive blocks -/

section Blocks

variable (len : Nat → Nat)

/-- The length of the blocks from `i` up to `j`. -/
def span (i j : Nat) : Nat := ((List.range' i (j - i)).map len).sum

/-- The block from `i` on that holds what lies `r` after the start of `i`, and the place in it. -/
def locate : Nat → Nat → Nat → Nat × Nat
  | 0, i, r => (i, r)
  | fuel + 1, i, r => if r < len i then (i, r) else locate fuel (i + 1) (r - len i)

variable {fuel i j r : Nat}

theorem span_self (i : Nat) : span len i i = 0 := by simp [span]

theorem span_step (h : i < j) : span len i j = len i + span len (i + 1) j := by
  have hn : j - i = (j - (i + 1)) + 1 := by omega
  rw [span, hn, List.range'_succ, List.map_cons, List.sum_cons, span]

theorem locate_ge (fuel i r : Nat) : i ≤ (locate len fuel i r).1 := by
  induction fuel generalizing i r with
  | zero => exact le_rfl
  | succ fuel ih =>
    unfold locate
    split
    · exact le_rfl
    · exact (Nat.le_succ i).trans (ih (i + 1) (r - len i))

/-- The blocks passed and the place in the last one make up the whole. -/
theorem span_locate (fuel i r : Nat) : span len i (locate len fuel i r).1 + (locate len fuel i r).2 = r := by
  induction fuel generalizing i r with
  | zero =>
    rw [locate, span_self]
    exact Nat.zero_add r
  | succ fuel ih =>
    unfold locate
    split
    · rw [span_self]
      exact Nat.zero_add r
    · rename_i hr
      have hpassed := locate_ge len fuel (i + 1) (r - len i)
      have hrest := ih (i + 1) (r - len i)
      rw [span_step len hpassed]
      omega

/-- With enough blocks the place lies inside its block. -/
theorem locate_lt (fuel : Nat) (h : r < span len i (i + fuel)) :
    (locate len fuel i r).1 < i + fuel ∧ (locate len fuel i r).2 < len (locate len fuel i r).1 := by
  induction fuel generalizing i r with
  | zero =>
    rw [Nat.add_zero, span_self] at h
    exact absurd h (Nat.not_lt_zero r)
  | succ fuel ih =>
    unfold locate
    split
    · rename_i hr
      exact ⟨by omega, hr⟩
    · rename_i hr
      rw [span_step len (by omega)] at h
      have hnext : i + 1 + fuel = i + (fuel + 1) := by omega
      have hrest := ih (i := i + 1) (r := r - len i) (by rw [hnext]; omega)
      rwa [hnext] at hrest

theorem le_span {c : Nat} (hlen : ∀ k, c ≤ len k) (i n : Nat) : c * n ≤ span len i (i + n) := by
  induction n generalizing i with
  | zero => exact Nat.zero_le _
  | succ n ih =>
    have hnext : i + 1 + n = i + (n + 1) := by omega
    have hrest := ih (i + 1)
    rw [span_step len (by omega), ← hnext]
    have := hlen i
    rw [Nat.mul_succ]
    omega

end Blocks

/-! ## The Gregorian calendar -/

def isLeap (year : Nat) : Bool := year % 4 = 0 && (year % 100 ≠ 0 || year % 400 = 0)

def daysInYear (year : Nat) : Nat := if isLeap year then 366 else 365

def daysInMonth (year month : Nat) : Nat :=
  if month = 2 then if isLeap year then 29 else 28
  else if month = 4 ∨ month = 6 ∨ month = 9 ∨ month = 11 then 30 else 31

theorem daysInYear_ge (year : Nat) : 365 ≤ daysInYear year := by
  unfold daysInYear
  split <;> decide

theorem span_months (year : Nat) : span (daysInMonth year) 1 13 = daysInYear year := by
  have hmonths : List.range' 1 (13 - 1) = [1, 2, 3, 4, 5, 6, 7, 8, 9, 10, 11, 12] := rfl
  rw [span, hmonths]
  unfold daysInYear daysInMonth
  split <;> simp [*]

theorem daysInMonth_le (year month : Nat) : daysInMonth year month ≤ 31 := by
  unfold daysInMonth
  split
  · split <;> decide
  · split <;> decide

/-- A date and a time of day, as a broken-down time has them. -/
structure DateTime where
  year : Nat
  month : Nat
  day : Nat
  hour : Nat
  minute : Nat
  second : Nat
  deriving DecidableEq, Repr

/-- The date and time that lie `s` seconds after the start of 1970. -/
def ofSeconds (s : Nat) : DateTime :=
  let days := s / 86400
  let year := locate daysInYear (days / 365 + 1) 1970 days
  let month := locate (daysInMonth year.1) 12 1 year.2
  { year := year.1
    month := month.1
    day := month.2 + 1
    hour := s % 86400 / 3600
    minute := s % 3600 / 60
    second := s % 60 }

/-- The seconds from the start of 1970; a day past its month counts on into the next. -/
def toSeconds (d : DateTime) : Nat :=
  (span daysInYear 1970 d.year + span (daysInMonth d.year) 1 d.month +
    (d.day - 1)) * 86400 + d.hour * 3600 + d.minute * 60 +
    d.second

theorem toSeconds_ofSeconds (s : Nat) : toSeconds (ofSeconds s) = s := by
  have hyear := span_locate daysInYear (s / 86400 / 365 + 1) 1970 (s / 86400)
  have hmonth := span_locate (daysInMonth (locate daysInYear (s / 86400 / 365 + 1) 1970 (s / 86400)).1) 12 1
    (locate daysInYear (s / 86400 / 365 + 1) 1970 (s / 86400)).2
  simp only [toSeconds, ofSeconds]
  omega

/-- The fields of a date lie where a clock and a calendar have them. -/
structure DateTime.Valid (d : DateTime) : Prop where
  month : 1 ≤ d.month ∧ d.month ≤ 12
  day : 1 ≤ d.day ∧ d.day ≤ daysInMonth d.year d.month
  hour : d.hour < 24
  minute : d.minute < 60
  second : d.second < 60

theorem locate_year (days : Nat) :
    (locate daysInYear (days / 365 + 1) 1970 days).1 ≤ 1970 + days / 365 ∧
      (locate daysInYear (days / 365 + 1) 1970 days).2 < daysInYear
        (locate daysInYear (days / 365 + 1) 1970 days).1 := by
  have henough := le_span daysInYear daysInYear_ge 1970 (days / 365 + 1)
  obtain ⟨hyear, hday⟩ := locate_lt daysInYear (i := 1970) (r := days) (days / 365 + 1) (by omega)
  exact ⟨by omega, hday⟩

theorem ofSeconds_valid (s : Nat) : (ofSeconds s).Valid := by
  obtain ⟨-, hday⟩ := locate_year (s / 86400)
  rw [← span_months] at hday
  have hge := locate_ge (daysInMonth (ofSeconds s).year) 12 1
    (locate daysInYear (s / 86400 / 365 + 1) 1970 (s / 86400)).2
  obtain ⟨hmonth, hin⟩ := locate_lt _ 12 hday
  refine ⟨⟨hge, Nat.lt_succ_iff.1 hmonth⟩, ⟨Nat.le_add_left _ _, hin⟩, ?_, ?_, ?_⟩
  all_goals
    simp only [ofSeconds]
    omega

theorem ofSeconds_year (s : Nat) : 1970 ≤ (ofSeconds s).year ∧ (ofSeconds s).year ≤ 1970 + s / 86400 / 365 :=
  ⟨locate_ge _ _ _ _, (locate_year (s / 86400)).1⟩

end Calendar
