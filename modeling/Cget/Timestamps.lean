import Cget.Lib.Calendar
import Cget.TaskJson
/-!
# Clock readings as text

`formatTimestamp` and `parseTimestamp` of `types.cpp`. The clock counts nanoseconds, the text
has the date and the time to the second.
-/

namespace Cget

open Json

/-! ## Fields of a fixed width -/

/-- The last `w` digits of `n`. -/
def paddedDecimal : Nat → Nat → Text
  | 0, _ => []
  | w + 1, n => paddedDecimal w (n / 10) ++ [(48 + n % 10).toUInt8]

/-- A number of `std::get_time`: `w` digits that stand for one of `low` to `high`. -/
def timeNumber (w low high : Nat) (s : Text) : Option (Nat × Text) :=
  if (s.take w).length = w ∧ (s.take w).all isDigit ∧ low ≤ natOf (s.take w) ∧ natOf (s.take w) ≤ high then
    some (natOf (s.take w), s.drop w)
  else none

/-- A character of the format of `std::get_time`. -/
def timeMark (c : UInt8) (s : Text) : Option Text := if s.head? = some c then some s.tail else none

theorem length_paddedDecimal (w n : Nat) : (paddedDecimal w n).length = w := by
  induction w generalizing n with
  | zero => rfl
  | succ w ih => rw [paddedDecimal, List.length_append, ih, List.length_singleton]

theorem digit_byte (n : Nat) : isDigit (48 + n % 10).toUInt8 = true ∧ (48 + n % 10).toUInt8.toNat - 48 = n % 10 := by
  have hdigit : ∀ k < 10, isDigit (48 + k).toUInt8 = true ∧ (48 + k).toUInt8.toNat - 48 = k := by decide
  exact hdigit (n % 10) (Nat.mod_lt n (by decide))

theorem all_isDigit_paddedDecimal (w n : Nat) : (paddedDecimal w n).all isDigit = true := by
  induction w generalizing n with
  | zero => rfl
  | succ w ih => rw [paddedDecimal, List.all_append, ih, List.all_cons, (digit_byte n).1, List.all_nil]; rfl

theorem natOf_paddedDecimal (w n : Nat) (h : n < 10 ^ w) : natOf (paddedDecimal w n) = n := by
  induction w generalizing n with
  | zero =>
    rw [Nat.pow_zero, Nat.lt_one_iff] at h
    exact h.symm
  | succ w ih =>
    have hrest : n / 10 < 10 ^ w := Nat.div_lt_of_lt_mul (by rwa [Nat.mul_comm, ← Nat.pow_succ])
    have hfront := ih (n / 10) hrest
    unfold natOf at hfront ⊢
    rw [paddedDecimal, List.foldl_append, hfront, List.foldl_cons, List.foldl_nil, (digit_byte n).2]
    omega

/-- A field that was printed with its width is read back. -/
theorem timeNumber_padded {w low high n : Nat} (hw : n < 10 ^ w) (hlow : low ≤ n) (hhigh : n ≤ high) (rest : Text) :
    timeNumber w low high (paddedDecimal w n ++ rest) = some (n, rest) := by
  have htake : (paddedDecimal w n ++ rest).take w = paddedDecimal w n := List.take_left' (length_paddedDecimal w n)
  have hdrop : (paddedDecimal w n ++ rest).drop w = rest := List.drop_left' (length_paddedDecimal w n)
  unfold timeNumber
  rw [htake, hdrop, natOf_paddedDecimal w n hw,
    if_pos ⟨length_paddedDecimal w n, all_isDigit_paddedDecimal w n, hlow, hhigh⟩]

theorem timeMark_cons (c : UInt8) (s : Text) : timeMark c (c :: s) = some s := if_pos rfl

/-! ## The two functions -/

/-- `std::put_time` with `%Y-%m-%dT%H:%M:%SZ`; a year of the clock has four digits. -/
def putTime (d : Calendar.DateTime) : Text :=
  paddedDecimal 4 d.year ++ 45 :: (paddedDecimal 2 d.month ++ 45 :: (paddedDecimal 2 d.day ++ 84 ::
    (paddedDecimal 2 d.hour ++ 58 :: (paddedDecimal 2 d.minute ++ 58 :: (paddedDecimal 2 d.second ++ [90])))))

/-- `std::get_time` with the same format, on fields of their full width, the only ones `putTime` prints;
shorter ones, which some libraries take as well, are refused. What follows the `Z` stays unread. -/
def getTime (s : Text) : Option Calendar.DateTime := do
  let (year, s) ← timeNumber 4 0 9999 s
  let s ← timeMark 45 s
  let (month, s) ← timeNumber 2 1 12 s
  let s ← timeMark 45 s
  let (day, s) ← timeNumber 2 1 31 s
  let s ← timeMark 84 s
  let (hour, s) ← timeNumber 2 0 23 s
  let s ← timeMark 58 s
  let (minute, s) ← timeNumber 2 0 59 s
  let s ← timeMark 58 s
  let (second, s) ← timeNumber 2 0 60 s
  let _ ← timeMark 90 s
  pure { year, month, day, hour, minute, second }

/-- The nanoseconds of a second. -/
def oneSecond : Nat := 1000000000

/-- `system_clock::to_time_t` cuts the reading to seconds. -/
def formatTimestamp (n : Nat) : Text := putTime (Calendar.ofSeconds (n / oneSecond))

/-- What cannot be read counts as the present time. -/
def parseTimestamp (now : Nat) (s : Text) : Nat :=
  match getTime s with
  | some d => Calendar.toSeconds d * oneSecond
  | none => now

/-- The functions of the program, called at the time `now`. -/
def utcTimes (now : Nat) : Timestamps where
  formatTimestamp := formatTimestamp
  parseTimestamp := parseTimestamp now

theorem getTime_putTime {d : Calendar.DateTime} (h : d.Valid) (hyear : d.year ≤ 9999) :
    getTime (putTime d) = some d := by
  have hday : d.day ≤ 31 := h.day.2.trans (Calendar.daysInMonth_le d.year d.month)
  have htwo : ∀ {k : Nat}, k ≤ 99 → k < 10 ^ 2 := fun hk => by omega
  have hhour := h.hour
  have hminute := h.minute
  have hsecond := h.second
  unfold getTime putTime
  rw [timeNumber_padded (by omega) (Nat.zero_le _) hyear]
  simp only [Option.bind_eq_bind, Option.bind_some, timeMark_cons]
  rw [timeNumber_padded (htwo (h.month.2.trans (by decide))) h.month.1 h.month.2]
  simp only [Option.bind_some, timeMark_cons]
  rw [timeNumber_padded (htwo (hday.trans (by decide))) h.day.1 hday]
  simp only [Option.bind_some, timeMark_cons]
  rw [timeNumber_padded (htwo (by omega)) (Nat.zero_le _) (by omega)]
  simp only [Option.bind_some, timeMark_cons]
  rw [timeNumber_padded (htwo (by omega)) (Nat.zero_le _) (by omega)]
  simp only [Option.bind_some, timeMark_cons]
  rw [timeNumber_padded (htwo (by omega)) (Nat.zero_le _) (by omega)]
  rfl

/-- A clock reading comes back as the start of its second. -/
theorem parseTimestamp_formatTimestamp (now : Nat) {n : Nat} (h : n < 2 ^ 63) :
    parseTimestamp now (formatTimestamp n) = n / oneSecond * oneSecond := by
  have hyear := (Calendar.ofSeconds_year (n / oneSecond)).2
  have hget : getTime (formatTimestamp n) = some (Calendar.ofSeconds (n / oneSecond)) := by
    refine getTime_putTime (Calendar.ofSeconds_valid _) (hyear.trans ?_)
    unfold oneSecond
    omega
  rw [parseTimestamp, hget]
  exact congrArg (· * oneSecond) (Calendar.toSeconds_ofSeconds _)

/-- The last second of February 2024, and the first of March. -/
example : formatTimestamp (1709251199 * oneSecond) = text "2024-02-29T23:59:59Z" ∧
    formatTimestamp (1709251200 * oneSecond) = text "2024-03-01T00:00:00Z" := by decide +kernel

end Cget
