import Cget.JsonRoundTrip
/-!
# Text helpers

`trim` and `lower`, which `http_protocol_handler.cpp` and `bandwidth.cpp` each define for themselves, and what
`std::istream` reads of a number. Character classes are those of the C locale.
-/

namespace Cget

/-- `std::isspace`. -/
def isSpace (c : UInt8) : Bool := c = 32 || (9 ≤ c && c ≤ 13)

def trim (value : Text) : Text := ((value.dropWhile isSpace).reverse.dropWhile isSpace).reverse

/-- `std::tolower`. -/
def toLower (c : UInt8) : UInt8 := if 65 ≤ c ∧ c ≤ 90 then c + 32 else c

def lower (value : Text) : Text := value.map toLower

/-- `input >> x` for a `long` `x`, on a stream with something left after its blanks: without
digits it stores 0, out of range the nearest `long`. -/
def readLong (s : Text) : Int :=
  let digits := if s.head? = some 43 ∨ s.head? = some 45 then s.tail else s
  let n : Int := Json.natOf (digits.takeWhile Json.isDigit)
  if s.head? = some 45 then max (-2 ^ 63) (-n) else min (2 ^ 63 - 1) n

/-- `std::to_string` of a `long`. -/
def decimalInt (n : Int) : Text := if n < 0 then 45 :: decimal n.natAbs else decimal n.natAbs

theorem isSpace_digit {c : UInt8} (h : Json.isDigit c = true) : isSpace c = false := by
  simp only [Json.isDigit, isSpace, Bool.and_eq_true, Bool.or_eq_false_iff, Bool.and_eq_false_iff, decide_eq_true_eq,
    decide_eq_false_iff_not, UInt8.le_iff_toNat_le, ← UInt8.toNat_inj] at h ⊢
  simp only [UInt8.reduceToNat] at h ⊢
  omega

/-- A number is read to the first byte that is no digit. -/
theorem readLong_decimal {n : Nat} (hn : n < 2 ^ 63) {rest : Text} (hrest : ∀ c ∈ rest.head?, Json.isDigit c = false) :
    readLong (decimal n ++ rest) = n := by
  obtain ⟨c, r, hr, hc, -⟩ := Json.decimal_head n
  have hplus : c ≠ 43 := by rintro rfl; cases hc
  have hminus : c ≠ 45 := by rintro rfl; cases hc
  have hhead : (decimal n ++ rest).head? = some c := by rw [hr]; rfl
  have hdigits : (decimal n ++ rest).takeWhile Json.isDigit = decimal n := by
    rw [List.takeWhile_append_of_pos (Json.isDigit_decimal n)]
    cases rest with
    | nil => simp
    | cons d rest => simp [hrest d rfl]
  simp only [readLong, hhead, Option.some.injEq, hplus, hminus, or_self, if_false, hdigits, Json.natOf_decimal]
  omega

/-- The blanks at the end, taken away. -/
def trimEnd (value : Text) : Text := (value.reverse.dropWhile isSpace).reverse

theorem trimEnd_prefix (value : Text) : trimEnd value <+: value := by
  rw [trimEnd, ← List.reverse_suffix, List.reverse_reverse]
  exact List.dropWhile_suffix _

/-- `trim` changes nothing before the last byte of `a` that is no blank. -/
theorem trim_append {a b : Text} {c d : UInt8} (hhead : a.head? = some c) (hc : isSpace c = false)
    (hlast : a.getLast? = some d) (hd : isSpace d = false) : trim (a ++ b) = a ++ trimEnd b := by
  have front : (a ++ b).dropWhile isSpace = a ++ b := by
    cases a with
    | nil => cases hhead
    | cons x r =>
      cases hhead
      simp [hc]
  have back : a.reverse.dropWhile isSpace = a.reverse := by
    cases h : a.reverse with
    | nil => rfl
    | cons x r =>
      rw [← List.head?_reverse, h] at hlast
      cases hlast
      simp [hd]
  rw [trim, front, List.reverse_append, List.dropWhile_append, back]
  split
  · rename_i hb
    rw [trimEnd, List.isEmpty_iff.1 hb]
    simp
  · simp [trimEnd]

end Cget
