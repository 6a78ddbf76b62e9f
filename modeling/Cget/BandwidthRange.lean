import Cget.Bandwidth
import Cget.JsonNumbers
/-!
# The range of bandwidth limits

`parseBandwidthLimit` compares the bytes with the largest 64-bit number converted to `double`,
which is `2 ^ 64`. A product that rounds to exactly that passes the check, and its conversion is
not defined. Which numbers these are depends on the unit: the number is rounded when it is read,
and again when it is multiplied.
-/

namespace Cget

open Json

/-! ## The number in front -/

def isNumberByte (c : UInt8) : Bool := isDigit c || c = 46

/-- The digits before the first dot. -/
def wholeDigits (number : Text) : Text := number.takeWhile isDigit

/-- The digits from the first dot to the next. -/
def fractionDigits (number : Text) : Text :=
  let rest := number.dropWhile isDigit
  if rest.head? = some 46 then rest.tail.takeWhile isDigit else []

/-- The exact number that is read of digits and dots. -/
def decimalValue (number : Text) : Rat :=
  natOf (wholeDigits number ++ fractionDigits number) / 10 ^ (fractionDigits number).length

/-- `std::stod` reports these numbers as out of its range. -/
def OutOfDoubles (q : Rat) : Prop :=
  Binary64.overflow ≤ Binary64.nearest q ∨ q < Binary64.smallestNormal ∧ Binary64.nearest q ≠ q

instance (q : Rat) : Decidable (OutOfDoubles q) := by
  unfold OutOfDoubles
  infer_instance

variable {value number unit : Text} {m q : Rat}

theorem wholeDigits_digit : ∀ c ∈ wholeDigits number, isDigit c = true := fun _ hc => List.mem_takeWhile_imp hc

theorem fractionDigits_digit : ∀ c ∈ fractionDigits number, isDigit c = true := by
  intro c hc
  unfold fractionDigits at hc
  dsimp only at hc
  split at hc
  · exact List.mem_takeWhile_imp hc
  · cases hc

theorem decimalValue_nonneg (number : Text) : 0 ≤ decimalValue number := div_nonneg (Nat.cast_nonneg _) (by positivity)

/-- `std::stod` rounds the exact number. -/
theorem stod_decimalPrefix (number : Text) : stod (decimalPrefix number) =
    if wholeDigits number ++ fractionDigits number = [] then .error (.other (text "stod"))
    else if OutOfDoubles (decimalValue number) then .error (.other (text "stod"))
    else .ok (Binary64.nearest (decimalValue number)) := by
  have hwhole : ∀ c ∈ wholeDigits number, isDigit c = true := wholeDigits_digit
  have hfraction : ∀ c ∈ fractionDigits number, isDigit c = true := fractionDigits_digit
  have hvalue : natOf (wholeDigits number ++ fractionDigits number) * pow10
      (0 - ((fractionDigits number).length : Int)) =
      decimalValue number := by
    have hpow : pow10 (0 - ((fractionDigits number).length : Int)) = 1 / 10 ^ (fractionDigits number).length := by
      rw [zero_sub, pow10]
      split
      · rename_i h
        have hzero : (fractionDigits number).length = 0 := by omega
        rw [hzero]
        norm_num
      · rw [neg_neg, Int.toNat_natCast]
    rw [hpow, decimalValue, mul_one_div]
  have hhead : ∀ t : Text, t.head? ≠ some 45 → (wholeDigits number ++ t).head? ≠ some 45 := by
    intro t ht
    cases h : wholeDigits number with
    | nil => exact ht
    | cons c r =>
      rintro ⟨⟩
      exact absurd (hwhole 45 (h ▸ List.mem_cons_self)) (by decide)
  by_cases hdot : (number.dropWhile isDigit).head? = some 46
  · have hnumber : decimalPrefix number = wholeDigits number ++ 46 :: fractionDigits number := by
      rw [decimalPrefix, fractionDigits]
      simp only [if_pos hdot]
      rfl
    have htake : (wholeDigits number ++ 46 :: fractionDigits number).takeWhile isDigit = wholeDigits number := by
      rw [List.takeWhile_append_of_pos hwhole, List.takeWhile_cons_of_neg (by decide), List.append_nil]
    have hdrop : (wholeDigits number ++ 46 :: fractionDigits number).dropWhile isDigit =
        46 :: fractionDigits number := by
      rw [List.dropWhile_append_of_pos hwhole, List.dropWhile_cons_of_neg (by decide)]
    rw [hnumber, stod]
    simp only [hhead _ (show (46 :: fractionDigits number).head? ≠ some 45 by simp), if_false, htake, hdrop,
      List.head?_cons,
      List.tail_cons, if_true, takeWhile_digits hfraction, dropWhile_digits hfraction, hvalue, List.append_eq_nil_iff]
    rfl
  · have hnone : fractionDigits number = [] := by rw [fractionDigits]; exact if_neg hdot
    have hnumber : decimalPrefix number = wholeDigits number := by
      rw [decimalPrefix]
      simp only [if_neg hdot, List.append_nil]
      rfl
    have hfirst := hhead [] (by simp)
    rw [List.append_nil] at hfirst
    rw [hnone, List.append_nil] at hvalue
    rw [hnone, hnumber, stod]
    simp only [hfirst, if_false, List.append_nil, takeWhile_digits hwhole, dropWhile_digits hwhole, List.head?_nil,
      reduceCtorEq, if_true, and_true, hvalue]
    rfl

/-- A number that is not out of range is rounded to 0 only if it is 0. -/
theorem nearest_pos_of_inDoubles (hq : 0 ≤ q) (hrange : ¬ OutOfDoubles q) : Binary64.nearest q ≤ 0 ↔ q = 0 := by
  constructor
  · intro h
    have hzero := le_antisymm h (Binary64.nearest_nonneg hq)
    by_contra hne
    refine hrange (.inr ⟨lt_of_not_ge fun hnormal => ?_, fun heq => hne (heq.symm.trans hzero)⟩)
    have := Binary64.nearest_mono (Binary64.pow2_pos _).le hnormal
    rw [Binary64.nearest_pow2 (by norm_num)] at this
    linarith [Binary64.pow2_pos (-1022)]
  · rintro rfl
    rw [Binary64.nearest, if_pos rfl]

/-! ## What is converted -/

/-- The text that is looked at. -/
def normalizedLimit (value : Text) : Text := lower (trim value)

/-- The texts that mean no limit, without reading a number. -/
abbrev IsUnlimitedWord (s : Text) : Prop := s = text "unlimited" ∨ s = text "none" ∨ s = text "off" ∨ s = text "0"

def numberPart (s : Text) : Text := s.takeWhile isNumberByte

def unitPart (s : Text) : Text := s.drop (numberPart s).length

def HasDigits (number : Text) : Prop := wholeDigits number ++ fractionDigits number ≠ []

instance (number : Text) : Decidable (HasDigits number) := by
  unfold HasDigits
  infer_instance

def bandwidthOutOfRange : Exn := .cget .invalidCommandError (text "bandwidth limit is out of range")

/-- A number times its unit, and the check. -/
def bytesOf (number : Rat) (unit : Text) : Except Exn (Option Rat) := do
  let multiplier ← multiplierOf unit
  let bytes := Binary64.nearest (number * multiplier)
  if 2 ^ 64 < bytes then throw bandwidthOutOfRange else pure (some bytes)

/-- `parseBandwidthLimit` up to its last conversion, with the `double` that is converted. -/
def bandwidthBytes (value : Text) : Except Exn (Option Rat) :=
  let s := normalizedLimit value
  if IsUnlimitedWord s then .ok none
  else if numberPart s = [] then .error (invalidLimit value)
  else match stod (decimalPrefix (numberPart s)) with
    | .error _ => .error (invalidLimit value)
    | .ok number =>
      if number ≤ 0 then .ok none else bytesOf number (unitOf (unitPart s))

/-- What is left is the conversion. -/
theorem parseBandwidthLimit_bytes (value : Text) :
    parseBandwidthLimit value =
      (bandwidthBytes value).map (Option.map fun bytes => UInt64.ofNat bytes.floor.toNat) := by
  have hnumber : (lower (trim value)).takeWhile (fun c => isDigit c || c = 46) =
      numberPart (normalizedLimit value) := rfl
  have hs : lower (trim value) = normalizedLimit value := rfl
  unfold parseBandwidthLimit bandwidthBytes
  dsimp only
  rw [hnumber, hs]
  by_cases hword : IsUnlimitedWord (normalizedLimit value)
  · rw [if_pos hword, if_pos hword]
    rfl
  rw [if_neg hword, if_neg hword]
  by_cases hempty : numberPart (normalizedLimit value) = []
  · rw [if_pos hempty, if_pos hempty]
    rfl
  rw [if_neg hempty, if_neg hempty]
  cases stod (decimalPrefix (numberPart (normalizedLimit value))) with
  | error e => rfl
  | ok number =>
    dsimp only
    by_cases hpositive : number ≤ 0
    · rw [if_pos hpositive, if_pos hpositive]
      rfl
    rw [if_neg hpositive, if_neg hpositive]
    change (multiplierOf (unitOf (unitPart (normalizedLimit value))) >>= _) = _
    rw [bytesOf]
    cases multiplierOf (unitOf (unitPart (normalizedLimit value))) with
    | error e => rfl
    | ok m =>
      by_cases hrange : 2 ^ 64 < Binary64.nearest (number * m)
      · change (if 2 ^ 64 < Binary64.nearest (number * m) then throw bandwidthOutOfRange else _) =
          Except.map _ (if 2 ^ 64 < Binary64.nearest (number * m) then throw bandwidthOutOfRange else _)
        rw [if_pos hrange, if_pos hrange]
        rfl
      · change (if 2 ^ 64 < Binary64.nearest (number * m) then throw bandwidthOutOfRange else _) =
          Except.map _ (if 2 ^ 64 < Binary64.nearest (number * m) then throw bandwidthOutOfRange else _)
        rw [if_neg hrange, if_neg hrange]
        rfl

/-- The same by the exact number. -/
theorem bandwidthBytes_eq (value : Text) : bandwidthBytes value =
    if IsUnlimitedWord (normalizedLimit value) then .ok none
    else if ¬ HasDigits (numberPart (normalizedLimit value)) ∨
      OutOfDoubles (decimalValue (numberPart (normalizedLimit value))) then
      .error (invalidLimit value)
    else if decimalValue (numberPart (normalizedLimit value)) = 0 then .ok none
    else bytesOf (Binary64.nearest (decimalValue (numberPart (normalizedLimit value))))
      (unitOf (unitPart (normalizedLimit value))) := by
  unfold bandwidthBytes
  dsimp only
  by_cases hword : IsUnlimitedWord (normalizedLimit value)
  · rw [if_pos hword, if_pos hword]
  rw [if_neg hword, if_neg hword, stod_decimalPrefix]
  by_cases hdigits : HasDigits (numberPart (normalizedLimit value))
  · have hne : numberPart (normalizedLimit value) ≠ [] := fun h => hdigits (by rw [h]; rfl)
    rw [if_neg hne, if_neg hdigits]
    by_cases hrange : OutOfDoubles (decimalValue (numberPart (normalizedLimit value)))
    · rw [if_pos hrange, if_pos (.inr hrange)]
    rw [if_neg hrange, if_neg (not_or.2 ⟨not_not.2 hdigits, hrange⟩)]
    dsimp only
    have hzero := nearest_pos_of_inDoubles (decimalValue_nonneg _) hrange
    by_cases hq : decimalValue (numberPart (normalizedLimit value)) = 0
    · rw [if_pos (hzero.2 hq), if_pos hq]
    · rw [if_neg fun h => hq (hzero.1 h), if_neg hq]
  · rw [if_pos (not_not.1 hdigits)]
    dsimp only
    rw [ite_self, if_pos (Or.inl hdigits)]

/-- A number and a unit that a limit is read as. -/
structure LimitReadAs (value : Text) (number multiplier : Rat) : Prop where
  word : ¬ IsUnlimitedWord (normalizedLimit value)
  digits : HasDigits (numberPart (normalizedLimit value))
  number : number = decimalValue (numberPart (normalizedLimit value))
  unit : multiplierOf (unitOf (unitPart (normalizedLimit value))) = .ok multiplier

theorem LimitReadAs.bytes (h : LimitReadAs value q m) : bandwidthBytes value =
    if OutOfDoubles q then .error (invalidLimit value)
    else if q = 0 then .ok none
    else if 2 ^ 64 < Binary64.nearest (Binary64.nearest q * m) then .error bandwidthOutOfRange
    else .ok (some (Binary64.nearest (Binary64.nearest q * m))) := by
  obtain ⟨hword, hdigits, rfl, hunit⟩ := h
  rw [bandwidthBytes_eq, if_neg hword, bytesOf, hunit]
  by_cases hrange : OutOfDoubles (decimalValue (numberPart (normalizedLimit value)))
  · rw [if_pos (.inr hrange), if_pos hrange]
  · rw [if_neg (not_or.2 ⟨not_not.2 hdigits, hrange⟩), if_neg hrange]
    rfl

/-- A limit that is converted was read as a number with a unit. -/
theorem bandwidthBytes_some {bytes : Rat} (h : bandwidthBytes value = .ok (some bytes)) :
    ∃ q m, LimitReadAs value q m ∧ Binary64.nearest (Binary64.nearest q * m) ≤ 2 ^ 64 ∧
      bytes = Binary64.nearest (Binary64.nearest q * m) := by
  rw [bandwidthBytes_eq] at h
  split at h
  · cases h
  rename_i hword
  split at h
  · cases h
  rename_i hnumber
  rw [not_or, not_not] at hnumber
  split at h
  · cases h
  obtain ⟨m, hunit, h⟩ := bind_ok h
  refine ⟨_, m, ⟨hword, hnumber.1, rfl, hunit⟩, ?_⟩
  dsimp only at h
  split at h
  · cases h
  · rename_i hle
    cases h
    exact ⟨not_lt.1 hle, rfl⟩

/-! ## What is rounded to the limit -/

theorem pow2_nat (n : Nat) : Binary64.pow2 n = 2 ^ n := by rw [Binary64.pow2_eq_zpow, zpow_natCast]

theorem pow2_neg (n : Nat) : Binary64.pow2 (-(n : Int)) = 1 / 2 ^ n := by
  rw [Binary64.pow2_eq_zpow, zpow_neg, zpow_natCast, one_div]

/-- The largest double below `2 ^ 64` is `2 ^ 64 - 2 ^ 11`, and what is half a gap away goes to the limit. -/
theorem limit_le_nearest (hq : 0 ≤ q) : 2 ^ 64 ≤ Binary64.nearest q ↔ 2 ^ 64 - 2 ^ 10 ≤ q := by
  have h := Binary64.le_nearest_iff (q := q) (k := 2 ^ 53) (e := 11) hq (by norm_num) (by norm_num) (by norm_num)
  have hplace : Binary64.pow2 11 = 2 ^ 11 := pow2_nat 11
  rw [hplace, Binary64.le_roundEven_div_even (by norm_num) (by norm_num)] at h
  norm_num at h ⊢
  exact h

theorem nearest_le_limit (hq : 0 ≤ q) : Binary64.nearest q ≤ 2 ^ 64 ↔ q ≤ 2 ^ 64 + 2 ^ 11 := by
  have h := Binary64.nearest_le_iff (q := q) (k := 2 ^ 52) (e := 12) hq (by norm_num) (by norm_num) (by norm_num)
  have hplace : Binary64.pow2 12 = 2 ^ 12 := pow2_nat 12
  rw [hplace, Binary64.roundEven_div_le_even (by norm_num) (by norm_num)] at h
  norm_num at h ⊢
  exact h

/-- The exact numbers whose product with a unit is rounded to the limit or more. -/
def FromLimit (multiplier number : Rat) : Prop :=
  if multiplier = 1000 then 18446744073709550 ≤ number
  else if multiplier = 1000 * 1000 then 18446744073709 + 281 / 512 < number
  else if multiplier = 1000 * 1000 * 1000 then 18446744073 + 372009 / 524288 < number
  else 2 ^ 64 - 2 ^ 10 ≤ number * multiplier

/-- Those whose product is rounded to the limit or less. -/
def UpToLimit (multiplier number : Rat) : Prop :=
  if multiplier = 1000 then number ≤ 18446744073709554
  else if multiplier = 1000 * 1000 then number < 18446744073709 + 283 / 512
  else if multiplier = 1000 * 1000 * 1000 then number < 18446744073 + 372011 / 524288
  else number * multiplier ≤ 2 ^ 64 + 2 ^ 11

theorem multiplierOf_cases (h : multiplierOf unit = .ok m) :
    m = 1000 ∨ m = 1000 * 1000 ∨ m = 1000 * 1000 * 1000 ∨
      (m ≠ 1000 ∧ m ≠ 1000 * 1000 ∧ m ≠ 1000 * 1000 * 1000) ∧ ∃ j : Nat, j ≤ 30 ∧ m = 2 ^ j := by
  unfold multiplierOf at h
  split at h
  · cases h
    exact .inr (.inr (.inr ⟨by norm_num, 0, by norm_num, by norm_num⟩))
  split at h
  · cases h
    exact .inl rfl
  split at h
  · cases h
    exact .inr (.inl rfl)
  split at h
  · cases h
    exact .inr (.inr (.inl rfl))
  split at h
  · cases h
    exact .inr (.inr (.inr ⟨by norm_num, 10, by norm_num, by norm_num⟩))
  split at h
  · cases h
    exact .inr (.inr (.inr ⟨by norm_num, 20, by norm_num, by norm_num⟩))
  split at h
  · cases h
    exact .inr (.inr (.inr ⟨by norm_num, 30, by norm_num, by norm_num⟩))
  · cases h

theorem one_le_multiplier (h : multiplierOf unit = .ok m) : 1 ≤ m := by
  rcases multiplierOf_cases h with rfl | rfl | rfl | ⟨-, j, -, rfl⟩
  · norm_num
  · norm_num
  · norm_num
  · exact one_le_pow₀ (by norm_num)

/-- The product of a unit, rounded twice, and the limit. For the decimal units one double gives
the limit; for the others scaling does not change what is rounded. -/
theorem product_limit (h : multiplierOf unit = .ok m) (hq : 0 ≤ q) :
    (2 ^ 64 ≤ Binary64.nearest (Binary64.nearest q * m) ↔ FromLimit m q) ∧
      (Binary64.nearest (Binary64.nearest q * m) ≤ 2 ^ 64 ↔ UpToLimit m q) := by
  have hm : 0 < m := zero_lt_one.trans_le (one_le_multiplier h)
  have hproduct : 0 ≤ Binary64.nearest q * m := mul_nonneg (Binary64.nearest_nonneg hq) hm.le
  rw [limit_le_nearest hproduct, nearest_le_limit hproduct]
  rcases multiplierOf_cases h with rfl | rfl | rfl | ⟨⟨hk, hmb, hgb⟩, j, hj, rfl⟩
  · have hplace : Binary64.pow2 2 = 2 ^ 2 := pow2_nat 2
    have hlow := Binary64.le_product_iff (k := 4611686018427388) (e := 2) (x := 2 ^ 64 - 2 ^ 10) hq hm (by norm_num)
      (by norm_num) (by norm_num) (by rw [hplace]; norm_num) (by rw [hplace]; norm_num)
    have hhigh := Binary64.product_le_iff (k := 4611686018427388) (e := 2) (x := 2 ^ 64 + 2 ^ 11) hq hm (by norm_num)
      (by norm_num) (by norm_num) (by rw [hplace]; norm_num) (by rw [hplace]; norm_num)
    rw [hplace, Binary64.le_roundEven_div_even (by norm_num) (by norm_num)] at hlow
    rw [hplace, Binary64.roundEven_div_le_even (by norm_num) (by norm_num)] at hhigh
    rw [hlow, hhigh, FromLimit, UpToLimit]
    norm_num
  · have hplace : Binary64.pow2 (-8) = 1 / 2 ^ 8 := pow2_neg 8
    have hlow := Binary64.le_product_iff (k := 18446744073709 * 256 + 141) (e := -8) (x := 2 ^ 64 - 2 ^ 10) hq hm
      (by norm_num) (by norm_num) (by norm_num) (by rw [hplace]; norm_num) (by rw [hplace]; norm_num)
    have hhigh := Binary64.product_le_iff (k := 18446744073709 * 256 + 141) (e := -8) (x := 2 ^ 64 + 2 ^ 11) hq hm
      (by norm_num) (by norm_num) (by norm_num) (by rw [hplace]; norm_num) (by rw [hplace]; norm_num)
    rw [hplace, Binary64.le_roundEven_div_odd (by norm_num) (by norm_num)] at hlow
    rw [hplace, Binary64.roundEven_div_le_odd (by norm_num) (by norm_num)] at hhigh
    rw [hlow, hhigh, FromLimit, UpToLimit]
    norm_num
  · have hplace : Binary64.pow2 (-18) = 1 / 2 ^ 18 := pow2_neg 18
    have hlow := Binary64.le_product_iff (k := 18446744073 * 262144 + 186005) (e := -18) (x := 2 ^ 64 - 2 ^ 10) hq hm
      (by norm_num) (by norm_num) (by norm_num) (by rw [hplace]; norm_num) (by rw [hplace]; norm_num)
    have hhigh := Binary64.product_le_iff (k := 18446744073 * 262144 + 186005) (e := -18) (x := 2 ^ 64 + 2 ^ 11) hq hm
      (by norm_num) (by norm_num) (by norm_num) (by rw [hplace]; norm_num) (by rw [hplace]; norm_num)
    rw [hplace, Binary64.le_roundEven_div_odd (by norm_num) (by norm_num)] at hlow
    rw [hplace, Binary64.roundEven_div_le_odd (by norm_num) (by norm_num)] at hhigh
    rw [hlow, hhigh, FromLimit, UpToLimit]
    norm_num
  · have hplace : ∀ n : Nat, Binary64.pow2 ((n : Int) - j) = 2 ^ n / 2 ^ j := by
      intro n
      rw [Binary64.pow2_eq_zpow, zpow_sub₀ (by norm_num), zpow_natCast, zpow_natCast]
    have hlowPlace : Binary64.pow2 (11 - j) = 2 ^ 11 / 2 ^ j := hplace 11
    have hhighPlace : Binary64.pow2 (12 - j) = 2 ^ 12 / 2 ^ j := hplace 12
    have hscale : ∀ (a : Rat) (n : Nat), a * (2 ^ n / 2 ^ j) * 2 ^ j = a * 2 ^ n := by
      intro a n
      rw [mul_assoc, div_mul_cancel₀ _ hm.ne']
    have hlow := Binary64.le_product_iff (k := 2 ^ 53) (e := 11 - j) (x := 2 ^ 64 - 2 ^ 10) hq hm (by omega)
      (by norm_num) (by norm_num) (by rw [hlowPlace, hscale]; norm_num) (by rw [hlowPlace, hscale]; norm_num)
    have hhigh := Binary64.product_le_iff (k := 2 ^ 52) (e := 12 - j) (x := 2 ^ 64 + 2 ^ 11) hq hm (by omega)
      (by norm_num) (by norm_num) (by rw [hhighPlace, hscale]; norm_num) (by rw [hhighPlace, hscale]; norm_num)
    rw [hlowPlace, Binary64.le_roundEven_div_even (by positivity) (by norm_num), mul_div_assoc', div_le_iff₀ hm] at hlow
    rw [hhighPlace, Binary64.roundEven_div_le_even (by positivity) (by norm_num), mul_div_assoc',
      le_div_iff₀ hm] at hhigh
    rw [hlow, hhigh, FromLimit, UpToLimit, if_neg hk, if_neg hmb, if_neg hgb, if_neg hk, if_neg hmb, if_neg hgb]
    norm_num

/-! ## When the conversion is defined -/

/-- The converted number is below `2 ^ 64`, and a number that is not, exactly or as rounded, is
rejected: by the check, or already by `std::stod` where no double is so large. -/
structure ConvertsInRange (value : Text) : Prop where
  converted : ∀ bytes : Rat, bandwidthBytes value = .ok (some bytes) → bytes < 2 ^ 64
  larger : ∀ number multiplier : Rat, LimitReadAs value number multiplier →
    2 ^ 64 ≤ number * multiplier ∨ 2 ^ 64 ≤ Binary64.nearest (Binary64.nearest number * multiplier) →
    parseBandwidthLimit value =
      .error (if Binary64.overflow ≤ Binary64.nearest number then invalidLimit value else bandwidthOutOfRange)

/-- The product is rounded to exactly `2 ^ 64`. -/
def RoundsToLimit (value : Text) : Prop := ∃ number multiplier : Rat, LimitReadAs value number multiplier ∧
  FromLimit multiplier number ∧ UpToLimit multiplier number

theorem LimitReadAs.nonneg (h : LimitReadAs value q m) : 0 ≤ q := h.number ▸ decimalValue_nonneg _

/-- What is not below the limit exactly is not below it as rounded either. -/
theorem fromLimit_of_le (h : multiplierOf unit = .ok m) (hlarge : 2 ^ 64 ≤ q * m) : FromLimit m q := by
  rw [FromLimit]
  split
  · subst m
    linarith
  split
  · subst m
    linarith
  split
  · subst m
    linarith
  · linarith

/-- So large a number is no small one. -/
theorem one_le_of_fromLimit (h : multiplierOf unit = .ok m) (hlarge : FromLimit m q) : 1 ≤ q := by
  rw [FromLimit] at hlarge
  split at hlarge
  · linarith
  split at hlarge
  · linarith
  split at hlarge
  · linarith
  · rcases multiplierOf_cases h with rfl | rfl | rfl | ⟨-, j, hj, rfl⟩
    · contradiction
    · contradiction
    · contradiction
    · by_contra hless
      have hpow : (2 : Rat) ^ j ≤ 2 ^ 30 := pow_le_pow_right₀ (by norm_num) hj
      have : q * 2 ^ j ≤ 1 * 2 ^ 30 := by
        rcases lt_or_ge q 0 with hneg | hpos
        · have := mul_neg_of_neg_of_pos hneg (show (0 : Rat) < 2 ^ j by positivity)
          linarith
        · exact mul_le_mul (not_le.1 hless).le hpow (by positivity) (by norm_num)
      linarith

theorem smallestNormal_le_one : Binary64.smallestNormal ≤ 1 := by
  rw [show Binary64.smallestNormal = 1 / 2 ^ 1022 from pow2_neg 1022]
  exact div_le_one_of_le₀ (one_le_pow₀ (by norm_num)) (by positivity)

/-- A limit is converted in range unless it is read as a number that the product takes to the limit itself. -/
theorem limit_in_range_iff (value : Text) : ConvertsInRange value ↔ ¬ RoundsToLimit value := by
  constructor
  · rintro h ⟨q, m, hread, hfrom, hupTo⟩
    have hbytes := hread.bytes
    have hone := one_le_of_fromLimit hread.unit hfrom
    obtain ⟨hlow, hhigh⟩ := product_limit hread.unit hread.nonneg
    have hsame := le_antisymm (hhigh.2 hupTo) (hlow.2 hfrom)
    have hfinite : Binary64.nearest q < Binary64.overflow := by
      have hproduct := mul_nonneg (Binary64.nearest_nonneg hread.nonneg)
        (zero_le_one.trans (one_le_multiplier hread.unit))
      have hle := (nearest_le_limit hproduct).1 hsame.le
      have hmore := le_mul_of_one_le_right (Binary64.nearest_nonneg hread.nonneg) (one_le_multiplier hread.unit)
      calc Binary64.nearest q ≤ 2 ^ 65 := by linarith
        _ < 2 ^ 1024 := pow_lt_pow_right₀ (by norm_num) (by norm_num)
    have hin : ¬ OutOfDoubles q := by
      rintro (hover | ⟨hsmall, -⟩)
      · linarith
      · linarith [smallestNormal_le_one]
    rw [if_neg hin, if_neg (by linarith), hsame, if_neg (lt_irrefl _)] at hbytes
    exact absurd (h.converted _ hbytes) (lt_irrefl _)
  · intro hnot
    refine ⟨fun bytes h => ?_, fun q m hread hlarge => ?_⟩
    · obtain ⟨q, m, hread, hle, rfl⟩ := bandwidthBytes_some h
      obtain ⟨hlow, hhigh⟩ := product_limit hread.unit hread.nonneg
      refine lt_of_le_of_ne hle fun heq => hnot ⟨q, m, hread, hlow.1 heq.ge, hhigh.1 hle⟩
    · obtain ⟨hlow, hhigh⟩ := product_limit hread.unit hread.nonneg
      have hfrom : FromLimit m q := hlarge.elim (fromLimit_of_le hread.unit) hlow.1
      have hone := one_le_of_fromLimit hread.unit hfrom
      have hover : OutOfDoubles q ↔ Binary64.overflow ≤ Binary64.nearest q :=
        ⟨fun h => h.resolve_right fun hsmall => by linarith [smallestNormal_le_one, hsmall.1], .inl⟩
      have hmore : 2 ^ 64 < Binary64.nearest (Binary64.nearest q * m) := by
        refine lt_of_not_ge fun hle => hnot ⟨q, m, hread, hfrom, hhigh.1 hle⟩
      rw [parseBandwidthLimit_bytes, hread.bytes]
      by_cases hout : Binary64.overflow ≤ Binary64.nearest q
      · rw [if_pos (hover.2 hout), if_pos hout]
        rfl
      · rw [if_neg (fun h => hout (hover.1 h)), if_neg (by linarith), if_pos hmore, if_neg hout]
        rfl

/-- `2 ^ 64 - 1` passes the check as `2 ^ 64`. -/
theorem limit_not_in_range : bandwidthBytes (text "18446744073709551615") = .ok (some (2 ^ 64)) ∧
    ¬ ConvertsInRange (text "18446744073709551615") := by
  have hbytes : bandwidthBytes (text "18446744073709551615") = .ok (some (2 ^ 64)) := by decide +kernel
  exact ⟨hbytes, fun h => absurd (h.converted _ hbytes) (lt_irrefl _)⟩

end Cget
