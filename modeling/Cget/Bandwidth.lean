import Cget.Strings
/-!
# Bandwidth limits as text

`parseBandwidthLimit` of `bandwidth.cpp`. Its `double` arithmetic is that of `Binary64`.
-/

namespace Cget

def invalidLimit (value : Text) : Exn := .cget .invalidCommandError (text "invalid bandwidth limit: " ++ value)

/-- What `std::stod` reads of digits and dots. -/
def decimalPrefix (s : Text) : Text :=
  let rest := s.dropWhile Json.isDigit
  s.takeWhile Json.isDigit ++ if rest.head? = some 46 then 46 :: rest.tail.takeWhile Json.isDigit else []

/-- The text after the number, without blanks and `/s`. -/
def unitOf (rest : Text) : Text :=
  let unit := trim rest
  if 2 < unit.length ∧ unit.drop (unit.length - 2) = text "/s" then trim (unit.take (unit.length - 2)) else unit

def multiplierOf (unit : Text) : Except Exn Rat :=
  if unit = [] ∨ unit = text "b" then .ok 1
  else if unit = text "kb" then .ok 1000
  else if unit = text "mb" then .ok (1000 * 1000)
  else if unit = text "gb" then .ok (1000 * 1000 * 1000)
  else if unit = text "kib" then .ok 1024
  else if unit = text "mib" then .ok (1024 * 1024)
  else if unit = text "gib" then .ok (1024 * 1024 * 1024)
  else .error (.cget .invalidCommandError (text "unknown bandwidth unit: " ++ unit))

/-- `parseBandwidthLimit`. The last conversion is not defined in the source for exactly 2 ^ 64. -/
def parseBandwidthLimit (value : Text) : Except Exn (Option UInt64) :=
  let normalized := lower (trim value)
  if normalized = text "unlimited" ∨ normalized = text "none" ∨ normalized = text "off" ∨
    normalized = text "0" then .ok none
  else
    let digits := normalized.takeWhile (fun c => Json.isDigit c || c = 46)
    if digits = [] then .error (invalidLimit value)
    else match Json.stod (decimalPrefix digits) with
      | .error _ => .error (invalidLimit value)
      | .ok number =>
        if number ≤ 0 then .ok none
        else do
          let multiplier ← multiplierOf (unitOf (normalized.drop digits.length))
          let bytes := Binary64.nearest (number * multiplier)
          if 2 ^ 64 < bytes then throw (.cget .invalidCommandError (text "bandwidth limit is out of range"))
          else pure (some (UInt64.ofNat bytes.floor.toNat))

/-- A whole number as a double holds it, converted back to 64 bits. -/
def rounded (n : UInt64) : UInt64 := UInt64.ofNat (Binary64.nearest n.toNat).floor.toNat

theorem rounded_whole {n : UInt64} (h : Binary64.Whole n.toNat) : rounded n = n := by
  have hfloor : (n.toNat : Rat).floor = n.toNat := by exact_mod_cast Rat.floor_intCast (n.toNat : Int)
  rw [rounded, Binary64.nearest_whole h, hfloor, Int.toNat_natCast, UInt64.ofNat_toNat]

theorem toLower_digit {c : UInt8} (h : Json.isDigit c = true) : toLower c = c := by
  simp only [Json.isDigit, Bool.and_eq_true, decide_eq_true_eq, UInt8.le_iff_toNat_le] at h
  simp only [toLower, UInt8.le_iff_toNat_le]
  simp only [UInt8.reduceToNat] at h ⊢
  rw [if_neg (by omega)]

theorem trim_digits {s : Text} (hs : ∀ c ∈ s, Json.isDigit c = true) : trim s = s := by
  cases s with
  | nil => rfl
  | cons c r =>
    obtain ⟨d, hd⟩ : ∃ d, (c :: r).getLast? = some d := ⟨_, List.getLast?_eq_some_getLast (List.cons_ne_nil c r)⟩
    have h := trim_append (b := []) (rfl : (c :: r).head? = some c) (isSpace_digit (hs c List.mem_cons_self)) hd
      (isSpace_digit (hs d (List.mem_of_getLast? hd)))
    simpa [trimEnd] using h

theorem decimalPrefix_decimal (m : Nat) : decimalPrefix (decimal m) = decimal m := by
  have hdigits := Json.isDigit_decimal m
  simp [decimalPrefix, Json.takeWhile_digits hdigits, Json.dropWhile_digits hdigits]

/-- Plain digits are read as a double. -/
theorem parseBandwidthLimit_decimal (n : UInt64) :
    parseBandwidthLimit (decimal n.toNat) = .ok (if n = 0 then none else some (rounded n)) := by
  have hdigits := Json.isDigit_decimal n.toNat
  have hnormal : lower (trim (decimal n.toNat)) = decimal n.toNat := by
    rw [trim_digits hdigits, lower]
    exact (List.map_congr_left fun c hc => toLower_digit (hdigits c hc)).trans (List.map_id _)
  by_cases hzero : n = 0
  · subst hzero
    rfl
  have hpos : 0 < n.toNat := by
    rcases Nat.eq_zero_or_pos n.toNat with h | h
    · exact absurd (UInt64.toNat_inj.1 h) hzero
    · exact h
  have hword : ∀ w : Text, (∀ c ∈ w.head?, Json.isDigit c = false) → w ≠ [] → decimal n.toNat ≠ w := by
    intro w hw hne he
    cases w with
    | nil => exact hne rfl
    | cons c r => exact Bool.false_ne_true ((hw c rfl).symm.trans (hdigits c (he ▸ List.mem_cons_self)))
  have hnotzero : decimal n.toNat ≠ text "0" := by
    intro he
    have := Json.natOf_decimal n.toNat
    rw [he] at this
    exact hpos.ne this
  have htake : (decimal n.toNat).takeWhile (fun c => Json.isDigit c || c = 46) = decimal n.toNat :=
    List.takeWhile_eq_self_iff.2 fun c hc => by simp [hdigits c hc]
  have hne : decimal n.toNat ≠ [] := by
    obtain ⟨c, r, hr, -⟩ := Json.decimal_head n.toNat
    simp [hr]
  have hprefix := decimalPrefix_decimal n.toNat
  have hle : n.toNat ≤ 2 ^ 64 := n.toNat_lt.le
  obtain ⟨m, hm, hwhole, hbound⟩ := Binary64.whole_nearest n.toNat
  have hnumber : ¬ Binary64.nearest (n.toNat : Rat) ≤ 0 := not_le.2 (Binary64.nearest_natCast_pos hpos)
  have hbytes : Binary64.nearest (Binary64.nearest (n.toNat : Rat) * 1) = Binary64.nearest (n.toNat : Rat) := by
    rw [mul_one, hm, Binary64.nearest_whole hwhole]
  have hrange : ¬ 2 ^ 64 < Binary64.nearest (n.toNat : Rat) := by
    rw [hm, not_lt]
    exact_mod_cast hbound 64 n.toNat_lt
  have hunlimited := hword (text "unlimited") (by decide +kernel) (by decide +kernel)
  have hnone := hword (text "none") (by decide +kernel) (by decide +kernel)
  have hoff := hword (text "off") (by decide +kernel) (by decide +kernel)
  simp only [parseBandwidthLimit, hnormal, hunlimited, hnone, hoff, hnotzero, or_self, if_false, htake, hne, hprefix,
    Json.stod_decimal hle, hnumber, List.drop_length, hzero]
  have hunit : multiplierOf (unitOf []) = .ok 1 := by decide
  rw [hunit]
  refine Json.ok_bind (a := (1 : Rat)) rfl ?_
  rw [hbytes, if_neg hrange]
  rfl

end Cget
