import Cget.Config
/-!
# Decimal options

The two digit loops of `config_manager.cpp`, against the numbers the digits stand for. Both sum
up in 64 bits. `parseUint64Local` looks before every digit whether the sum still fits;
`parsePositiveUintLocal` checks the range only after the last digit, when the sum may have wrapped.
-/

namespace Cget

namespace ConfigManager

open Json

variable {key value : Text} {n : Nat}

/-! ## What the digits stand for -/

/-- `value` is digits only, at least one, and stands for `n`. -/
def WholeNumber (value : Text) (n : Nat) : Prop := value ≠ [] ∧ value.all isDigit = true ∧ natOf value = n

instance (value : Text) (n : Nat) : Decidable (WholeNumber value n) := by
  unfold WholeNumber
  infer_instance

/-- The numbers from `lo` to `hi` are accepted as what they are, and everything else is an invalid command. -/
structure ParsesWithin (lo hi : Nat) (value : Text) (result : Except Exn Nat) : Prop where
  accepted : ∀ n : Nat, result = .ok n ↔ WholeNumber value n ∧ lo ≤ n ∧ n ≤ hi
  rejected : (∀ n : Nat, WholeNumber value n → ¬ (lo ≤ n ∧ n ≤ hi)) → ∃ what, result = .error (invalidCommand what)

/-- Both loops are exact on this option. -/
structure OptionsExact (key value : Text) : Prop where
  positive : ParsesWithin 1 (2 ^ 32 - 1) value ((parsePositiveUint key value).map UInt32.toNat)
  unsigned : ParsesWithin 0 (2 ^ 64 - 1) value ((parseUint64 key value).map UInt64.toNat)

/-- A number too large for 64 bits whose remainder would be in range. -/
def WrapsIntoRange (value : Text) : Prop :=
  ∃ n, WholeNumber value n ∧ 2 ^ 64 ≤ n ∧ 1 ≤ n % 2 ^ 64 ∧ n % 2 ^ 64 < 2 ^ 32

theorem WholeNumber.unique {m : Nat} (hn : WholeNumber value n) (hm : WholeNumber value m) : n = m :=
  hn.2.2.symm.trans hm.2.2

theorem WholeNumber.digits (h : WholeNumber value n) : ∀ b ∈ value, isDigit b = true := List.all_eq_true.1 h.2.1

/-- A 64-bit number is printed as a whole number. -/
theorem wholeNumber_decimal (n : Nat) : WholeNumber (decimal n) n := by
  obtain ⟨b, r, hr, -⟩ := decimal_head n
  exact ⟨by simp [hr], List.all_eq_true.2 (isDigit_decimal n), natOf_decimal n⟩

theorem digit_word {b : UInt8} (hb : isDigit b = true) :
    (b - 48).toUInt64 = UInt64.ofNat (b.toNat - 48) ∧ b.toNat - 48 ≤ 9 := by
  simp only [isDigit, Bool.and_eq_true, decide_eq_true_eq, UInt8.le_iff_toNat_le, UInt8.reduceToNat] at hb
  refine ⟨?_, by omega⟩
  apply UInt64.toNat_inj.1
  rw [UInt8.toNat_toUInt64, UInt8.toNat_sub_of_le _ _ (UInt8.le_iff_toNat_le.2 (by simpa using hb.1)),
    UInt64.toNat_ofNat', Nat.mod_eq_of_lt (by omega)]
  rfl

/-- One more digit, in both loops. -/
theorem append_digit {b : UInt8} (hb : isDigit b = true) (a : Nat) :
    UInt64.ofNat a * 10 + (b - 48).toUInt64 = UInt64.ofNat (10 * a + (b.toNat - 48)) := by
  rw [(digit_word hb).1, UInt64.ofNat_add, UInt64.ofNat_mul, UInt64.mul_comm]
  rfl

/-! ## The loop that wraps -/

/-- The sum is what the digits stand for, as far as it fits 64 bits. -/
theorem foldl_digits {digits : Text} (h : ∀ b ∈ digits, isDigit b = true) (a : Nat) :
    digits.foldl (fun parsed c => parsed * 10 + (c - 48).toUInt64) (UInt64.ofNat a) =
      UInt64.ofNat (digits.foldl (fun n b => 10 * n + (b.toNat - 48)) a) := by
  induction digits generalizing a with
  | nil => rfl
  | cons b digits ih =>
    rw [List.foldl_cons, List.foldl_cons, append_digit (h b List.mem_cons_self),
      ih fun c hc => h c (List.mem_cons_of_mem _ hc)]

/-- The result of `parsePositiveUint`, in terms of the number the digits stand for. -/
theorem parsePositiveUint_digits (key : Text) (h : WholeNumber value n) :
    (parsePositiveUint key value).map UInt32.toNat =
    if 1 ≤ n % 2 ^ 64 ∧ n % 2 ^ 64 < 2 ^ 32 then .ok (n % 2 ^ 64)
    else .error (invalidCommand (key ++ text " is out of range")) := by
  have hsum : value.foldl (fun parsed c => parsed * 10 + (c - 48).toUInt64) (0 : UInt64) = UInt64.ofNat (natOf value) :=
    foldl_digits h.digits 0
  obtain ⟨hne, hdigits, rfl⟩ := h
  rw [parsePositiveUint, if_neg (by simp [hne, hdigits])]
  dsimp only
  rw [hsum]
  have hvalue : (UInt64.ofNat (natOf value)).toNat = natOf value % 2 ^ 64 := UInt64.toNat_ofNat'
  generalize UInt64.ofNat (natOf value) = parsed at hvalue
  by_cases hrange : 1 ≤ natOf value % 2 ^ 64 ∧ natOf value % 2 ^ 64 < 2 ^ 32
  · have hnot : ¬ (parsed = 0 ∨ 2 ^ 32 ≤ parsed.toNat) := by
      rintro (rfl | hlarge)
      · rw [← hvalue] at hrange
        exact absurd hrange.1 (by decide)
      · omega
    rw [if_neg hnot, if_pos hrange, Except.map, UInt64.toNat_toUInt32, hvalue]
    exact congrArg Except.ok (Nat.mod_eq_of_lt hrange.2)
  · have hout : parsed = 0 ∨ 2 ^ 32 ≤ parsed.toNat := by
      by_contra hin
      rw [not_or] at hin
      have hpos : parsed.toNat ≠ 0 := fun h => hin.1 (UInt64.toNat_inj.1 h)
      exact hrange ⟨by omega, by omega⟩
    rw [if_pos hout, if_neg hrange, Except.map]

theorem parsePositiveUint_other (key : Text) (h : value = [] ∨ ¬ value.all isDigit = true) :
    parsePositiveUint key value = .error (invalidCommand (key ++ text " requires a positive integer")) := by
  rw [parsePositiveUint, if_pos h]

theorem parsePositiveUint_decimal (key : Text) (n : UInt32) : parsePositiveUint key (decimal n.toNat) =
    if n = 0 then .error (invalidCommand (key ++ text " is out of range")) else .ok n := by
  have hn := n.toNat_lt
  have hparsed := parsePositiveUint_digits key (wholeNumber_decimal n.toNat)
  rw [Nat.mod_eq_of_lt (hn.trans (by norm_num))] at hparsed
  by_cases hzero : n = 0
  · subst hzero
    rfl
  · have hpos : n.toNat ≠ 0 := fun h => hzero (UInt32.toNat_inj.1 h)
    rw [if_pos ⟨by omega, hn⟩] at hparsed
    rw [if_neg hzero]
    cases hresult : parsePositiveUint key (decimal n.toNat) with
    | error e =>
      rw [hresult] at hparsed
      cases hparsed
    | ok m =>
      rw [hresult] at hparsed
      exact congrArg Except.ok (UInt32.toNat_inj.1 (Except.ok.inj hparsed))

/-! ## The loop that looks ahead -/

/-- The guard is met exactly when the next sum does not fit. -/
theorem guard_iff {a digit : Nat} (ha : a < 2 ^ 64) (hdigit : digit ≤ 9) :
    (0 - 1 - UInt64.ofNat digit) / 10 < UInt64.ofNat a ↔ 2 ^ 64 ≤ 10 * a + digit := by
  have hword : (UInt64.ofNat digit).toNat = digit := UInt64.toNat_ofNat_of_lt' (by rw [UInt64.size]; omega)
  have hmax : (0 - 1 - UInt64.ofNat digit).toNat = 2 ^ 64 - 1 - digit := by
    rw [UInt64.toNat_sub, hword]
    simp only [UInt64.reduceSub, UInt64.reduceToNat]
    omega
  rw [UInt64.lt_iff_toNat_lt, UInt64.toNat_div, hmax, UInt64.toNat_ofNat_of_lt' ha]
  simp only [UInt64.reduceToNat]
  omega

/-- The sum only grows. -/
theorem le_foldl_digits : ∀ (digits : Text) (a : Nat), a ≤ digits.foldl (fun n b => 10 * n + (b.toNat - 48)) a
  | [], a => le_rfl
  | b :: digits, a => by
    rw [List.foldl_cons]
    exact le_trans (by omega) (le_foldl_digits digits _)

/-- The loop returns the number if it fits, whatever was read before. -/
theorem parseUint64From_digits (key : Text) {digits : Text} (h : ∀ b ∈ digits, isDigit b = true) {a : Nat}
    (ha : a < 2 ^ 64) :
    parseUint64From key (UInt64.ofNat a) digits =
      if digits.foldl (fun n b => 10 * n + (b.toNat - 48)) a < 2 ^ 64 then
        .ok (UInt64.ofNat (digits.foldl (fun n b => 10 * n + (b.toNat - 48)) a))
      else .error (invalidCommand (key ++ text " is out of range")) := by
  induction digits generalizing a with
  | nil => exact (if_pos ha).symm
  | cons b digits ih =>
    have hb := h b List.mem_cons_self
    obtain ⟨hword, hnine⟩ := digit_word hb
    have hguard := guard_iff ha hnine
    rw [parseUint64From, if_neg (not_not.2 hb), List.foldl_cons, append_digit hb, hword]
    by_cases hover : 2 ^ 64 ≤ 10 * a + (b.toNat - 48)
    · have hlarge := hover.trans (le_foldl_digits digits _)
      rw [if_pos (hguard.2 hover), if_neg (not_lt.2 hlarge)]
    · rw [if_neg (fun h => hover (hguard.1 h))]
      exact ih (fun c hc => h c (List.mem_cons_of_mem _ hc)) (by omega)

/-- The loop never gets past a byte that is no digit. -/
theorem parseUint64From_other (key : Text) : ∀ (value : Text) (parsed : UInt64), ¬ value.all isDigit = true →
    ∃ what, parseUint64From key parsed value = .error (invalidCommand what) := by
  intro value
  induction value with
  | nil => exact fun parsed h => absurd rfl h
  | cons c value ih =>
    intro parsed h
    rw [parseUint64From]
    split
    · exact ⟨_, rfl⟩
    · rename_i hc
      split
      · exact ⟨_, rfl⟩
      · exact ih _ (fun hall => h (by rw [List.all_cons, not_not.1 hc, hall]; rfl))

theorem parseUint64_digits (key : Text) (h : WholeNumber value n) : parseUint64 key value =
    if n < 2 ^ 64 then .ok (UInt64.ofNat n) else .error (invalidCommand (key ++ text " is out of range")) := by
  have hread := parseUint64From_digits key h.digits (a := 0) (by norm_num)
  obtain ⟨hne, -, rfl⟩ := h
  rw [parseUint64, if_neg hne]
  exact hread

theorem parseUint64_decimal (key : Text) (n : UInt64) : parseUint64 key (decimal n.toNat) = .ok n := by
  rw [parseUint64_digits key (wholeNumber_decimal n.toNat), if_pos n.toNat_lt, UInt64.ofNat_toNat]

theorem parseUint64_other (key : Text) (h : value = [] ∨ ¬ value.all isDigit = true) :
    ∃ what, parseUint64 key value = .error (invalidCommand what) := by
  rw [parseUint64]
  split
  · exact ⟨_, rfl⟩
  · exact parseUint64From_other key value 0 (h.resolve_left ‹_›)

/-! ## When the loops are exact -/

/-- A string that is no number, or a number. -/
theorem wholeNumber_or (value : Text) : (value = [] ∨ ¬ value.all isDigit = true) ∨ ∃ n, WholeNumber value n := by
  by_cases hne : value = []
  · exact .inl (.inl hne)
  by_cases hdigits : value.all isDigit = true
  · exact .inr ⟨natOf value, hne, hdigits, rfl⟩
  · exact .inl (.inr hdigits)

theorem parsesWithin_other {lo hi : Nat} {result : Except Exn Nat} (h : value = [] ∨ ¬ value.all isDigit = true)
    (herror : ∃ what, result = .error (invalidCommand what)) : ParsesWithin lo hi value result := by
  obtain ⟨what, rfl⟩ := herror
  refine ⟨fun n => ⟨fun hok => (by cases hok), fun hnumber => ?_⟩, fun _ => ⟨what, rfl⟩⟩
  rcases h with h | h
  · exact absurd h hnumber.1.1
  · exact absurd hnumber.1.2.1 h

/-- A number is parsed within bounds when exactly the numbers between them are accepted, unchanged. -/
theorem parsesWithin_number {lo hi : Nat} (h : WholeNumber value n) {accepts : Prop} [Decidable accepts] {result : Nat}
    {what : Text} :
    ParsesWithin lo hi value (if accepts then .ok result else .error (invalidCommand what)) ↔
      (accepts ↔ lo ≤ n ∧ n ≤ hi) ∧ (accepts → result = n) := by
  constructor
  · intro hparses
    have haccepted := hparses.accepted
    by_cases haccepts : accepts
    · simp only [if_pos haccepts, Except.ok.injEq] at haccepted
      obtain ⟨hresult, hrange⟩ := (haccepted result).1 rfl
      cases h.unique hresult
      exact ⟨⟨fun _ => hrange, fun _ => haccepts⟩, fun _ => rfl⟩
    · simp only [if_neg haccepts] at haccepted
      refine ⟨⟨fun hyes => absurd hyes haccepts, fun hrange => ?_⟩, fun hyes => absurd hyes haccepts⟩
      cases (haccepted n).2 ⟨h, hrange⟩
  · rintro ⟨hrange, hresult⟩
    by_cases haccepts : accepts
    · rw [if_pos haccepts, hresult haccepts]
      refine ⟨fun m => ⟨?_, ?_⟩, fun hnone => absurd (hrange.1 haccepts) (hnone n h)⟩
      · rintro ⟨⟩
        exact ⟨h, hrange.1 haccepts⟩
      · rintro ⟨hm, -⟩
        rw [h.unique hm]
    · rw [if_neg haccepts]
      refine ⟨fun m => ⟨fun hok => (by cases hok), ?_⟩, fun _ => ⟨what, rfl⟩⟩
      rintro ⟨hm, hbounds⟩
      cases h.unique hm
      exact absurd (hrange.2 hbounds) haccepts

/-- Decimal options are parsed exactly, unless the sum wraps around to a number in range. -/
theorem options_exact_iff (key value : Text) : OptionsExact key value ↔ ¬ WrapsIntoRange value := by
  rcases wholeNumber_or value with hother | ⟨n, hn⟩
  · have hpositive : ∃ what, (parsePositiveUint key value).map UInt32.toNat = .error (invalidCommand what) :=
      ⟨_, congrArg (Except.map UInt32.toNat) (parsePositiveUint_other key hother)⟩
    obtain ⟨what, hwhat⟩ := parseUint64_other key hother
    have hunsigned : ∃ what, (parseUint64 key value).map UInt64.toNat = .error (invalidCommand what) :=
      ⟨what, congrArg (Except.map UInt64.toNat) hwhat⟩
    refine ⟨?_, fun _ => ⟨parsesWithin_other hother hpositive, parsesWithin_other hother hunsigned⟩⟩
    rintro - ⟨n, hn, -⟩
    exact hother.elim hn.1 fun h => h hn.2.1
  · have hunsigned : ParsesWithin 0 (2 ^ 64 - 1) value ((parseUint64 key value).map UInt64.toNat) := by
      have hparsed : (parseUint64 key value).map UInt64.toNat =
          if n < 2 ^ 64 then .ok n else .error (invalidCommand (key ++ text " is out of range")) := by
        rw [parseUint64_digits key hn]
        split
        · rename_i hfits
          exact congrArg Except.ok (UInt64.toNat_ofNat_of_lt' hfits)
        · rfl
      rw [hparsed, parsesWithin_number hn]
      exact ⟨by omega, fun _ => rfl⟩
    have hpositive : ParsesWithin 1 (2 ^ 32 - 1) value (if 1 ≤ n % 2 ^ 64 ∧ n % 2 ^ 64 < 2 ^ 32 then .ok (n % 2 ^ 64)
        else .error (invalidCommand (key ++ text " is out of range"))) ↔
        (1 ≤ n % 2 ^ 64 ∧ n % 2 ^ 64 < 2 ^ 32 ↔ 1 ≤ n ∧ n ≤ 2 ^ 32 - 1) ∧
          (1 ≤ n % 2 ^ 64 ∧ n % 2 ^ 64 < 2 ^ 32 → n % 2 ^ 64 = n) :=
      parsesWithin_number hn
    rw [← parsePositiveUint_digits key hn] at hpositive
    have hwraps : WrapsIntoRange value ↔ 2 ^ 64 ≤ n ∧ 1 ≤ n % 2 ^ 64 ∧ n % 2 ^ 64 < 2 ^ 32 := by
      constructor
      · rintro ⟨m, hm, hwrap⟩
        rwa [hn.unique hm]
      · exact fun hwrap => ⟨n, hn, hwrap⟩
    rw [hwraps]
    constructor
    · rintro hexact ⟨hlarge, hwrap⟩
      obtain ⟨-, hresult⟩ := hpositive.1 hexact.positive
      have := hresult hwrap
      omega
    · intro hwrap
      refine ⟨hpositive.2 ⟨?_, ?_⟩, hunsigned⟩ <;> omega

/-- `2 ^ 64 + 1` is taken for 1. -/
theorem wrapped_option : parsePositiveUint (text "CGET_MAX_THREADS") (text "18446744073709551617") = .ok 1 ∧
    ¬ OptionsExact (text "CGET_MAX_THREADS") (text "18446744073709551617") := by
  have hparsed : parsePositiveUint (text "CGET_MAX_THREADS") (text "18446744073709551617") = .ok 1 := by decide +kernel
  refine ⟨hparsed, fun h => ?_⟩
  obtain ⟨hnumber, -⟩ := (h.positive.accepted 1).1 (congrArg (Except.map UInt32.toNat) hparsed)
  exact absurd hnumber (by decide +kernel)

end ConfigManager

end Cget
