import Cget.Bandwidth
import Cget.JsonNumbers
import Mathlib.Tactic.IntervalCases
/-!
# Bandwidth limits as printed

`formatBytes` of `types.cpp` and `formatRateLimit` of `bandwidth.cpp`. The printer divides by
1024 where the parser multiplies by 1000, so of the limits only none and those below 1024
bytes per second are read back; the others are read as less, or not at all.
-/

namespace Cget

open Json

/-! ## Printing -/

def byteUnits : List Text := [text "B", text "KB", text "MB", text "GB", text "TB"]

/-- The loop of `formatBytes`: the unit and the value in it, with `left` units to go. -/
def scaleFrom : Nat → Nat → Rat → Nat × Rat
  | 0, unit, value => (unit, value)
  | left + 1, unit, value =>
    if 1024 ≤ value then scaleFrom left (unit + 1) (Binary64.nearest (value / 1024)) else (unit, value)

/-- `out << std::fixed << std::setprecision(2) << value`, for a value that is not negative. -/
def formatFixed (value : Rat) : Text :=
  let hundredths := (Binary64.roundEven (value * 100)).toNat
  decimal (hundredths / 100) ++ 46 :: decimal (hundredths / 10 % 10) ++ decimal (hundredths % 10)

def formatBytes (bytes : Nat) : Text :=
  let (unit, value) := scaleFrom 4 0 (Binary64.nearest bytes)
  (if unit = 0 then decimal bytes else formatFixed value) ++ byteUnits.getD unit []

def formatRateLimit (bytesPerSec : Option UInt64) : Text :=
  match bytesPerSec with
  | none => text "unlimited"
  | some n => if n = 0 then text "unlimited" else formatBytes n.toNat ++ text "/s"

/-! ## The unit -/

/-- A whole number stays a double when it is divided by powers of two. -/
theorem nearest_div {m : Nat} (hm : Binary64.Whole m) {j : Nat} (hj : j ≤ 1000) :
    Binary64.nearest ((m : Rat) / 2 ^ j) = (m : Rat) / 2 ^ j := by
  obtain ⟨k, e, hk, rfl⟩ := hm
  have hform : ((k * 2 ^ e : Nat) : Rat) / 2 ^ j = k * Binary64.pow2 ((e : Int) - j) := by
    rw [Binary64.pow2_eq_zpow, zpow_sub₀ (by norm_num), zpow_natCast, zpow_natCast]
    push_cast
    ring
  rw [hform]
  exact Binary64.nearest_scaled hk (by omega)

/-- The unit is the last one that fits. -/
theorem scaleFrom_form {m : Nat} (hm : Binary64.Whole m) (left : Nat) : ∀ unit : Nat, unit + left ≤ 4 →
    ∃ u, unit ≤ u ∧ u ≤ unit + left ∧ scaleFrom left unit ((m : Rat) / 1024 ^ unit) = (u, (m : Rat) / 1024 ^ u) ∧
      (unit < u → 1024 ^ u ≤ m) ∧ (u < unit + left → m < 1024 ^ (u + 1)) := by
  induction left with
  | zero =>
    exact fun unit _ => ⟨unit, le_rfl, le_rfl, rfl, fun h => absurd h (lt_irrefl _), fun h => absurd h (by omega)⟩
  | succ left ih =>
    intro unit hunit
    rw [scaleFrom]
    have hpow : (0 : Rat) < 1024 ^ unit := by positivity
    split
    · rename_i hge
      have hdiv : Binary64.nearest ((m : Rat) / 1024 ^ unit / 1024) = (m : Rat) / 1024 ^ (unit + 1) := by
        have h2 : (1024 : Rat) ^ (unit + 1) = 2 ^ (10 * (unit + 1)) := by rw [pow_mul]; norm_num
        rw [div_div, ← pow_succ, h2]
        exact nearest_div hm (by omega)
      rw [hdiv]
      obtain ⟨u, hle, hle', hscale, hlower, hupper⟩ := ih (unit + 1) (by omega)
      refine ⟨u, by omega, by omega, hscale, fun _ => ?_, fun h => hupper (by omega)⟩
      rcases Nat.eq_or_lt_of_le hle with rfl | hlt
      · rw [le_div_iff₀ hpow, ← pow_succ'] at hge
        exact_mod_cast hge
      · exact hlower hlt
    · rename_i hlt
      refine ⟨unit, le_rfl, by omega, rfl, fun h => absurd h (lt_irrefl _), fun _ => ?_⟩
      rw [not_le, div_lt_iff₀ hpow, ← pow_succ'] at hlt
      exact_mod_cast hlt

/-- What is printed for a positive number of bytes. -/
theorem formatBytes_form (n : Nat) : ∃ (m u : Nat), Binary64.nearest n = m ∧ u ≤ 4 ∧
    formatBytes n = (if u = 0 then decimal n else formatFixed ((m : Rat) / 1024 ^ u)) ++ byteUnits.getD u [] ∧
    (0 < u → 1024 ^ u ≤ m) ∧ (u = 0 → m < 1024) := by
  obtain ⟨m, hm, hwhole, -⟩ := Binary64.whole_nearest n
  obtain ⟨u, -, hu, hscale, hlower, hupper⟩ := scaleFrom_form hwhole 4 0 (by norm_num)
  rw [pow_zero, div_one] at hscale
  refine ⟨m, u, hm, by omega, ?_, hlower, ?_⟩
  · rw [formatBytes, hm, hscale]
  · rintro rfl
    simpa using hupper (by norm_num)

/-! ## Reading a rate -/

/-- The unit as `parseBandwidthLimit` sees it. -/
def rateSuffix (u : Nat) : Text := lower (byteUnits.getD u [] ++ text "/s")

theorem rateSuffix_facts {u : Nat} (hu : u ≤ 4) :
    (∃ c r, rateSuffix u = c :: r ∧ Json.isDigit c = false ∧ c ≠ 46) ∧
      (∃ d, (byteUnits.getD u [] ++ text "/s").getLast? = some d ∧ isSpace d = false) := by
  interval_cases u
  · exact ⟨⟨98, text "/s", by decide +kernel⟩, 115, by decide +kernel⟩
  · exact ⟨⟨107, text "b/s", by decide +kernel⟩, 115, by decide +kernel⟩
  · exact ⟨⟨109, text "b/s", by decide +kernel⟩, 115, by decide +kernel⟩
  · exact ⟨⟨103, text "b/s", by decide +kernel⟩, 115, by decide +kernel⟩
  · exact ⟨⟨116, text "b/s", by decide +kernel⟩, 115, by decide +kernel⟩

/-- A positive number with its unit, as `parseBandwidthLimit` takes it. -/
def rateOf (number : Rat) (unit : Text) : Except Exn (Option UInt64) := do
  let multiplier ← multiplierOf unit
  let bytes := Binary64.nearest (number * multiplier)
  if 2 ^ 64 < bytes then throw (.cget .invalidCommandError (text "bandwidth limit is out of range"))
  else pure (some (UInt64.ofNat bytes.floor.toNat))

variable {digits : Text} {number : Rat}

/-- A number and a unit are read as the number, times what the unit stands for. -/
theorem parseBandwidthLimit_rate {u : Nat} (hu : u ≤ 4) (hdigits : ∀ c ∈ digits, Json.isDigit c = true ∨ c = 46)
    (hhead : ∃ c ∈ digits.head?, Json.isDigit c = true) (hstod : stod (decimalPrefix digits) = .ok number)
    (hpos : 0 < number) :
    parseBandwidthLimit (digits ++ byteUnits.getD u [] ++ text "/s") = rateOf number (unitOf (rateSuffix u)) := by
  obtain ⟨c, hc, hdigit⟩ := hhead
  obtain ⟨⟨b, r, hsuffix, hb⟩, d, hlast, hd⟩ := rateSuffix_facts hu
  have hlower : lower digits = digits := by
    refine (List.map_congr_left fun c hc => ?_).trans (List.map_id _)
    rcases hdigits c hc with h | rfl
    · exact toLower_digit h
    · rfl
  have hnormal : lower (trim (digits ++ byteUnits.getD u [] ++ text "/s")) = digits ++ rateSuffix u := by
    have hfirst : (digits ++ (byteUnits.getD u [] ++ text "/s")).head? = some c := by
      rw [List.head?_append, Option.mem_def.1 hc]
      rfl
    have hend : (digits ++ (byteUnits.getD u [] ++ text "/s")).getLast? = some d := by
      rw [List.getLast?_append, hlast]
      rfl
    have htrim := trim_append (b := []) hfirst (isSpace_digit hdigit) hend hd
    rw [List.append_nil] at htrim
    rw [List.append_assoc, htrim, trimEnd, List.reverse_nil, List.dropWhile_nil, List.reverse_nil,
      List.append_nil, lower, List.map_append]
    exact congrArg (· ++ _) hlower
  have htake : (digits ++ rateSuffix u).takeWhile (fun c => Json.isDigit c || c = 46) = digits := by
    rw [List.takeWhile_append_of_pos (fun c hc => by simpa using hdigits c hc), hsuffix,
      List.takeWhile_cons_of_neg (by simpa using hb), List.append_nil]
  have hword : ∀ w : Text, (∀ c ∈ w.head?, Json.isDigit c = false) → digits ++ rateSuffix u ≠ w := by
    rintro w hw rfl
    have := hw c (by rw [List.head?_append, Option.mem_def.1 hc]; rfl)
    rw [hdigit] at this
    cases this
  have hzero : digits ++ rateSuffix u ≠ text "0" := by
    intro he
    have hback : b ∈ text "0" := by
      rw [← he, hsuffix]
      simp
    have : ∀ c ∈ text "0", Json.isDigit c = true := by decide +kernel
    rw [this b hback] at hb
    cases hb.1
  have hne : digits ≠ [] := by
    rintro rfl
    cases hc
  have hunlimited := hword (text "unlimited") (by decide +kernel)
  have hnone := hword (text "none") (by decide +kernel)
  have hoff := hword (text "off") (by decide +kernel)
  simp only [parseBandwidthLimit, hnormal, hunlimited, hnone, hoff, hzero, or_self, if_false, htake, hne, hstod,
    not_le.2 hpos, List.drop_left, rateOf]

/-! ## Numbers with two decimals -/

/-- A number of hundredths, as printed. -/
def fixedText (h : Nat) : Text := decimal (h / 100) ++ 46 :: decimal (h / 10 % 10) ++ decimal (h % 10)

theorem natOf_fixed (h : Nat) : natOf (decimal (h / 100) ++ (decimal (h / 10 % 10) ++ decimal (h % 10))) = h := by
  have hten : h / 10 % 10 < 10 := Nat.mod_lt _ (by norm_num)
  have hone : h % 10 < 10 := Nat.mod_lt _ (by norm_num)
  rw [natOf_append, natOf_decimal, decimal_of_lt hten, decimal_of_lt hone]
  simp only [List.cons_append, List.nil_append, List.foldl_cons, List.foldl_nil, digit_toNat hten, digit_toNat hone]
  omega

theorem digits_fraction (h : Nat) : ∀ c ∈ decimal (h / 10 % 10) ++ decimal (h % 10), Json.isDigit c = true := by
  intro c hc
  rcases List.mem_append.1 hc with hc | hc <;> exact isDigit_decimal _ c hc

theorem takeWhole_fixed (h : Nat) : (fixedText h).takeWhile Json.isDigit = decimal (h / 100) ∧
    (fixedText h).dropWhile Json.isDigit = 46 :: (decimal (h / 10 % 10) ++ decimal (h % 10)) := by
  have hform : fixedText h = decimal (h / 100) ++ 46 :: (decimal (h / 10 % 10) ++ decimal (h % 10)) := by
    simp [fixedText]
  rw [hform, List.takeWhile_append_of_pos (isDigit_decimal _), List.dropWhile_append_of_pos (isDigit_decimal _)]
  exact ⟨List.append_nil _, rfl⟩

theorem decimalPrefix_fixed (h : Nat) : decimalPrefix (fixedText h) = fixedText h := by
  obtain ⟨htake, hdrop⟩ := takeWhole_fixed h
  rw [decimalPrefix, htake, hdrop]
  simp only [List.head?_cons, if_true, List.tail_cons, takeWhile_digits (digits_fraction h)]
  simp [fixedText]

theorem fixedText_bytes (h : Nat) : ∀ c ∈ fixedText h, Json.isDigit c = true ∨ c = 46 := by
  have hform : fixedText h = decimal (h / 100) ++ 46 :: (decimal (h / 10 % 10) ++ decimal (h % 10)) := by
    simp [fixedText]
  intro c hc
  rw [hform] at hc
  rcases List.mem_append.1 hc with hc | hc
  · exact .inl (isDigit_decimal _ c hc)
  · rcases List.mem_cons.1 hc with rfl | hc
    · exact .inr rfl
    · exact .inl (digits_fraction h c hc)

theorem one_le_hundredths {h : Nat} (hlow : 100 ≤ h) : 1 ≤ (h : Rat) / 100 := by
  rw [le_div_iff₀ (by norm_num)]
  exact_mod_cast (by omega : 1 * 100 ≤ h)

/-- The digits are read as the hundredths, rounded to a double. -/
theorem stod_fixed {h : Nat} (hlow : 100 ≤ h) (hhigh : h ≤ 2 ^ 100) :
    stod (fixedText h) = .ok (Binary64.nearest ((h : Rat) / 100)) := by
  obtain ⟨htake, hdrop⟩ := takeWhole_fixed h
  obtain ⟨c, r, hr, hc, -⟩ := decimal_head (h / 100)
  have hminus : (fixedText h).head? ≠ some 45 := by
    rw [fixedText, hr]
    intro he
    cases he
    cases hc
  have hlen : (decimal (h / 10 % 10) ++ decimal (h % 10)).length = 2 := by
    rw [decimal_of_lt (Nat.mod_lt _ (by norm_num)), decimal_of_lt (Nat.mod_lt _ (by norm_num))]
    rfl
  have hne : decimal (h / 100) ≠ [] := by simp [hr]
  have hone := one_le_hundredths hlow
  have hexact : (natOf (decimal (h / 100) ++ (decimal (h / 10 % 10) ++ decimal (h % 10))) : Rat) * pow10
      (0 - ((2 : Nat) : Int)) =
      (h : Rat) / 100 := by
    have hpow : pow10 (0 - ((2 : Nat) : Int)) = 1 / 100 := by decide +kernel
    rw [natOf_fixed, hpow, mul_one_div]
  have hfinite : ¬ Binary64.overflow ≤ Binary64.nearest ((h : Rat) / 100) := by
    have hbound : (h : Rat) ≤ 2 ^ 100 := by exact_mod_cast hhigh
    have hle := Binary64.nearest_le hone
    rw [not_le]
    calc Binary64.nearest ((h : Rat) / 100) ≤ (h : Rat) / 100 * (1 + 1 / 2 ^ 53) := hle
      _ ≤ 2 ^ 100 := by linarith
      _ < Binary64.overflow := by
        unfold Binary64.overflow
        exact pow_lt_pow_right₀ (by norm_num) (by norm_num)
  have hnormal : ¬ ((h : Rat) / 100 < Binary64.smallestNormal ∧
      Binary64.nearest ((h : Rat) / 100) ≠ (h : Rat) / 100) := by
    rintro ⟨hsmall, -⟩
    have hlt : Binary64.smallestNormal < 1 := by
      rw [Binary64.smallestNormal, Binary64.pow2_eq_zpow]
      exact zpow_lt_one_of_neg₀ (by norm_num) (by norm_num)
    linarith
  unfold stod
  simp only [hminus, if_false, htake, hdrop, List.head?_cons, if_true, List.tail_cons,
    takeWhile_digits (digits_fraction h),
    dropWhile_digits (digits_fraction h), hne, false_and, hlen, hexact, hfinite, hnormal, or_self]

/-- Of a value in its unit no more than its hundredths are printed. -/
theorem formatFixed_form {v : Rat} (hv : 1 ≤ v) :
    ∃ h : Nat, formatFixed v = fixedText h ∧ 100 ≤ h ∧ (h : Rat) ≤ v * 100 + 1 / 2 := by
  have hhalf := Binary64.roundEven_le_half (v * 100)
  have hge : (100 : Int) ≤ Binary64.roundEven (v * 100) := by
    have hfloor : (100 : Int) ≤ (v * 100).floor := Rat.le_floor_iff.2 (by push_cast; linarith)
    unfold Binary64.roundEven
    dsimp only
    split <;> omega
  refine ⟨(Binary64.roundEven (v * 100)).toNat, rfl, by omega, ?_⟩
  have hcast : (((Binary64.roundEven (v * 100)).toNat : Int) : Rat) = (Binary64.roundEven (v * 100) : Rat) := by
    rw [Int.toNat_of_nonneg (by omega)]
  calc ((Binary64.roundEven (v * 100)).toNat : Rat) = (Binary64.roundEven (v * 100) : Rat) := hcast
    _ ≤ v * 100 + 1 / 2 := hhalf

/-! ## What comes back -/

theorem nearest_le_natCast {n m : Nat} (hn : 0 < n) (hm : Binary64.nearest (n : Rat) = m) :
    (m : Rat) ≤ n * (1 + 1 / 2 ^ 53) := by
  rw [← hm]
  exact Binary64.nearest_le (by exact_mod_cast hn)

/-- What is multiplied by a smaller unit than it was divided by comes out less. -/
theorem rate_lt {n m u h : Nat} (hn : 0 < n) (hm : Binary64.nearest (n : Rat) = m) (hu : 0 < u) (hfits : 1024 ^ u ≤ m)
    (hlow : 100 ≤ h) (hh : (h : Rat) ≤ (m : Rat) / 1024 ^ u * 100 + 1 / 2) :
    Binary64.nearest (Binary64.nearest ((h : Rat) / 100) * 1000 ^ u) < n := by
  have hscale : (1000 : Rat) ^ u ≤ 1024 ^ u * (1000 / 1024) := by
    obtain ⟨k, rfl⟩ : ∃ k, u = k + 1 := ⟨u - 1, by omega⟩
    rw [pow_succ, pow_succ, mul_assoc, mul_div_cancel₀ _ (by norm_num : (1024 : Rat) ≠ 0)]
    exact mul_le_mul_of_nonneg_right (pow_le_pow_left₀ (by norm_num) (by norm_num) k) (by norm_num)
  have hpow : (0 : Rat) < 1024 ^ u := by positivity
  have hpow' : (1 : Rat) ≤ 1000 ^ u := one_le_pow₀ (by norm_num)
  have hvalue : (1 : Rat) ≤ (m : Rat) / 1024 ^ u := by
    rw [le_div_iff₀ hpow, one_mul]
    exact_mod_cast hfits
  have hone := one_le_hundredths hlow
  set v : Rat := (m : Rat) / 1024 ^ u with hv
  have hmv : (m : Rat) = v * 1024 ^ u := by
    rw [hv]
    field_simp
  -- The number that is read is not much more than the value that was printed.
  have hnumber : Binary64.nearest ((h : Rat) / 100) ≤ v * (201 / 200) * (1 + 1 / 2 ^ 53) := by
    refine (Binary64.nearest_le hone).trans ?_
    have : (h : Rat) / 100 ≤ v * (201 / 200) := by
      rw [div_le_iff₀ (by norm_num)]
      linarith
    gcongr
  have hnumber' := Binary64.one_le_nearest hone
  have hproduct : 1 ≤ Binary64.nearest ((h : Rat) / 100) * 1000 ^ u := by
    calc (1 : Rat) = 1 * 1 := (one_mul 1).symm
      _ ≤ Binary64.nearest ((h : Rat) / 100) * 1000 ^ u := by gcongr
  have hback := nearest_le_natCast hn hm
  have hn' : (0 : Rat) < n := by exact_mod_cast hn
  calc Binary64.nearest (Binary64.nearest ((h : Rat) / 100) * 1000 ^ u)
      ≤ Binary64.nearest ((h : Rat) / 100) * 1000 ^ u * (1 + 1 / 2 ^ 53) := Binary64.nearest_le hproduct
    _ ≤ v * (201 / 200) * (1 + 1 / 2 ^ 53) * (1024 ^ u * (1000 / 1024)) * (1 + 1 / 2 ^ 53) := by gcongr
    _ = m * ((201 / 200) * (1 + 1 / 2 ^ 53) * (1000 / 1024) * (1 + 1 / 2 ^ 53)) := by
      rw [hmv]
      ring
    _ ≤ n * (1 + 1 / 2 ^ 53) * ((201 / 200) * (1 + 1 / 2 ^ 53) * (1000 / 1024) * (1 + 1 / 2 ^ 53)) := by gcongr
    _ < n := by
      rw [mul_assoc]
      calc (n : Rat) * ((1 + 1 / 2 ^ 53) * ((201 / 200) * (1 + 1 / 2 ^ 53) * (1000 / 1024) * (1 + 1 / 2 ^ 53))) <
        n * 1 := by
            gcongr
            norm_num
        _ = n := mul_one _

theorem nearest_ge {n m : Nat} (hm : Binary64.nearest (n : Rat) = m) (hn : 1024 ≤ n) : 1024 ≤ m := by
  have hle := Binary64.pow2_exponent_le_nearest (q := n) (by exact_mod_cast (by omega : 1 ≤ n))
  have hlog : 10 ≤ n.log2 := (Nat.le_log2 (by omega)).2 (by omega)
  rw [Binary64.exponent_natCast (by omega), hm, Binary64.pow2_eq_zpow, zpow_natCast] at hle
  have hle' : 2 ^ n.log2 ≤ m := by exact_mod_cast hle
  calc 1024 = 2 ^ 10 := by norm_num
    _ ≤ 2 ^ n.log2 := Nat.pow_le_pow_right (by norm_num) hlog
    _ ≤ m := hle'

theorem multiplierOf_rate {u : Nat} (hu : u ≤ 3) : multiplierOf (unitOf (rateSuffix u)) = .ok (1000 ^ u) := by
  interval_cases u <;> decide +kernel

/-- Below 1024 bytes per second the limit itself is printed and read. -/
theorem parse_format_small {n : UInt64} (hpos : 0 < n.toNat) (hn : n.toNat < 1024) :
    parseBandwidthLimit (formatRateLimit (some n)) = .ok (some n) := by
  have hzero : n ≠ 0 := by
    rintro rfl
    exact absurd hpos (by decide)
  have hnearest := Binary64.nearest_natCast (show n.toNat ≤ 2 ^ 53 by omega)
  obtain ⟨m, u, hm, hu, hform, hlower, -⟩ := formatBytes_form n.toNat
  have hmn : m = n.toNat := by
    rw [hm] at hnearest
    exact_mod_cast hnearest
  have hunit : u = 0 := by
    by_contra hne
    have h1 := hlower (Nat.pos_of_ne_zero hne)
    have h2 : 1024 ^ 1 ≤ 1024 ^ u := Nat.pow_le_pow_right (by norm_num) (Nat.pos_of_ne_zero hne)
    omega
  subst hunit
  obtain ⟨c, r, hr, hc, -⟩ := decimal_head n.toNat
  have hstod : stod (decimalPrefix (decimal n.toNat)) = .ok (n.toNat : Rat) := by
    rw [decimalPrefix_decimal, stod_decimal n.toNat_lt.le, hnearest]
  have hread := parseBandwidthLimit_rate (u := 0) (by norm_num) (fun c hc => .inl (isDigit_decimal n.toNat c hc))
    ⟨c, by rw [hr]; rfl, hc⟩ hstod (by exact_mod_cast hpos)
  rw [formatRateLimit, if_neg hzero, hform, if_pos rfl, hread]
  refine ok_bind (multiplierOf_rate (u := 0) (by norm_num)) ?_
  have hfloor : (n.toNat : Rat).floor = n.toNat := by exact_mod_cast Rat.floor_intCast (n.toNat : Int)
  have hrange : ¬ (2 : Rat) ^ 64 < n.toNat := by
    rw [not_lt]
    exact_mod_cast n.toNat_lt.le
  dsimp only
  rw [pow_zero, mul_one, hnearest, if_neg hrange, hfloor, Int.toNat_natCast, UInt64.ofNat_toNat]
  rfl

/-- From there on the text, if it is read at all, stands for less. -/
theorem parse_format_large {n : UInt64} (hn : 1024 ≤ n.toNat) {l : Option UInt64}
    (h : parseBandwidthLimit (formatRateLimit (some n)) = .ok l) : ∃ k, l = some k ∧ k < n := by
  have hzero : n ≠ 0 := by
    rintro rfl
    exact absurd hn (by decide)
  obtain ⟨m, u, hm, hu, hform, hlower, hupper⟩ := formatBytes_form n.toNat
  have hunit : 0 < u := by
    by_contra hne
    have := hupper (by omega)
    have := nearest_ge hm hn
    omega
  have hfits := hlower hunit
  have hvalue : (1 : Rat) ≤ (m : Rat) / 1024 ^ u := by
    rw [le_div_iff₀ (by positivity), one_mul]
    exact_mod_cast hfits
  obtain ⟨hundredths, hfixed, hlow, hh⟩ := formatFixed_form hvalue
  have hsmall : hundredths ≤ 2 ^ 100 := by
    have hle : (m : Rat) ≤ n.toNat * (1 + 1 / 2 ^ 53) := nearest_le_natCast (by omega) hm
    have hlt : (n.toNat : Rat) < 2 ^ 64 := by exact_mod_cast n.toNat_lt
    have hdiv : (m : Rat) / 1024 ^ u ≤ m := div_le_self (Nat.cast_nonneg m) (one_le_pow₀ (by norm_num))
    have : (hundredths : Rat) ≤ 2 ^ 100 := by linarith
    exact_mod_cast this
  obtain ⟨c, r, hr, hc, -⟩ := decimal_head (hundredths / 100)
  have hstod : stod (decimalPrefix (fixedText hundredths)) = .ok (Binary64.nearest ((hundredths : Rat) / 100)) := by
    rw [decimalPrefix_fixed, stod_fixed hlow hsmall]
  have hread := parseBandwidthLimit_rate hu (fixedText_bytes hundredths) ⟨c, by rw [fixedText, hr]; rfl, hc⟩ hstod
    (lt_of_lt_of_le one_pos (Binary64.one_le_nearest (one_le_hundredths hlow)))
  rw [formatRateLimit, if_neg hzero, hform, if_neg hunit.ne', hfixed, hread] at h
  obtain ⟨multiplier, hmultiplier, h⟩ := bind_ok h
  rcases Nat.lt_or_ge 3 u with hlarge | hle
  · -- Terabytes are printed, but no unit of the parser.
    have hu4 : u = 4 := by omega
    subst hu4
    have hunknown : multiplierOf (unitOf (rateSuffix 4)) =
        .error (.cget .invalidCommandError (text "unknown bandwidth unit: tb")) := by
      decide +kernel
    rw [hunknown] at hmultiplier
    cases hmultiplier
  · rw [multiplierOf_rate hle] at hmultiplier
    cases hmultiplier
    have hlt := rate_lt (by omega) hm hunit hfits hlow hh
    dsimp only at h
    split at h
    · cases h
    · cases h
      refine ⟨_, rfl, ?_⟩
      rw [UInt64.lt_iff_toNat_lt, UInt64.toNat_ofNat']
      refine lt_of_le_of_lt (Nat.mod_le _ _) ?_
      have hfloor : (Binary64.nearest (Binary64.nearest ((hundredths : Rat) / 100) * 1000 ^ u)).floor <
          (n.toNat : Int) :=
        Rat.floor_lt_iff.2 (by exact_mod_cast hlt)
      omega

end Cget
