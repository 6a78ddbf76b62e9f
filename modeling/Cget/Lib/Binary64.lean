import Mathlib.Algebra.Order.Field.Rat
import Mathlib.Tactic.Linarith
import Mathlib.Tactic.FieldSimp
import Mathlib.Tactic.Positivity
import Mathlib.Tactic.NormNum
import Mathlib.Tactic.Ring
/-!
# Rounding to 64-bit floating point

The finite numbers of IEEE 754's binary64 as rationals, and rounding to the nearest of them,
ties to even. Natural numbers up to `2 ^ 53` are among them.
-/

namespace Binary64

def pow2 (e : Int) : Rat := if 0 ≤ e then 2 ^ e.toNat else 1 / 2 ^ (-e).toNat

/-- The largest `e` with `2 ^ e ≤ q`, for a positive `q`. -/
def exponent (q : Rat) : Int :=
  let e : Int := (q.num.natAbs.log2 : Int) - q.den.log2
  if q < pow2 e then e - 1 else e

/-- The exponent of the last place of a number of `q`'s size. -/
def lastPlace (q : Rat) : Int := max (exponent (if q < 0 then -q else q) - 52) (-1074)

/-- The nearest integer, or the even one of the two. -/
def roundEven (x : Rat) : Int :=
  let d := x - x.floor
  if d < 1 / 2 ∨ d = 1 / 2 ∧ x.floor % 2 = 0 then x.floor else x.floor + 1

/-- The nearest number, if the range were not bounded above. -/
def nearest (q : Rat) : Rat := if q = 0 then 0 else roundEven (q / pow2 (lastPlace q)) * pow2 (lastPlace q)

/-- What a number must stay below to be finite. -/
def overflow : Rat := 2 ^ 1024

/-- Numbers below this have fewer than 53 bits. -/
def smallestNormal : Rat := pow2 (-1022)

theorem pow2_pos (e : Int) : 0 < pow2 e := by
  unfold pow2
  split <;> positivity

theorem roundEven_int (k : Int) : roundEven (k : Rat) = k := by
  simp [roundEven]

/-- A multiple of the last place is a number. -/
theorem nearest_exact {q : Rat} {k : Int} (h : q = k * pow2 (lastPlace q)) : nearest q = q := by
  unfold nearest
  split
  · exact Eq.symm ‹_›
  · have hdiv : q / pow2 (lastPlace q) = k := by
      rw [div_eq_iff (pow2_pos _).ne']
      exact h
    rw [hdiv, roundEven_int]
    exact h.symm

theorem exponent_natCast {n : Nat} (hn : 0 < n) : exponent (n : Rat) = n.log2 := by
  have hle : ¬ ((n : Rat) < pow2 (n.log2 : Int)) := by
    rw [not_lt, pow2, if_pos (Int.natCast_nonneg _), Int.toNat_natCast]
    exact_mod_cast Nat.log2_self_le hn.ne'
  have hone : Nat.log2 1 = 0 := by decide
  simp only [exponent, Rat.num_natCast, Rat.den_natCast, Int.natAbs_natCast, hone, Nat.cast_zero, sub_zero, if_neg hle]

/-- Up to `2 ^ 53`, every natural number is a number. -/
theorem nearest_natCast {n : Nat} (hn : n ≤ 2 ^ 53) : nearest (n : Rat) = n := by
  rcases Nat.eq_zero_or_pos n with rfl | hpos
  · simp [nearest]
  · have hlast : lastPlace (n : Rat) = max ((n.log2 : Int) - 52) (-1074) := by
      rw [lastPlace, if_neg (not_lt.2 (Nat.cast_nonneg n)), exponent_natCast hpos]
    rcases lt_or_eq_of_le hn with hlt | rfl
    · have hlog : n.log2 < 53 := (Nat.log2_lt hpos.ne').2 hlt
      have hplace : lastPlace (n : Rat) = -((52 - n.log2 : Nat) : Int) := by
        rw [hlast]
        omega
      apply nearest_exact (k := (n : Int) * 2 ^ (52 - n.log2))
      rw [hplace, pow2]
      split
      · have hzero : 52 - n.log2 = 0 := by omega
        simp [hzero]
      · rw [neg_neg, Int.toNat_natCast]
        push_cast
        field_simp
    · apply nearest_exact (k := 2 ^ 52)
      have hlog : Nat.log2 (2 ^ 53) = 53 := Nat.log2_two_pow
      rw [hlast, hlog, pow2]
      norm_num

/-! ## Whole numbers -/

/-- The whole numbers among the numbers, with no bound above. -/
def Whole (m : Nat) : Prop := ∃ k e : Nat, k ≤ 2 ^ 53 ∧ m = k * 2 ^ e

theorem whole_of_le {m : Nat} (h : m ≤ 2 ^ 53) : Whole m := ⟨m, 0, h, by simp⟩

theorem pow2_eq_zpow (e : Int) : pow2 e = 2 ^ e := by
  unfold pow2
  split
  · rename_i h
    obtain ⟨n, rfl⟩ := Int.eq_ofNat_of_zero_le h
    simp
  · rename_i h
    obtain ⟨n, hn⟩ := Int.eq_ofNat_of_zero_le (show 0 ≤ -e by omega)
    rw [hn, Int.toNat_natCast, show e = -(n : Int) by omega, zpow_neg, zpow_natCast, one_div]

theorem natAbs_div_den {q : Rat} (hq : 0 < q) : (q.num.natAbs : Rat) / q.den = q := by
  have habs : ((q.num.natAbs : Int) : Rat) = (q.num : Rat) := by
    exact_mod_cast Int.natAbs_of_nonneg (Rat.num_pos.2 hq).le
  conv_rhs => rw [← Rat.num_div_den q, ← habs]
  rfl

theorem lt_pow2_exponent {q : Rat} (hq : 0 < q) : q < pow2 (exponent q + 1) := by
  -- The numerator is below the power after its own, the denominator not below its own.
  have hupper : (q.num.natAbs : Rat) < 2 ^ (q.num.natAbs.log2 + 1) := by exact_mod_cast Nat.lt_log2_self
  have hlower : (2 : Rat) ^ q.den.log2 ≤ q.den := by exact_mod_cast Nat.log2_self_le q.den_nz
  have hden : (0 : Rat) < q.den := by exact_mod_cast q.den_pos
  have hbound : q < pow2 ((q.num.natAbs.log2 : Int) - q.den.log2 + 1) := by
    have hpow : pow2 ((q.num.natAbs.log2 : Int) - q.den.log2 + 1) = 2 ^ (q.num.natAbs.log2 + 1) / 2 ^ q.den.log2 := by
      rw [pow2_eq_zpow, sub_add_eq_add_sub, zpow_sub₀ (by norm_num), zpow_natCast]
      norm_cast
    rw [hpow, lt_div_iff₀ (by positivity)]
    calc q * 2 ^ q.den.log2 ≤ q * q.den := by gcongr
      _ = q.num.natAbs := ((div_eq_iff hden.ne').1 (natAbs_div_den hq)).symm
      _ < 2 ^ (q.num.natAbs.log2 + 1) := hupper
  simp only [exponent]
  split
  · rename_i h
    rwa [sub_add_cancel]
  · exact hbound

/-- The exponent of a positive number is not too large. -/
theorem pow2_exponent_le {q : Rat} (hq : 0 < q) : pow2 (exponent q) ≤ q := by
  have hnum : 0 < q.num.natAbs := Int.natAbs_pos.2 (Rat.num_pos.2 hq).ne'
  have hlower : (2 : Rat) ^ q.num.natAbs.log2 ≤ q.num.natAbs := by exact_mod_cast Nat.log2_self_le hnum.ne'
  have hupper : (q.den : Rat) < 2 ^ (q.den.log2 + 1) := by exact_mod_cast Nat.lt_log2_self
  have hden : (0 : Rat) < q.den := by exact_mod_cast q.den_pos
  simp only [exponent]
  split
  · refine le_trans ?_ (natAbs_div_den hq).le
    have hpow : pow2 ((q.num.natAbs.log2 : Int) - q.den.log2 - 1) = 2 ^ q.num.natAbs.log2 / 2 ^ (q.den.log2 + 1) := by
      rw [pow2_eq_zpow, sub_sub, zpow_sub₀ (by norm_num), zpow_natCast]
      norm_cast
    rw [le_div_iff₀ hden, hpow]
    calc (2 : Rat) ^ q.num.natAbs.log2 / 2 ^ (q.den.log2 + 1) * q.den
        ≤ 2 ^ q.num.natAbs.log2 / 2 ^ (q.den.log2 + 1) * 2 ^ (q.den.log2 + 1) := by gcongr
      _ = 2 ^ q.num.natAbs.log2 := by field_simp
      _ ≤ q.num.natAbs := hlower
  · rename_i h
    exact not_lt.1 h

theorem exponent_lt {q : Rat} {e : Int} (hq : 0 < q) (h : q < pow2 e) : exponent q < e := by
  by_contra hle
  have : pow2 e ≤ pow2 (exponent q) := by
    rw [pow2_eq_zpow, pow2_eq_zpow]
    exact zpow_le_zpow_right₀ (by norm_num) (not_lt.1 hle)
  linarith [pow2_exponent_le hq]

theorem intCast_le_roundEven {x : Rat} {k : Int} (h : (k : Rat) ≤ x) : k ≤ roundEven x := by
  have hfloor : k ≤ x.floor := Rat.le_floor_iff.2 h
  unfold roundEven
  dsimp only
  split <;> omega

theorem le_roundEven {x : Rat} (hx : 0 ≤ x) : 0 ≤ roundEven x := intCast_le_roundEven (by simpa using hx)

theorem roundEven_pos {x : Rat} (hx : 1 ≤ x) : 0 < roundEven x := intCast_le_roundEven (k := 1) (by simpa using hx)

theorem roundEven_le {x : Rat} {n : Int} (hx : x < n) : roundEven x ≤ n := by
  have hfloor : x.floor < n := Rat.floor_lt_iff.2 hx
  unfold roundEven
  dsimp only
  split <;> omega

/-- What a positive number is rounded to: at most 53 bits, times its last place. -/
theorem nearest_form {q : Rat} (hq : 0 ≤ q) : ∃ (k : Nat) (e : Int), k ≤ 2 ^ 53 ∧ nearest q = k * pow2 e := by
  rcases hq.eq_or_lt with rfl | hq
  · exact ⟨0, 0, by norm_num, by simp [nearest]⟩
  have hlast : exponent q - 52 ≤ lastPlace q := by
    rw [lastPlace, if_neg (by linarith)]
    exact le_max_left _ _
  have hlt : q / pow2 (lastPlace q) < (2 ^ 53 : Int) := by
    rw [div_lt_iff₀ (pow2_pos _)]
    calc q < pow2 (exponent q + 1) := lt_pow2_exponent hq
      _ ≤ pow2 (53 + lastPlace q) := by
        rw [pow2_eq_zpow, pow2_eq_zpow]
        exact zpow_le_zpow_right₀ (by norm_num) (by omega)
      _ = (2 ^ 53 : Int) * pow2 (lastPlace q) := by
        rw [pow2_eq_zpow, pow2_eq_zpow, zpow_add₀ (by norm_num)]
        norm_num
  have hnonneg : 0 ≤ roundEven (q / pow2 (lastPlace q)) := le_roundEven (div_nonneg hq.le (pow2_pos _).le)
  have hle := roundEven_le hlt
  refine ⟨(roundEven (q / pow2 (lastPlace q))).toNat, lastPlace q, by omega, ?_⟩
  have hcast : (((roundEven (q / pow2 (lastPlace q))).toNat : Int) : Rat) =
      (roundEven (q / pow2 (lastPlace q)) : Rat) := by
    rw [Int.toNat_of_nonneg hnonneg]
  rw [nearest, if_neg hq.ne', ← hcast]
  rfl

theorem nearest_nonneg {q : Rat} (hq : 0 ≤ q) : 0 ≤ nearest q := by
  obtain ⟨k, e, -, h⟩ := nearest_form hq
  rw [h]
  exact mul_nonneg (Nat.cast_nonneg k) (pow2_pos e).le

/-- A positive whole number is not rounded to 0. -/
theorem nearest_natCast_pos {n : Nat} (hn : 0 < n) : 0 < nearest (n : Rat) := by
  rcases Nat.lt_or_ge n (2 ^ 53) with hsmall | hlarge
  · rw [nearest_natCast hsmall.le]
    exact_mod_cast hn
  have hlog : 53 ≤ n.log2 := (Nat.le_log2 hn.ne').2 hlarge
  have hlast : lastPlace (n : Rat) = ((n.log2 - 52 : Nat) : Int) := by
    rw [lastPlace, if_neg (not_lt.2 (Nat.cast_nonneg _)), exponent_natCast hn]
    omega
  have hone : 1 ≤ (n : Rat) / pow2 (lastPlace (n : Rat)) := by
    rw [le_div_iff₀ (pow2_pos _), one_mul, hlast, pow2_eq_zpow, zpow_natCast]
    have : 2 ^ (n.log2 - 52) ≤ n :=
      (Nat.pow_le_pow_right (by norm_num) (Nat.sub_le _ _)).trans (Nat.log2_self_le hn.ne')
    exact_mod_cast this
  rw [nearest, if_neg (by exact_mod_cast hn.ne')]
  have := roundEven_pos hone
  exact mul_pos (by exact_mod_cast this) (pow2_pos _)

/-- The whole part of a number is a number. -/
theorem whole_floor {q : Rat} (hq : 0 ≤ q) : Whole (nearest q).floor.toNat := by
  obtain ⟨k, e, hk, h⟩ := nearest_form hq
  rw [h]
  rcases le_or_gt 0 e with he | he
  · obtain ⟨n, rfl⟩ := Int.eq_ofNat_of_zero_le he
    have hint : (k : Rat) * pow2 (n : Int) = ((k * 2 ^ n : Nat) : Int) := by
      rw [pow2_eq_zpow]
      push_cast
      rfl
    rw [hint, Rat.floor_intCast, Int.toNat_natCast]
    exact ⟨k, n, hk, rfl⟩
  · apply whole_of_le
    have hle : (k : Rat) * pow2 e ≤ (2 ^ 53 : Int) := by
      have hpow : pow2 e ≤ 1 := by
        rw [pow2_eq_zpow]
        exact zpow_le_one_of_nonpos₀ (by norm_num) he.le
      calc (k : Rat) * pow2 e ≤ k * 1 := by gcongr
        _ ≤ (2 ^ 53 : Int) := by rw [mul_one]; exact_mod_cast hk
    have hfloor : ((k : Rat) * pow2 e).floor ≤ 2 ^ 53 := by
      have := Rat.floor_monotone hle
      rwa [Rat.floor_intCast] at this
    omega

/-- Up to 53 bits at a place that is not too small are a number. -/
theorem nearest_scaled {k : Nat} {e : Int} (hk : k ≤ 2 ^ 53) (he : -1074 ≤ e) : nearest (k * pow2 e) = k * pow2 e := by
  have hbelow : ∀ (k : Nat) (e : Int), k < 2 ^ 53 → -1074 ≤ e → nearest (k * pow2 e) = k * pow2 e := by
    intro k e hk he
    rcases Nat.eq_zero_or_pos k with rfl | hpos
    · simp [nearest]
    have hq : (0 : Rat) < k * pow2 e := mul_pos (by exact_mod_cast hpos) (pow2_pos e)
    have hlt : (k : Rat) * pow2 e < pow2 (53 + e) := by
      rw [pow2_eq_zpow, pow2_eq_zpow, zpow_add₀ (by norm_num)]
      exact mul_lt_mul_of_pos_right (by exact_mod_cast hk) (zpow_pos (by norm_num) e)
    have hexp := exponent_lt hq hlt
    have hplace : lastPlace (k * pow2 e) ≤ e := by
      rw [lastPlace, if_neg (not_lt.2 hq.le)]
      omega
    generalize hl : lastPlace (k * pow2 e) = l at hplace
    obtain ⟨d, rfl⟩ : ∃ d : Nat, e = l + d := ⟨(e - l).toNat, by omega⟩
    apply nearest_exact (k := ((k * 2 ^ d : Nat) : Int))
    rw [hl, pow2_eq_zpow, pow2_eq_zpow, zpow_add₀ (by norm_num), zpow_natCast]
    push_cast
    ring
  rcases hk.lt_or_eq with hlt | rfl
  · exact hbelow k e hlt he
  · have hform : ((2 ^ 53 : Nat) : Rat) * pow2 e = ((2 ^ 52 : Nat) : Rat) * pow2 (e + 1) := by
      rw [pow2_eq_zpow, pow2_eq_zpow, zpow_add₀ (by norm_num)]
      push_cast
      ring
    rw [hform]
    exact hbelow (2 ^ 52) (e + 1) (by norm_num) (by omega)

/-- A whole number among the numbers is rounded to itself. -/
theorem nearest_whole {m : Nat} (h : Whole m) : nearest (m : Rat) = m := by
  obtain ⟨k, e, hk, rfl⟩ := h
  have hform : ((k * 2 ^ e : Nat) : Rat) = k * pow2 e := by
    rw [pow2_eq_zpow, zpow_natCast]
    push_cast
    rfl
  rw [hform]
  exact nearest_scaled hk (by omega)

/-- A whole number is rounded to a whole number, and not past a power of two. -/
theorem whole_nearest (n : Nat) : ∃ m : Nat, nearest (n : Rat) = m ∧ Whole m ∧ ∀ b, n < 2 ^ b → m ≤ 2 ^ b := by
  rcases Nat.lt_or_ge n (2 ^ 53) with hsmall | hlarge
  · exact ⟨n, nearest_natCast hsmall.le, whole_of_le hsmall.le, fun b h => h.le⟩
  have hpos : 0 < n := lt_of_lt_of_le (by norm_num) hlarge
  have hlog : 53 ≤ n.log2 := (Nat.le_log2 hpos.ne').2 hlarge
  have hlast : lastPlace (n : Rat) = ((n.log2 - 52 : Nat) : Int) := by
    rw [lastPlace, if_neg (not_lt.2 (Nat.cast_nonneg _)), exponent_natCast hpos]
    omega
  have hbound : ∀ b, n < 2 ^ b → roundEven ((n : Rat) / pow2 (lastPlace (n : Rat))) ≤
      (2 ^ (b - (n.log2 - 52)) : Nat) := by
    intro b hb
    have hle : n.log2 < b := (Nat.log2_lt hpos.ne').2 hb
    apply roundEven_le
    rw [div_lt_iff₀ (pow2_pos _), hlast, pow2_eq_zpow, zpow_natCast]
    have : n < 2 ^ (b - (n.log2 - 52)) * 2 ^ (n.log2 - 52) := by
      rw [← Nat.pow_add, Nat.sub_add_cancel (by omega)]
      exact hb
    exact_mod_cast this
  have hnonneg : 0 ≤ roundEven ((n : Rat) / pow2 (lastPlace (n : Rat))) :=
    le_roundEven (div_nonneg (Nat.cast_nonneg n) (pow2_pos _).le)
  obtain ⟨k, hk⟩ := Int.eq_ofNat_of_zero_le hnonneg
  have hvalue : nearest (n : Rat) = (k * 2 ^ (n.log2 - 52) : Nat) := by
    rw [nearest, if_neg (by exact_mod_cast hpos.ne'), hk, hlast, pow2_eq_zpow, zpow_natCast]
    push_cast
    rfl
  have hfits : ∀ b, n < 2 ^ b → k ≤ 2 ^ (b - (n.log2 - 52)) := by
    intro b hb
    have := hbound b hb
    rw [hk] at this
    exact_mod_cast this
  refine ⟨k * 2 ^ (n.log2 - 52), hvalue, ⟨k, n.log2 - 52, ?_, rfl⟩, fun b hb => ?_⟩
  · have := hfits (n.log2 + 1) Nat.lt_log2_self
    rwa [show n.log2 + 1 - (n.log2 - 52) = 53 by omega] at this
  · have hle : n.log2 < b := (Nat.log2_lt hpos.ne').2 hb
    calc k * 2 ^ (n.log2 - 52) ≤ 2 ^ (b - (n.log2 - 52)) * 2 ^ (n.log2 - 52) := Nat.mul_le_mul_right _ (hfits b hb)
      _ = 2 ^ b := by rw [← Nat.pow_add, Nat.sub_add_cancel (by omega)]

theorem Whole.mod_two_pow {m : Nat} (h : Whole m) (b : Nat) : Whole (m % 2 ^ b) := by
  obtain ⟨k, e, hk, rfl⟩ := h
  rcases Nat.le_total b e with hbe | hbe
  · have hdvd : 2 ^ b ∣ k * 2 ^ e := Dvd.dvd.mul_left (pow_dvd_pow 2 hbe) k
    rw [Nat.mod_eq_zero_of_dvd hdvd]
    exact whole_of_le (Nat.zero_le _)
  · refine ⟨k % 2 ^ (b - e), e, (Nat.mod_le _ _).trans hk, ?_⟩
    conv_lhs => rw [show b = (b - e) + e by omega, Nat.pow_add]
    exact Nat.mul_mod_mul_right _ _ _

/-! ## The error of rounding -/

theorem roundEven_le_half (x : Rat) : (roundEven x : Rat) ≤ x + 1 / 2 := by
  have hfloor := Rat.floor_le x
  have hlt := Rat.lt_floor_add_one x
  unfold roundEven
  dsimp only
  split
  · linarith
  · rename_i h
    push_cast
    rw [not_or, not_lt] at h
    linarith [h.1]

theorem exponent_nonneg {q : Rat} (hq : 1 ≤ q) : 0 ≤ exponent q := by
  by_contra hneg
  have h := lt_pow2_exponent (lt_of_lt_of_le one_pos hq)
  have hone : pow2 (exponent q + 1) ≤ 1 := by
    rw [pow2_eq_zpow]
    exact zpow_le_one_of_nonpos₀ (by norm_num) (by omega)
  linarith

/-- The last of 53 places. -/
theorem lastPlace_normal {q : Rat} (hq : 1 ≤ q) : lastPlace q = exponent q - 52 := by
  have hexp := exponent_nonneg hq
  rw [lastPlace, if_neg (not_lt.2 (zero_le_one.trans hq))]
  omega

theorem pow2_lastPlace {q : Rat} (hq : 1 ≤ q) : pow2 (lastPlace q) * 2 ^ 52 = pow2 (exponent q) := by
  rw [lastPlace_normal hq, pow2_eq_zpow, pow2_eq_zpow, zpow_sub₀ (by norm_num)]
  norm_num

/-- Rounding up adds at most half a unit in the last of 53 places. -/
theorem nearest_le {q : Rat} (hq : 1 ≤ q) : nearest q ≤ q * (1 + 1 / 2 ^ 53) := by
  have hpos : 0 < q := by linarith
  have hplace : pow2 (lastPlace q) * 2 ^ 52 ≤ q := (pow2_lastPlace hq).trans_le (pow2_exponent_le hpos)
  have hround := roundEven_le_half (q / pow2 (lastPlace q))
  have hp := pow2_pos (lastPlace q)
  rw [nearest, if_neg hpos.ne']
  calc (roundEven (q / pow2 (lastPlace q)) : Rat) * pow2 (lastPlace q)
      ≤ (q / pow2 (lastPlace q) + 1 / 2) * pow2 (lastPlace q) := by gcongr
    _ = q + pow2 (lastPlace q) / 2 := by field_simp
    _ ≤ q * (1 + 1 / 2 ^ 53) := by linarith

/-- Rounding down does not go below the power of two. -/
theorem pow2_exponent_le_nearest {q : Rat} (hq : 1 ≤ q) : pow2 (exponent q) ≤ nearest q := by
  have hpos : 0 < q := by linarith
  have hp := pow2_pos (lastPlace q)
  have hround : (2 ^ 52 : Int) ≤ roundEven (q / pow2 (lastPlace q)) := by
    apply intCast_le_roundEven
    rw [le_div_iff₀ hp]
    push_cast
    calc (2 : Rat) ^ 52 * pow2 (lastPlace q) = pow2 (exponent q) := by rw [mul_comm, pow2_lastPlace hq]
      _ ≤ q := pow2_exponent_le hpos
  rw [nearest, if_neg hpos.ne', ← pow2_lastPlace hq, mul_comm]
  gcongr
  exact_mod_cast hround

theorem one_le_nearest {q : Rat} (hq : 1 ≤ q) : 1 ≤ nearest q := by
  refine le_trans ?_ (pow2_exponent_le_nearest hq)
  rw [pow2_eq_zpow]
  exact one_le_zpow₀ (by norm_num) (exponent_nonneg hq)

/-! ## What is rounded to a number -/

theorem roundEven_mono {x y : Rat} (h : x ≤ y) : roundEven x ≤ roundEven y := by
  rcases (Rat.floor_monotone h).lt_or_eq with hlt | heq
  · have hle : roundEven x ≤ x.floor + 1 := by
      unfold roundEven
      dsimp only
      split <;> omega
    have hge : y.floor ≤ roundEven y := intCast_le_roundEven (Rat.floor_le y)
    omega
  · unfold roundEven
    dsimp only
    rw [heq]
    split
    · split <;> omega
    · rename_i hup
      rw [if_neg]
      rintro (hlt | ⟨hhalf, heven⟩)
      · exact hup (.inl (by linarith))
      · rcases h.lt_or_eq with hlt | rfl
        · exact hup (.inl (by linarith))
        · exact hup (.inr ⟨hhalf, heven⟩)

/-- Halfway below an even integer, a number is rounded up to it. -/
theorem le_roundEven_iff {x : Rat} {k : Int} : k ≤ roundEven x ↔ k - 1 / 2 < x ∨ x = k - 1 / 2 ∧ k % 2 = 0 := by
  have hfloor := Rat.floor_le x
  have hlt := Rat.lt_floor_add_one x
  unfold roundEven
  dsimp only
  generalize x.floor = f at hfloor hlt
  push_cast at hlt
  rcases lt_trichotomy (f + 1) k with hfar | rfl | hnear
  · -- The integer is out of reach.
    have hbelow : x < k - 1 := by
      have : ((f + 1 : Int) : Rat) ≤ ((k - 1 : Int) : Rat) := Int.cast_le.2 (by omega)
      push_cast at this
      linarith
    constructor
    · intro h
      split at h <;> omega
    · rintro (h | ⟨h, -⟩) <;> linarith
  · push_cast
    constructor
    · intro h
      split at h
      · omega
      · rename_i hup
        rw [not_or, not_lt] at hup
        rcases hup.1.lt_or_eq with hmore | htie
        · exact .inl (by linarith)
        · have hodd : ¬ f % 2 = 0 := fun h => hup.2 ⟨htie.symm, h⟩
          exact .inr ⟨by linarith, by omega⟩
    · rintro (h | ⟨h, heven⟩)
      · rw [if_neg]
        rintro (hdown | ⟨htie, -⟩) <;> linarith
      · rw [if_neg]
        rintro (hdown | ⟨-, hk⟩)
        · linarith
        · omega
  · have hle : (k : Rat) ≤ f := Int.cast_le.2 (by omega)
    refine ⟨fun _ => .inl (by linarith), fun _ => ?_⟩
    split <;> omega

theorem roundEven_le_iff {x : Rat} {k : Int} : roundEven x ≤ k ↔ x < k + 1 / 2 ∨ x = k + 1 / 2 ∧ k % 2 = 0 := by
  have hnot : roundEven x ≤ k ↔ ¬ k + 1 ≤ roundEven x := by omega
  rw [hnot, le_roundEven_iff]
  push_cast
  constructor
  · intro h
    rw [not_or, not_lt] at h
    rcases h.1.lt_or_eq with hlt | heq
    · exact .inl (by linarith)
    · have hodd : ¬ (k + 1) % 2 = 0 := fun hk => h.2 ⟨heq, hk⟩
      exact .inr ⟨by linarith, by omega⟩
  · rintro (h | ⟨h, heven⟩) (h' | ⟨h', hodd⟩)
    · linarith
    · linarith
    · linarith
    · omega

section Quotients

variable {q p : Rat} {k : Int}

/-- What is rounded to at least `k` units, for an even `k`. -/
theorem le_roundEven_div_even (hp : 0 < p) (hk : k % 2 = 0) : k ≤ roundEven (q / p) ↔ (k - 1 / 2) * p ≤ q := by
  rw [le_roundEven_iff, lt_div_iff₀ hp, div_eq_iff hp.ne', le_iff_lt_or_eq]
  exact or_congr_right ⟨fun h => h.1.symm, fun h => ⟨h.symm, hk⟩⟩

theorem le_roundEven_div_odd (hp : 0 < p) (hk : k % 2 = 1) : k ≤ roundEven (q / p) ↔ (k - 1 / 2) * p < q := by
  rw [le_roundEven_iff, lt_div_iff₀ hp]
  exact or_iff_left fun h => by omega

theorem roundEven_div_le_even (hp : 0 < p) (hk : k % 2 = 0) : roundEven (q / p) ≤ k ↔ q ≤ (k + 1 / 2) * p := by
  rw [roundEven_le_iff, div_lt_iff₀ hp, div_eq_iff hp.ne', le_iff_lt_or_eq]
  exact or_congr_right ⟨fun h => h.1, fun h => ⟨h, hk⟩⟩

theorem roundEven_div_le_odd (hp : 0 < p) (hk : k % 2 = 1) : roundEven (q / p) ≤ k ↔ q < (k + 1 / 2) * p := by
  rw [roundEven_le_iff, div_lt_iff₀ hp]
  exact or_iff_left fun h => by omega

end Quotients

theorem pow2_le_pow2 {a b : Int} (h : a ≤ b) : pow2 a ≤ pow2 b := by
  rw [pow2_eq_zpow, pow2_eq_zpow]
  exact zpow_le_zpow_right₀ (by norm_num) h

theorem pow2_mul (d : Nat) (e : Int) : ((2 ^ d : Int) : Rat) * pow2 e = pow2 (d + e) := by
  rw [pow2_eq_zpow, pow2_eq_zpow, zpow_add₀ (by norm_num), zpow_natCast]
  push_cast
  rfl

theorem lt_of_pow2_lt {a b : Int} (h : pow2 a < pow2 b) : a < b := by
  by_contra hle
  exact absurd (pow2_le_pow2 (not_lt.1 hle)) (not_le.2 h)

theorem lastPlace_pos {q : Rat} (hq : 0 < q) : lastPlace q = max (exponent q - 52) (-1074) := by
  rw [lastPlace, if_neg (not_lt.2 hq.le)]

/-- A power of two that the places reach is not passed by rounding. -/
theorem nearest_le_pow2 {q : Rat} {e : Int} (hq : 0 < q) (he : lastPlace q ≤ e) (h : q < pow2 e) :
    nearest q ≤ pow2 e := by
  obtain ⟨d, rfl⟩ : ∃ d : Nat, e = d + lastPlace q := ⟨(e - lastPlace q).toNat, by omega⟩
  rw [nearest, if_neg hq.ne', ← pow2_mul]
  refine mul_le_mul_of_nonneg_right (Int.cast_le.2 (roundEven_le ?_)) (pow2_pos _).le
  rwa [div_lt_iff₀ (pow2_pos _), pow2_mul]

theorem pow2_le_nearest {q : Rat} {e : Int} (hq : 0 < q) (he : lastPlace q ≤ e) (h : pow2 e ≤ q) :
    pow2 e ≤ nearest q := by
  obtain ⟨d, rfl⟩ : ∃ d : Nat, e = d + lastPlace q := ⟨(e - lastPlace q).toNat, by omega⟩
  rw [nearest, if_neg hq.ne', ← pow2_mul]
  refine mul_le_mul_of_nonneg_right (Int.cast_le.2 (intCast_le_roundEven ?_)) (pow2_pos _).le
  rwa [le_div_iff₀ (pow2_pos _), pow2_mul]

theorem exponent_mono {p q : Rat} (hp : 0 < p) (h : p ≤ q) : exponent p ≤ exponent q := by
  have hlt := (pow2_exponent_le hp).trans_lt (h.trans_lt (lt_pow2_exponent (hp.trans_le h)))
  exact Int.lt_add_one_iff.1 (lt_of_pow2_lt hlt)

theorem nearest_mono {p q : Rat} (hp : 0 ≤ p) (h : p ≤ q) : nearest p ≤ nearest q := by
  rcases hp.eq_or_lt with rfl | hp
  · rw [show nearest 0 = 0 by simp [nearest]]
    exact nearest_nonneg h
  have hq : 0 < q := hp.trans_le h
  have hexp := exponent_mono hp h
  have hpplace := lastPlace_pos hp
  have hqplace := lastPlace_pos hq
  rcases hexp.eq_or_lt with heq | hlt
  · -- In the same places, rounding to integers is monotone.
    rw [← heq, ← hpplace] at hqplace
    rw [nearest, nearest, if_neg hp.ne', if_neg hq.ne', hqplace]
    have hround := roundEven_mono ((div_le_div_iff_of_pos_right (pow2_pos (lastPlace p))).2 h)
    exact mul_le_mul_of_nonneg_right (Int.cast_le.2 hround) (pow2_pos _).le
  · by_cases hreach : lastPlace q ≤ exponent q
    · -- The power of two at the start of `q`'s binade is between the two.
      calc nearest p ≤ pow2 (exponent q) := by
            refine nearest_le_pow2 hp (by omega) ((lt_pow2_exponent hp).trans_le (pow2_le_pow2 (by omega)))
        _ ≤ nearest q := pow2_le_nearest hq hreach (pow2_exponent_le hq)
    · have hsame : lastPlace q = lastPlace p := by omega
      rw [nearest, nearest, if_neg hp.ne', if_neg hq.ne', hsame]
      have hround := roundEven_mono ((div_le_div_iff_of_pos_right (pow2_pos (lastPlace p))).2 h)
      exact mul_le_mul_of_nonneg_right (Int.cast_le.2 hround) (pow2_pos _).le

/-- A number by its 53 bits `q / pow2 e` is known from its binade on. -/
theorem nearest_binade {q : Rat} {e : Int} (he : -1074 ≤ e) (hlow : pow2 (52 + e) ≤ q) (hhigh : q < pow2 (53 + e)) :
    nearest q = roundEven (q / pow2 e) * pow2 e := by
  have hq : 0 < q := (pow2_pos _).trans_le hlow
  have hexp : exponent q = 52 + e := by
    have h1 := exponent_lt hq hhigh
    have h2 := lt_of_pow2_lt (hlow.trans_lt (lt_pow2_exponent hq))
    omega
  have hplace : lastPlace q = e := by
    rw [lastPlace_pos hq, hexp]
    omega
  rw [nearest, if_neg hq.ne', hplace]

section Neighbours

variable {q : Rat} {k e : Int}

theorem nearest_pow2 (he : -1074 ≤ e) : nearest (pow2 e) = pow2 e := by
  have h := nearest_scaled (k := 1) (by norm_num) he
  rwa [Nat.cast_one, one_mul] at h

/-- Below, in or above the binade of 53-bit multiples of `pow2 e`. -/
theorem nearest_cases (hq : 0 ≤ q) (he : -1074 ≤ e) :
    nearest q ≤ (2 ^ 52 : Int) * pow2 e ∧ roundEven (q / pow2 e) ≤ 2 ^ 52 ∨
      nearest q = roundEven (q / pow2 e) * pow2 e ∨
      (2 ^ 53 : Int) * pow2 e ≤ nearest q ∧ 2 ^ 53 ≤ roundEven (q / pow2 e) := by
  have hstart : ((2 ^ 52 : Int) : Rat) * pow2 e = pow2 (52 + e) := pow2_mul 52 e
  have hend : ((2 ^ 53 : Int) : Rat) * pow2 e = pow2 (53 + e) := pow2_mul 53 e
  rcases lt_or_ge q (pow2 (52 + e)) with hbelow | hlarge
  · left
    have hnearest := nearest_mono hq hbelow.le
    rw [nearest_pow2 (by omega), ← hstart] at hnearest
    refine ⟨hnearest, roundEven_le ?_⟩
    rwa [div_lt_iff₀ (pow2_pos e), hstart]
  rcases lt_or_ge q (pow2 (53 + e)) with hsmall | habove
  · exact .inr (.inl (nearest_binade he hlarge hsmall))
  · right; right
    have hnearest := nearest_mono (pow2_pos _).le habove
    rw [nearest_pow2 (by omega), ← hend] at hnearest
    refine ⟨hnearest, intCast_le_roundEven ?_⟩
    rwa [le_div_iff₀ (pow2_pos e), hend]

theorem mul_pow2_le_iff {a b : Int} : (a : Rat) * pow2 e ≤ b * pow2 e ↔ a ≤ b :=
  ⟨fun h => Int.cast_le.1 (le_of_mul_le_mul_right h (pow2_pos e)),
    fun h => mul_le_mul_of_nonneg_right (Int.cast_le.2 h) (pow2_pos e).le⟩

/-- Which numbers are rounded to at most the 53-bit number `k * pow2 e`. -/
theorem nearest_le_iff (hq : 0 ≤ q) (he : -1074 ≤ e) (hlow : 2 ^ 52 ≤ k) (hhigh : k < 2 ^ 53) :
    nearest q ≤ k * pow2 e ↔ roundEven (q / pow2 e) ≤ k := by
  rcases nearest_cases hq he with ⟨hnearest, hround⟩ | hin | ⟨hnearest, hround⟩
  · exact iff_of_true (hnearest.trans (mul_pow2_le_iff.2 hlow)) (hround.trans hlow)
  · rw [hin, mul_pow2_le_iff]
  · refine iff_of_false (fun h => ?_) (by omega)
    exact absurd (mul_pow2_le_iff.1 (hnearest.trans h)) (not_le.2 hhigh)

theorem le_nearest_iff (hq : 0 ≤ q) (he : -1074 ≤ e) (hlow : 2 ^ 52 < k) (hhigh : k ≤ 2 ^ 53) :
    k * pow2 e ≤ nearest q ↔ k ≤ roundEven (q / pow2 e) := by
  rcases nearest_cases hq he with ⟨hnearest, hround⟩ | hin | ⟨hnearest, hround⟩
  · refine iff_of_false (fun h => ?_) (by omega)
    exact absurd (mul_pow2_le_iff.1 (h.trans hnearest)) (not_le.2 hlow)
  · rw [hin, mul_pow2_le_iff]
  · exact iff_of_true ((mul_pow2_le_iff.2 hhigh).trans hnearest) (hhigh.trans hround)

end Neighbours

/-! ## Products with a rounded factor -/

section Products

variable {q m x : Rat} {k e : Int}

/-- The product reaches a bound from the 53-bit factor on whose predecessor gives too little. -/
theorem le_product_iff (hq : 0 ≤ q) (hm : 0 < m) (he : -1074 ≤ e) (hlow : 2 ^ 52 < k) (hhigh : k ≤ 2 ^ 53)
    (hless : (k - 1) * pow2 e * m < x) (hreach : x ≤ k * pow2 e * m) :
    x ≤ nearest q * m ↔ k ≤ roundEven (q / pow2 e) := by
  have hprev := nearest_le_iff (k := k - 1) hq he (by omega) (by omega)
  constructor
  · intro h
    by_contra hbelow
    have hsmall := hprev.2 (by omega)
    push_cast at hsmall
    linarith [mul_le_mul_of_nonneg_right hsmall hm.le]
  · intro h
    exact hreach.trans (mul_le_mul_of_nonneg_right ((le_nearest_iff hq he hlow hhigh).2 h) hm.le)

theorem product_le_iff (hq : 0 ≤ q) (hm : 0 < m) (he : -1074 ≤ e) (hlow : 2 ^ 52 ≤ k) (hhigh : k < 2 ^ 53)
    (hreach : k * pow2 e * m ≤ x) (hmore : x < (k + 1) * pow2 e * m) :
    nearest q * m ≤ x ↔ roundEven (q / pow2 e) ≤ k := by
  have hnext := le_nearest_iff (k := k + 1) hq he (by omega) (by omega)
  constructor
  · intro h
    by_contra habove
    have hlarge := hnext.2 (by omega)
    push_cast at hlarge
    linarith [mul_le_mul_of_nonneg_right hlarge hm.le]
  · intro h
    exact (mul_le_mul_of_nonneg_right ((nearest_le_iff hq he hlow hhigh).2 h) hm.le).trans hreach

end Products

end Binary64
