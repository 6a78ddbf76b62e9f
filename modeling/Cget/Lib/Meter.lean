import Mathlib.Algebra.Order.Field.Basic
import Mathlib.Tactic.Linarith
import Mathlib.Tactic.Ring
/-!
# Metered quantities

A meter gains `rate` per unit of time up to its capacity `cap`, and gives away no more than
it has. Its history are the amounts it gave and when, newest first. Whatever the order of
refills and takes, what it gives within a window of time is at most one capacity and the
gain over the window.
-/

variable {K : Type} [Field K] [LinearOrder K] [IsStrictOrderedRing K]

structure Meter (K : Type) where
  level : K
  time : K

/-- The meter at a later time. -/
def Meter.refill (cap rate now : K) (m : Meter K) : Meter K where
  level := min cap (m.level + (now - m.time) * rate)
  time := now

/-- The meter after it gave `n`. -/
def Meter.take (m : Meter K) (n : K) : Meter K where
  level := m.level - n
  time := m.time

/-- What a full meter can become, with its history. -/
inductive Metered (cap rate : K) : List (K × K) → Meter K → Prop
  | full (t : K) : Metered cap rate [] ⟨cap, t⟩
  | refill {h : List (K × K)} {m : Meter K} (now : K) : Metered cap rate h m → m.time ≤ now →
      Metered cap rate h (m.refill cap rate now)
  | take {h : List (K × K)} {m : Meter K} (n : K) : Metered cap rate h m → 0 ≤ n → n ≤ m.level →
      Metered cap rate ((m.time, n) :: h) (m.take n)

/-- The total of the amounts given from `s` to `t`. -/
def given (h : List (K × K)) (s t : K) : K := ((h.filter (fun g => s ≤ g.1 ∧ g.1 ≤ t)).map (·.2)).sum

variable {cap rate : K} {h : List (K × K)} {m : Meter K} {s t : K}

theorem given_cons (g : K × K) : given (g :: h) s t = (if s ≤ g.1 ∧ g.1 ≤ t then g.2 else 0) + given h s t := by
  unfold given
  rw [List.filter_cons]
  split <;> simp_all

/-- Nothing is given before the window. -/
theorem given_later (hall : ∀ g ∈ h, g.1 < s) : given h s t = 0 := by
  induction h with
  | nil => rfl
  | cons g h ih =>
    rw [List.forall_mem_cons] at hall
    rw [given_cons, ih hall.2, if_neg (fun hs => absurd hs.1 (not_le.2 hall.1)), add_zero]

/-- The level stays within bounds, and the history is in the past. -/
theorem Metered.bounds (hm : Metered cap rate h m) (hcap : 0 ≤ cap) (hrate : 0 ≤ rate) :
    0 ≤ m.level ∧ m.level ≤ cap ∧ ∀ g ∈ h, g.1 ≤ m.time := by
  induction hm with
  | full t => exact ⟨hcap, le_refl _, by simp⟩
  | refill now _ hle ih =>
    obtain ⟨hpos, _, hpast⟩ := ih
    refine ⟨le_min hcap (add_nonneg hpos (mul_nonneg (sub_nonneg.2 hle) hrate)), min_le_left _ _, ?_⟩
    intro g hg
    exact (hpast g hg).trans hle
  | take n _ hn hle ih =>
    obtain ⟨_, hmax, hpast⟩ := ih
    refine ⟨sub_nonneg.2 hle, (sub_le_self _ hn).trans hmax, ?_⟩
    intro g hg
    rcases List.mem_cons.1 hg with rfl | hg
    · exact le_refl _
    · exact hpast g hg

/-- What a window has given and the level together, as long as the window is open. -/
theorem Metered.open_window (hm : Metered cap rate h m) (hcap : 0 ≤ cap) (hrate : 0 ≤ rate) (hst : s ≤ t) :
    (m.time ≤ t → given h s t + m.level ≤ cap + rate * max 0 (m.time - s)) ∧ given h s t ≤ cap + rate * (t - s) := by
  have hwindow : 0 ≤ rate * (t - s) := mul_nonneg hrate (sub_nonneg.2 hst)
  induction hm with
  | full t₀ =>
    refine ⟨fun _ => ?_, ?_⟩
    · simpa [given] using mul_nonneg hrate (le_max_left 0 (t₀ - s))
    · simpa [given] using add_nonneg hcap hwindow
  | @refill h m now hm hle ih =>
    obtain ⟨hopen, hclosed⟩ := ih
    refine ⟨?_, hclosed⟩
    intro hnow
    have hlevel : (m.refill cap rate now).level ≤ cap := min_le_left _ _
    have hgain : (m.refill cap rate now).level ≤ m.level + (now - m.time) * rate := min_le_right _ _
    change given h s t + _ ≤ cap + rate * max 0 (now - s)
    rcases lt_or_ge m.time s with hbefore | hafter
    · -- the window has not begun: nothing was given in it
      have hnone : given h s t = 0 := by
        apply given_later
        intro g hg
        exact lt_of_le_of_lt ((hm.bounds hcap hrate).2.2 g hg) hbefore
      have := mul_nonneg hrate (le_max_left 0 (now - s))
      linarith
    · have h₁ := hopen (hle.trans hnow)
      rw [max_eq_right (sub_nonneg.2 hafter)] at h₁
      rw [max_eq_right (sub_nonneg.2 (hafter.trans hle))]
      have hsplit : rate * (now - s) = rate * (m.time - s) + (now - m.time) * rate := by ring
      linarith
  | @take h m n hm hn hle ih =>
    obtain ⟨hopen, hclosed⟩ := ih
    obtain ⟨hpos, hmax, hpast⟩ := hm.bounds hcap hrate
    rw [given_cons]
    change (m.time ≤ t → _ + (m.level - n) ≤ cap + rate * max 0 (m.time - s)) ∧ _
    by_cases hin : s ≤ m.time ∧ m.time ≤ t
    · have h₁ := hopen hin.2
      rw [max_eq_right (sub_nonneg.2 hin.1)] at h₁ ⊢
      rw [if_pos hin]
      refine ⟨fun _ => by linarith, ?_⟩
      have hgrow : rate * (m.time - s) ≤ rate * (t - s) := mul_le_mul_of_nonneg_left (sub_le_sub_right hin.2 s) hrate
      linarith
    · rw [if_neg hin, zero_add]
      refine ⟨fun ht => ?_, hclosed⟩
      have := hopen ht
      linarith

/-- The bound on what a window gives. -/
theorem Metered.given_le (hm : Metered cap rate h m) (hcap : 0 ≤ cap) (hrate : 0 ≤ rate) (hst : s ≤ t) :
    given h s t ≤ cap + rate * (t - s) :=
  (hm.open_window hcap hrate hst).2
