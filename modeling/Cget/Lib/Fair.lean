import Cget.Lib.Runs
import Mathlib.Order.Filter.AtTopBot.Basic
import Mathlib.Order.Filter.Finite
import Mathlib.Order.OrderIsoNat
/-!
# Endless runs

A machine that never stops: `trace` is its state after each step of an endless schedule. The
schedule is `Fair` if it makes each choice again and again while the machine is ready for it.
What only moves down, and moves down when one choice is made, comes to rest (`Fair.rests`).
-/

open Filter

variable {σ κ α : Type} {step : σ → κ → σ} {s : σ} {schedule : ℕ → κ}

/-- The states of the run. -/
def trace (step : σ → κ → σ) (s : σ) (schedule : ℕ → κ) : ℕ → σ
  | 0 => s
  | n + 1 => step (trace step s schedule n) (schedule n)

/-- Each state is the end of a run. -/
theorem trace_eq_run (n : ℕ) : trace step s schedule n = ((List.range n).map schedule).foldl step s := by
  induction n with
  | zero => rfl
  | succ n ih => rw [List.range_succ, List.map_append, List.foldl_append, ← ih]; rfl

theorem trace_inv {I : σ → Prop} (hstep : ∀ s c, I s → I (step s c)) (h : I s) (n : ℕ) :
    I (trace step s schedule n) := by
  rw [trace_eq_run]
  exact run_inv hstep h

/-- What is true once and kept is true from then on. -/
theorem trace_from {I : σ → Prop} (hstep : ∀ s c, I s → I (step s c)) {m : ℕ} (h : I (trace step s schedule m)) :
    ∀ᶠ n in atTop, I (trace step s schedule n) := by
  refine eventually_atTop.2 ⟨m, fun n hn => ?_⟩
  induction n, hn using Nat.le_induction with
  | base => exact h
  | succ n _ ih => exact hstep _ _ ih

/-- What only moves down stays where it is from some step on. -/
theorem eventually_stays [PartialOrder α] [WellFoundedLT α] {f : ℕ → α} (h : ∀ᶠ n in atTop, f (n + 1) ≤ f n) :
    ∀ᶠ n in atTop, f (n + 1) = f n := by
  obtain ⟨N, hN⟩ := eventually_atTop.1 h
  have hanti : Antitone fun n => f (N + n) := antitone_nat_of_succ_le fun n => hN (N + n) (Nat.le_add_right N n)
  obtain ⟨M, hM⟩ := WellFoundedLT.antitone_chain_condition hanti
  refine eventually_atTop.2 ⟨N + M, fun n hn => ?_⟩
  obtain ⟨k, rfl⟩ := Nat.exists_eq_add_of_le hn
  have hhere : f (N + M) = f (N + (M + k)) := hM (M + k) (Nat.le_add_right M k)
  have hnext : f (N + M) = f (N + (M + (k + 1))) := hM (M + (k + 1)) (Nat.le_add_right M (k + 1))
  rw [Nat.add_assoc N M k, Nat.add_assoc]
  exact hnext.symm.trans hhere

/-- Each choice is made again and again, in a state that is ready for it. -/
def Fair (step : σ → κ → σ) (ready : σ → κ → Prop) (s : σ) (schedule : ℕ → κ) : Prop :=
  ∀ c n, ∃ m ≥ n, schedule m = c ∧ ready (trace step s schedule m) c

/-- A rank that only moves down, and moves down with the choice `c` unless at rest, comes to rest. -/
theorem Fair.rests [PartialOrder α] [WellFoundedLT α] {ready : σ → κ → Prop}
    (hfair : Fair step ready s schedule) (c : κ) (rank : σ → α) (rest : σ → Prop)
    (hdown : ∀ᶠ n in atTop, rank (trace step s schedule (n + 1)) ≤ rank (trace step s schedule n))
    (hmove : ∀ᶠ n in atTop, schedule n = c → ready (trace step s schedule n) c → ¬ rest (trace step s schedule n) →
      rank (trace step s schedule (n + 1)) < rank (trace step s schedule n))
    (hrest : ∀ᶠ n in atTop, rest (trace step s schedule n) → rest (trace step s schedule (n + 1))) :
    ∀ᶠ n in atTop, rest (trace step s schedule n) := by
  have hstays := eventually_stays (f := fun n => rank (trace step s schedule n)) hdown
  obtain ⟨N, hN⟩ := eventually_atTop.1 (hstays.and (hmove.and hrest))
  obtain ⟨m, hm, hc, hready⟩ := hfair c N
  have hhere : rest (trace step s schedule m) := by
    by_contra hmoving
    exact ((hN m hm).2.1 hc hready hmoving).ne (hN m hm).1
  refine eventually_atTop.2 ⟨m, fun n hn => ?_⟩
  induction n, hn using Nat.le_induction with
  | base => exact hhere
  | succ n hmn ih => exact (hN n (hm.trans hmn)).2.2 ih

/-- Where nothing moves, the run stays. -/
theorem trace_fixed {N : ℕ} (hfixed : ∀ c, step (trace step s schedule N) c = trace step s schedule N) :
    ∀ n ≥ N, trace step s schedule n = trace step s schedule N :=
  Nat.le_induction rfl fun n _ ih => (congrArg (step · (schedule n)) ih).trans (hfixed (schedule n))

/-- A run that has come to rest is fair, whoever had its turn before. -/
theorem fair_of_fixed {ready : σ → κ → Prop} {N : ℕ}
    (hfixed : ∀ c, step (trace step s schedule N) c = trace step s schedule N)
    (hready : ∀ c, ready (trace step s schedule N) c) (hoften : ∀ c n, ∃ m ≥ n, schedule m = c) :
    Fair step ready s schedule := by
  intro c n
  obtain ⟨m, hm, hc⟩ := hoften c (max n N)
  refine ⟨m, (le_max_left n N).trans hm, hc, ?_⟩
  rw [trace_fixed hfixed m ((le_max_right n N).trans hm)]
  exact hready c
