import Cget.Lib.Prog
import Mathlib.Order.Filter.AtTopBot.Basic
/-!
# Programs on fuel

A family `m : ℕ → Prog σ ε α` is a program that is stopped when its fuel is used up. It `Concludes`
if from some fuel on it ends by itself, and always in the same way. A sequence concludes if each
part does, and so does a loop that goes on for as long as there is fuel, once its rounds change
nothing any more.
-/

namespace Prog

open Filter

variable {σ ε α β γ : Type} {s : σ}

/-! ## Programs that nothing stops -/

/-- The program is never stopped. -/
abbrev Survives (m : Prog σ ε α) : Prop := KeepsOr (fun _ => False) (fun _ => True) m

theorem Survives.ran {m : Prog σ ε α} (h : Survives m) (s : σ) : (m.run s).1 ≠ .stopped := by
  have hwp := h s trivial
  unfold wp at hwp
  rcases hr : m.run s with ⟨_ | _ | _, s'⟩ <;> rw [hr] at hwp
  · simp
  · simp
  · exact hwp.elim

theorem survives_of_ran {m : Prog σ ε α} (h : ∀ s, (m.run s).1 ≠ .stopped) : Survives m := by
  intro s _
  unfold wp
  rcases hr : m.run s with ⟨_ | _ | _, s'⟩
  · trivial
  · trivial
  · exact h s (by rw [hr])

/-! ## Programs that conclude -/

def Concludes (m : ℕ → Prog σ ε α) (s : σ) : Prop := ∃ o s', o ≠ .stopped ∧ ∀ᶠ n in atTop, (m n).run s = (o, s')

theorem Survives.concludes {m : Prog σ ε α} (h : Survives m) (s : σ) : Concludes (fun _ => m) s :=
  ⟨_, _, h.ran s, Eventually.of_forall fun _ => Prod.mk.eta.symm⟩

theorem Concludes.bind {m : ℕ → Prog σ ε α} {f : ℕ → α → Prog σ ε β} (hm : Concludes m s)
    (hf : ∀ a s', Concludes (fun n => f n a) s') : Concludes (fun n => m n >>= f n) s := by
  obtain ⟨o, s₁, ho, hrun⟩ := hm
  cases o with
  | ok a =>
    obtain ⟨o', s₂, ho', hrun'⟩ := hf a s₁
    refine ⟨o', s₂, ho', ?_⟩
    filter_upwards [hrun, hrun'] with n hn hn'
    rw [run_bind_ok hn, hn']
  | thrown e => exact ⟨.thrown e, s₁, by simp, hrun.mono fun n hn => run_bind_thrown hn⟩
  | stopped => exact absurd rfl ho

/-- What needs no fuel may come first. -/
theorem Survives.andThen {m₀ : Prog σ ε α} {m : ℕ → Prog σ ε α} {f : ℕ → α → Prog σ ε β} (h : Survives m₀)
    (hm : ∀ n, m n = m₀) (hf : ∀ a s', Concludes (fun n => f n a) s') : Concludes (fun n => m n >>= f n) s := by
  rw [show m = fun _ => m₀ from funext hm]
  exact (h.concludes s).bind hf

theorem Concludes.tryCatch {m : ℕ → Prog σ ε α} {f : ℕ → ε → Prog σ ε α} (hm : Concludes m s)
    (hf : ∀ e s', Concludes (fun n => f n e) s') : Concludes (fun n => MonadExcept.tryCatch (m n) (f n)) s := by
  have hcatch : ∀ n, (MonadExcept.tryCatch (m n) (f n)).run s = (Prog.tryCatch (m n) (f n)).run s := fun n => rfl
  simp only [Concludes, hcatch, Prog.tryCatch]
  obtain ⟨o, s₁, ho, hrun⟩ := hm
  cases o with
  | ok a => exact ⟨.ok a, s₁, by simp, hrun.mono fun n hn => by rw [hn]⟩
  | thrown e =>
    obtain ⟨o', s₂, ho', hrun'⟩ := hf e s₁
    refine ⟨o', s₂, ho', ?_⟩
    filter_upwards [hrun, hrun'] with n hn hn'
    rw [hn]
    exact hn'
  | stopped => exact absurd rfl ho

theorem Concludes.ite {c : Prop} [Decidable c] {m m' : ℕ → Prog σ ε α} (hm : Concludes m s) (hm' : Concludes m' s) :
    Concludes (fun n => if c then m n else m' n) s := by
  split
  · exact hm
  · exact hm'

/-- What is true of every end of a program that concludes is true of it with enough fuel. -/
theorem Concludes.wp {m : ℕ → Prog σ ε α} {Q : α → σ → Prop} {E : ε → σ → Prop} (hm : Concludes m s)
    (h : ∀ n, wp (m n) Q E (fun _ => True) s) : ∀ᶠ n in atTop, Prog.wp (m n) Q E (fun _ => False) s := by
  obtain ⟨o, s', ho, hrun⟩ := hm
  filter_upwards [hrun] with n hn
  have hwp := h n
  cases o with
  | ok a => rwa [wp_of_ok hn] at hwp ⊢
  | thrown e => rwa [wp_of_thrown hn] at hwp ⊢
  | stopped => exact absurd rfl ho

/-! ## Loops -/

/-- A round of a loop, on its accumulator and the state. -/
def oneRound (f : β → γ → Prog σ ε β) (x : β × σ) (c : γ) : β × σ :=
  match (f x.1 c).run x.2 with
  | (.ok b, s) => (b, s)
  | (_, s) => (x.1, s)

/-- A loop of rounds that return is the fold of its rounds. -/
theorem foldlM_run {f : β → γ → Prog σ ε β} (hf : ∀ b c s, ∃ b' s', (f b c).run s = (.ok b', s')) (l : List γ)
    (x : β × σ) :
    (l.foldlM f x.1).run x.2 = (.ok (l.foldl (oneRound f) x).1, (l.foldl (oneRound f) x).2) := by
  induction l generalizing x with
  | nil => rfl
  | cons c l ih =>
    obtain ⟨b', s', hrun⟩ := hf x.1 c x.2
    have hround : oneRound f x c = (b', s') := by rw [oneRound, hrun]
    rw [List.foldlM_cons, run_bind_ok hrun, List.foldl_cons, hround]
    exact ih (b', s')

end Prog
