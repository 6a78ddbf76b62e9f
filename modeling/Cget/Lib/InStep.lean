import Cget.Lib.Prog
/-!
# Programs in step

Two runs side by side. Programs are in step under a relation of their states if from related
states they end the same way, with the same value or exception, in related states again.
The rules go along the program text, so two runs of one program are compared by what the
relation says of its operations.
-/

namespace Prog

variable {σ τ ε α β : Type} {R : σ → τ → Prop}

/-- From related states `m` and `m'` end the same way, in related states. -/
def InStep (R : σ → τ → Prop) (m : Prog σ ε α) (m' : Prog τ ε α) : Prop :=
  ∀ s s', R s s' → (m'.run s').1 = (m.run s).1 ∧ R (m.run s).2 (m'.run s').2

theorem run_tryCatch_ok {m : Prog σ ε α} {h : ε → Prog σ ε α} {a : α} {s s' : σ} (hm : m.run s = (.ok a, s')) :
    (tryCatch m h).run s = (.ok a, s') := by
  change (Prog.tryCatch m h).run s = _
  simp only [Prog.tryCatch, hm]

theorem run_tryCatch_thrown {m : Prog σ ε α} {h : ε → Prog σ ε α} {e : ε} {s s' : σ} (hm : m.run s = (.thrown e, s')) :
    (tryCatch m h).run s = (h e).run s' := by
  change (Prog.tryCatch m h).run s = _
  simp only [Prog.tryCatch, hm]

theorem run_tryCatch_stopped {m : Prog σ ε α} {h : ε → Prog σ ε α} {s s' : σ} (hm : m.run s = (.stopped, s')) :
    (tryCatch m h).run s = (.stopped, s') := by
  change (Prog.tryCatch m h).run s = _
  simp only [Prog.tryCatch, hm]

theorem run_tryCatch_congr {m m' : Prog σ ε α} {h : ε → Prog σ ε α} {s s' : σ} (hm : m.run s = m'.run s') :
    (tryCatch m h).run s = (tryCatch m' h).run s' := by
  change (Prog.tryCatch m h).run s = (Prog.tryCatch m' h).run s'
  simp only [Prog.tryCatch, hm]

namespace InStep

variable {m : Prog σ ε α} {m' : Prog τ ε α}

theorem pure (a : α) : InStep R (Pure.pure a : Prog σ ε α) (Pure.pure a) := fun _ _ h => ⟨rfl, h⟩

theorem throw (e : ε) : InStep R (throw e : Prog σ ε α) (throw e) := fun _ _ h => ⟨rfl, h⟩

theorem stop : InStep R (stop : Prog σ ε α) stop := fun _ _ h => ⟨rfl, h⟩

theorem modify {f : σ → σ} {f' : τ → τ} (hf : ∀ s s', R s s' → R (f s) (f' s')) :
    InStep R (modify f : Prog σ ε PUnit) (modify f') :=
  fun s s' h => ⟨rfl, hf s s' h⟩

/-- Programs that return, with what they do. -/
theorem of_run {f : σ → σ} {f' : τ → τ} {a : α} (hm : ∀ s, m.run s = (.ok a, f s)) (hm' : ∀ s, m'.run s = (.ok a, f' s))
    (hf : ∀ s s', R s s' → R (f s) (f' s')) : InStep R m m' := by
  intro s s' h
  rw [hm, hm']
  exact ⟨rfl, hf s s' h⟩

theorem get_bind {f : σ → Prog σ ε α} {f' : τ → Prog τ ε α} (h : ∀ s s', R s s' → InStep R (f s) (f' s')) :
    InStep R (get >>= f) (get >>= f') := fun s s' hs => h s s' hs s s' hs

theorem bind {f : α → Prog σ ε β} {f' : α → Prog τ ε β} (hm : InStep R m m') (hf : ∀ a, InStep R (f a) (f' a)) :
    InStep R (m >>= f) (m' >>= f') := by
  intro s s' hs
  obtain ⟨hout, hrel⟩ := hm s s' hs
  rcases hrun : m.run s with ⟨a | e | _, s₁⟩ <;> rw [hrun] at hout hrel
  · rw [run_bind_ok hrun, run_bind_ok (Prod.ext hout rfl : m'.run s' = (.ok a, (m'.run s').2))]
    exact hf a _ _ hrel
  · rw [run_bind_thrown hrun, run_bind_thrown (Prod.ext hout rfl : m'.run s' = (.thrown e, (m'.run s').2))]
    exact ⟨rfl, hrel⟩
  · rw [run_bind_stopped hrun, run_bind_stopped (Prod.ext hout rfl : m'.run s' = (.stopped, (m'.run s').2))]
    exact ⟨rfl, hrel⟩

theorem tryCatch {h : ε → Prog σ ε α} {h' : ε → Prog τ ε α} (hm : InStep R m m') (hh : ∀ e, InStep R (h e) (h' e)) :
    InStep R (MonadExcept.tryCatch m h) (MonadExcept.tryCatch m' h') := by
  intro s s' hs
  obtain ⟨hout, hrel⟩ := hm s s' hs
  rcases hrun : m.run s with ⟨a | e | _, s₁⟩ <;> rw [hrun] at hout hrel
  · rw [run_tryCatch_ok hrun, run_tryCatch_ok (Prod.ext hout rfl : m'.run s' = (.ok a, (m'.run s').2))]
    exact ⟨rfl, hrel⟩
  · rw [run_tryCatch_thrown hrun, run_tryCatch_thrown (Prod.ext hout rfl : m'.run s' = (.thrown e, (m'.run s').2))]
    exact hh e _ _ hrel
  · rw [run_tryCatch_stopped hrun, run_tryCatch_stopped (Prod.ext hout rfl : m'.run s' = (.stopped, (m'.run s').2))]
    exact ⟨rfl, hrel⟩

/-- Loops over the same list, with rounds in step. -/
theorem foldlM {γ : Type} {f : β → γ → Prog σ ε β} {f' : β → γ → Prog τ ε β} (hf : ∀ b c, InStep R (f b c) (f' b c))
    (l : List γ) : ∀ b, InStep R (l.foldlM f b) (l.foldlM f' b) := by
  induction l with
  | nil => exact fun b => pure b
  | cons c l ih =>
    intro b
    rw [List.foldlM_cons, List.foldlM_cons]
    exact (hf b c).bind ih

/-- Programs on parts of the states. -/
theorem focus {σ' τ' : Type} {R' : σ' → τ' → Prop} {get : σ' → σ} {put : σ → σ' → σ'} {get' : τ' → τ}
    {put' : τ → τ' → τ'} (hm : InStep R m m') (hget : ∀ s s', R' s s' → R (get s) (get' s'))
    (hput : ∀ s s' u u', R' s s' → R u u' → R' (put u s) (put' u' s')) :
    InStep R' (focus get put m) (focus get' put' m') := by
  intro s s' hs
  obtain ⟨hout, hrel⟩ := hm _ _ (hget s s' hs)
  exact ⟨hout, hput s s' _ _ hs hrel⟩

end InStep

end Prog
