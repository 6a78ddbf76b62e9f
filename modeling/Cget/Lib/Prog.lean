import Mathlib.Tactic.Common
/-!
# Programs with exceptions that a crash can cut short

A `Prog σ ε α` runs on a state `σ` and ends in one of three ways: with a value, with
an exception that a handler may catch, or stopped, which nothing catches (the process
is gone, the state is what it left behind). `wp` is its weakest precondition, with one
postcondition for each way to end, and the lemmas below compute it through `do` blocks.
-/

/-- How a program ends. -/
inductive Outcome (ε α : Type) where
  | ok (a : α)
  | thrown (e : ε)
  | stopped
  deriving DecidableEq, Repr

structure Prog (σ ε α : Type) where
  run : σ → Outcome ε α × σ

namespace Prog

variable {σ ε α β : Type}

protected def bind (m : Prog σ ε α) (f : α → Prog σ ε β) : Prog σ ε β where
  run s := match m.run s with
    | (.ok a, s') => (f a).run s'
    | (.thrown e, s') => (.thrown e, s')
    | (.stopped, s') => (.stopped, s')

instance : Monad (Prog σ ε) where
  pure a := ⟨fun s => (.ok a, s)⟩
  bind := Prog.bind

protected def tryCatch (m : Prog σ ε α) (h : ε → Prog σ ε α) : Prog σ ε α where
  run s := match m.run s with
    | (.ok a, s') => (.ok a, s')
    | (.thrown e, s') => (h e).run s'
    | (.stopped, s') => (.stopped, s')

instance : MonadExceptOf ε (Prog σ ε) where
  throw e := ⟨fun s => (.thrown e, s)⟩
  tryCatch := Prog.tryCatch

instance : MonadStateOf σ (Prog σ ε) where
  get := ⟨fun s => (.ok s, s)⟩
  set s' := ⟨fun _ => (.ok ⟨⟩, s')⟩
  modifyGet f := ⟨fun s => (.ok (f s).1, (f s).2)⟩

/-- The process is gone. -/
def stop : Prog σ ε α := ⟨fun s => (.stopped, s)⟩

/-- A computation without a state. -/
def ofExcept : Except ε α → Prog σ ε α
  | .ok a => pure a
  | .error e => throw e

/-- A program on a part of the state, run on the whole. -/
def focus {τ : Type} (get : τ → σ) (put : σ → τ → τ) (m : Prog σ ε α) : Prog τ ε α where
  run t := ((m.run (get t)).1, put (m.run (get t)).2 t)

/-! ## Weakest preconditions -/

/-- From `s`, `m` ends in a state its way of ending allows: `Q` with a value, `E` with
an exception, `S` stopped. -/
def wp (m : Prog σ ε α) (Q : α → σ → Prop) (E : ε → σ → Prop) (S : σ → Prop) (s : σ) : Prop :=
  match m.run s with
  | (.ok a, s') => Q a s'
  | (.thrown e, s') => E e s'
  | (.stopped, s') => S s'

variable {Q : α → σ → Prop} {E : ε → σ → Prop} {S : σ → Prop} {s : σ}

@[simp] theorem wp_pure (a : α) : wp (Pure.pure a : Prog σ ε α) Q E S s ↔ Q a s := Iff.rfl

@[simp] theorem wp_throw (e : ε) : wp (throw e : Prog σ ε α) Q E S s ↔ E e s := Iff.rfl

@[simp] theorem wp_stop : wp (stop : Prog σ ε α) Q E S s ↔ S s := Iff.rfl

@[simp] theorem wp_get {Q : σ → σ → Prop} : wp (get : Prog σ ε σ) Q E S s ↔ Q s s := Iff.rfl

@[simp] theorem wp_modify {Q : PUnit → σ → Prop} (f : σ → σ) :
    wp (modify f : Prog σ ε PUnit) Q E S s ↔ Q ⟨⟩ (f s) := Iff.rfl

@[simp] theorem wp_bind {Q : β → σ → Prop} (m : Prog σ ε α) (f : α → Prog σ ε β) :
    wp (m >>= f) Q E S s ↔ wp m (fun a s' => wp (f a) Q E S s') E S s := by
  change wp (Prog.bind m f) Q E S s ↔ _
  rcases h : m.run s with ⟨_ | _ | _, s'⟩ <;> simp [wp, Prog.bind, h]

@[simp] theorem wp_tryCatch (m : Prog σ ε α) (h : ε → Prog σ ε α) :
    wp (tryCatch m h) Q E S s ↔ wp m Q (fun e s' => wp (h e) Q E S s') S s := by
  change wp (Prog.tryCatch m h) Q E S s ↔ _
  rcases hm : m.run s with ⟨_ | _ | _, s'⟩ <;> simp [wp, Prog.tryCatch, hm]

@[simp] theorem wp_ite {c : Prop} [Decidable c] (m m' : Prog σ ε α) :
    wp (if c then m else m') Q E S s ↔ if c then wp m Q E S s else wp m' Q E S s := by
  split <;> rfl

theorem wp_ofExcept {x : Except ε α} (hok : ∀ a, x = .ok a → Q a s) (herror : ∀ e, x = .error e → E e s) :
    wp (ofExcept x) Q E S s := by
  cases x with
  | ok a => exact hok a rfl
  | error e => exact herror e rfl

@[simp] theorem wp_focus {τ : Type} {get : τ → σ} {put : σ → τ → τ} {m : Prog σ ε α} {Q : α → τ → Prop}
    {E : ε → τ → Prop} {S : τ → Prop} {t : τ} :
    wp (focus get put m) Q E S t ↔
      wp m (fun a s => Q a (put s t)) (fun e s => E e (put s t)) (fun s => S (put s t)) (get t) := by
  rcases h : m.run (get t) with ⟨_ | _ | _, s'⟩ <;> simp [wp, focus, h]

/-- A weaker postcondition for each way to end. -/
theorem wp_mono {m : Prog σ ε α} {Q' : α → σ → Prop} {E' : ε → σ → Prop} {S' : σ → Prop}
    (h : wp m Q E S s) (hq : ∀ a s', Q a s' → Q' a s') (he : ∀ e s', E e s' → E' e s')
    (hs : ∀ s', S s' → S' s') : wp m Q' E' S' s := by
  unfold wp at h ⊢
  rcases h' : m.run s with ⟨_ | _ | _, s'⟩ <;> rw [h'] at h
  exacts [hq _ _ h, he _ _ h, hs _ h]

theorem wp_const {m : Prog σ ε α} {I : σ → Prop} : wp m (fun _ => I) (fun _ => I) I s ↔ I (m.run s).2 := by
  unfold wp
  rcases m.run s with ⟨_ | _ | _, s'⟩ <;> rfl

theorem wp_of_ok {m : Prog σ ε α} {a : α} {s' : σ} (h : m.run s = (.ok a, s')) : wp m Q E S s ↔ Q a s' := by
  simp [wp, h]

theorem wp_of_thrown {m : Prog σ ε α} {e : ε} {s' : σ} (h : m.run s = (.thrown e, s')) :
    wp m Q E S s ↔ E e s' := by
  simp [wp, h]

theorem wp_of_stopped {m : Prog σ ε α} {s' : σ} (h : m.run s = (.stopped, s')) : wp m Q E S s ↔ S s' := by
  simp [wp, h]

theorem run_bind_ok {m : Prog σ ε α} {f : α → Prog σ ε β} {a : α} {s' : σ} (h : m.run s = (.ok a, s')) :
    (m >>= f).run s = (f a).run s' := by
  change (Prog.bind m f).run s = _
  simp only [Prog.bind, h]

theorem run_bind_thrown {m : Prog σ ε α} {f : α → Prog σ ε β} {e : ε} {s' : σ} (h : m.run s = (.thrown e, s')) :
    (m >>= f).run s = (.thrown e, s') := by
  change (Prog.bind m f).run s = _
  simp only [Prog.bind, h]

theorem run_bind_stopped {m : Prog σ ε α} {f : α → Prog σ ε β} {s' : σ} (h : m.run s = (.stopped, s')) :
    (m >>= f).run s = (.stopped, s') := by
  change (Prog.bind m f).run s = _
  simp only [Prog.bind, h]

protected theorem bind_assoc {γ : Type} (m : Prog σ ε α) (f : α → Prog σ ε β) (g : β → Prog σ ε γ) :
    m >>= f >>= g = m >>= fun a => f a >>= g := by
  change Prog.bind (Prog.bind m f) g = Prog.bind m fun a => Prog.bind (f a) g
  simp only [Prog.bind, mk.injEq]
  funext s
  rcases m.run s with ⟨_ | _ | _, s'⟩ <;> rfl

/-- A sequence that returns has gone through both its parts. -/
theorem run_bind_eq_ok {m : Prog σ ε α} {f : α → Prog σ ε β} {b : β} {s' : σ} (h : (m >>= f).run s = (.ok b, s')) :
    ∃ a s₁, m.run s = (.ok a, s₁) ∧ (f a).run s₁ = (.ok b, s') := by
  change (Prog.bind m f).run s = _ at h
  rcases hm : m.run s with ⟨a | _ | _, s₁⟩ <;> simp only [Prog.bind, hm] at h
  · exact ⟨a, s₁, rfl, h⟩
  · simp at h
  · simp at h

theorem run_bind_congr {m m' : Prog σ ε α} {f : α → Prog σ ε β} {s' : σ} (h : m.run s = m'.run s') :
    (m >>= f).run s = (m' >>= f).run s' := by
  change (Prog.bind m f).run s = (Prog.bind m' f).run s'
  simp only [Prog.bind, h]

theorem run_map_id (m : Prog σ ε α) (s : σ) : (m >>= fun a => Pure.pure a).run s = m.run s := by
  change (Prog.bind m Pure.pure).run s = _
  rcases hm : m.run s with ⟨_ | _ | _, s'⟩
  all_goals simp only [Prog.bind, hm]
  rfl

/-- What is made of the value leaves the state. -/
theorem run_map_state (m : Prog σ ε α) (f : α → β) (s : σ) :
    ((m >>= fun a => Pure.pure (f a)).run s).2 = (m.run s).2 := by
  change ((Prog.bind m fun a => Pure.pure (f a)).run s).2 = _
  rcases hm : m.run s with ⟨_ | _ | _, s'⟩
  all_goals simp only [Prog.bind, hm]
  rfl

/-- One property for all ways to end is a property of the run. -/
theorem wp_run {m : Prog σ ε α} {P : Outcome ε α → σ → Prop} :
    wp m (fun a => P (.ok a)) (fun e => P (.thrown e)) (P .stopped) s ↔ P (m.run s).1 (m.run s).2 := by
  unfold wp
  rcases m.run s with ⟨_ | _ | _, s'⟩ <;> rfl

theorem wp_and {m : Prog σ ε α} {Q' : α → σ → Prop} {E' : ε → σ → Prop} {S' : σ → Prop}
    (h : wp m Q E S s) (h' : wp m Q' E' S' s) :
    wp m (fun a s => Q a s ∧ Q' a s) (fun e s => E e s ∧ E' e s) (fun s => S s ∧ S' s) s := by
  unfold wp at h h' ⊢
  rcases hr : m.run s with ⟨_ | _ | _, s'⟩ <;> rw [hr] at h h' <;> exact ⟨h, h'⟩

/-! ## Invariants -/

/-- From `I`, `m` ends in `I` again, or stopped in `S`. -/
def KeepsOr (S I : σ → Prop) (m : Prog σ ε α) : Prop :=
  ∀ s, I s → wp m (fun _ => I) (fun _ => I) S s

/-- However `m` ends, it ends in `I` when it starts there. -/
abbrev Keeps (I : σ → Prop) (m : Prog σ ε α) : Prop := KeepsOr I I m

section Keeps

variable {I : σ → Prop}

theorem Keeps.run {m : Prog σ ε α} (h : Keeps I m) (s : σ) (hs : I s) : I (m.run s).2 :=
  wp_const.1 (h s hs)

theorem Keeps.or {m : Prog σ ε α} (h : Keeps I m) (hS : ∀ s, I s → S s) : KeepsOr S I m :=
  fun s hs => wp_mono (h s hs) (fun _ _ h => h) (fun _ _ h => h) hS

theorem KeepsOr.bind {m : Prog σ ε α} {f : α → Prog σ ε β} (hm : KeepsOr S I m) (hf : ∀ a, KeepsOr S I (f a)) :
    KeepsOr S I (m >>= f) := by
  intro s hs
  rw [wp_bind]
  exact wp_mono (hm s hs) (fun a s' h => hf a s' h) (fun _ _ h => h) (fun _ h => h)

theorem KeepsOr.pure (a : α) : KeepsOr S I (Pure.pure a : Prog σ ε α) := fun _ h => h

theorem KeepsOr.throw (e : ε) : KeepsOr S I (throw e : Prog σ ε α) := fun _ h => h

theorem KeepsOr.ofExcept (x : Except ε α) : KeepsOr S I (ofExcept x) :=
  fun _ h => wp_ofExcept (fun _ _ => h) fun _ _ => h

theorem KeepsOr.get_bind {f : σ → Prog σ ε α} (h : ∀ s, KeepsOr S I (f s)) : KeepsOr S I (get >>= f) := by
  intro s hs
  rw [wp_bind, wp_get]
  exact h s s hs

theorem KeepsOr.tryCatch {m : Prog σ ε α} {f : ε → Prog σ ε α} (hm : KeepsOr S I m) (hf : ∀ e, KeepsOr S I (f e)) :
    KeepsOr S I (MonadExcept.tryCatch m f) := by
  intro s hs
  rw [wp_tryCatch]
  exact wp_mono (hm s hs) (fun _ _ h => h) (fun e s' h => hf e s' h) (fun _ h => h)

/-- A loop keeps what each of its rounds keeps. -/
theorem KeepsOr.foldlM {γ : Type} (f : β → γ → Prog σ ε β) (hf : ∀ b c, KeepsOr S I (f b c)) :
    ∀ (l : List γ) (b : β), KeepsOr S I (l.foldlM f b)
  | [], b => KeepsOr.pure b
  | c :: l, b => by
    rw [List.foldlM_cons]
    exact (hf b c).bind (fun b' => KeepsOr.foldlM f hf l b')

end Keeps

/-- The loop rule: an invariant of the accumulator and the state, kept by each round,
holds when the loop is over. -/
theorem wp_foldlM {γ : Type} (f : β → γ → Prog σ ε β) (I : β → σ → Prop)
    (hf : ∀ b c s, I b s → wp (f b c) I E S s) :
    ∀ (l : List γ) (b : β) (s : σ), I b s → wp (l.foldlM f b) I E S s
  | [], _, _, h => h
  | c :: l, b, s, h => by
    rw [List.foldlM_cons, wp_bind]
    exact wp_mono (hf b c s h) (fun b' s' h' => wp_foldlM f I hf l b' s' h') (fun _ _ h => h) (fun _ h => h)

end Prog
