import Mathlib.Tactic.Common
/-!
# Runs of a machine

A machine is a `step` from a state and a choice to the next state; a run makes one step
after the other. `GuardedRun ok` are the runs all of whose steps satisfy `ok` in the state
they start from, and `GuardedRun.inv` is the induction over them.
-/

variable {σ κ : Type}

/-- Every step of the run from `s` satisfies `ok`. -/
def GuardedRun (step : σ → κ → σ) (ok : σ → κ → Prop) : σ → List κ → Prop
  | _, [] => True
  | s, c :: cs => ok s c ∧ GuardedRun step ok (step s c) cs

instance GuardedRun.decide {step : σ → κ → σ} {ok : σ → κ → Prop} [∀ s c, Decidable (ok s c)] :
    ∀ (s : σ) (cs : List κ), Decidable (GuardedRun step ok s cs)
  | _, [] => isTrue trivial
  | s, c :: cs =>
    have := @GuardedRun.decide step ok _ (step s c) cs
    inferInstanceAs (Decidable (_ ∧ _))

variable {step : σ → κ → σ} {ok : σ → κ → Prop} {I : σ → Prop}

/-- What every guarded step keeps holds at the end of every guarded run. -/
theorem GuardedRun.inv (hstep : ∀ s c, I s → ok s c → I (step s c)) {cs : List κ} :
    ∀ {s : σ}, I s → GuardedRun step ok s cs → I (cs.foldl step s) := by
  induction cs with
  | nil => exact fun h _ => h
  | cons c cs ih => exact fun h hg => ih (hstep _ c h hg.1) hg.2

/-- What every step keeps holds at the end of every run. -/
theorem run_inv (hstep : ∀ s c, I s → I (step s c)) {cs : List κ} {s : σ} (h : I s) : I (cs.foldl step s) := by
  induction cs generalizing s with
  | nil => exact h
  | cons c cs ih => exact ih (hstep s c h)

/-- A run with one step more. -/
theorem GuardedRun.append {cs ds : List κ} :
    ∀ {s : σ}, GuardedRun step ok s (cs ++ ds) ↔ GuardedRun step ok s cs ∧ GuardedRun step ok (cs.foldl step s) ds := by
  induction cs with
  | nil => simp [GuardedRun]
  | cons c cs ih => simp [GuardedRun, ih, and_assoc]

/-- A guarded run up to some step. -/
theorem GuardedRun.take {cs : List κ} {s : σ} (h : GuardedRun step ok s cs) (n : Nat) :
    GuardedRun step ok s (cs.take n) := by
  rw [← List.take_append_drop n cs] at h
  exact (GuardedRun.append.1 h).1

/-- What holds of every choice can join the guard. -/
theorem GuardedRun.and {P : κ → Prop} {cs : List κ} :
    ∀ {s : σ}, GuardedRun step ok s cs → (∀ c ∈ cs, P c) → GuardedRun step (fun s c => ok s c ∧ P c) s cs := by
  induction cs with
  | nil => exact fun h _ => h
  | cons c cs ih =>
    exact fun h hP => ⟨⟨h.1, hP c List.mem_cons_self⟩, ih h.2 fun d hd => hP d (List.mem_cons_of_mem _ hd)⟩

/-- A guard on the choices alone. -/
theorem GuardedRun.of_all {P : κ → Prop} {cs : List κ} :
    ∀ {s : σ}, (∀ c ∈ cs, P c) → GuardedRun step (fun _ c => P c) s cs := by
  induction cs with
  | nil => exact fun _ => trivial
  | cons c cs ih => exact fun h => ⟨h c List.mem_cons_self, ih fun d hd => h d (List.mem_cons_of_mem _ hd)⟩

/-- A guard that the steps of a guarded run satisfy by an invariant of the run. -/
theorem GuardedRun.of_inv {ok' : σ → κ → Prop} (hstep : ∀ s c, I s → ok s c → I (step s c))
    (hok : ∀ s c, I s → ok s c → ok' s c)
    {cs : List κ} : ∀ {s : σ}, I s → GuardedRun step ok s cs → GuardedRun step ok' s cs := by
  induction cs with
  | nil => exact fun _ _ => trivial
  | cons c cs ih => exact fun h hg => ⟨hok _ c h hg.1, ih (hstep _ c h hg.1) hg.2⟩

/-- A guard that holds of every step. -/
theorem GuardedRun.always (h : ∀ s c, ok s c) {cs : List κ} : ∀ {s : σ}, GuardedRun step ok s cs := by
  induction cs with
  | nil => exact trivial
  | cons c cs ih => exact ⟨h _ c, ih⟩

/-- Where a step keeps `I` exactly if it satisfies the guard, and `J` in any case, all states of a
run satisfy `I` exactly if the run is guarded. -/
theorem GuardedRun.iff_states_with {J : σ → Prop} (hstep : ∀ s c, I s → J s → (I (step s c) ↔ ok s c))
    (hkeep : ∀ s c, I s → J s → J (step s c)) {cs : List κ} :
    ∀ {s : σ}, I s → J s → ((∀ n, I ((cs.take n).foldl step s)) ↔ GuardedRun step ok s cs) := by
  induction cs with
  | nil => exact fun h _ => iff_of_true (fun _ => by simpa using h) trivial
  | cons c cs ih =>
    intro s h hj
    constructor
    · intro hall
      have hc : I (step s c) := by simpa using hall 1
      exact ⟨(hstep s c h hj).1 hc, (ih hc (hkeep s c h hj)).1 fun n => by simpa using hall (n + 1)⟩
    · rintro ⟨hok, hrun⟩ n
      cases n with
      | zero => simpa using h
      | succ n => simpa using (ih ((hstep s c h hj).2 hok) (hkeep s c h hj)).2 hrun n

/-- Where a step keeps `I` exactly if it satisfies the guard, all states of a run satisfy `I`
exactly if the run is guarded. -/
theorem GuardedRun.iff_states (hstep : ∀ s c, I s → (I (step s c) ↔ ok s c)) {cs : List κ} {s : σ} (h : I s) :
    (∀ n, I ((cs.take n).foldl step s)) ↔ GuardedRun step ok s cs :=
  GuardedRun.iff_states_with (J := fun _ => True) (fun s c h _ => hstep s c h) (fun _ _ _ _ => trivial) h trivial
