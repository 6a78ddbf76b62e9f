import Cget.Logger
/-!
# What rotation keeps

When every rotation gets through, the rotated files are full before anything is dropped: the log
holds all there is to hold, or as much as its files are meant to.
-/

namespace Cget

open Prog

variable {env : LogEnv} {m : UInt64} {n : UInt32} {c : LogCall} {d : LogDir} {ls : List Text}

/-! ## A rotation that gets through -/

theorem logExists_done {Q : Bool → LogDir → Prop} {E : Exn → LogDir → Prop} {S : LogDir → Prop} {i : ℕ}
    (hmove : ∀ j, env.moveFault j = .ok) (hQ : Q (d.files i).isSome { d with tick := d.tick + 1 }) :
    wp (logExists env i) Q E S d := by
  unfold logExists
  rw [wp_bind]
  refine wp_logOp (fun _ => ?_) (fun k h => ?_) (fun k h => ?_)
  · simpa using hQ
  · rw [hmove] at h
    cases h
  · rw [hmove] at h
    cases h

/-- What a move does when nothing keeps it from it. -/
theorem logMove_done {full : LogDir → LogDir} {part : Nat → LogDir → LogDir} {Q : Bool → LogDir → Prop}
    {E : Exn → LogDir → Prop} {S : LogDir → Prop} (hmove : ∀ j, env.moveFault j = .ok)
    (hQ : Q true (full { d with tick := d.tick + 1 })) :
    wp (logOp env.moveFault full part) Q E S d := by
  refine wp_logOp (fun _ => hQ) (fun k h => ?_) (fun k h => ?_)
  · rw [hmove] at h
    cases h
  · rw [hmove] at h
    cases h

/-- `d'` has the files `files` and what `d` had appended. -/
structure Moved (d : LogDir) (files : Slots Bytes) (d' : LogDir) : Prop where
  files : d'.files = files
  appended : d'.appended = d.appended

theorem rotateFrom_done (hmove : ∀ j, env.moveFault j = .ok) : ∀ (index : ℕ) (d : LogDir),
    wp (rotateFrom env index) (fun _ => Moved d (d.files.raised index)) (fun _ _ => False) (fun _ => False) d
  | 0, d => ⟨rfl, rfl⟩
  | current + 1, d => by
    rw [rotateFrom, wp_bind]
    refine logExists_done hmove ?_
    cases hthere : d.files current with
    | none =>
      have hih := rotateFrom_done hmove current { d with tick := d.tick + 1 }
      refine wp_mono hih (fun _ d' h => ⟨?_, h.appended⟩) (fun _ _ h => h) fun _ h => h
      rw [h.files, Slots.raised, Slots.lift_empty hthere]
    | some b =>
      simp only [Option.isSome_some, if_true, wp_bind]
      refine logMove_done hmove (logMove_done hmove ?_)
      refine wp_mono (rotateFrom_done hmove current _) (fun _ d' h => ⟨?_, h.appended⟩) (fun _ _ h => h) fun _ h => h
      rw [h.files]
      change Slots.raised current ((d.files.clear (current + 1)).lift current) = _
      rw [Slots.lift_clear d.files current (by simp [hthere]), ← Slots.raised]

/-- The files are left alone unless `cget.log` is full; then they all move up. -/
theorem rotateIfNeeded_done (hmove : ∀ j, env.moveFault j = .ok) (options : LoggerOptions) (d : LogDir) :
    wp (rotateIfNeeded env options)
      (fun _ d' => Moved d d.files d' ∨ (∃ b, d.files 0 = some b ∧ options.maxFileBytes.toNat ≤ b.length) ∧
        Moved d (d.files.raised options.maxRotatedFiles.toNat) d') (fun _ _ => False) (fun _ => False) d := by
  have hleft : Moved d d.files d := ⟨rfl, rfl⟩
  unfold rotateIfNeeded
  split
  · exact .inl hleft
  rw [wp_bind]
  refine logExists_done hmove ?_
  cases hb : d.files 0 with
  | none => exact .inl ⟨rfl, rfl⟩
  | some b =>
    simp only [Option.isSome_some, Bool.not_true, Bool.false_eq_true, if_false, wp_bind]
    unfold logSize
    rw [wp_bind]
    refine logMove_done hmove ?_
    simp only [id, wp_bind, wp_get, hb, if_true, wp_pure, wp_ite]
    split
    · exact .inl ⟨rfl, rfl⟩
    · rename_i hfull
      refine wp_mono (rotateFrom_done hmove _ _) (fun _ d' h => .inr ⟨⟨b, rfl, ?_⟩, h.files, h.appended⟩)
        (fun _ _ h => h) fun _ h => h
      simpa using hfull

/-! ## Full files -/

/-- Rotated files follow each other and are full, and while the last one is missing nothing is lost. -/
structure Stacked (m n : ℕ) (d : LogDir) : Prop where
  gapless : ∀ i, 0 < i → i < n → (d.files (i + 1)).isSome → (d.files i).isSome
  full : ∀ i b, 0 < i → i ≤ n → d.files i = some b → m ≤ b.length
  all : d.files n = none → (d.files.below (n + 1)).flatten = d.appended.flatten

theorem Stacked.rotated {m n : ℕ} {d' : LogDir} {b : Bytes} (h : Stacked m n d) (hn : 0 < n) (hb : d.files 0 = some b)
    (hfull : m ≤ b.length) (hmoved : Moved d (d.files.raised n) d') : Stacked m n d' := by
  -- Below slot `n`, each slot holds what was one below; slot `n` may keep what it had.
  have hbelow : ∀ i, i + 1 < n → d'.files (i + 1) = d.files i := fun i hi => by rw [hmoved.files, Slots.raised_succ hi]
  obtain ⟨k, rfl⟩ : ∃ k, n = k + 1 := ⟨n - 1, by omega⟩
  have hlast : d'.files (k + 1) = (d.files k).or (d.files (k + 1)) := by rw [hmoved.files, Slots.raised_last]
  have hfull' : ∀ i b, i ≤ k + 1 → d.files i = some b → m ≤ b.length := by
    intro i b' hi hib
    by_cases h0 : i = 0
    · subst h0
      rw [hb] at hib
      cases hib
      exact hfull
    · exact h.full i b' (by omega) hi hib
  have hgap : ∀ i, i < k + 1 → (d.files (i + 1)).isSome → (d.files i).isSome := by
    intro i hi hsome
    by_cases h0 : i = 0
    · subst h0
      simp [hb]
    · exact h.gapless i (by omega) hi hsome
  refine ⟨fun i hi hin hsome => ?_, fun i b' hi hin hib => ?_, fun hnone => ?_⟩
  · obtain ⟨j, rfl⟩ : ∃ j, i = j + 1 := ⟨i - 1, by omega⟩
    rw [hbelow j (by omega)]
    by_cases htop : j + 1 = k
    · subst htop
      rw [hlast, Option.isSome_or, Bool.or_eq_true] at hsome
      exact hgap j (by omega) (hsome.elim id (hgap (j + 1) (by omega)))
    · rw [hbelow (j + 1) (by omega)] at hsome
      exact hgap j (by omega) hsome
  · obtain ⟨j, rfl⟩ : ∃ j, i = j + 1 := ⟨i - 1, by omega⟩
    by_cases htop : j = k
    · subst htop
      rw [hlast, Option.or_eq_some_iff] at hib
      exact hib.elim (hfull' j b' (by omega)) fun h => hfull' (j + 1) b' le_rfl h.2
    · exact hfull' j b' (by omega) (by rw [← hbelow j (by omega), hib])
  · have hnone' : d.files (k + 1) = none := by
      rw [hlast, Option.or_eq_none_iff] at hnone
      exact hnone.2
    rw [hmoved.files, hmoved.appended, Slots.raised_below hnone', h.all hnone']

/-- What touches only `cget.log` leaves the rotated files. -/
theorem Stacked.front {m n : ℕ} {d' : LogDir} (h : Stacked m n d) (hn : 0 < n) (b : Bytes)
    (hfiles : d'.files = d.files.front ((d.files 0).getD [] ++ b))
    (happended : d'.appended.flatten = d.appended.flatten ++ b) : Stacked m n d' := by
  have hsame : ∀ i, 0 < i → d'.files i = d.files i := fun i hi => by rw [hfiles, Slots.front_of_pos (by omega)]
  refine ⟨fun i hi hin => ?_, fun i b' hi hin => ?_, fun hnone => ?_⟩
  · rw [hsame i hi, hsame (i + 1) (by omega)]
    exact h.gapless i hi hin
  · rw [hsame i hi]
    exact h.full i b' hi hin
  · rw [hsame n hn] at hnone
    rw [hfiles, Slots.below_put, h.all hnone, happended]

theorem stacked_write (hmove : ∀ j, env.moveFault j = .ok) (hn : 0 < n) (hc : Rotates m n c.options) (d : LogDir)
    (hd : Stacked m.toNat n.toNat d) :
    wp (c.write env) (fun _ => Stacked m.toNat n.toNat) (fun _ _ => False) (Stacked m.toNat n.toNat) d := by
  have hn' : 0 < n.toNat := hn
  refine write_ends (M := Stacked m.toNat n.toNat) (fun _ _ h => ⟨h.gapless, h.full, h.all⟩) (fun _ h => h)
    (fun _ h => h)
    (fun d hd => ?_) (fun _ _ h => ⟨h.gapless, h.full, h.all⟩) (fun d h => h.front hn' [] (by simp) (by simp))
    (fun _ d b _ h => h.front hn' b rfl (by simp [LogDir.append])) d hd
  refine wp_mono (rotateIfNeeded_done hmove c.options d) (fun _ d' h => ?_) (fun _ _ h => h.elim) fun _ h => h.elim
  rw [hc.bytes, hc.files] at h
  rcases h with hleft | ⟨⟨b, hb, hfull⟩, hmoved⟩
  · refine ⟨?_, ?_, ?_⟩ <;> simp only [hleft.files, hleft.appended]
    exacts [hd.gapless, hd.full, hd.all]
  · exact hd.rotated hn' hb hfull hmoved

/-- Full files down from the last one. -/
theorem Stacked.length_le {m n : ℕ} (h : Stacked m n d) (hlast : (d.files n).isSome) :
    n * m ≤ ((d.files.below (n + 1)).flatten).length := by
  have hsome : ∀ k i, 0 < i → i + k = n → (d.files i).isSome := by
    intro k
    induction k with
    | zero =>
      rintro i _ rfl
      exact hlast
    | succ k ih => exact fun i hi hik => h.gapless i hi (by omega) (ih (i + 1) (by omega) (by omega))
  have hsum : ∀ j, j ≤ n → j * m ≤ ((d.files.below (j + 1)).flatten).length := by
    intro j
    induction j with
    | zero => simp
    | succ j ih =>
      intro hj
      obtain ⟨b, hb⟩ := Option.isSome_iff_exists.1 (hsome (n - (j + 1)) (j + 1) (by omega) (by omega))
      have hbm := h.full (j + 1) b (by omega) hj hb
      have := ih (by omega)
      rw [Slots.below, hb, Option.toList_some, List.singleton_append, List.flatten_cons, List.length_append,
        Nat.add_one_mul]
      omega
  exact hsum n le_rfl

/-! ## Lines that all get there -/

/-- When nothing fails a call appends its line if the level lets it through. -/
theorem write_done (hfault : ∀ j, env.fault j = .ok) (hmove : ∀ j, env.moveFault j = .ok) (c : LogCall) (d : LogDir) :
    wp (c.write env) (fun _ d' => d'.appended = d.appended ++ logLines [c]) (fun _ _ => False) (fun _ => False) d := by
  have hdone : ∀ {full : LogDir → LogDir} {part : Nat → LogDir → LogDir} {Q : Bool → LogDir → Prop}
      {E : Exn → LogDir → Prop} {S : LogDir → Prop} {d : LogDir}, Q true (full { d with tick := d.tick + 1 }) →
      wp (logOp env.fault full part) Q E S d := by
    intro full part Q E S d hQ
    refine wp_logOp (fun _ => hQ) (fun k h => ?_) (fun k h => ?_) <;> rw [hfault] at h <;> cases h
  unfold LogCall.write
  by_cases hwanted : shouldWrite c.options c.level = true
  · simp only [hwanted, Bool.not_true, Bool.false_eq_true, if_false, wp_tryCatch, wp_bind, wp_pure]
    unfold ensureLogDirectories
    rw [wp_bind]
    refine hdone ?_
    simp only [Bool.not_true, Bool.false_eq_true, if_false, wp_pure, id]
    refine wp_mono (rotateIfNeeded_done hmove c.options _) (fun _ d' h => ?_) (fun _ _ h => h.elim) fun _ h => h
    unfold logAppend logOpen
    rw [wp_bind]
    refine hdone ?_
    simp only [if_true, wp_bind, wp_pure]
    refine hdone ?_
    have happended : d'.appended = d.appended := by
      rcases h with hleft | ⟨_, hmoved⟩
      · exact hleft.appended
      · exact hmoved.appended
    rw [logLines_written hwanted]
    exact congrArg (· ++ [c.line]) happended
  · have hno : logLines [c] = [] := by simp [logLines, hwanted]
    simp [hwanted, hno]

/-- While every rotation gets through, the log starting empty is the end of what was appended, and
either all of it or as long as the rotated files are meant to be together, wherever else processes
die; when nothing fails at all, what was appended is every line that the level lets through. -/
theorem log_retains (env : LogEnv) (sessions : List (List LogCall)) (hmove : ∀ j, env.moveFault j = .ok) (hm : 0 < m)
    (hn : 0 < n) (hcalls : ∀ c ∈ sessions.flatten, Rotates m n c.options) :
    let d := logSessions env sessions {}
    let kept := (d.files.below (n.toNat + 1)).flatten
    kept <:+ d.appended.flatten ∧ (kept = d.appended.flatten ∨ n.toNat * m.toNat ≤ kept.length) ∧
      ((∀ j, env.fault j = .ok) → d.appended = logLines sessions.flatten) := by
  have hstacked : Stacked m.toNat n.toNat (logSessions env sessions {}) := by
    refine sessions_keep sessions (fun c hc d hd => stacked_write hmove hn (hcalls c hc) d hd) _ ⟨?_, ?_, ?_⟩
    · simp
    · simp
    · simp [Slots.below_empty]
  have htail : TailOf [] n.toNat (logSessions env sessions {}) := by
    refine sessions_keep sessions (fun c hc d hd => ?_) _ (by simp [TailOf, Slots.below_empty])
    exact tail_write (by simp [hmove]) hm hn (hcalls c hc) d hd
  refine ⟨by simpa [TailOf] using htail, ?_, fun hfault => ?_⟩
  · cases hlast : (logSessions env sessions {}).files n.toNat with
    | none => exact .inl (hstacked.all hlast)
    | some b => exact .inr (hstacked.length_le (by simp [hlast]))
  · refine sessions_run (I := fun ls d => d.appended = ls) (D := fun _ _ => False) (fun _ _ _ h => h.elim) sessions [] _
      (fun c _ ls d hd => ?_) rfl
    exact wp_mono (write_done hfault hmove c d) (fun _ _ h => by rw [h, hd]) (fun _ _ h => h) fun _ h => h

/-- One line is cut short, a process dies while it appends another. -/
theorem log_retains_diskFull :
    let env : LogEnv := { fault := fun n => if n = 33 then .fail 7 else if n = 65 then .crash 3 else .ok }
    let sessions := [List.replicate 9 diskFull, List.replicate 9 diskFull, [diskFull]]
    let d := logSessions env sessions {}
    let kept := (d.files.below 3).flatten
    kept <:+ d.appended.flatten ∧ (kept = d.appended.flatten ∨ 2 * 64 ≤ kept.length) ∧
      ((∀ j, env.fault j = .ok) → d.appended = logLines sessions.flatten) := by
  refine log_retains (m := 64) (n := 2) _ _ (fun _ => rfl) (by decide) (by decide) fun c hc => ?_
  obtain rfl : c = diskFull := by simpa using hc
  exact diskFull_rotates

end Cget
