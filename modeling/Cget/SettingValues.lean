import Cget.Settings
/-!
# What config set stores

Each key has its own parser of values. After an accepted `set` the file is loaded again; the
setting is the parsed value exactly when `normalize` and JSON leave it alone.
-/

namespace Cget

namespace ConfigManager

open Json

/-- The parser of a key. -/
def Setting.parse (key value : Text) : Setting → Except Exn SettingValue
  | .maxThreads => (parseBounded key value 0 32 "max_threads must be <= 32").map .uint32
  | .maxActiveTasks => (parseBounded key value 0 16 "max_active_tasks must be <= 16").map .uint32
  | .maxDownloadRateBytesPerSec | .maxFileBytes => (parseUint64 key value).map .uint64
  | .maxGlobalWorkers | .maxConcurrentTasks | .maxChunksPerTask | .maxChunkQueueSize =>
    (parsePositiveUint key value).map .uint32
  | .policy => (schedulingPolicyFromString value).map .policy
  | .metricsEnabled | .logConsole => (parseBool key value).map .flag
  | .sampleIntervalMs =>
    (parseBounded key value 100 60000 "metrics.sample_interval_ms must be between 100 and 60000").map .uint32
  | .globalRateLimit | .defaultPerTaskRateLimit => (parseBandwidthLimit value).map .limit
  | .maxRetries => (parseBounded key value 0 10 "max_retries must be <= 10").map .uint32
  | .retryBaseDelayMs =>
    (parseBounded key value 100 60000 "retry_base_delay_ms must be between 100 and 60000").map .uint32
  | .proxy => (parseProxy value).map .proxy
  | .flushIntervalMs => (parseBounded key value 100 60000 "flush_interval_ms must be between 100 and 60000").map .uint32
  | .logLevel => (parseLevel value).map .name
  | .maxRotatedFiles => (parseBounded key value 0 16 "logging.max_rotated_files must be <= 16").map .uint32

/-- A number that is not above a bound. -/
def SettingValue.atMost (hi : UInt32) : SettingValue → Prop
  | .uint32 n => n ≤ hi
  | _ => True

/-- The accepted values that a setting keeps: those within what `normalize` allows, those a
double holds, and limits other than 0. -/
def Setting.keeps (v : SettingValue) : Setting → Prop
  | .maxGlobalWorkers => v.atMost 128
  | .maxConcurrentTasks | .maxChunksPerTask => v.atMost 64
  | .maxChunkQueueSize => v.atMost 65536
  | .maxDownloadRateBytesPerSec | .maxFileBytes => ∀ n, v = .uint64 n → Binary64.Whole n.toNat
  | .globalRateLimit | .defaultPerTaskRateLimit => v ≠ .limit (some 0)
  | _ => True

/-- `set` throws and leaves the file alone, or `load` then returns what the key's parser makes of the value. -/
def SetStores (file key value : Text) : Prop :=
  (∃ e, (set noVariables key value).run (some file) = (.thrown e, some file)) ∨
    ∃ s v c file', canonicalKeyName key = .ok s ∧ s.parse key value = .ok v ∧
      (set noVariables key value).run (some file) = (.ok (), file') ∧
      ((load noVariables).run file').1 = .ok c ∧ s.get c = v

variable {key value file : Text} {s : Setting} {c c' : Config} {v : SettingValue}

/-- `set` parses with the key's parser. -/
theorem get_parsed (key value : Text) (c : Config) (s : Setting) :
    (s.update key value c).map s.get = s.parse key value := by
  have hmap : ∀ {α : Type} (x : Except Exn α) (f : α → Config) (g : α → SettingValue), (∀ a, s.get (f a) = g a) →
      (x >>= fun a => pure (f a)).map s.get = x.map g := by
    intro α x f g h
    cases x with
    | error e => rfl
    | ok a => exact congrArg Except.ok (h a)
  cases s
  all_goals exact hmap _ _ _ fun _ => rfl

theorem map_ok {α β : Type} {x : Except Exn α} {f : α → β} {b : β} (h : x.map f = .ok b) :
    ∃ a, x = .ok a ∧ f a = b := by
  cases x with
  | error e => cases h
  | ok a => exact ⟨a, rfl, Except.ok.inj h⟩

theorem parsePositiveUint_pos {n : UInt32} (h : parsePositiveUint key value = .ok n) : 1 ≤ n.toNat := by
  unfold parsePositiveUint at h
  split at h
  · cases h
  · dsimp only at h
    split at h
    · cases h
    · rename_i hrange
      cases h
      simp only [not_or, not_le] at hrange
      obtain ⟨hzero, hlt⟩ := hrange
      have hpos : (value.foldl (fun parsed c => parsed * 10 + (c - 48).toUInt64) (0 : UInt64)).toNat ≠ 0 :=
        fun he => hzero (UInt64.toNat_inj.1 he)
      rw [UInt64.toNat_toUInt32, Nat.mod_eq_of_lt hlt]
      omega

theorem parseBounded_range {n lo hi : UInt32} {message : String} (h : parseBounded key value lo hi message = .ok n) :
    1 ≤ n.toNat ∧ lo.toNat ≤ n.toNat ∧ n.toNat ≤ hi.toNat := by
  obtain ⟨parsed, hparsed, h⟩ := bind_ok h
  split at h
  · cases h
  · rename_i hrange
    cases h
    simp only [not_or, UInt32.not_lt, UInt32.le_iff_toNat_le] at hrange
    exact ⟨parsePositiveUint_pos hparsed, hrange⟩

theorem clamp_eq_iff {lo hi n : UInt32} (hlo : lo.toNat ≤ n.toNat) (hle : lo.toNat ≤ hi.toNat) :
    clamp lo hi n = n ↔ n ≤ hi := by
  rw [← UInt32.toNat_inj, toNat_clamp, UInt32.le_iff_toNat_le]
  omega

/-- A number that `set` checks against the range of `normalize` is not clamped. -/
theorem clamp_bounded {n lo lo' hi : UInt32} {message : String} (h : parseBounded key value lo' hi message = .ok n)
    (hlo : lo.toNat ≤ 1 ∨ lo = lo') (hle : lo.toNat ≤ hi.toNat) : clamp lo hi n = n := by
  obtain ⟨hone, hlower, hupper⟩ := parseBounded_range h
  refine (clamp_eq_iff ?_ hle).2 (UInt32.le_iff_toNat_le.2 hupper)
  rcases hlo with hlo | rfl
  · exact hlo.trans hone
  · exact hlower

theorem parseLevel_normal {level : Text} (h : parseLevel value = .ok level) : normalLevel level = level := by
  unfold parseLevel at h
  split at h
  · rename_i hvalid
    cases h
    have hvalid' : isValidLogLevelName (lower value) = true := by
      rw [isValidLogLevelName, lower_lower]
      exact hvalid
    rw [normalLevel, if_pos hvalid', lower_lower]
  · cases h

/-- What the layers between `set` and `load` do to a parsed value. -/
theorem keeps_iff (h : s.parse key value = .ok v) : (s.normalized v).written = v ↔ s.keeps v := by
  have huint32 : ∀ {m n : UInt32}, SettingValue.uint32 m = .uint32 n ↔ m = n := by simp
  cases s with
  | maxThreads | maxActiveTasks | sampleIntervalMs | maxRetries | retryBaseDelayMs | flushIntervalMs
  | maxRotatedFiles =>
    obtain ⟨n, hn, rfl⟩ := map_ok h
    exact iff_of_true (huint32.2 (clamp_bounded hn (by decide) (by decide))) trivial
  | maxGlobalWorkers | maxConcurrentTasks | maxChunksPerTask | maxChunkQueueSize =>
    obtain ⟨n, hn, rfl⟩ := map_ok h
    exact huint32.trans (clamp_eq_iff (parsePositiveUint_pos hn) (by decide))
  | maxDownloadRateBytesPerSec | maxFileBytes =>
    obtain ⟨n, -, rfl⟩ := map_ok h
    constructor
    · rintro hback m ⟨⟩
      rw [← SettingValue.uint64.inj hback, rounded, UInt64.toNat_ofNat']
      exact (Binary64.whole_floor (Nat.cast_nonneg _)).mod_two_pow 64
    · exact fun hwhole => congrArg SettingValue.uint64 (rounded_whole (hwhole n rfl))
  | globalRateLimit | defaultPerTaskRateLimit =>
    obtain ⟨l, hl, rfl⟩ := map_ok h
    simp only [Setting.normalized, SettingValue.written, Setting.keeps, SettingValue.limit.injEq,
      limitBack_exact (parseBandwidthLimit_whole hl), unlimitedZero]
    by_cases hzero : l = some 0 <;> simp [hzero]
  | logLevel =>
    obtain ⟨level, hlevel, rfl⟩ := map_ok h
    exact iff_of_true (congrArg SettingValue.name (parseLevel_normal hlevel)) trivial
  | policy | metricsEnabled | logConsole | proxy =>
    obtain ⟨a, -, rfl⟩ := map_ok h
    exact iff_of_true rfl trivial

/-- The settings that `set` saves, unless it throws. -/
def updated (environment : Environment) (key value file : Text) : Except Exn Config := do
  let setting ← canonicalKeyName key
  let c ← readConfig environment file
  setting.update key value c

theorem run_set (environment : Environment) (key value file : Text) : (set environment key value).run (some file) =
    match updated environment key value file with
    | .ok c' => (.ok (), some (stringify (toJson (normalize c')) 2))
    | .error e => (.thrown e, some file) := by
  unfold updated
  cases hkey : canonicalKeyName key with
  | error e =>
    have hrun : (Prog.ofExcept (canonicalKeyName key)).run (some file) = (.thrown e, some file) := by rw [hkey]; rfl
    exact Prog.run_bind_thrown hrun
  | ok s =>
    have hrun : (Prog.ofExcept (canonicalKeyName key)).run (some file) = (.ok s, some file) := by rw [hkey]; rfl
    refine (Prog.run_bind_ok hrun).trans ?_
    cases hload : readConfig environment file with
    | error e =>
      have hrun : (load environment).run (some file) = (.thrown e, some file) := by rw [run_load, hload]; rfl
      exact Prog.run_bind_thrown hrun
    | ok c =>
      have hrun : (load environment).run (some file) = (.ok c, some file) := by rw [run_load, hload]; rfl
      refine (Prog.run_bind_ok hrun).trans ?_
      change _ = match s.update key value c with
        | .ok c' => (Outcome.ok (), some (stringify (toJson (normalize c')) 2))
        | .error e => (.thrown e, some file)
      cases hupdate : s.update key value c with
      | error e => rfl
      | ok c' => rfl

theorem updated_ok (h : updated noVariables key value file = .ok c') :
    ∃ s c v, canonicalKeyName key = .ok s ∧ readConfig noVariables file = .ok c ∧ s.update key value c = .ok c' ∧
      s.parse key value = .ok v ∧ s.get c' = v := by
  obtain ⟨s, hkey, h⟩ := bind_ok h
  obtain ⟨c, hload, h⟩ := bind_ok h
  refine ⟨s, c, s.get c', hkey, hload, h, ?_, rfl⟩
  rw [← get_parsed key value c s, h]
  rfl

/-- Whatever is set, it is stored as the key's parser reads it, or refused without a trace, exactly
when the setting keeps the parsed value. -/
theorem set_stores_iff (file key value : Text) :
    SetStores file key value ↔ ∀ s c v, canonicalKeyName key = .ok s → readConfig noVariables file = .ok c →
      s.parse key value = .ok v → s.keeps v := by
  have hrun := run_set noVariables key value file
  cases hupdated : updated noVariables key value file with
  | error e =>
    rw [hupdated] at hrun
    refine iff_of_true (.inl ⟨e, hrun⟩) ?_
    intro s c v hkey hload hparse
    -- A value that is parsed is set.
    rw [← get_parsed key value c s] at hparse
    obtain ⟨c', hc', -⟩ := map_ok hparse
    have hok : updated noVariables key value file = .ok c' := ok_bind hkey (ok_bind hload hc')
    rw [hok] at hupdated
    cases hupdated
  | ok c' =>
    rw [hupdated] at hrun
    obtain ⟨s, c, v, hkey, hload, hupdate, hparse, hget⟩ := updated_ok hupdated
    have hafter : s.get (normalize c').written = (s.normalized v).written := by rw [get_written, get_normalize, hget]
    constructor
    · rintro (⟨e, hthrown⟩ | ⟨s₁, v₁, c₁, file', hkey₁, hparse₁, hset, hload₁, hget₁⟩) s₂ c₂ v₂ hkey₂ - hparse₂
      · rw [hrun] at hthrown
        cases hthrown
      · cases hkey.symm.trans hkey₁
        cases hkey.symm.trans hkey₂
        cases hparse.symm.trans hparse₁
        cases hparse.symm.trans hparse₂
        rw [hrun] at hset
        cases hset
        rw [load_saved] at hload₁
        cases hload₁
        exact (keeps_iff hparse).1 (hafter.symm.trans hget₁)
    · intro h
      refine .inr ⟨s, v, _, _, hkey, hparse, hrun, congrArg Prod.fst (load_saved c'), ?_⟩
      exact hafter.trans ((keeps_iff hparse).2 (h s c v hkey hload hparse))

/-- More workers than `normalize` allows are accepted, unlike more threads, and stored as fewer. -/
theorem set_clamps_workers : ¬ ∀ file key value : Text, SetStores file key value := by
  intro h
  have hrun : ((set noVariables (text "scheduler.max_global_workers") (text "200")).run (some emptyObject)).1 =
      .ok () := by
    decide +kernel
  have hload : ((load noVariables).run
      ((set noVariables (text "scheduler.max_global_workers") (text "200")).run (some emptyObject)).2).1 =
        .ok { scheduler := { maxGlobalWorkers := 128 } } := by decide +kernel
  rcases h emptyObject (text "scheduler.max_global_workers") (text "200") with
    ⟨e, hthrown⟩ | ⟨s, v, c, file', hkey, hparse, hset, hloaded, hget⟩
  · rw [hthrown] at hrun
    cases hrun
  · have hkey' : canonicalKeyName (text "scheduler.max_global_workers") = .ok .maxGlobalWorkers := by decide +kernel
    cases hkey.symm.trans hkey'
    have hparse' : Setting.maxGlobalWorkers.parse (text "scheduler.max_global_workers") (text "200") =
        .ok (.uint32 200) := by
      decide +kernel
    cases hparse.symm.trans hparse'
    rw [hset, hloaded] at hload
    cases hload
    cases hget

end ConfigManager

end Cget
