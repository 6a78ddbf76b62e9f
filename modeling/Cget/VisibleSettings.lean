import Cget.BandwidthFormat
import Cget.DecimalOptions
import Cget.SettingValues
/-!
# What config get prints

`valueForKey` and `ConfigManager::get`. What is printed for a setting is put back by `set`,
where the key's parser takes every value that `load` can return; three kinds of values it
does not take, and a limit of 0 is lost by every save.
-/

namespace Cget

namespace ConfigManager

open Json

/-! ## Printing -/

def boolText (b : Bool) : Text := if b then text "true" else text "false"

def valueForKey (c : Config) : Setting → Text
  | .maxThreads => decimal c.download.maxThreads.toNat
  | .maxActiveTasks => decimal c.download.maxActiveTasks.toNat
  | .maxDownloadRateBytesPerSec => decimal c.download.maxDownloadRateBytesPerSec.toNat
  | .maxGlobalWorkers => decimal c.scheduler.maxGlobalWorkers.toNat
  | .maxConcurrentTasks => decimal c.scheduler.maxConcurrentTasks.toNat
  | .maxChunksPerTask => decimal c.scheduler.maxChunksPerTask.toNat
  | .maxChunkQueueSize => decimal c.scheduler.maxChunkQueueSize.toNat
  | .policy => policyText c.scheduler.policy
  | .metricsEnabled => boolText c.metrics.enabled
  | .sampleIntervalMs => decimal c.metrics.sampleIntervalMs.toNat
  | .globalRateLimit => formatRateLimit c.rateLimit.globalBytesPerSec
  | .defaultPerTaskRateLimit => formatRateLimit c.rateLimit.defaultPerTaskBytesPerSec
  | .maxRetries => decimal c.network.maxRetries.toNat
  | .retryBaseDelayMs => decimal c.network.retryBaseDelayMs.toNat
  | .proxy => c.network.proxyUrl.getD (text "none")
  | .flushIntervalMs => decimal c.persistence.flushIntervalMs.toNat
  | .logLevel => c.logging.level
  | .logConsole => boolText c.logging.console
  | .maxFileBytes => decimal c.logging.maxFileBytes.toNat
  | .maxRotatedFiles => decimal c.logging.maxRotatedFiles.toNat

/-- `ConfigManager::get`. -/
def get (environment : Environment) (key : Text) : Prog (Option Text) Exn Text := do
  let setting ← Prog.ofExcept (canonicalKeyName key)
  let c ← load environment
  pure (valueForKey c setting)

/-! ## What is read of it -/

/-- The schemes that `set` takes for a proxy. -/
def hasScheme (url : Text) : Bool :=
  (text "http://").isPrefixOf url || (text "https://").isPrefixOf url || (text "socks5://").isPrefixOf url

/-- The values of a setting that `set` takes as they are printed. -/
def Setting.settable (v : SettingValue) : Setting → Prop
  | .maxRetries | .maxRotatedFiles => v ≠ .uint32 0
  | .globalRateLimit | .defaultPerTaskRateLimit =>
    v = .limit none ∨ ∃ n : UInt64, v = .limit (some n) ∧ 0 < n ∧ n < 1024
  | .proxy => ∀ url, v = .proxy (some url) → hasScheme url = true
  | _ => True

variable {key value file : Text} {s : Setting} {c c' : Config}

theorem clamp_range {lo hi n : UInt32} (h : SettingValue.clamped lo hi (.uint32 n) = .uint32 n)
    (hle : lo.toNat ≤ hi.toNat) :
    lo.toNat ≤ n.toNat ∧ n.toNat ≤ hi.toNat := by
  have hclamp : clamp lo hi n = n := SettingValue.uint32.inj h
  have := toNat_clamp lo hi n
  rw [hclamp] at this
  omega

theorem parsePositiveUint_print {n : UInt32} (hpos : 1 ≤ n.toNat) :
    parsePositiveUint key (decimal n.toNat) = .ok n := by
  rw [parsePositiveUint_decimal, if_neg]
  rintro rfl
  exact absurd hpos (by decide)

theorem parseBounded_print {lo hi n : UInt32} {message : String} (hpos : 1 ≤ n.toNat) (hlo : lo.toNat ≤ n.toNat)
    (hhi : n.toNat ≤ hi.toNat) : parseBounded key (decimal n.toNat) lo hi message = .ok n := by
  refine ok_bind (parsePositiveUint_print hpos) ?_
  simp only [UInt32.lt_iff_toNat_lt]
  rw [if_neg (by omega)]
  rfl

/-- A printed number may be 0, which the keys with no lower bound do not take. -/
theorem parseBounded_unbounded {hi n : UInt32} {message : String} (hhi : n.toNat ≤ hi.toNat) :
    (∃ v, (parseBounded key (decimal n.toNat) 0 hi message).map SettingValue.uint32 = .ok v ∧
      (v.clamped 0 hi).written = .uint32 n) ↔
      SettingValue.uint32 n ≠ .uint32 0 := by
  by_cases hzero : n = 0
  · subst hzero
    have herror : parseBounded key (decimal (0 : UInt32).toNat) 0 hi message =
        .error (invalidCommand (key ++ text " is out of range")) := by
      rw [parseBounded, parsePositiveUint_decimal, if_pos rfl]
      rfl
    rw [herror]
    exact iff_of_false (by rintro ⟨v, h, -⟩; cases h) (fun h => h rfl)
  · have hpos : 1 ≤ n.toNat := by
      have : n.toNat ≠ 0 := fun he => hzero (UInt32.toNat_inj.1 he)
      omega
    refine iff_of_true ⟨_, congrArg (Except.map SettingValue.uint32) (parseBounded_print hpos (Nat.zero_le _) hhi), ?_⟩
      (fun he => hzero (SettingValue.uint32.inj he))
    exact congrArg SettingValue.uint32 ((clamp_eq_iff (Nat.zero_le _) (Nat.zero_le _)).2 (UInt32.le_iff_toNat_le.2 hhi))

/-- The value a setting has after its own printed value was set. -/
def Restores (key : Text) (c : Config) (s : Setting) : Prop :=
  ∃ v, s.parse key (valueForKey c s) = .ok v ∧ (s.normalized v).written = s.get c

/-- The limits that are read as they are printed. -/
theorem parse_format_iff (x : Option UInt64) :
    parseBandwidthLimit (formatRateLimit x) = .ok x ↔ x = none ∨ ∃ n : UInt64, x = some n ∧ 0 < n ∧ n < 1024 := by
  have hunlimited : parseBandwidthLimit (text "unlimited") = .ok none := by decide +kernel
  cases x with
  | none => exact iff_of_true hunlimited (.inl rfl)
  | some n =>
    by_cases hzero : n = 0
    · subst hzero
      have hprint : formatRateLimit (some 0) = text "unlimited" := rfl
      rw [hprint, hunlimited]
      exact iff_of_false (fun h => by cases h) (by simp)
    have hpos : 0 < n.toNat := Nat.pos_of_ne_zero fun he => hzero (UInt64.toNat_inj.1 he)
    rcases Nat.lt_or_ge n.toNat 1024 with hsmall | hlarge
    · exact iff_of_true (parse_format_small hpos hsmall)
        (.inr ⟨n, rfl, UInt64.lt_iff_toNat_lt.2 hpos, UInt64.lt_iff_toNat_lt.2 hsmall⟩)
    · refine iff_of_false (fun h => ?_) ?_
      · obtain ⟨k, hk, hlt⟩ := parse_format_large hlarge h
        cases hk
        exact absurd hlt (UInt64.lt_irrefl _)
      · rintro (h | ⟨m, hm, -, hlt⟩)
        · cases h
        · cases hm
          exact absurd (UInt64.lt_iff_toNat_lt.1 hlt) (not_lt.2 hlarge)

theorem restores_limit {l : Option UInt64} (hwhole : ∀ n ∈ l, Binary64.Whole n.toNat) :
    (∃ v, (parseBandwidthLimit (formatRateLimit l)).map SettingValue.limit = .ok v ∧ v.written = .limit l) ↔
      SettingValue.limit l = .limit none ∨ ∃ n : UInt64, SettingValue.limit l = .limit (some n) ∧ 0 < n ∧ n < 1024 := by
  simp only [SettingValue.limit.injEq]
  rw [← parse_format_iff]
  constructor
  · rintro ⟨v, hv, hback⟩
    obtain ⟨l', hl', rfl⟩ := map_ok hv
    rw [SettingValue.written, limitBack_exact (parseBandwidthLimit_whole hl'), unlimitedZero] at hback
    split at hback
    · -- No limit is not printed as 0.
      rename_i hzero
      cases hback
      have hnone := (parse_format_iff none).2 (.inl rfl)
      rw [hl', hzero] at hnone
      cases hnone
    · cases hback
      exact hl'
  · intro h
    refine ⟨_, congrArg (Except.map SettingValue.limit) h, ?_⟩
    have hne : l ≠ some 0 := by
      rcases (parse_format_iff l).1 h with rfl | ⟨n, rfl, hpos, -⟩
      · exact fun he => by cases he
      · intro he
        cases he
        exact absurd hpos (UInt64.lt_irrefl _)
    rw [SettingValue.written, limitBack_exact hwhole, unlimitedZero, if_neg hne]

theorem restores_proxy (p : Option Text) :
    (∃ v, (parseProxy (p.getD (text "none"))).map SettingValue.proxy = .ok v ∧ v.written = .proxy p) ↔
      ∀ url, SettingValue.proxy p = .proxy (some url) → hasScheme url = true := by
  cases p with
  | none => exact iff_of_true ⟨.proxy none, by decide +kernel, rfl⟩ (fun url h => by cases h)
  | some url =>
    rw [Option.getD_some]
    by_cases hoff : url ∈ [text "none", text "off", text "disable", text "disabled"]
    · have hscheme : ∀ u ∈ [text "none", text "off", text "disable", text "disabled"], hasScheme u = false := by
        decide +kernel
      have hparse : parseProxy url = .ok none := if_pos hoff
      rw [hparse]
      refine iff_of_false ?_ fun h => ?_
      · rintro ⟨v, hv, hback⟩
        cases hv
        cases hback
      · exact Bool.false_ne_true ((hscheme url hoff).symm.trans (h url rfl))
    · by_cases hscheme : hasScheme url = true
      · have hparse : parseProxy url = .ok (some url) := (if_neg hoff).trans (if_pos hscheme)
        exact iff_of_true ⟨_, congrArg (Except.map SettingValue.proxy) hparse, rfl⟩
          (fun u hu => by cases hu; exact hscheme)
      · have hparse : ∃ e, parseProxy url = .error e := ⟨_, (if_neg hoff).trans (if_neg hscheme)⟩
        obtain ⟨e, he⟩ := hparse
        rw [he]
        refine iff_of_false ?_ fun h => hscheme (h url rfl)
        rintro ⟨v, hv, -⟩
        cases hv

theorem parseBool_print (b : Bool) : parseBool key (boolText b) = .ok b := by
  have hvalue : parseBoolValue (boolText b) = some b := by cases b <;> decide +kernel
  rw [parseBool, hvalue]

theorem parseLevel_print {level : Text} (h : normalLevel level = level) : parseLevel level = .ok level := by
  have hvalid : isValidLogLevelName level = true := by
    by_contra hinvalid
    rw [normalLevel, if_neg hinvalid] at h
    rw [← h] at hinvalid
    exact hinvalid (by decide +kernel)
  rw [normalLevel, if_pos hvalid] at h
  rw [parseLevel, if_pos hvalid, h]

/-- Of loaded settings, these are restored. -/
theorem restores_iff (hnormal : s.normalized (s.get c) = s.get c) (hwhole : c.Whole) :
    Restores key c s ↔ s.settable (s.get c) := by
  cases s with
  | maxThreads | maxActiveTasks =>
    have hrange := clamp_range hnormal (by decide)
    exact iff_of_true ⟨_, congrArg (Except.map SettingValue.uint32)
      (parseBounded_print (le_trans (by decide) hrange.1) (Nat.zero_le _) hrange.2), hnormal⟩ trivial
  | sampleIntervalMs | retryBaseDelayMs | flushIntervalMs =>
    have hrange := clamp_range hnormal (by decide)
    exact iff_of_true ⟨_, congrArg (Except.map SettingValue.uint32)
      (parseBounded_print (le_trans (by decide) hrange.1) hrange.1 hrange.2), hnormal⟩ trivial
  | maxGlobalWorkers | maxConcurrentTasks | maxChunksPerTask | maxChunkQueueSize =>
    have hrange := clamp_range hnormal (by decide)
    exact iff_of_true ⟨_, congrArg (Except.map SettingValue.uint32)
      (parsePositiveUint_print (le_trans (by decide) hrange.1)), hnormal⟩ trivial
  | maxRetries | maxRotatedFiles => exact parseBounded_unbounded (clamp_range hnormal (by decide)).2
  | maxDownloadRateBytesPerSec =>
    refine iff_of_true ⟨_, congrArg (Except.map SettingValue.uint64) (parseUint64_decimal key _), ?_⟩ trivial
    exact congrArg SettingValue.uint64 (rounded_whole hwhole.rate)
  | maxFileBytes =>
    refine iff_of_true ⟨_, congrArg (Except.map SettingValue.uint64) (parseUint64_decimal key _), ?_⟩ trivial
    exact congrArg SettingValue.uint64 (rounded_whole hwhole.maxFileBytes)
  | globalRateLimit => exact restores_limit hwhole.globalLimit
  | defaultPerTaskRateLimit => exact restores_limit hwhole.taskLimit
  | proxy => exact restores_proxy c.network.proxyUrl
  | policy =>
    exact iff_of_true ⟨_, congrArg (Except.map SettingValue.policy) (schedulingPolicyFromString_policyText _),
      rfl⟩ trivial
  | metricsEnabled | logConsole =>
    exact iff_of_true ⟨_, congrArg (Except.map SettingValue.flag) (parseBool_print _), rfl⟩ trivial
  | logLevel =>
    exact iff_of_true ⟨_, congrArg (Except.map SettingValue.name) (parseLevel_print (SettingValue.name.inj hnormal)),
      hnormal⟩ trivial

/-! ## Feeding it back -/

/-- What `get` prints for the key is taken by `set`, and `load` returns what it returned before. -/
def FeedsBack (file key : Text) : Prop :=
  ∃ value file', (get noVariables key).run (some file) = (.ok value, some file) ∧
    (set noVariables key value).run (some file) = (.ok (), file') ∧
    ((load noVariables).run file').1 = ((load noVariables).run (some file)).1

theorem run_get (hkey : canonicalKeyName key = .ok s) (hload : readConfig noVariables file = .ok c) :
    (get noVariables key).run (some file) = (.ok (valueForKey c s), some file) := by
  have hsetting : (Prog.ofExcept (canonicalKeyName key)).run (some file) = (.ok s, some file) := by rw [hkey]; rfl
  have hconfig : (load noVariables).run (some file) = (.ok c, some file) := by rw [run_load, hload]; rfl
  exact (Prog.run_bind_ok hsetting).trans (Prog.run_bind_ok hconfig)

/-- Settings are determined one by one. -/
theorem config_ext (h : ∀ s : Setting, s.get c' = s.get c) : c' = c := by
  obtain ⟨⟨_, _, _⟩, ⟨_, _, _, _, _⟩, ⟨_, _⟩, ⟨_, _⟩, ⟨_, _, _⟩, ⟨_⟩, ⟨_, _, _, _⟩⟩ := c
  obtain ⟨⟨_, _, _⟩, ⟨_, _, _, _, _⟩, ⟨_, _⟩, ⟨_, _⟩, ⟨_, _, _⟩, ⟨_⟩, ⟨_, _, _, _⟩⟩ := c'
  cases h .maxThreads
  cases h .maxActiveTasks
  cases h .maxDownloadRateBytesPerSec
  cases h .maxGlobalWorkers
  cases h .maxConcurrentTasks
  cases h .maxChunksPerTask
  cases h .maxChunkQueueSize
  cases h .policy
  cases h .metricsEnabled
  cases h .sampleIntervalMs
  cases h .globalRateLimit
  cases h .defaultPerTaskRateLimit
  cases h .maxRetries
  cases h .retryBaseDelayMs
  cases h .proxy
  cases h .flushIntervalMs
  cases h .logLevel
  cases h .logConsole
  cases h .maxFileBytes
  cases h .maxRotatedFiles
  rfl

theorem settable_nonzero (h : s.settable (s.get c)) : s.get c ≠ .limit (some 0) := by
  have hlimit : ∀ v : SettingValue, (v = .limit none ∨ ∃ n : UInt64, v = .limit (some n) ∧ 0 < n ∧ n < 1024) → v ≠
      .limit (some 0) := by
    rintro v (rfl | ⟨n, rfl, hpos, -⟩) he
    · cases he
    · cases he
      exact absurd hpos (UInt64.lt_irrefl _)
  cases s with
  | globalRateLimit | defaultPerTaskRateLimit => exact hlimit _ h
  | _ =>
    intro he
    cases he

/-- Loaded settings are normal, and doubles hold them. -/
theorem loaded_normal (hload : readConfig noVariables file = .ok c) :
    (∀ s : Setting, s.normalized (s.get c) = s.get c) ∧ c.Whole := by
  obtain ⟨base, layered, hbase, hover, rfl⟩ := readConfig_ok hload
  cases hover
  have hwhole := configOf_whole hbase
  refine ⟨fun s => ?_, hwhole.rate, hwhole.maxFileBytes, hwhole.globalLimit, hwhole.taskLimit⟩
  rw [get_normalize, normalized_normalized]

theorem feedsBack_iff (hkey : canonicalKeyName key = .ok s) (hload : readConfig noVariables file = .ok c) :
    FeedsBack file key ↔ s.settable (s.get c) ∧ ∀ f : Setting, f.get c ≠ .limit (some 0) := by
  obtain ⟨hnormal, hwhole⟩ := loaded_normal hload
  have hget := run_get hkey hload
  have hset := run_set noVariables key (valueForKey c s) file
  have hbefore : ((load noVariables).run (some file)).1 = .ok c := by rw [run_load, hload]; rfl
  have hupdated : updated noVariables key (valueForKey c s) file = s.update key (valueForKey c s) c :=
    ok_bind hkey (ok_bind hload rfl)
  have hparse := get_parsed key (valueForKey c s) c s
  rw [hupdated] at hset
  cases hupdate : s.update key (valueForKey c s) c with
  | error e =>
    rw [hupdate] at hset hparse
    refine iff_of_false ?_ ?_
    · rintro ⟨value, file', hget', hset', -⟩
      rw [hget] at hget'
      cases hget'
      rw [hset] at hset'
      cases hset'
    · rintro ⟨hsettable, -⟩
      obtain ⟨v, hv, -⟩ : Restores key c s := (restores_iff (hnormal s) hwhole).2 hsettable
      rw [← hparse] at hv
      cases hv
  | ok c' =>
    rw [hupdate] at hset hparse
    have hself : s.get (normalize c').written = (s.normalized (s.get c')).written := by rw [get_written, get_normalize]
    have hother : ∀ f : Setting, f ≠ s → f.get (normalize c').written = (f.get c).written := by
      intro f hf
      rw [get_written, get_normalize, get_update hupdate hf, hnormal]
    have hback : FeedsBack file key ↔ ∀ f : Setting, f.get (normalize c').written = f.get c := by
      constructor
      · rintro ⟨value, file', hget', hset', hafter⟩ f
        rw [hget] at hget'
        cases hget'
        rw [hset] at hset'
        cases hset'
        rw [load_saved, hbefore] at hafter
        cases hafter
        rfl
      · intro h
        refine ⟨_, _, hget, hset, ?_⟩
        rw [load_saved, hbefore, config_ext h]
    have hrestores : Restores key c s ↔ s.get (normalize c').written = s.get c := by
      rw [hself]
      constructor
      · rintro ⟨v, hv, hvback⟩
        cases hparse.trans hv
        exact hvback
      · exact fun h => ⟨_, hparse.symm, h⟩
    rw [hback, ← restores_iff (hnormal s) hwhole, hrestores]
    constructor
    · intro h
      refine ⟨h s, fun f => ?_⟩
      by_cases hf : f = s
      · rw [hf]
        exact settable_nonzero ((restores_iff (hnormal s) hwhole).1 (hrestores.2 (h s)))
      · exact (written_get_iff hwhole f).1 ((hother f hf).symm.trans (h f))
    · rintro ⟨hs, hzero⟩ f
      by_cases hf : f = s
      · rw [hf]
        exact hs
      · rw [hother f hf]
        exact (written_get_iff hwhole f).2 (hzero f)

/-- What `get` prints for a key is put back by `set` exactly when the setting is one that `set`
takes and no limit is 0; of the rates, those below 1024 are. -/
theorem get_then_set_iff (file key : Text) (s : Setting) (c : Config) (hkey : canonicalKeyName key = .ok s)
    (hload : readConfig noVariables file = .ok c) :
    (FeedsBack file key ↔ s.settable (s.get c) ∧ ∀ f : Setting, f.get c ≠ .limit (some 0)) ∧
      ∀ x : Option UInt64, parseBandwidthLimit (formatRateLimit x) = .ok x ↔
        x = none ∨ ∃ n : UInt64, x = some n ∧ 0 < n ∧ n < 1024 :=
  ⟨feedsBack_iff hkey hload, parse_format_iff⟩

theorem get_then_set_threads : FeedsBack emptyObject (text "max_threads") := by
  refine ((get_then_set_iff emptyObject (text "max_threads") .maxThreads {} (by decide +kernel)
    (by decide +kernel)).1).2 ⟨trivial, ?_⟩
  intro f
  cases f <;> decide

/-- A config file without retries. -/
def noRetries : Text := text "\x7b\"network\":\x7b\"max_retries\":0\x7d\x7d"

/-- No retries can be loaded and printed, but not set. -/
theorem get_then_set_retries : ¬ ∀ (file key : Text) (s : Setting) (c : Config), canonicalKeyName key = .ok s →
    readConfig noVariables file = .ok c → FeedsBack file key := by
  intro h
  obtain ⟨value, file', hget, hset, -⟩ :=
    h noRetries (text "network.max_retries") .maxRetries { network := { maxRetries := 0 } }
    (by decide +kernel) (by decide +kernel)
  have hvalue : ((get noVariables (text "network.max_retries")).run (some noRetries)).1 = .ok (text "0") := by
    decide +kernel
  rw [hget] at hvalue
  cases hvalue
  have hthrown : ((set noVariables (text "network.max_retries") (text "0")).run (some noRetries)).1 =
      .thrown (invalidCommand (text "network.max_retries is out of range")) := by decide +kernel
  rw [hset] at hthrown
  cases hthrown

end ConfigManager

end Cget
