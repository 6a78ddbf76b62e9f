import Cget.JsonPrinted
import Cget.Settings
import Cget.TaskJson
/-!
# 64-bit integers in files

Every 64-bit number of the task and config formats is stored as a double. It comes back
unchanged exactly when a double holds it, from JSON itself, from the settings of the config
file, and as the rate limit of a task.
-/

namespace Cget

open Json

/-! ## The conversions -/

/-- A double whose whole part fits 64 bits, so that converting it is defined. -/
def Converts (d : Rat) : Prop := -1 < d ∧ d < 2 ^ 64

/-- A number survives being printed, parsed and taken out again, and no conversion on the way is undefined. -/
structure KeptByJson (n : Nat) : Prop where
  printing : Converts (Binary64.nearest n)
  reading : ∀ indent : Int, ∃ d, parse (stringify (.ofUint64 n) indent) = .ok (.number d) ∧ Converts d ∧
    (Value.number d).asUint64 = .ok n

/-- What `parseUint64` accepts as `n` for one of the two 64-bit settings is what `load` returns for it after `set`. -/
def KeptByConfig (n : Nat) : Prop :=
  ∀ (s : ConfigManager.Setting) (environment : ConfigManager.Environment) (key value file : Text) (file' : Option Text),
    s = .maxDownloadRateBytesPerSec ∨ s = .maxFileBytes → ConfigManager.canonicalKeyName key = .ok s →
    ConfigManager.parseUint64 key value = .ok (UInt64.ofNat n) →
    (ConfigManager.set environment key value).run (some file) = (.ok (), file') →
    ∃ c, ((ConfigManager.load ConfigManager.noVariables).run file').1 = .ok c ∧ s.get c = .uint64 (UInt64.ofNat n)

/-- The numbers of a task fit 64 bits, and its peak speed is printed as a number that `stod` reads. -/
structure DownloadTask.Storable (t : DownloadTask) : Prop where
  inRange : ({ t with peakSpeedBytesPerSec := 0 } : DownloadTask).InRange
  peakSpeed : ∃ d, stod (printNumber t.peakSpeedBytesPerSec) = .ok d

/-- A task that is read back from its text has the rate limit it was stored with. -/
def KeptByTasks (n : Nat) : Prop :=
  ∀ (ts : Timestamps) (t u : DownloadTask), t.Storable → t.taskRateLimitBytesPerSec = some n →
    PersistenceStore.taskFromJson ts (PersistenceStore.taskToJson ts t) = .ok u → u.taskRateLimitBytesPerSec = some n

theorem keptByJson_iff {n : Nat} (hn : n < 2 ^ 64) : KeptByJson n ↔ Binary64.Whole n := by
  have hread : ∀ indent, parse (stringify (.ofUint64 n) indent) = .ok (.ofUint64 n) :=
    parse_stringify (readable_ofUint64 hn.le)
  constructor
  · intro h
    obtain ⟨d, hd, -, hsame⟩ := h.reading 2
    rw [hread] at hd
    cases hd
    exact throughDouble_iff.1 (Except.ok.inj ((asUint64_throughDouble n).symm.trans hsame))
  · intro h
    have hconverts : Converts (Binary64.nearest n) := by
      rw [Binary64.nearest_whole h]
      exact ⟨by linarith [show (0 : Rat) ≤ n from Nat.cast_nonneg n], by exact_mod_cast hn⟩
    refine ⟨hconverts, fun indent => ⟨_, hread indent, hconverts, ?_⟩⟩
    exact (asUint64_throughDouble n).trans (congrArg Except.ok (throughDouble_iff.2 h))

/-! ## Settings -/

section Config

open ConfigManager

theorem keptByConfig {n : Nat} (hn : n < 2 ^ 64) (h : Binary64.Whole n) : KeptByConfig n := by
  intro s environment key value file file' hs hkey hvalue hset
  obtain ⟨c, c', -, hupdate, rfl⟩ := set_saves hkey hset
  have hrounded : rounded (UInt64.ofNat n) = UInt64.ofNat n := rounded_whole (by rwa [UInt64.toNat_ofNat_of_lt' hn])
  refine ⟨_, congrArg Prod.fst (load_saved c'), ?_⟩
  rw [get_written, get_normalize]
  rcases hs with rfl | rfl
  all_goals
    obtain ⟨parsed, hparsed, hc'⟩ := bind_ok hupdate
    rw [hvalue] at hparsed
    cases hparsed
    cases hc'
    exact congrArg SettingValue.uint64 hrounded

end Config

/-! ## Tasks -/

section Tasks

open PersistenceStore

variable {ts : Timestamps} {t u : DownloadTask}

/-- What a printed number is read as. -/
def reread (d : Rat) : Rat := (stod (printNumber d)).toOption.getD d

theorem readAs_number {d : Rat} (h : ∃ d', stod (printNumber d) = .ok d') : ReadAs reread (.number d) := by
  obtain ⟨d', hd⟩ := h
  refine .number d (hd.trans ?_)
  rw [reread, hd]
  rfl

theorem readAs_ofUint64 {n : Nat} (h : n ≤ 2 ^ 64) :
    ReadAs reread (.ofUint64 n) ∧ (Value.ofUint64 n).mapNumbers reread = .ofUint64 n := by
  obtain ⟨m, hm, hwhole, hle⟩ := nearest_le h
  have hread : stod (printNumber (Binary64.nearest n)) = .ok (Binary64.nearest n) := by
    rw [hm, printNumber_natCast, stod_decimal hle, Binary64.nearest_whole hwhole]
  refine ⟨readAs_number ⟨_, hread⟩, ?_⟩
  rw [Value.ofUint64, Value.mapNumbers, reread, hread]
  rfl

theorem readAs_optional {α : Type} {f : α → Value} {a : Option α}
    (h : ∀ x ∈ a, ReadAs reread (f x) ∧ (f x).mapNumbers reread = f x) :
    ReadAs reread (Json.optional f a) ∧ (Json.optional f a).mapNumbers reread = Json.optional f a := by
  cases a with
  | none => exact ⟨.null, rfl⟩
  | some x => exact h x rfl

theorem readAs_chunk {c : Chunk} (h : c.InRange) :
    ReadAs reread (chunkToJson c) ∧ (chunkToJson c).mapNumbers reread = chunkToJson c := by
  constructor
  · apply readAs_objectOf
    simp only [List.forall_mem_cons, List.not_mem_nil, false_implies, implies_true, and_true]
    exact ⟨(readAs_ofUint64 h.index.le).1, (readAs_ofUint64 h.start.le).1, (readAs_ofUint64 h.stop.le).1,
      (readAs_ofUint64 h.downloaded.le).1, .string _, (readAs_ofUint64 h.retryCount.le).1, .string _⟩
  · simp only [chunkToJson, mapNumbers_objectOf, List.map_cons, List.map_nil, Value.mapNumbers,
      (readAs_ofUint64 h.index.le).2,
      (readAs_ofUint64 h.start.le).2, (readAs_ofUint64 h.stop.le).2, (readAs_ofUint64 h.downloaded.le).2,
      (readAs_ofUint64 h.retryCount.le).2]

/-- The text of a task is read as the task's object, but for the digits of its peak speed. -/
theorem readAs_task (h : t.Storable) : ReadAs reread (taskObject ts t) ∧
    (taskObject ts t).mapNumbers reread = taskObject ts
      { t with peakSpeedBytesPerSec := reread t.peakSpeedBytesPerSec } := by
  have hstring : ∀ a : Option Text, ReadAs reread (Json.optional Value.string a) ∧
      (Json.optional Value.string a).mapNumbers reread = Json.optional Value.string a :=
    fun a => readAs_optional fun x _ => ⟨.string x, rfl⟩
  have htime := readAs_optional (f := fun n => .string (ts.formatTimestamp n)) (a := t.startedAt) fun _ _ =>
    ⟨.string _, rfl⟩
  have hlimit := readAs_optional (f := Value.ofUint64) (a := t.taskRateLimitBytesPerSec)
    fun n hn => readAs_ofUint64 (h.inRange.rateLimit n hn)
  have hchunks : ∀ c ∈ t.chunks, _ := fun c hc => readAs_chunk (h.inRange.chunks c hc)
  have hfileSize := readAs_ofUint64 h.inRange.fileSize.le
  have hdownloaded := readAs_ofUint64 (Nat.mod_lt t.downloaded (Nat.two_pow_pos 64)).le
  have hthreads := readAs_ofUint64 h.inRange.requestedThreads.le
  have hmaxChunks := readAs_ofUint64 h.inRange.schedulerMaxChunks.le
  have hpriority := readAs_ofUint64 h.inRange.schedulerPriority.le
  have hfailed := readAs_ofUint64 h.inRange.failedChunks.le
  have hretries := readAs_ofUint64 h.inRange.persistedRetryCount.le
  constructor
  · apply readAs_objectOf
    simp only [List.forall_mem_cons, List.not_mem_nil, false_implies, implies_true, and_true]
    refine ⟨.string _, .string _, .string _, .string _, .string _, .string _, hfileSize.1, hdownloaded.1,
      .string _, .string _,
      htime.1, hthreads.1, (hstring _).1, (hstring _).1, (hstring _).1, (hstring _).1, (hstring _).1, hlimit.1,
      hmaxChunks.1, hpriority.1, readAs_number h.peakSpeed, hfailed.1, hretries.1, .array _ ?_⟩
    intro v hv
    obtain ⟨c, hc, rfl⟩ := List.mem_map.1 hv
    exact (hchunks c hc).1
  · have hmap : mapItems reread (t.chunks.map chunkToJson) = t.chunks.map chunkToJson := by
      rw [mapItems_eq, List.map_map]
      exact List.map_congr_left fun c hc => (hchunks c hc).2
    simp only [taskObject, mapNumbers_objectOf, List.map_cons, List.map_nil, Value.mapNumbers, hfileSize.2,
      hdownloaded.2, htime.2,
      hthreads.2, (hstring _).2, hlimit.2, hmaxChunks.2, hpriority.2, hfailed.2, hretries.2, hmap]

theorem mapError_ok {α : Type} {x : Except Exn α} {g : Exn → Exn} {a : α} (h : x.mapError g = .ok a) : x = .ok a := by
  cases x with
  | error e => cases h
  | ok b => exact h

/-- The rate limit `taskFromJson` takes from an object. -/
theorem taskFromObject_limit (h : taskFromObject ts (taskObject ts t) = .ok u) :
    u.taskRateLimitBytesPerSec = t.taskRateLimitBytesPerSec.map throughDouble := by
  have hfield : optionalField (taskObject ts t) (text "task_rate_limit_bytes_per_sec") (·.asUint64) =
      .ok (t.taskRateLimitBytesPerSec.map throughDouble) :=
    optionalField_objectOf (fun n _ => ⟨rfl, asUint64_throughDouble n⟩) rfl
  obtain ⟨id, -, h⟩ := bind_ok h
  obtain ⟨url, -, h⟩ := bind_ok h
  obtain ⟨fileName, -, h⟩ := bind_ok h
  obtain ⟨targetPath, -, h⟩ := bind_ok h
  obtain ⟨tempDir, -, h⟩ := bind_ok h
  obtain ⟨statusText, -, h⟩ := bind_ok h
  obtain ⟨status, -, h⟩ := bind_ok h
  obtain ⟨fileSize, -, h⟩ := bind_ok h
  obtain ⟨downloaded, -, h⟩ := bind_ok h
  obtain ⟨createdAt, -, h⟩ := bind_ok h
  obtain ⟨updatedAt, -, h⟩ := bind_ok h
  obtain ⟨startedAt, -, h⟩ := bind_ok h
  obtain ⟨lastError, -, h⟩ := bind_ok h
  obtain ⟨expectedSha256, -, h⟩ := bind_ok h
  obtain ⟨remoteEtag, -, h⟩ := bind_ok h
  obtain ⟨remoteLastModified, -, h⟩ := bind_ok h
  obtain ⟨finalUrl, -, h⟩ := bind_ok h
  obtain ⟨limit, hlimit, h⟩ := bind_ok h
  obtain ⟨schedulerMaxChunks, -, h⟩ := bind_ok h
  obtain ⟨schedulerPriority, -, h⟩ := bind_ok h
  obtain ⟨peakSpeedBytesPerSec, -, h⟩ := bind_ok h
  obtain ⟨failedChunks, -, h⟩ := bind_ok h
  obtain ⟨persistedRetryCount, -, h⟩ := bind_ok h
  obtain ⟨requestedThreads, -, h⟩ := bind_ok h
  obtain ⟨array, -, h⟩ := bind_ok h
  obtain ⟨items, -, h⟩ := bind_ok h
  obtain ⟨chunks, -, h⟩ := bind_ok h
  rw [hfield] at hlimit
  cases hlimit
  cases h
  rfl

theorem taskFromJson_limit (hstorable : t.Storable) (h : PersistenceStore.taskFromJson ts (taskToJson ts t) = .ok u) :
    u.taskRateLimitBytesPerSec = t.taskRateLimitBytesPerSec.map throughDouble := by
  obtain ⟨hread, hmap⟩ : ReadAs reread (taskObject ts t) ∧ _ := readAs_task hstorable
  obtain ⟨v, hv, hload⟩ := bind_ok (mapError_ok h)
  rw [taskToJson, parse_stringify_as hread 2, hmap] at hv
  rw [← Except.ok.inj hv] at hload
  have hlimit := taskFromObject_limit hload
  exact hlimit

theorem keptByTasks {n : Nat} (h : Binary64.Whole n) : KeptByTasks n := by
  intro ts t u hstorable hlimit hload
  rw [taskFromJson_limit hstorable hload, hlimit, Option.map_some, throughDouble_iff.2 h]

end Tasks

/-- A 64-bit number survives storage, as a JSON number, as a setting and as a rate limit, exactly
when it is a multiple of a power of two by at most `2 ^ 53`. -/
theorem stored_integers_iff (n : Nat) (hn : n < 2 ^ 64) :
    (KeptByJson n ∧ KeptByConfig n ∧ KeptByTasks n) ↔ Binary64.Whole n := by
  constructor
  · exact fun h => (keptByJson_iff hn).1 h.1
  · exact fun h => ⟨(keptByJson_iff hn).2 h, keptByConfig hn h, keptByTasks h⟩

theorem stored_integers_power : KeptByJson (2 ^ 53) ∧ KeptByConfig (2 ^ 53) ∧ KeptByTasks (2 ^ 53) :=
  (stored_integers_iff (2 ^ 53) (by norm_num)).2 (Binary64.whole_of_le le_rfl)

/-- The first whole number that no double holds comes back as the one before it. -/
theorem stored_integers_rounded : ¬ ∀ n < 2 ^ 64, KeptByJson n ∧ KeptByConfig n ∧ KeptByTasks n := by
  intro h
  have hkept := (keptByJson_iff (by norm_num)).1 (h (2 ^ 53 + 1) (by norm_num)).1
  have hback : throughDouble (2 ^ 53 + 1) = 2 ^ 53 := by decide +kernel
  rw [throughDouble_iff.2 hkept] at hback
  omega

end Cget
