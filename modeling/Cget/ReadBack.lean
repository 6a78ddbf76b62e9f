import Cget.Operations
import Cget.Reloadable
import Cget.TaskJson
/-!
# What is persisted is read back

The loader works on the text of a task, where every number is a double. Up to `2 ^ 53` a
number is its own double, so a version that fits is accepted and read back with the chunks
it was written with. Past that, a size comes back as another one.
-/

namespace Cget

open Json PersistenceStore

variable {ts : Timestamps} {t : DownloadTask} {c : Chunk}

/-! ## Versions that JSON holds -/

/-- The figures fit their types, and the peak speed is a whole number. -/
structure Figures.Typed (f : Figures) : Prop where
  rateLimit : ∀ n ∈ f.taskRateLimitBytesPerSec, n < 2 ^ 64
  peakSpeed : ∃ n : Nat, n ≤ 2 ^ 53 ∧ f.peakSpeedBytesPerSec = n
  schedulerMaxChunks : f.schedulerMaxChunks < 2 ^ 32
  schedulerPriority : f.schedulerPriority < 2 ^ 32
  failedChunks : f.failedChunks < 2 ^ 32
  persistedRetryCount : f.persistedRetryCount < 2 ^ 32
  requestedThreads : f.requestedThreads < 2 ^ 32

/-- Sizes a double holds, and figures that fit their types. -/
def exactBounds : Bounds where
  size := 2 ^ 53
  retries := 2 ^ 32 - 1
  figures := Figures.Typed

/-- The loader takes what is printed of the task. -/
def DownloadTask.Accepted (ts : Timestamps) (t : DownloadTask) : Prop :=
  ∃ u, PersistenceStore.taskFromJson ts (taskToJson ts t) = .ok u

theorem Chunk.FitsIn.exact (h : c.FitsIn exactBounds) : c.Exact := by
  have hindex : c.index < 2 ^ 53 := h.index
  have hstop : c.stop < 2 ^ 53 := h.stop
  have hretries : c.retryCount ≤ 2 ^ 32 - 1 := h.retryCount
  have hdownloaded := h.fits.2
  rw [Chunk.size_of_le h.fits.1] at hdownloaded
  have hle := h.fits.1
  exact ⟨hindex.le, by omega, hstop.le, by omega, by omega⟩

theorem DownloadTask.FitsIn.inRange (h : t.FitsIn exactBounds) : t.InRange where
  fileSize := lt_64_of_le h.fileSize
  rateLimit n hn := (h.figures.rateLimit n hn).le
  peakSpeed := by
    obtain ⟨n, hn, hp⟩ := h.figures.peakSpeed
    exact ⟨n, Binary64.whole_of_le hn, (lt_64_of_le hn).le, hp⟩
  schedulerMaxChunks := lt_64_of_lt_32 h.figures.schedulerMaxChunks
  schedulerPriority := lt_64_of_lt_32 h.figures.schedulerPriority
  failedChunks := lt_64_of_lt_32 h.figures.failedChunks
  persistedRetryCount := lt_64_of_lt_32 h.figures.persistedRetryCount
  requestedThreads := lt_64_of_lt_32 h.figures.requestedThreads
  chunks c hc := (h.chunks c hc).exact.inRange

theorem reread_chunks (h : ∀ c ∈ t.chunks, c.Exact) : (t.reread ts).chunks = t.chunks := by
  change t.chunks.map (·.reread) = t.chunks
  rw [List.map_congr_left fun c hc => (h c hc).reread_eq, List.map_id']

/-- A version that fits is accepted, as it was written. -/
theorem DownloadTask.FitsIn.accepted (ts : Timestamps) (h : t.FitsIn exactBounds) : t.Accepted ts := by
  have hall : (t.reread ts).chunks.all (·.acceptable) = true := by
    rw [reread_chunks fun c hc => (h.chunks c hc).exact]
    exact List.all_eq_true.2 fun c hc => (acceptable_iff c).2 (h.fits c hc)
  exact ⟨t.reread ts, by rw [taskFromJson_reread h.inRange, if_pos hall]⟩

/-! ## Runs -/

/-- If no server delivers a byte too many or names a size past `2 ^ 53`, and no pass starts a
chunk in a pause, the loader takes every text that a session of `download` or a run of the
queue writes. -/
theorem persisted_tasks_load (ts : Timestamps) (env : Env) (s : Session) (hs : s.world.log = [])
    (hfits : s.task.FitsIn exactBounds)
    (ho : env.Obeys exactBounds s.task.url) (r : QueueRun) (runnable : List DownloadTask) (w : World) (hw : w.log = [])
    (hids : (runnable.map (·.id)).Nodup)
    (hts : ∀ t ∈ runnable, t.FitsIn exactBounds ∧ (r.prepare t.id).Obeys exactBounds t.url ∧
      (r.finish t.id).Obeys exactBounds t.url)
    (hsafe : r.NoPausedStart runnable w) :
    SavesAre (·.Accepted ts) ((download env).run s).2.world.log ∧
    SavesAre (·.Accepted ts) ((runRunnable r runnable).run w).2.log := by
  have hV : ∀ t : DownloadTask, t.FitsIn exactBounds → t.Accepted ts := fun t h => h.accepted ts
  refine ⟨?_, runRunnable_sound hV (by simp [hw, SavesAre]) hids hts hsafe⟩
  refine (Prog.wp_const (I := fun s' : Session => SavesAre (·.Accepted ts) s'.world.log)).1 ?_
  exact Prog.wp_mono (download_sound hV ho s ⟨by simp [hs, SavesAre], hfits, rfl⟩) (fun _ _ h => h.saves)
    (fun _ _ h => h.saves) (fun _ h => h)

theorem bytewise_obeys : bytewiseEnv.Obeys exactBounds bytewiseTask.url := by
  refine ⟨bytewise_moderate, fun info hinfo => ?_, by decide⟩
  cases hinfo
  exact ⟨by decide, fun h => by cases h⟩

theorem bytewise_fits : bytewiseTask.FitsIn exactBounds :=
  ⟨⟨Nat.zero_le _, by constructor <;> first | exact ⟨0, Nat.zero_le _, rfl⟩ | decide⟩, List.forall_mem_nil _⟩

theorem persisted_tasks_load_bytewise :
    SavesAre (·.Accepted epochTimes) ((download bytewiseEnv).run { task := bytewiseTask }).2.world.log ∧
      SavesAre (·.Accepted epochTimes) ((runRunnable bytewiseRun [bytewiseTask]).run {}).2.log :=
  persisted_tasks_load _ _ _ rfl bytewise_fits bytewise_obeys _ _ _ rfl (by simp)
    (fun t ht => by
      obtain rfl := List.mem_singleton.1 ht
      exact ⟨bytewise_fits, bytewise_obeys, bytewise_obeys⟩)
    (by decide +kernel)

/-- A server that announces two bytes and delivers three. -/
def excessEnv : Env :=
  { bytewiseEnv with
    protocol :=
      { bytewiseEnv.protocol with
        fetchMetadata := fun _ => .ok { fileSize := 2 }
        downloadSingle := fun _ => { blocks := [{ data := [1, 2, 3] }] } } }

/-- The failure that this causes is written as a task that the loader rejects. -/
theorem excess_bytes_persisted :
    ¬ ∀ (ts : Timestamps) (env : Env) (s : Session), s.world.log = [] → s.task.FitsIn exactBounds →
      SavesAre (·.Accepted ts) ((download env).run s).2.world.log := by
  intro h
  have hsaved : .saved ((download excessEnv).run { task := bytewiseTask }).2.task ∈
      ((download excessEnv).run { task := bytewiseTask }).2.world.log := by decide +kernel
  obtain ⟨u, hu⟩ := h epochTimes excessEnv { task := bytewiseTask } rfl bytewise_fits _ hsaved
  have hin : ((download excessEnv).run { task := bytewiseTask }).2.task.InRange := by
    constructor
    all_goals try decide +kernel
    · exact ⟨0, Binary64.whole_of_le (Nat.zero_le _), Nat.zero_le _, by decide +kernel⟩
    · have hall : ∀ c ∈ ((download excessEnv).run { task := bytewiseTask }).2.task.chunks,
          c.index < 2 ^ 64 ∧ c.start < 2 ^ 64 ∧ c.stop < 2 ^ 64 ∧ c.downloaded < 2 ^ 64 ∧ c.retryCount < 2 ^ 64 := by
        decide +kernel
      intro c hc
      obtain ⟨h1, h2, h3, h4, h5⟩ := hall c hc
      exact ⟨h1, h2, h3, h4, h5⟩
  have hbad : (((download excessEnv).run { task := bytewiseTask }).2.task.reread epochTimes).chunks.all
    (·.acceptable) = false := by
    decide +kernel
  rw [taskFromJson_reread hin, hbad] at hu
  cases hu

/-! ## Tilings -/

theorem Tiles.exact {start size : Nat} {cs : List Chunk} (h : Tiles start cs size) (hsize : size ≤ 2 ^ 53) :
    cs.map (fun c => (c.reread.start, c.reread.stop)) = cs.map (fun c => (c.start, c.stop)) := by
  refine List.map_congr_left fun c hc => ?_
  have hrange := h.mem.2 c hc
  have hstart : throughDouble c.start = c.start := throughDouble_eq (by omega)
  have hstop : throughDouble c.stop = c.stop := throughDouble_eq (by omega)
  exact Prod.ext hstart hstop

/-- The chunks that the text of a version holds, if its size is one a double holds. -/
theorem DownloadTask.Tiled.reread (h : t.Tiled) (hsize : t.fileSize ≤ 2 ^ 53) : (t.reread ts).Tiled := by
  rcases h with hnone | ⟨htiles, hindex⟩
  · left
    change t.chunks.map (·.reread) = []
    rw [hnone, List.map_nil]
  · right
    have hlength := htiles.length_le
    constructor
    · change Tiles 0 (t.chunks.map (·.reread)) (throughDouble t.fileSize)
      rw [throughDouble_eq hsize]
      refine (tiles_congr ?_).1 htiles
      rw [List.map_map]
      exact (htiles.exact hsize).symm
    · change (t.chunks.map (·.reread)).map (·.index) = List.range (t.chunks.map (·.reread)).length
      rw [List.map_map, List.length_map, ← hindex]
      refine List.map_congr_left fun c hc => ?_
      have hlt : c.index < t.chunks.length := List.mem_range.1 (hindex ▸ List.mem_map_of_mem hc)
      exact throughDouble_eq (by omega)

/-- Whatever the servers answer, whatever fails and whenever the process dies: as long as no
version has a size past `2 ^ 53`, the chunks of every version tile its file, as it was
written and as its text holds it. -/
theorem persisted_tasks_tile (ts : Timestamps) (parts out : Path → Option Bytes) (ops : List Operation)
    (hsizes : SavesAre (·.fileSize ≤ 2 ^ 53) (runOperations (.fresh parts out) ops).log) :
    EachVersion (fun t => t.Tiled ∧ (t.reread ts).Tiled) (runOperations (.fresh parts out) ops) := by
  have hfiled := run_filed parts out ops
  have htiled : SavesAre (fun t => t.Tiled ∧ (t.reread ts).Tiled) (runOperations (.fresh parts out) ops).log := by
    intro t ht
    have htiled : t.Tiled := (hfiled.saved t ht).1.tiled
    exact ⟨htiled, htiled.reread (hsizes t ht)⟩
  exact ⟨htiled, fun id t ht => htiled t (hfiled.version ht).2⟩

/-- A server that announces `size` bytes with ranges, and delivers none. -/
def announcingEnv (size : Nat) : Env where
  protocol :=
    { fetchMetadata := fun _ => .ok { fileSize := size, supportsRange := true }
      downloadRange := fun _ _ _ _ => { result := .error (.cget .networkError (text "offline")) }
      downloadSingle := fun _ => {} }
  turns := List.replicate 8 0 ++ List.replicate 8 1

def announcedRequest : CreateRequest where
  id := text "a"
  url := text "http://host/f"
  fileName := text "f"
  targetPath := text "/out/f"
  requestedThreads := 2

def announcedRun (size : Nat) : List Operation :=
  [.create (announcingEnv size) announcedRequest, .download (announcingEnv size) (text "a")]

theorem persisted_tasks_tile_largest :
    EachVersion (fun t => t.Tiled ∧ (t.reread epochTimes).Tiled)
      (runOperations (.fresh (fun _ => none) fun _ => none) (announcedRun (2 ^ 53))) :=
  persisted_tasks_tile epochTimes _ _ _ (by decide +kernel)

/-- The size `2 ^ 53 + 1` comes back as the one before it, and the last chunk ends past the file. -/
theorem rounded_size_tears :
    ¬ ∀ (ts : Timestamps) (parts out : Path → Option Bytes) (ops : List Operation),
      EachVersion (fun t => (t.reread ts).Tiled) (runOperations (.fresh parts out) ops) := by
  intro h
  have hall : SavesAre (fun t => (t.reread epochTimes).Tiled)
      (runOperations (.fresh (fun _ => none) fun _ => none) (announcedRun (2 ^ 53 + 1))).log := (h epochTimes _ _ _).1
  have hbad : ¬ SavesAre (fun t => (t.reread epochTimes).Tiled)
      (runOperations (.fresh (fun _ => none) fun _ => none) (announcedRun (2 ^ 53 + 1))).log := by decide +kernel
  exact hbad hall

end Cget
