import Cget.Frame
import Cget.Ownership
import Cget.Pool
import Mathlib.Algebra.Order.BigOperators.Group.List
/-!
# What is persisted fits

The loader rejects a chunk that counts more bytes than it has. The counters are bumped by
the callbacks of a transfer before anything is checked, so a server that delivers more than
it was asked for, or announced, makes the next persist write a task that does not load. If
no transfer does, and no chunk has two workers, every version that is ever written fits: no
chunk counts more than its size, and no number passes the bounds of what the run began with
and the server announced.
-/

namespace Cget

open Prog SchedState

variable {env : Env} {envs : TaskId → Env} {s : Session}

/-! ## Readable tasks -/

/-- What the loader checks of a chunk. -/
def Chunk.Fits (c : Chunk) : Prop := c.start ≤ c.stop ∧ c.downloaded ≤ c.size

def DownloadTask.Fits (t : DownloadTask) : Prop := ∀ c ∈ t.chunks, c.Fits

/-- If it is a save, the text loads. -/
def Event.loads : Event → Prop
  | .saved t => taskFromJson (.written t) = some t
  | _ => True

instance Event.decideLoads : DecidablePred Event.loads
  | .saved t => inferInstanceAs (Decidable (taskFromJson (.written t) = some t))
  | .fetched _ _ | .requested _ _ | .assigned _ _ => isTrue trivial

/-- Every text written so far loads. -/
def SavesLoad (log : List Event) : Prop := ∀ e ∈ log, e.loads

instance {log : List Event} : Decidable (SavesLoad log) := inferInstanceAs (Decidable (∀ e ∈ log, e.loads))

/-- The server never delivers more bytes than it is asked for, or has announced. -/
def Moderate (p : Protocol) (url : Text) : Prop :=
  (∀ start stop n, start ≤ stop → (p.downloadRange url start stop n).bytes.length ≤ stop + 1 - start) ∧
    ∀ info, p.fetchMetadata url = .ok info → info.fileSize ≠ 0 → (p.downloadSingle url).bytes.length ≤ info.fileSize

theorem DownloadTask.Fits.loads {t : DownloadTask} (h : t.Fits) : (Event.saved t).loads := taskFromJson_written h

theorem SavesLoad.quiet {log : List Event} {e : Event} (h : SavesLoad log) (he : e.loads) : SavesLoad (e :: log) :=
  List.forall_mem_cons.2 ⟨he, h⟩

/-! ## Bounds -/

/-- Bounds on the numbers of a task. -/
structure Bounds where
  size : Nat
  retries : Nat
  figures : Figures → Prop

/-- The chunk fits, and its numbers stay within the bounds. -/
structure Chunk.FitsIn (b : Bounds) (c : Chunk) : Prop where
  fits : c.Fits
  index : c.index < b.size
  stop : c.stop < b.size
  retryCount : c.retryCount ≤ b.retries

/-- What a task has besides its chunks stays within the bounds. -/
structure DownloadTask.Bounded (b : Bounds) (t : DownloadTask) : Prop where
  fileSize : t.fileSize ≤ b.size
  figures : b.figures t.figures

structure DownloadTask.FitsIn (b : Bounds) (t : DownloadTask) : Prop extends t.Bounded b where
  chunks : ∀ c ∈ t.chunks, c.FitsIn b

/-- The server delivers no byte too many, what it announces or sends unannounced stays
within the bounds, and so do the attempts. -/
structure Env.Obeys (b : Bounds) (env : Env) (url : Text) : Prop where
  moderate : Moderate env.protocol url
  announced : ∀ info, env.protocol.fetchMetadata url = .ok info →
    info.fileSize ≤ b.size ∧ (info.fileSize = 0 → (env.protocol.downloadSingle url).bytes.length ≤ b.size)
  retries : env.maxRetries ≤ b.retries

variable {b : Bounds}

theorem DownloadTask.FitsIn.fits {t : DownloadTask} (h : t.FitsIn b) : t.Fits := fun c hc => (h.chunks c hc).fits

theorem DownloadTask.Bounded.congr {t t' : DownloadTask} (h : t.Bounded b) (hsize : t'.fileSize = t.fileSize)
    (hfigures : t'.figures = t.figures) : t'.Bounded b :=
    ⟨by rw [hsize]; exact h.fileSize, by rw [hfigures]; exact h.figures⟩

theorem DownloadTask.Bounded.workedOn {t t' : DownloadTask} (h : t.Bounded b) (hw : t.WorkedOn t') : t'.Bounded b := by
  obtain ⟨_, _, _, _, _, rfl⟩ := hw
  exact h.congr rfl rfl

/-- A change of a task that leaves all of this alone. -/
theorem DownloadTask.FitsIn.congr {t t' : DownloadTask} (h : t.FitsIn b) (hchunks : t'.chunks = t.chunks)
    (hsize : t'.fileSize = t.fileSize) (hfigures : t'.figures = t.figures) : t'.FitsIn b :=
  ⟨h.toBounded.congr hsize hfigures, by rw [hchunks]; exact h.chunks⟩

/-- Everything written so far is as `V` says. -/
def SavesAre (V : DownloadTask → Prop) (log : List Event) : Prop := ∀ t, .saved t ∈ log → V t

instance SavesAre.decide {V : DownloadTask → Prop} [DecidablePred V] : ∀ log : List Event, Decidable (SavesAre V log)
  | [] => isTrue (by simp [SavesAre])
  | .saved t :: log =>
    have : Decidable (SavesAre V log) := SavesAre.decide log
    decidable_of_iff (V t ∧ SavesAre V log) (by simp [SavesAre])
  | .fetched _ _ :: log | .requested _ _ :: log | .assigned _ _ :: log =>
    have : Decidable (SavesAre V log) := SavesAre.decide log
    decidable_of_iff (SavesAre V log) (by simp [SavesAre])

theorem SavesAre.quiet {V : DownloadTask → Prop} {log : List Event} {e : Event} (h : SavesAre V log)
    (he : ∀ t, e = .saved t → V t) : SavesAre V (e :: log) := by
  intro t ht
  rcases List.mem_cons.1 ht with heq | ht
  · exact he t heq.symm
  · exact h t ht

theorem savesLoad_iff {log : List Event} : SavesLoad log ↔ SavesAre (fun t => (Event.saved t).loads) log := by
  constructor
  · exact fun h t ht => h _ ht
  · intro h e he
    cases e with
    | saved t => exact h t he
    | _ => trivial

theorem plan_fitsIn {hardware fileSize requestedThreads : Nat} (h : fileSize ≤ b.size) :
    ∀ c ∈ ChunkPlanner.plan hardware fileSize requestedThreads, c.FitsIn b := by
  intro c hc
  obtain ⟨hzero, -, -⟩ := ChunkPlanner.plan_fresh _ _ _ c hc
  have hrange := (ChunkPlanner.plan_tiles hardware fileSize requestedThreads).mem.2 c hc
  obtain ⟨hindex, hretries⟩ := ChunkPlanner.plan_counts _ _ _ c hc
  exact ⟨⟨hrange.2.1, by omega⟩, by omega, by omega, by omega⟩

/-! ## Chunk workers -/

/-- The counter of a chunk leaves room for what its worker has still to receive. -/
def Counted (c : Chunk) : WorkerPc → Prop
  | .opening _ start | .starting _ start | .announcing _ start | .requesting _ start =>
    start = c.start + c.downloaded ∧ c.downloaded < c.size
  | .receiving _ bs _ | .flushing _ bs _ => c.downloaded + (bs.flatMap (·.data)).length ≤ c.size
  | _ => True

theorem persistMove_counted {c : Chunk} {part : Option Bytes} {f : Fault} {pc next failed : WorkerPc}
    (h : c.Fits) (hpc : Counted c pc) (hnext : Counted c next) (hfailed : Counted c failed) :
    (persistMove f c part pc next failed).chunk.Fits ∧
      Counted (persistMove f c part pc next failed).chunk (persistMove f c part pc next failed).next := by
  cases f with
  | ok => exact ⟨h, hnext⟩
  | fail k => exact ⟨h, hfailed⟩
  | crash k => exact ⟨h, hpc⟩

/-- A step of a worker counts no byte too many. -/
theorem workerMove_counted {url : Text} {path : Except Exn Path} {f g : Fault} {c : Chunk} {part : Option Bytes}
    {pc : WorkerPc} (hm : Moderate env.protocol url) (h : c.Fits) (hpc : Counted c pc) :
    (workerMove env url path f g c part pc).chunk.Fits ∧
      Counted (workerMove env url path f g c part pc).chunk (workerMove env url path f g c part pc).next := by
  obtain ⟨hle, hd⟩ := h
  cases pc with
  | attempt n =>
    cases path with
    | error e => exact ⟨⟨hle, hd⟩, trivial⟩
    | ok p =>
      simp only [workerMove]
      split
      · cases f with
        | ok => exact ⟨⟨hle, le_refl _⟩, trivial⟩
        | fail k => exact ⟨⟨hle, hd⟩, trivial⟩
        | crash k => exact ⟨⟨hle, hd⟩, trivial⟩
      · split
        · exact ⟨⟨hle, show fileSize part ≤ c.size by omega⟩, trivial⟩
        · exact ⟨⟨hle, show fileSize part ≤ c.size by omega⟩, rfl, show fileSize part < c.size by omega⟩
  | opening n start =>
    cases f with
    | ok => exact ⟨⟨hle, hd⟩, hpc⟩
    | fail k => exact ⟨⟨hle, hd⟩, trivial⟩
    | crash k => exact ⟨⟨hle, hd⟩, hpc⟩
  | starting n start => exact ⟨⟨hle, hd⟩, hpc⟩
  | announcing n start => exact persistMove_counted ⟨hle, hd⟩ hpc hpc trivial
  | requesting n start =>
    obtain ⟨rfl, hlt⟩ := hpc
    refine ⟨⟨hle, hd⟩, ?_⟩
    have hsize := Chunk.size_of_le hle
    have := hm.1 (c.start + c.downloaded) c.stop n (by omega)
    simp only [workerMove, Counted]
    change c.downloaded + (env.protocol.downloadRange url (c.start + c.downloaded) c.stop n).bytes.length ≤ c.size
    omega
  | receiving n blocks result =>
    cases blocks with
    | nil => cases result <;> exact ⟨⟨hle, hd⟩, trivial⟩
    | cons b bs =>
      simp only [Counted, List.flatMap_cons, List.length_append] at hpc
      cases f with
      | ok =>
        have hroom : Counted { c with downloaded := c.downloaded + b.data.length } (.receiving n bs result) := by
          change c.downloaded + b.data.length + (bs.flatMap (·.data)).length ≤ c.size
          omega
        simp only [workerMove]
        exact ⟨⟨hle, show c.downloaded + b.data.length ≤ c.size by omega⟩, by split <;> exact hroom⟩
      | fail k => exact ⟨⟨hle, hd⟩, trivial⟩
      | crash k =>
        refine ⟨⟨hle, hd⟩, ?_⟩
        simp only [workerMove, Counted, List.flatMap_cons, List.length_append]
        omega
  | flushing n blocks result => exact persistMove_counted ⟨hle, hd⟩ hpc hpc trivial
  | closing n =>
    simp only [workerMove]
    split
    · exact ⟨⟨hle, hd⟩, trivial⟩
    · exact ⟨⟨hle, le_refl _⟩, trivial⟩
  | storing n => exact persistMove_counted ⟨hle, hd⟩ trivial trivial trivial
  | caught n e =>
    cases e with
    | other what => exact ⟨⟨hle, hd⟩, trivial⟩
    | cget code what =>
      simp only [workerMove]
      split <;> exact ⟨⟨hle, hd⟩, trivial⟩
  | recording n => exact persistMove_counted ⟨hle, hd⟩ trivial trivial trivial
  | sleeping n =>
    refine ⟨⟨hle, hd⟩, ?_⟩
    simp only [workerMove]
    split <;> trivial
  | returned => exact ⟨⟨hle, hd⟩, trivial⟩
  | threw e => exact ⟨⟨hle, hd⟩, trivial⟩

/-- The attempts that are recorded are those that were made. -/
theorem workerMove_retries {url : Text} {path : Except Exn Path} {f g : Fault} {c : Chunk} {part : Option Bytes}
    {pc : WorkerPc}
    {n : Nat} (hmax : env.maxRetries ≤ n) (h : c.retryCount ≤ n) (hin : pc.within env.maxRetries) :
    (workerMove env url path f g c part pc).chunk.retryCount ≤ n := by
  cases pc with
  | attempt k =>
    cases path with
    | error e => exact h
    | ok p =>
      simp only [workerMove]
      split
      · cases f <;> exact h
      · split <;> exact h
  | opening k start => cases f <;> exact h
  | announcing k start => cases g <;> exact h
  | receiving k blocks result =>
    cases blocks with
    | nil => cases result <;> exact h
    | cons b bs => cases f <;> exact h
  | flushing k blocks result => cases g <;> exact h
  | closing k =>
    simp only [workerMove]
    split <;> exact h
  | storing k => cases g <;> exact h
  | caught k e =>
    have hk : k ≤ env.maxRetries := hin
    cases e with
    | other what => exact h
    | cget code what =>
      simp only [workerMove]
      split
      · exact hk.trans hmax
      · rename_i hretry
        simp only [Bool.or_eq_true, decide_eq_true_eq, not_or] at hretry
        have hlt : k < env.maxRetries := lt_of_le_of_ne hk hretry.2
        exact Nat.succ_le_of_lt (hlt.trans_le hmax)
  | recording k => cases g <;> exact h
  | _ => exact h

/-- Chunks of a moderate server that fit, with what their workers still receive. -/
def fitRule (b : Bounds) (envs : TaskId → Env) : ChunkRule envs where
  sees := False
  fails := True
  idle t _ c _ := c.FitsIn b ∧ (envs t.id).Obeys b t.url
  busy t _ c _ pc := c.FitsIn b ∧ (envs t.id).Obeys b t.url ∧ Counted c pc ∧ pc.within (envs t.id).maxRetries
  idle_frame ht _ h := ⟨h.1, by rw [ht.1, ht.2.1]; exact h.2⟩
  busy_frame ht _ h := ⟨h.1, by rw [ht.1, ht.2.1]; exact h.2.1, h.2.2.1, by rw [ht.1]; exact h.2.2.2⟩
  start h _ _ := ⟨⟨h.1, h.2, trivial, Nat.zero_le _⟩, ⟨h.1.fits, h.1.index, h.1.stop, h.1.retryCount⟩, h.2, trivial,
    Nat.zero_le _⟩
  move n h hran := by
    obtain ⟨hfits, hobeys, hcounted, hin⟩ := h
    obtain ⟨hfits', hcounted'⟩ := workerMove_counted hobeys.moderate hfits.fits hcounted
    obtain ⟨hindex, -, hstop, -⟩ := workerMove_place
    refine ⟨⟨hfits', ?_, ?_, workerMove_retries hobeys.retries hfits.retryCount hin⟩, hobeys, hcounted',
      workerMove_within hin hran⟩
    · exact hindex.trans_lt hfits.index
    · exact hstop.trans_lt hfits.stop
  finish h := ⟨h.1, h.2.1⟩
  fail _ _ _ _ _ _ h := ⟨⟨h.1, h.2.1⟩, ⟨h.1.fits, h.1.index, h.1.stop, h.1.retryCount⟩, h.2.1⟩

theorem fits_of_holds {t : DownloadTask} {d : Disk} (h : (fitRule b envs).Holds t d) : ∀ c ∈ t.chunks, c.FitsIn b := by
  intro c hc
  obtain ⟨j, hj⟩ := List.getElem?_of_mem hc
  rcases h j c hj with h | ⟨pc, h⟩ <;> exact h.1

/-! ## The transfers of `download` -/

section Transfers

variable {V : DownloadTask → Prop} (hV : ∀ t : DownloadTask, t.FitsIn b → V t) {u : Text} {p : Path}
  {info : RemoteFileInfo} {n m total : Nat}

/-- All that was written is as `V` says, and the task as it is fits. -/
structure Sound (V : DownloadTask → Prop) (b : Bounds) (u : Text) (s : Session) : Prop where
  saves : SavesAre V s.world.log
  fits : s.task.FitsIn b
  url : s.task.url = u

/-- When the process is gone, only what was written matters. -/
def Stopped (V : DownloadTask → Prop) (s : Session) : Prop := SavesAre V s.world.log

include hV

theorem sound_tolerates : ToleratesSaves (Sound V b u) where
  tick _ _ h := ⟨h.saves, h.fits, h.url⟩
  task _ _ h ht := ⟨h.saves, h.fits.congr ht.2.1 ht.2.2.1 ht.2.2.2, ht.1.2.1.trans h.url⟩
  status _ _ h _ := ⟨h.saves.quiet (by simp), h.fits.congr rfl rfl rfl, h.url⟩
  saved _ h := ⟨h.saves.quiet (by rintro _ ⟨⟩; exact hV _ h.fits), h.fits, h.url⟩

omit hV in
theorem sound_or {α : Type} {m : EngineM α} (h : Keeps (Sound V b u) m) : KeepsOr (Stopped V) (Sound V b u) m :=
  h.or fun _ h => h.saves

omit hV in
/-- Progress that leaves the numbers in order. -/
theorem sound_change {f : DownloadTask → DownloadTask} (hurl : ∀ t : DownloadTask, (f t).url = t.url)
    (hf : ∀ t : DownloadTask, t.FitsIn b → (f t).FitsIn b) : KeepsOr (Stopped V) (Sound V b u) (updateTask f) :=
  fun _ hs => ⟨hs.saves, hf _ hs.fits, (hurl _).trans hs.url⟩

/-- Every chunk has room for `n` more bytes. -/
def Room (n : Nat) (t : DownloadTask) : Prop := ∀ c ∈ t.chunks, c.start ≤ c.stop ∧ c.downloaded + n ≤ c.size

omit hV in
theorem Room.fits {t : DownloadTask} (h : Room n t) : t.Fits := fun c hc => ⟨(h c hc).1, by have := (h c hc).2; omega⟩

omit hV in
theorem Room.count {t : DownloadTask} (h : Room (m + n) t) : Room n (countSingle t m) := by
  intro c hc
  cases ht : t.chunks with
  | nil => simp [countSingle, ht] at hc
  | cons d ds =>
    simp only [countSingle, ht, List.mem_cons] at hc
    rcases hc with rfl | hc
    · have hd := h d (by simp [ht])
      exact ⟨hd.1, show d.downloaded + m + n ≤ d.size by omega⟩
    · have hd := h c (by simp [ht, hc])
      exact ⟨hd.1, by omega⟩

/-- The chunks of a single stream before it is complete: their places and attempts. -/
def Streamed (info : RemoteFileInfo) (t : DownloadTask) : Prop :=
  t.chunks.map (fun c => (c.index, c.start, c.stop, c.retryCount)) =
    (singleChunks info).map (fun c => (c.index, c.start, c.stop, c.retryCount))

omit hV in
/-- They stay within the bounds if the size does. -/
theorem Streamed.fitsIn {t : DownloadTask} (h : Streamed info t) (hroom : Room n t) (hbounded : t.Bounded b)
    (hsize : info.fileSize ≤ b.size) : t.FitsIn b := by
  refine ⟨hbounded, fun c hc => ?_⟩
  have hmem : (c.index, c.start, c.stop, c.retryCount) ∈ t.chunks.map
      (fun c => (c.index, c.start, c.stop, c.retryCount)) :=
    List.mem_map_of_mem hc
  rw [h, singleChunks] at hmem
  split at hmem
  · simp only [List.map_cons, List.map_nil, List.mem_singleton, Prod.mk.injEq] at hmem
    obtain ⟨hindex, -, hstop, hretries⟩ := hmem
    exact ⟨hroom.fits c hc, by omega, by omega, by omega⟩
  · simp at hmem

/-- A single stream of metadata `info` into the part file `p`, with `n` bytes still to come of `total`. -/
structure Receiving (V : DownloadTask → Prop) (b : Bounds) (u : Text) (p : Path) (info : RemoteFileInfo) (total n : Nat)
    (s : Session) :
    Prop where
  saves : SavesAre V s.world.log
  room : Room n s.task
  url : s.task.url = u
  streamed : Streamed info s.task
  bounded : s.task.Bounded b
  part : fileSize (s.world.disk.parts p) + n ≤ total

variable (hsize : info.fileSize ≤ b.size)

omit hV in
include hsize in
theorem Receiving.sound (h : Receiving V b u p info total n s) : Sound V b u s :=
  ⟨h.saves, h.streamed.fitsIn h.room h.bounded hsize, h.url⟩

include hsize

theorem receiving_tolerates : ToleratesQuiet (Receiving V b u p info total n) where
  tick _ _ h := ⟨h.saves, h.room, h.url, h.streamed, h.bounded, h.part⟩
  task _ _ h ht := ⟨h.saves, by rw [Room, ht.2.1]; exact h.room, ht.1.2.1.trans h.url,
    by rw [Streamed, ht.2.1]; exact h.streamed, h.bounded.congr ht.2.2.1 ht.2.2.2, h.part⟩
  saved _ h := ⟨h.saves.quiet (by rintro _ ⟨⟩; exact hV _ (h.sound hsize).fits), h.room, h.url, h.streamed,
    h.bounded, h.part⟩

theorem receiveSingle_sound (p : Path) : ∀ (blocks : List Block) (s : Session),
    Receiving V b u p info total (blocks.flatMap (·.data)).length s →
    wp (receiveSingle env p blocks) (fun _ => Receiving V b u p info total 0) (fun _ => Sound V b u) (Stopped V) s
  | [], _, h => h
  | a :: as, s, h => by
    have hlen : ((a :: as).flatMap (·.data)).length = a.data.length + (as.flatMap (·.data)).length := by simp
    rw [hlen] at h
    have hsound := h.sound hsize
    unfold receiveSingle
    rw [wp_bind, onWorld, wp_focus]
    refine wp_fileOp (fun _ => ?_) (fun _ _ => ⟨hsound.saves, hsound.fits, hsound.url⟩) (fun _ _ => hsound.saves)
    simp only [updateTask, wp_bind, wp_modify]
    have hpart := h.part
    have hgrown : fileSize ((s.world.disk.appendPart p a.data).parts p) =
        fileSize (s.world.disk.parts p) + a.data.length := by
      simp [Disk.appendPart, fileSize]
    refine wp_mono ((receiving_tolerates hV hsize).flushTask _
      (I := Receiving V b u p info total (as.flatMap (·.data)).length)
      ⟨h.saves, h.room.count, h.url, (countSingle_map _ (fun _ _ => rfl) _ _).trans h.streamed,
        h.bounded.congr rfl rfl, ?_⟩) ?_
      (fun _ _ h => h.sound hsize) (fun _ h => h.saves)
    · dsimp only
      omega
    · exact fun _ s₂ h₂ => receiveSingle_sound p as s₂ h₂

omit hV hsize in
theorem singleChunks_room (h : info.fileSize ≠ 0 → n ≤ info.fileSize) (t : DownloadTask) :
    Room n { t with chunks := singleChunks info, downloaded := 0 } := by
  intro c hc
  simp only [singleChunks] at hc
  split at hc
  · obtain rfl := List.mem_singleton.1 hc
    have := h (by omega)
    refine ⟨Nat.zero_le _, ?_⟩
    rw [Chunk.size_whole (n := info.fileSize) ‹_› rfl rfl]
    change 0 + n ≤ info.fileSize
    omega
  · cases hc

omit hV in
/-- The task of a complete single stream fits. -/
theorem singleDone_fitsIn {t : DownloadTask} {downloaded : Nat} (hstreamed : Streamed info t) (hbounded : t.Bounded b)
    (hdone : ¬ (info.fileSize ≠ 0 ∧ downloaded ≠ info.fileSize)) (hle : info.fileSize = 0 → downloaded ≤ b.size) :
    (singleDone t info downloaded).FitsIn b := by
  have hdownloaded : downloaded ≤ b.size := by
    by_cases hzero : info.fileSize = 0
    · exact hle hzero
    · have : downloaded = info.fileSize := by
        by_contra hne
        exact hdone ⟨hzero, hne⟩
      omega
  refine ⟨⟨?_, hbounded.figures⟩, ?_⟩
  · simp only [singleDone]
    split <;> omega
  unfold Streamed singleChunks at hstreamed
  intro c hc
  cases ht : t.chunks with
  | nil =>
    simp only [singleDone, ht] at hc
    split at hc
    · obtain rfl := List.mem_singleton.1 hc
      refine ⟨⟨Nat.zero_le _, by rw [Chunk.size_whole (n := downloaded) ‹_› rfl rfl]⟩, ?_, ?_, Nat.zero_le _⟩
      · exact Nat.lt_of_lt_of_le ‹_› hdownloaded
      · change downloaded - 1 < b.size
        omega
    · cases hc
  | cons d ds =>
    rw [ht] at hstreamed
    split at hstreamed
    · simp only [List.map_cons, List.map_nil, List.cons.injEq, Prod.mk.injEq, List.map_eq_nil_iff] at hstreamed
      obtain ⟨⟨hindex, hstart, hstop, hretries⟩, rfl⟩ := hstreamed
      simp only [singleDone, ht, List.mem_singleton] at hc
      subst hc
      have hle : d.start ≤ d.stop := by omega
      refine ⟨⟨hle, ?_⟩, show d.index < b.size by omega, show d.stop < b.size by omega,
        show d.retryCount ≤ b.retries by omega⟩
      have hd := Chunk.size_of_le hle
      change downloaded ≤ d.size
      omega
    · simp at hstreamed

omit hsize in
theorem transferSingleStream_sound (ho : env.Obeys b u) (hinfo : env.protocol.fetchMetadata u = .ok info) :
    KeepsOr (Stopped V) (Sound V b u) (transferSingleStream env info) := by
  have hsize := (ho.announced info hinfo).1
  have hkeeps := sound_tolerates (u := u) hV
  unfold transferSingleStream
  refine (sound_or hkeeps.ensureTaskTempDir).bind fun _ => KeepsOr.get_bind fun s₀ => ?_
  refine (sound_or (hkeeps.truncateFile fun _ h => ⟨h.saves, h.fits, h.url⟩)).bind fun _ s hs => ?_
  have hroom : Room (env.protocol.downloadSingle u).bytes.length
      { s.task with chunks := singleChunks info, downloaded := 0 } :=
    singleChunks_room (ho.moderate.2 info hinfo) _
  have hbounded : ({ s.task with chunks := singleChunks info, downloaded := 0 } : DownloadTask).Bounded b :=
    hs.fits.toBounded.congr rfl rfl
  -- until the part file is emptied, nothing is known of its length
  have hstart : Receiving V b u (joinPath s₀.task.tempDir singlePart) info _
      (env.protocol.downloadSingle u).bytes.length
      { s with task := { s.task with chunks := singleChunks info, downloaded := 0 } } :=
    ⟨hs.saves, hroom, hs.url, rfl, hbounded, le_refl _⟩
  simp only [updateTask, wp_bind, wp_modify, wp_get]
  refine wp_mono ((receiving_tolerates hV hsize).persistTask _ hstart) ?_ (fun _ _ h => h.sound hsize)
    (fun _ h => h.saves)
  intro _ s₁ h₁
  have hsound₁ := h₁.sound hsize
  rw [onWorld, wp_focus]
  refine wp_fileOp (fun _ => ?_) (fun _ _ => ⟨hsound₁.saves, hsound₁.fits, hsound₁.url⟩) (fun _ _ => hsound₁.saves)
  have hopened : Receiving V b u (joinPath s₀.task.tempDir singlePart) info (env.protocol.downloadSingle u).bytes.length
      (env.protocol.downloadSingle u).bytes.length
      { s₁ with world := { s₁.world with
        disk := s₁.world.disk.setPart (joinPath s₀.task.tempDir singlePart) (some []), tick := s₁.world.tick + 1 } } :=
    ⟨h₁.saves, h₁.room, h₁.url, h₁.streamed, h₁.bounded, by simp⟩
  dsimp only
  rw [h₁.url]
  refine wp_mono (receiveSingle_sound hV hsize _ _ _
    ⟨hopened.saves.quiet (by simp), hopened.room, hopened.url, hopened.streamed, hopened.bounded, hopened.part⟩) ?_
    (fun _ _ h => h) (fun _ h => h)
  intro _ s₃ h₃
  have hsound₃ := h₃.sound hsize
  cases (env.protocol.downloadSingle u).result with
  | error e => exact hsound₃
  | ok _ =>
    simp only [wp_bind, wp_get, wp_ite, wp_throw, wp_modify]
    split
    · exact hsound₃
    · refine ⟨h₃.saves, singleDone_fitsIn hsize h₃.streamed h₃.bounded ‹_› fun hzero => ?_, h₃.url⟩
      exact h₃.part.trans ((ho.announced info hinfo).2 hzero)

omit hsize

/-- What a step of a worker writes fits, if the task then does. -/
theorem savesAre_stepped {j : Nat} {c : Chunk} {pc : WorkerPc} (h : SavesAre V s.world.log)
    (hfits : (s.stepped env j c pc).task.FitsIn b) : SavesAre V (s.stepped env j c pc).world.log := by
  intro t ht
  rcases stepped_log ht with ht | heq | hquiet
  · exact h t ht
  · cases heq
    exact hV _ hfits
  · exact absurd rfl (hquiet t)

theorem fit_pool : PoolInvariant (fitRule b fun _ => env)
    (fun s => SavesAre V s.world.log ∧ s.task.url = u ∧ s.task.Bounded b) (Stopped V) where
  step s j c pc _ hg hholds _ := by
    have hbounded : (s.stepped env j c pc).task.Bounded b := hg.2.2.workedOn stepped_workedOn
    exact ⟨savesAre_stepped hV hg.1 ⟨hbounded, fits_of_holds hholds⟩, stepped_same.2.1.trans hg.2.1, hbounded⟩
  crash s j c pc _ _ hg _ _ hcr := by
    rw [Stopped, stepped_crashed hcr]
    exact hg.1
  ends _ _ h _ := h.1
  unseen h := absurd trivial h

theorem runPool_sound {workers : List PoolWorker} {s : Session} (h : Sound V b u s)
    (hp : Pooled (fitRule b fun _ => env) { workers } s) :
    wp (runPool env workers) (fun _ => Sound V b u) (fun _ => Sound V b u) (Stopped V) s := by
  refine wp_mono (wp_runPool (fit_pool hV) hp ⟨h.saves, h.url, h.fits.toBounded⟩) ?_ (fun _ _ h => h.elim)
    (fun _ h => h)
  intro errors s' h'
  obtain ⟨hidle, hsaves, hu, hbounded⟩ := h' fun _ => trivial
  refine ⟨hsaves, ⟨hbounded, fun c hc => ?_⟩, hu⟩
  obtain ⟨j, hj⟩ := List.getElem?_of_mem hc
  exact (hidle j c hj).1

omit hV in
theorem planRange_fitsIn {size : Nat} (hle : size ≤ b.size) {t : DownloadTask} (h : t.FitsIn b) :
    (planRange env size t).FitsIn b := by
  refine ⟨h.toBounded.congr rfl rfl, fun c hc => ?_⟩
  simp only [planRange] at hc
  split at hc
  · exact plan_fitsIn hle c hc
  · exact h.chunks c hc

omit hV in
theorem markDone_fitsIn {t : DownloadTask} (h : t.FitsIn b) : (markDone t).FitsIn b := by
  refine ⟨h.toBounded.congr rfl rfl, fun c hc => ?_⟩
  obtain ⟨d, hd, rfl⟩ := List.mem_map.1 hc
  have hfits := h.chunks d hd
  split <;> exact ⟨hfits.fits, hfits.index, hfits.stop, hfits.retryCount⟩

omit hV in
theorem rememberMetadata_fitsIn {t : DownloadTask} (h : t.FitsIn b) (hle : info.fileSize ≤ b.size) :
    (rememberMetadata t info).FitsIn b := by
  refine ⟨⟨?_, h.figures⟩, h.chunks⟩
  simp only [rememberMetadata]
  split
  · exact h.fileSize
  · exact hle

theorem transferWithRange_sound (ho : env.Obeys b u) (hinfo : env.protocol.fetchMetadata u = .ok info) :
    KeepsOr (Stopped V) (Sound V b u) (transferWithRange env info) := by
  have hkeeps := sound_tolerates (u := u) hV
  unfold transferWithRange
  refine (sound_or hkeeps.ensureTaskTempDir).bind fun _ => ?_
  refine (sound_change (f := planRange env info.fileSize) (fun _ => rfl)
    fun _ => planRange_fitsIn (ho.announced info hinfo).1).bind fun _ => ?_
  refine (sound_change (f := recomputeDownloaded) (fun _ => rfl) fun _ h => h.congr rfl rfl rfl).bind fun _ => ?_
  refine (sound_or hkeeps.persistTask).bind fun _ s hs => ?_
  rw [wp_bind, wp_get, wp_bind, wp_updateTask, wp_bind]
  have hstart : Sound V b u { s with task := markDone s.task } := ⟨hs.saves, markDone_fitsIn hs.fits, hs.url⟩
  have hpool : Pooled (fitRule b fun _ => env) { workers := rangeWorkers s.task } { s with task := markDone s.task } :=
    pooled_start False.elim fun j c hc => ⟨hstart.fits.chunks c (List.mem_of_getElem? hc), by rw [hs.url]; exact ho⟩
  refine wp_mono (runPool_sound hV hstart hpool) ?_ (fun _ _ h => h) (fun _ h => h)
  intro errors s₁ h₁
  cases errors with
  | nil =>
    rw [wp_bind, wp_get]
    split
    · exact h₁
    · exact (sound_or (hkeeps.setFailure (by decide) _)).bind (fun _ => KeepsOr.pure _) _ h₁
  | cons first rest =>
    dsimp only
    split
    · refine (KeepsOr.bind (sound_change ?_ ?_) fun _ => ?_) _ h₁
      · exact fun _ => rfl
      · exact fun _ h => ⟨h.toBounded.congr rfl rfl, List.forall_mem_nil _⟩
      exact (sound_or hkeeps.persistTask).bind fun _ =>
        (transferSingleStream_sound hV ho hinfo).bind fun _ => KeepsOr.pure _
    · refine (sound_or (hkeeps.setFailure ?_ _)).bind (fun _ => KeepsOr.pure _) _ h₁
      split <;> decide

theorem transferFrom_sound (ho : env.Obeys b u) (hinfo : env.protocol.fetchMetadata u = .ok info) :
    KeepsOr (Stopped V) (Sound V b u) (transferFrom env info) := by
  unfold transferFrom
  refine (sound_change (f := (rememberMetadata · info)) (fun _ => rfl)
    fun _ h => rememberMetadata_fitsIn h (ho.announced info hinfo).1).bind fun _ => ?_
  refine (sound_or (sound_tolerates hV).persistTask).bind fun _ => KeepsOr.get_bind fun s => ?_
  split
  · exact transferWithRange_sound hV ho hinfo
  · exact (transferSingleStream_sound hV ho hinfo).bind fun _ => KeepsOr.pure _

omit hV in
/-- The metadata is the server's answer. -/
theorem fetchMetadata_sound {Q : RemoteFileInfo → Session → Prop} {s : Session} (h : Sound V b u s)
    (hq : ∀ info s', env.protocol.fetchMetadata u = .ok info → Sound V b u s' → Q info s') :
    wp (fetchMetadata env) Q (fun _ => Sound V b u) (Stopped V) s :=
  wp_fetchMetadata (fun _ _ => ⟨h.saves.quiet (by simp), h.fits, h.url⟩)
    (fun info hi => hq info _ (by rw [← h.url]; exact hi) ⟨h.saves.quiet (by simp), h.fits, h.url⟩)

theorem transfer_sound (ho : env.Obeys b u) : KeepsOr (Stopped V) (Sound V b u) (transfer env) := by
  have hkeeps := sound_tolerates (u := u) hV
  unfold transfer
  refine (sound_or hkeeps.beginTask).bind fun _ s hs => ?_
  rw [wp_bind]
  refine fetchMetadata_sound hs fun info s₁ hinfo h₁ => ?_
  rw [wp_bind, wp_get]
  split
  · exact (sound_or (hkeeps.setFailure (by decide) _)).bind (fun _ => KeepsOr.pure _) _ h₁
  · exact transferFrom_sound hV ho hinfo _ h₁

theorem mergeAndComplete_sound : KeepsOr (Stopped V) (Sound V b u) (mergeAndComplete env) := by
  refine sound_or ((sound_tolerates hV).mergeAndComplete (fun s w' hw h => ?_) fun s h => ?_)
  · exact ⟨by rw [hw.log]; exact h.saves, h.fits, h.url⟩
  · exact ⟨h.saves.quiet (by simp), h.fits.congr rfl rfl rfl, h.url⟩

theorem download_sound (ho : env.Obeys b u) : KeepsOr (Stopped V) (Sound V b u) (download env) :=
  keeps_download (transfer_sound hV ho) (mergeAndComplete_sound hV) fun e => sound_or ((sound_tolerates hV).failWith e)

/-! ## `prepareTask` and `finalizePreparedTask` -/

theorem prepareFrom_sound (hle : info.fileSize ≤ b.size) : KeepsOr (Stopped V) (Sound V b u)
    (prepareFrom env info) := by
  have hkeeps := sound_tolerates (u := u) hV
  unfold prepareFrom prepareChunks
  refine (sound_change (f := (rememberMetadata · info)) (fun _ => rfl) fun _ h => rememberMetadata_fitsIn h hle).bind
    fun _ => ?_
  refine KeepsOr.bind (fun s hs => ?_) fun _ => sound_or hkeeps.persistTask
  rw [wp_bind, wp_get]
  split
  · refine (KeepsOr.bind (sound_or hkeeps.ensureTaskTempDir) fun _ => ?_) s hs
    refine (sound_change (f := planRange env s.task.fileSize) (fun _ => rfl) fun _ =>
      planRange_fitsIn hs.fits.fileSize).bind fun _ => ?_
    exact sound_change (f := recomputeDownloaded) (fun _ => rfl) fun _ h => h.congr rfl rfl rfl
  · exact hs

theorem prepareTask_sound (ho : env.Obeys b u) : KeepsOr (Stopped V) (Sound V b u) (prepareTask env) := by
  have hkeeps := sound_tolerates (u := u) hV
  refine KeepsOr.tryCatch ?_ fun e => sound_or (hkeeps.failWith e)
  refine (sound_or hkeeps.beginTask).bind fun _ s hs => ?_
  rw [wp_bind]
  refine fetchMetadata_sound hs fun info s₁ hinfo h₁ => ?_
  rw [wp_bind, wp_get]
  split
  · exact sound_or (hkeeps.setFailure (by decide) _) _ h₁
  · exact prepareFrom_sound hV (ho.announced info hinfo).1 _ h₁

theorem finalize_sound : KeepsOr (Stopped V) (Sound V b u) (finalizePreparedTask env) :=
  keeps_finalize (sound_or (sound_tolerates hV).persistTask)
    (fun message => sound_or ((sound_tolerates hV).setFailure (by decide) message)) (mergeAndComplete_sound hV)

end Transfers

/-! ## runQueuedTasks -/

section Queue

variable {V : DownloadTask → Prop} (hV : ∀ t : DownloadTask, t.FitsIn b → V t)

include hV

theorem prepareAll_sound : ∀ (ts : List DownloadTask) (w : World), SavesAre V w.log →
    (∀ t ∈ ts, t.FitsIn b ∧ (envs t.id).Obeys b t.url) →
    wp (prepareAll envs ts)
      (fun ts' w' => SavesAre V w'.log ∧ ts'.map (·.id) = ts.map (·.id) ∧
        ∀ t' ∈ ts', t'.FitsIn b ∧ ∃ t ∈ ts, t'.id = t.id ∧ t'.url = t.url)
      (fun _ w' => SavesAre V w'.log) (fun w' => SavesAre V w'.log) w
  | [], w, hw, _ => ⟨hw, rfl, List.forall_mem_nil _⟩
  | t :: ts, w, hw, hts => by
    obtain ⟨hfits, ho⟩ := hts t List.mem_cons_self
    unfold prepareAll
    rw [wp_bind, wp_onTask]
    have hid : Keeps (fun s' : Session => s'.task.id = t.id) (prepareTask (envs t.id)) := tolerates_id.prepareTask
    have hsound : KeepsOr (Stopped V) (Sound V b t.url) (prepareTask (envs t.id)) := prepareTask_sound hV ho
    refine wp_mono (wp_and (keeps_withEngine hsound _ ⟨hw, hfits, rfl⟩) (keeps_withEngine hid _ rfl)) ?_
      (fun _ _ h => h.1.saves) (fun _ h => h.1)
    rintro _ s ⟨hs, hsid⟩
    rw [wp_bind]
    refine wp_mono (prepareAll_sound ts s.world hs.saves fun u hu => hts u (List.mem_cons_of_mem _ hu)) ?_
      (fun _ _ h => h) (fun _ h => h)
    rintro ts' w' ⟨hw', hids, hall⟩
    refine ⟨hw', by simp [hids, hsid],
      List.forall_mem_cons.2 ⟨⟨hs.fits, t, List.mem_cons_self, hsid, hs.url⟩, fun t' ht' => ?_⟩⟩
    obtain ⟨hfit, u, hu, hsame⟩ := hall t' ht'
    exact ⟨hfit, u, List.mem_cons_of_mem _ hu, hsame⟩

/-- What is written in a run of the scheduler fits. -/
theorem savesAre_step {cfg : SchedulerConfig} {s s' : SchedState WorkerPc} {choice : Choice}
    (h : SavesAre V s.world.log) (hbounded : ∀ t ∈ s.tasks, t.Bounded b)
    (hown : (fitRule b envs).Covers s → Owned (fitRule b envs) s)
    (hown' : (fitRule b envs).Covers s' → Owned (fitRule b envs) s')
    (hran : s.crashed = false) (heff : StepEffect (chunkExecutor envs) cfg s choice s') : SavesAre V s'.world.log := by
  cases heff with
  | idle _ hw => rw [hw]; exact h
  | retire _ _ _ _ _ _ _ hw => rw [hw]; exact h
  | start _ _ _ _ _ _ _ _ _ _ _ _ hw => rw [hw]; exact h.quiet (by simp)
  | record _ _ _ _ _ _ _ _ _ hw => rw [hw]; exact h.quiet (by simp)
  | sweep _ _ _ hw =>
    obtain ⟨es, hes, hall⟩ := sweep_log (s := s)
    rw [hw, hes]
    intro t ht
    rcases List.mem_append.1 ht with ht | ht
    · obtain ⟨id, heq⟩ := hall _ ht
      cases heq
    · exact h t ht
  | execute k w pc i t _ hk hp hti hid =>
    have hw : w.active := by simp [Worker.active, hp]
    obtain ⟨c, -, hc, -⟩ := (hown ⟨hran, fun _ => trivial⟩).busy_at (List.mem_of_getElem? hk) hw
      (List.mem_of_getElem? hti) hid
    obtain ⟨htasks, hworld, -⟩ := execute_spec (chunkExecutor envs) (l := pc) (i := i) (t := t) hk
    rw [hworld]
    have hmem : (executed (chunkExecutor envs) s w pc t).task ∈ (s.execute (chunkExecutor envs) k w pc i t).tasks := by
      rw [htasks]
      exact List.mem_set (List.getElem?_eq_some_iff.1 hti).1 _
    have hfits : (s.execute (chunkExecutor envs) k w pc i t).crashed = false →
        (executed (chunkExecutor envs) s w pc t).task.FitsIn b := fun hcr =>
      ⟨(hbounded t (List.mem_of_getElem? hti)).workedOn chunkExecutor_workedOn,
        fits_of_holds ((hown' ⟨hcr, fun _ => trivial⟩).holds hmem)⟩
    revert hfits
    unfold SchedState.execute executed
    rcases chunkExecutor_run envs w.taskId (e := { world := s.world, task := t }) hc pc with
      ⟨-, hr⟩ | ⟨x, -, hr⟩ | hr <;> rw [hr]
    · exact fun _ => h
    · exact fun _ => h
    · cases hcr : (Session.workerMove (envs w.taskId) { world := s.world, task := t } c pc).crashed with
      | true =>
        intro _
        rw [stepped_crashed hcr]
        exact h
      | false => exact fun hfits => savesAre_stepped hV h (hfits hran)

theorem scheduler_sound {cfg : SchedulerConfig} {schedule : List Choice} {s : SchedState WorkerPc}
    (h : SavesAre V s.world.log) (hbounded : ∀ t ∈ s.tasks, t.Bounded b) (hown : Owned (fitRule b envs) s)
    (hsafe : GuardedRun (step (chunkExecutor envs) cfg) (fun s c => startsNoPaused cfg s c) s schedule) :
    SavesAre V (runs (chunkExecutor envs) cfg s schedule).world.log ∧
      (∀ t ∈ (runs (chunkExecutor envs) cfg s schedule).tasks, t.Bounded b) ∧
      ((fitRule b envs).Covers (runs (chunkExecutor envs) cfg s schedule) →
        Owned (fitRule b envs) (runs (chunkExecutor envs) cfg s schedule)) := by
  refine GuardedRun.inv (I := fun s => SavesAre V s.world.log ∧ (∀ t ∈ s.tasks, t.Bounded b) ∧
    ((fitRule b envs).Covers s → Owned (fitRule b envs) s)) (fun s c h hok => ?_) ⟨h, hbounded, fun _ => hown⟩ hsafe
  obtain ⟨hsaves, hbounded, hown⟩ := h
  have hown' : (fitRule b envs).Covers (step (chunkExecutor envs) cfg s c) →
      Owned (fitRule b envs) (step (chunkExecutor envs) cfg s c) := fun hcovers =>
    (hown (covers_step hcovers)).step hok (step_effect c) hcovers
  cases hcr : s.crashed with
  | true =>
    have hstill : step (chunkExecutor envs) cfg s c = s := by simp [SchedState.step, hcr]
    rw [hstill]
    exact ⟨hsaves, hbounded, hown⟩
  | false =>
    refine ⟨savesAre_step hV hsaves hbounded hown hown' hcr (step_effect c), fun u hu => ?_, hown'⟩
    obtain ⟨t, ht, hworked⟩ := (step_records (step_effect c)).2 u hu
    exact (hbounded t ht).workedOn hworked

theorem finishAll_sound : ∀ (ts : List DownloadTask) (w : World), SavesAre V w.log →
    (∀ t ∈ ts, t.FitsIn b ∧ (envs t.id).Obeys b t.url) →
    wp (finishAll envs ts) (fun _ w' => SavesAre V w'.log) (fun _ w' => SavesAre V w'.log)
      (fun w' => SavesAre V w'.log) w
  | [], w, hw, _ => hw
  | t :: ts, w, hw, hts => by
    obtain ⟨hfits, ho⟩ := hts t List.mem_cons_self
    have hs : Sound V b t.url { world := w, task := t } := ⟨hw, hfits, rfl⟩
    have hfinish : wp (finishTask envs t) (fun _ w' => SavesAre V w'.log) (fun _ w' => SavesAre V w'.log)
        (fun w' => SavesAre V w'.log) w := by
      unfold finishTask
      split
      · exact wp_onTask.2 (wp_mono (download_sound hV ho _ hs) (fun _ _ h => h.saves) (fun _ _ h => h.saves)
          (fun _ h => h))
      · split
        · exact wp_onTask.2 (wp_mono (finalize_sound hV _ hs) (fun _ _ h => h.saves) (fun _ _ h => h.saves)
            (fun _ h => h))
        · exact hw
    unfold finishAll
    rw [wp_bind]
    refine wp_mono hfinish (fun t' w' hw' => ?_) (fun _ _ h => h) (fun _ h => h)
    rw [wp_bind]
    exact wp_mono (finishAll_sound ts w' hw' fun u hu => hts u (List.mem_cons_of_mem _ hu)) (fun _ _ h => h)
      (fun _ _ h => h) (fun _ h => h)

end Queue

/-- In a run of the queue, no pass of the scheduler starts a chunk whose worker is in a pause. -/
def QueueRun.NoPausedStart (r : QueueRun) (runnable : List DownloadTask) (w : World) : Prop :=
  match (prepareAll r.prepare runnable).run w with
  | (.ok prepared, w₁) =>
    GuardedRun (step (chunkExecutor r.prepare) r.config.normalized) (fun s c => startsNoPaused r.config.normalized s c)
      { tasks := prepared, world := w₁ } r.schedule
  | _ => True

instance (r : QueueRun) (runnable : List DownloadTask) (w : World) : Decidable (r.NoPausedStart runnable w) :=
  match h : (prepareAll r.prepare runnable).run w with
  | (.ok prepared, w₁) => decidable_of_iff
      (GuardedRun (step (chunkExecutor r.prepare) r.config.normalized)
        (fun s c => startsNoPaused r.config.normalized s c)
        { tasks := prepared, world := w₁ } r.schedule) (by simp [QueueRun.NoPausedStart, h])
  | (.thrown _, _) => isTrue (by simp [QueueRun.NoPausedStart, h])
  | (.stopped, _) => isTrue (by simp [QueueRun.NoPausedStart, h])

theorem runRunnable_sound {V : DownloadTask → Prop} (hV : ∀ t : DownloadTask, t.FitsIn b → V t) {r : QueueRun}
    {runnable : List DownloadTask} {w : World} (hw : SavesAre V w.log) (hids : (runnable.map (·.id)).Nodup)
    (hts : ∀ t ∈ runnable, t.FitsIn b ∧ (r.prepare t.id).Obeys b t.url ∧ (r.finish t.id).Obeys b t.url)
    (hsafe : r.NoPausedStart runnable w) : SavesAre V ((runRunnable r runnable).run w).2.log := by
  refine (wp_const (I := fun w' : World => SavesAre V w'.log)).1 ?_
  unfold runRunnable
  rw [wp_bind]
  have hprepare : wp (prepareAll r.prepare runnable) _ _ _ w :=
    prepareAll_sound hV runnable w hw fun t ht => ⟨(hts t ht).1, (hts t ht).2.1⟩
  rcases hr : (prepareAll r.prepare runnable).run w with ⟨prepared | e | _, w₁⟩
  · rw [wp_of_ok hr] at hprepare ⊢
    obtain ⟨hw₁, hids₁, hall⟩ := hprepare
    have hown : Owned (fitRule b r.prepare) { tasks := prepared, world := w₁ } := by
      refine ⟨by rw [hids₁]; exact hids, False.elim, fun t ht j c hc _ => ?_, by simp, by simp, by simp⟩
      obtain ⟨hfit, t₀, ht₀, hid, hurl⟩ := hall t ht
      exact ⟨hfit.chunks c (List.mem_of_getElem? hc), by rw [hid, hurl]; exact (hts t₀ ht₀).2.1⟩
    obtain ⟨hsaves, hbounded, hown'⟩ := scheduler_sound hV hw₁ (fun t ht => (hall t ht).1.toBounded) hown
      (by simpa [QueueRun.NoPausedStart, hr] using hsafe)
    rw [wp_bind]
    refine wp_schedulerRun rfl (fun hcr _ => ?_) hsaves
    refine finishAll_sound hV _ _ hsaves fun t ht =>
      ⟨⟨hbounded t ht, fits_of_holds ((hown' ⟨hcr, fun _ => trivial⟩).holds ht)⟩, ?_⟩
    obtain ⟨t₁, ht₁, hworked⟩ := (run_records r.schedule).2 t ht
    obtain ⟨-, t₀, ht₀, hid, hurl⟩ := hall t₁ ht₁
    rw [hworked.request.1, hworked.request.2.1, hid, hurl]
    exact (hts t₀ ht₀).2.2
  · rw [wp_of_thrown hr] at hprepare ⊢
    exact hprepare
  · rw [wp_of_stopped hr] at hprepare ⊢
    exact hprepare

/-- The bounds that a task and a run of its session stay within. -/
def ownBounds (env : Env) (t : DownloadTask) : Bounds where
  size := t.fileSize + (t.chunks.map (fun c => c.index + c.stop + 1)).sum +
    (env.protocol.downloadSingle t.url).bytes.length +
    match env.protocol.fetchMetadata t.url with
    | .ok info => info.fileSize
    | .error _ => 0
  retries := env.maxRetries + (t.chunks.map (·.retryCount)).sum
  figures _ := True

theorem DownloadTask.Fits.own {t : DownloadTask} (h : t.Fits) : t.FitsIn (ownBounds env t) := by
  refine ⟨⟨?_, trivial⟩, fun c hc => ?_⟩
  · simp only [ownBounds]
    omega
  · have hplace := List.single_le_sum (fun _ _ => Nat.zero_le _) _
      (List.mem_map_of_mem (f := fun c : Chunk => c.index + c.stop + 1) hc)
    have hretries := List.single_le_sum (fun _ _ => Nat.zero_le _) _
      (List.mem_map_of_mem (f := fun c : Chunk => c.retryCount) hc)
    refine ⟨h c hc, ?_, ?_, ?_⟩
    all_goals
      simp only [ownBounds]
      omega

theorem Moderate.own {t : DownloadTask} (h : Moderate env.protocol t.url) : env.Obeys (ownBounds env t) t.url := by
  refine ⟨h, fun info hinfo => ?_, Nat.le_add_right _ _⟩
  simp only [ownBounds, hinfo]
  exact ⟨by omega, fun _ => by omega⟩

/-- If the server delivers no byte too many, every version a session writes loads. -/
theorem download_loads (hm : Moderate env.protocol s.task.url) (hlog : SavesLoad s.world.log) (hfits : s.task.Fits) :
    wp (download env) (fun _ s' => SavesLoad s'.world.log) (fun _ s' => SavesLoad s'.world.log)
      (fun s' => SavesLoad s'.world.log) s := by
  have hV : ∀ t : DownloadTask, t.FitsIn (ownBounds env s.task) → (Event.saved t).loads := fun t h => h.fits.loads
  refine wp_mono (download_sound hV hm.own s ⟨savesLoad_iff.1 hlog, hfits.own, rfl⟩) ?_ ?_ ?_
  · exact fun _ _ h => savesLoad_iff.2 h.saves
  · exact fun _ _ h => savesLoad_iff.2 h.saves
  · exact fun _ h => savesLoad_iff.2 h

/-- A server that answers each range request with one byte. -/
def bytewiseEnv : Env where
  protocol :=
    { fetchMetadata := fun _ => .ok { fileSize := 2, supportsRange := true }
      downloadRange := fun _ _ _ _ => { blocks := [{ data := [7], flush := true }] }
      downloadSingle := fun _ => {} }

def bytewiseTask : DownloadTask where
  id := text "a"
  targetPath := text "/out"
  tempDir := text "/t/a"
  requestedThreads := 2

def bytewiseRun : QueueRun where
  recover := bytewiseEnv
  scan := []
  scanAgain := []
  prepare := fun _ => bytewiseEnv
  schedule := List.replicate 3 .coordinator ++ List.replicate 9 (.worker 0) ++ List.replicate 9 (.worker 1) ++
    List.replicate 6 .coordinator
  finish := fun _ => bytewiseEnv

theorem bytewise_moderate : Moderate bytewiseEnv.protocol bytewiseTask.url :=
  ⟨fun start stop n h => show 1 ≤ stop + 1 - start by omega, fun info _ _ => Nat.zero_le _⟩

end Cget
