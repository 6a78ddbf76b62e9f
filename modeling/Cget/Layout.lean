import Cget.ChunkRule
import Cget.Frame
/-!
# The layout of a task

Its chunks' places, in the file and on the disk, and its size. Transfers, workers and
repairs move the counters and statuses of chunks; only planning, a single stream and new
metadata write the layout, and each leaves a task without chunks or one whose chunks tile
its file. What else a session keeps is a parameter: `JobRule` is a property `G` of the world
and `P` of the job.
-/

namespace Cget

open Prog

variable {env : Env} {t t' : DownloadTask} {c c' : Chunk} {cs : List Chunk} {info : RemoteFileInfo} {size : Nat}

/-! ## Layouts -/

/-- A chunk before anything is downloaded. -/
def Chunk.blank (c : Chunk) : Chunk := { c with downloaded := 0, status := .pending, retryCount := 0 }

def DownloadTask.layout (t : DownloadTask) : List Chunk := t.chunks.map (·.blank)

/-- The name of a part file the program gives. -/
def Chunk.Named (c : Chunk) : Prop := c.tempPath = singlePart ∨ c.tempPath = ChunkPlanner.chunkName c.index

/-- A worker that fails changes nothing of its chunk but the status. -/
theorem failedTask_map {β : Type} (f : Chunk → β) (hf : ∀ c, f { c with status := .failed } = f c)
    (t : DownloadTask) (j : Nat) :
    (SchedState.failedTask t j).chunks.map f = t.chunks.map f := by
  apply List.ext_getElem?
  intro k
  rw [SchedState.failedTask, List.getElem?_map, List.getElem?_map, List.getElem?_modify]
  cases t.chunks[k]? with
  | none => rfl
  | some c =>
    dsimp only [Option.map_some]
    split
    · exact congrArg some (hf c)
    · rfl

/-- No chunks, or numbered chunks that tile a file of `size` bytes, each with its own part file. -/
def LaidOut (chunks : List Chunk) (size : Nat) : Prop :=
  chunks = [] ∨ (Tiles 0 chunks size ∧ chunks.map (·.index) = List.range chunks.length ∧ (∀ c ∈ chunks, c.Named) ∧
    (chunks.map (·.tempPath)).Nodup)

def DownloadTask.Laid (t : DownloadTask) : Prop := LaidOut t.chunks t.fileSize

theorem Chunk.SamePlace.blank (h : c.SamePlace c') : c'.blank = c.blank := by
  obtain ⟨h1, h2, h3, h4⟩ := h
  simp only [Chunk.blank, h1, h2, h3, h4]

/-- A layout says what the chunks say of their places. -/
theorem laidOut_blank : LaidOut (cs.map (·.blank)) size ↔ LaidOut cs size := by
  have htiles : Tiles 0 (cs.map (·.blank)) size ↔ Tiles 0 cs size := tiles_congr (by rw [List.map_map]; rfl)
  have hindex : (cs.map (·.blank)).map (·.index) = cs.map (·.index) := by rw [List.map_map]; rfl
  have hnamed : (∀ c ∈ cs.map (·.blank), c.Named) ↔ ∀ c ∈ cs, c.Named := List.forall_mem_map
  have hpaths : (cs.map (·.blank)).map (·.tempPath) = cs.map (·.tempPath) := by rw [List.map_map]; rfl
  rw [LaidOut, LaidOut, htiles, hindex, hnamed, hpaths, List.map_eq_nil_iff, List.length_map]

theorem laid_iff : t.Laid ↔ LaidOut t.layout t.fileSize := laidOut_blank.symm

/-- A task of unknown size has no chunks. -/
theorem LaidOut.unsized (h : LaidOut cs 0) : cs = [] := by
  rcases h with h | ⟨htiles, -⟩
  · exact h
  · cases cs with
    | nil => rfl
    | cons c cs =>
      have hstop := (htiles.mem.2 c List.mem_cons_self).2.2
      omega

/-! ## Layouts the program writes -/

theorem plan_laidOut (hardware size requestedThreads : Nat) :
    LaidOut (ChunkPlanner.plan hardware size requestedThreads) size :=
  .inr ⟨ChunkPlanner.plan_tiles _ _ _, ChunkPlanner.plan_indices _ _ _,
    fun c hc => .inr (ChunkPlanner.plan_fresh _ _ _ c hc).2.2, ChunkPlanner.plan_names _ _ _⟩

/-- One chunk for a whole file. -/
theorem whole_laidOut (h : 0 < size) (hindex : c.index = 0) (hstart : c.start = 0) (hstop : c.stop = size - 1)
    (hname : c.tempPath = singlePart) : LaidOut [c] size := by
  refine .inr ⟨⟨hstart, by omega, show c.stop + 1 = size by omega⟩, by simp [hindex, List.range_succ], ?_,
    List.nodup_singleton _⟩
  exact List.forall_mem_singleton.2 (.inl hname)

theorem planRange_laid (h : t.Laid) (hsize : t.chunks = [] → size = 0 ∨ size = t.fileSize) :
    (planRange env size t).Laid := by
  unfold DownloadTask.Laid planRange
  dsimp only
  split
  · rename_i hnone
    rcases hsize hnone with rfl | rfl
    · exact .inl rfl
    · exact plan_laidOut _ _ _
  · exact h

theorem singleChunks_laidOut (hsize : info.fileSize ≠ 0 → size = info.fileSize) : LaidOut (singleChunks info) size := by
  unfold singleChunks
  split
  · have hpos : 0 < info.fileSize := ‹_›
    rw [hsize (by omega)]
    exact whole_laidOut hpos rfl rfl rfl rfl
  · exact .inl rfl

/-- The chunk of a complete single stream covers what was received. -/
theorem singleDone_laid (hlayout : t.layout = (singleChunks info).map (·.blank)) (downloaded : Nat) :
    (singleDone t info downloaded).Laid := by
  unfold DownloadTask.layout singleChunks at hlayout
  unfold DownloadTask.Laid singleDone
  dsimp only
  cases hcs : t.chunks with
  | nil =>
    have hunknown : ¬ 0 < info.fileSize := fun hpos => by simp [hcs, hpos] at hlayout
    rw [if_pos (by omega : info.fileSize = 0)]
    dsimp only
    split
    · exact whole_laidOut ‹_› rfl rfl rfl rfl
    · exact .inl rfl
  | cons d ds =>
    have hpos : 0 < info.fileSize := by
      by_contra hzero
      simp [hcs, hzero] at hlayout
    rw [hcs, if_pos hpos, List.map_cons, List.map_singleton, List.cons.injEq, List.map_eq_nil_iff] at hlayout
    obtain ⟨hd, rfl⟩ := hlayout
    simp only [Chunk.blank, Chunk.mk.injEq] at hd
    rw [if_neg (by omega : ¬ info.fileSize = 0)]
    exact whole_laidOut hpos hd.1 hd.2.1 hd.2.2.1 hd.2.2.2.2.2.2

/-- Metadata that did not change fits the chunks. -/
theorem rememberMetadata_laid (h : t.Laid) (hsame : metadataChanged t info = false) :
    (rememberMetadata t info).Laid := by
  unfold DownloadTask.Laid rememberMetadata
  dsimp only
  split
  · exact h
  · by_cases hunknown : t.fileSize = 0
    · have hnone : t.chunks = [] := LaidOut.unsized (hunknown ▸ h)
      exact .inl hnone
    · have hsize : t.fileSize = info.fileSize := by
        simp only [metadataChanged, Bool.or_eq_false_iff, Bool.and_eq_false_iff, bne_eq_false_iff_eq] at hsame
        omega
      exact hsize ▸ h

/-! ## Safe names -/

theorem slash_not_mem_decimal (n : Nat) : (47 : UInt8) ∉ decimal n := by
  intro h
  obtain ⟨c, hc, heq⟩ := List.mem_map.1 h
  have hdigit : c.isDigit = true := Nat.isDigit_of_mem_toDigits (by omega) (by omega) hc
  have hback := byte_toChar_digit hdigit
  rw [heq] at hback
  rw [← hback] at hdigit
  exact absurd hdigit (by decide)

theorem chunkName_head (n : Nat) : (ChunkPlanner.chunkName n).head? = some 99 := rfl

/-- The names of planned part files are safe. -/
theorem chunkName_safe (n : Nat) :
    isPathTraversal (ChunkPlanner.chunkName n) = false ∧ isAbsolute (ChunkPlanner.chunkName n) = false := by
  have hslash : 47 ∉ ChunkPlanner.chunkName n := by
    intro h
    simp only [ChunkPlanner.chunkName, List.mem_append] at h
    rcases h with (h | h) | h
    · exact absurd h (by decide)
    · exact slash_not_mem_decimal n h
    · exact absurd h (by decide)
  constructor
  · have hdots : ChunkPlanner.chunkName n ≠ text ".." := by
      intro heq
      have hhead := congrArg List.head? heq
      rw [chunkName_head] at hhead
      exact absurd hhead (by decide)
    rw [isPathTraversal, List.splitOn_eq_singleton hslash]
    simp [hdots]
  · simp [isAbsolute, chunkName_head]

/-- The part file of a laid out chunk has a path. -/
theorem Chunk.Named.path (h : c.Named) (t : DownloadTask) : ∃ p, chunkPath t c = .ok p := by
  unfold chunkPath
  rcases h with hname | hname
  · exact ⟨_, if_neg (by rw [hname]; decide)⟩
  · exact ⟨_, if_neg (by rw [hname, (chunkName_safe _).1, (chunkName_safe _).2]; decide)⟩

theorem DownloadTask.Laid.paths (h : t.Laid) : ∀ c ∈ t.chunks, ∃ p, chunkPath t c = .ok p := by
  rcases h with hnone | ⟨-, -, hnamed, -⟩
  · rw [hnone]
    exact List.forall_mem_nil _
  · exact fun c hc => (hnamed c hc).path t

/-- Part files of different names are different files. -/
theorem partsApart_of_names (hnames : (t.chunks.map (·.tempPath)).Nodup) : PartsApart [t] := by
  simp only [PartsApart, List.mem_singleton, forall_eq, true_and]
  intro j k c d p hc hd hpc hpd
  exact index_unique hnames hc hd (chunkPath_inj hpc hpd)

/-- No two chunks of a task share a part file. -/
theorem DownloadTask.Laid.apart (h : t.Laid) : PartsApart [t] := by
  refine partsApart_of_names ?_
  rcases h with hnone | ⟨-, -, -, hnames⟩
  · simp [hnone]
  · exact hnames

/-! ## Sessions -/

/-- The fields of a task that nothing writes after its creation. -/
def DownloadTask.SameOrigin (t t' : DownloadTask) : Prop :=
  t'.id = t.id ∧ t'.url = t.url ∧ t'.targetPath = t.targetPath ∧ t'.tempDir = t.tempDir ∧
  t'.expectedSha256 = t.expectedSha256

/-- `G` survives what a session on a job of `P` does to the world. -/
structure JobRule (G : World → Prop) (P : DownloadTask → Prop) : Prop where
  origin : ∀ t t', t.SameOrigin t' → P t → P t'
  tick : ∀ w n, G w → G { w with tick := n }
  parts : ∀ (w : World) f, G w → G { w with disk := { w.disk with parts := f } }
  logged : ∀ w e, (∀ t, e ≠ .saved t) → G w → G (w.record e)
  saved : ∀ w t, t.Laid → P t → G w → G (w.saveTask t)
  out : ∀ w w' t, OnlyTarget t.targetPath w w' → P t → G w → G w'

/-- A session on a job of `P`; `shape` is what is known of its layout and size. -/
structure Held (G : World → Prop) (P : DownloadTask → Prop) (shape : List Chunk → Nat → Prop) (s : Session) : Prop where
  world : G s.world
  job : P s.task
  laid : s.task.Laid
  shape : shape s.task.layout s.task.fileSize

/-- Nothing more is known. -/
def AnyShape (_ : List Chunk) (_ : Nat) : Prop := True

/-- The size is the announced one, if one was announced. -/
def Announced (info : RemoteFileInfo) (_ : List Chunk) (size : Nat) : Prop := info.fileSize ≠ 0 → size = info.fileSize

/-- The chunks are those of a single stream. -/
def SingleShape (info : RemoteFileInfo) (layout : List Chunk) (_ : Nat) : Prop :=
  layout = (singleChunks info).map (·.blank)

section Sessions

variable {G : World → Prop} {P : DownloadTask → Prop} {shape shape' : List Chunk → Nat → Prop} {s : Session}

theorem DownloadTask.SameJob.origin (h : t.SameJob t') : t.SameOrigin t' :=
  ⟨h.1, h.2.1, h.2.2.1, h.2.2.2.1, h.2.2.2.2.1⟩

theorem DownloadTask.SameRequest.origin (h : t.SameRequest t') : t.SameOrigin t' :=
  ⟨h.1, h.2.1, h.2.2.1, h.2.2.2.1, h.2.2.2.2.2⟩

theorem Held.any (h : Held G P shape s) : Held G P AnyShape s := ⟨h.world, h.job, h.laid, trivial⟩

/-- The task changes, its layout and size do not. -/
theorem Held.progress (hr : JobRule G P) (h : Held G P shape s) {t : DownloadTask} (hjob : s.task.SameOrigin t)
    (hlayout : t.layout = s.task.layout) (hsize : t.fileSize = s.task.fileSize) : Held G P shape { s with task := t } :=
  ⟨h.world, hr.origin _ _ hjob h.job, laid_iff.2 (by rw [hlayout, hsize]; exact laid_iff.1 h.laid), by
    rw [hlayout, hsize]
    exact h.shape⟩

theorem Held.record (hr : JobRule G P) (h : Held G P shape s) {e : Event} (he : ∀ t, e ≠ .saved t) :
    Held G P shape (s.record e) :=
  ⟨hr.logged _ e he h.world, h.job, h.laid, h.shape⟩

theorem held_tolerates (hr : JobRule G P) : ToleratesSaves (Held G P shape) where
  tick s n h := ⟨hr.tick _ n h.world, h.job, h.laid, h.shape⟩
  task s t h ht := h.progress hr ht.1.origin (congrArg (List.map Chunk.blank) ht.2.1) ht.2.2.1
  status s st h _ := (h.record hr (e := .assigned s.task.id st) (by simp)).progress hr ⟨rfl, rfl, rfl, rfl, rfl⟩ rfl rfl
  saved s h := ⟨hr.saved _ _ h.laid h.job h.world, h.job, h.laid, h.shape⟩

/-- A worker's move, its action apart. -/
theorem Held.moved (hr : JobRule G P) (h : Held G P shape s) {i : Nat} {pc : WorkerPc}
    (hc : s.task.chunks[i]? = some c) :
    Held G P shape (s.moved i c (s.workerMove env c pc)) := by
  have hplace : c.SamePlace (s.workerMove env c pc).chunk := workerMove_place
  have hworld : G { s.world with disk := (s.moved i c (s.workerMove env c pc)).world.disk } := by
    unfold Session.moved
    dsimp only
    split
    · exact hr.parts _ _ h.world
    · exact h.world
  have hticked : Held G P shape { s with world := (s.moved i c (s.workerMove env c pc)).world } :=
    ⟨hr.tick _ (s.world.tick + 1) hworld, h.job, h.laid, h.shape⟩
  exact hticked.progress hr ⟨rfl, rfl, rfl, rfl, rfl⟩ (map_set_eq hc hplace.blank) rfl

theorem Held.apply (hr : JobRule G P) (h : Held G P shape s) (a : TaskAction) : Held G P shape (a.apply env s) := by
  have hsaved : Held G P shape { s with task := { s.task with updatedAt := env.now } } :=
    h.progress hr ⟨rfl, rfl, rfl, rfl, rfl⟩ rfl rfl
  cases a with
  | none => exact h
  | recompute => exact h.progress hr ⟨rfl, rfl, rfl, rfl, rfl⟩ rfl rfl
  | setDownloading => exact (held_tolerates hr).status s .downloading h rfl
  | count n => exact h.progress hr ⟨rfl, rfl, rfl, rfl, rfl⟩ rfl rfl
  | setRetrying message =>
    exact ((held_tolerates hr).status s .retrying h rfl).progress hr ⟨rfl, rfl, rfl, rfl, rfl⟩ rfl rfl
  | request start stop n => exact h.record hr (by simp)
  | persist saved =>
    cases saved with
    | true => exact (held_tolerates hr).saved _ hsaved
    | false => exact hsaved

/-- A step of a worker changes no place and no size. -/
theorem held_stepWorker (hr : JobRule G P) (i : Nat) (pc : WorkerPc) :
    Keeps (Held G P shape) (stepWorker env i pc) := by
  intro s h
  refine wp_const.2 ?_
  cases hc : s.task.chunks[i]? with
  | none => simpa only [stepWorker, hc] using h
  | some c =>
    rw [stepWorker_run hc]
    exact (h.moved hr hc).apply hr _

theorem held_change (hr : JobRule G P) {f : DownloadTask → DownloadTask}
    (horigin : ∀ t : DownloadTask, t.SameOrigin (f t))
    (hlayout : ∀ t : DownloadTask, (f t).layout = t.layout) (hsize : ∀ t : DownloadTask, (f t).fileSize = t.fileSize) :
    Keeps (Held G P shape) (updateTask f) := fun _ h => h.progress hr (horigin _) (hlayout _) (hsize _)

theorem held_fetchMetadata (hr : JobRule G P) : Keeps (Held G P shape) (fetchMetadata env) := fun _ h =>
  wp_fetchMetadata (fun _ _ => h.record hr (by simp)) (fun _ _ => h.record hr (by simp))

/-- An operation on the parts. -/
theorem held_partOp (hr : JobRule G P) {full : Disk → Disk} {part : Nat → Disk → Disk} {e : Exn}
    (hfull : ∀ d, ∃ f, full d = { d with parts := f }) (hpart : ∀ k d, ∃ f, part k d = { d with parts := f }) :
    Keeps (Held G P shape) (onWorld (fileOp env full part e)) := by
  refine (held_tolerates hr).fileOp (fun s h => ?_) (fun k s h => ?_)
  · obtain ⟨f, hf⟩ := hfull s.world.disk
    rw [hf]
    exact ⟨hr.parts _ _ h.world, h.job, h.laid, h.shape⟩
  · obtain ⟨f, hf⟩ := hpart k s.world.disk
    rw [hf]
    exact ⟨hr.parts _ _ h.world, h.job, h.laid, h.shape⟩

theorem held_receiveSingle (hr : JobRule G P) (p : Path) : ∀ blocks, Keeps (Held G P shape) (receiveSingle env p blocks)
  | [] => KeepsOr.pure _
  | b :: bs => by
    unfold receiveSingle
    refine (held_partOp hr (fun _ => ⟨_, rfl⟩) (fun _ _ => ⟨_, rfl⟩)).bind fun _ => ?_
    refine (held_change hr (f := (countSingle · b.data.length)) (fun _ => ⟨rfl, rfl, rfl, rfl, rfl⟩)
      (fun t => countSingle_map _ (fun _ _ => rfl) t _) (fun _ => rfl)).bind fun _ => ?_
    exact (held_tolerates hr).flushTask.bind fun _ => held_receiveSingle hr p bs

theorem held_any {α : Type} {m : EngineM α} (h : Keeps (Held G P shape) m) (hs : Held G P shape s) :
    wp m (fun _ => Held G P shape) (fun _ => Held G P AnyShape) (Held G P AnyShape) s :=
  wp_mono (h s hs) (fun _ _ h => h) (fun _ _ h => h.any) (fun _ h => h.any)

theorem held_transferSingleStream (hr : JobRule G P) (h : Held G P (Announced info) s) :
    wp (transferSingleStream env info) (fun _ => Held G P AnyShape) (fun _ => Held G P AnyShape)
      (Held G P AnyShape) s := by
  unfold transferSingleStream
  rw [wp_bind]
  refine wp_mono (held_any (held_tolerates hr).ensureTaskTempDir h) (fun _ s₁ h₁ => ?_) (fun _ _ h => h) (fun _ h => h)
  rw [wp_bind, wp_get, wp_bind]
  have hcut : Keeps (Held G P (Announced info)) (onWorld (truncateFile env (joinPath s₁.task.tempDir singlePart) 0)) :=
    (held_tolerates hr).truncateFile fun _ h => ⟨hr.parts _ _ h.world, h.job, h.laid, h.shape⟩
  refine wp_mono (held_any hcut h₁) (fun _ s₂ h₂ => ?_) (fun _ _ h => h) (fun _ h => h)
  rw [wp_bind, wp_updateTask]
  -- from here on the chunks are those of the stream
  have hsingle : Held G P (SingleShape info)
      { s₂ with task := { s₂.task with chunks := singleChunks info, downloaded := 0 } } :=
    ⟨h₂.world, hr.origin s₂.task _ ⟨rfl, rfl, rfl, rfl, rfl⟩ h₂.job, singleChunks_laidOut h₂.shape, rfl⟩
  rw [wp_bind]
  refine wp_mono (held_any (held_tolerates hr).persistTask hsingle) (fun _ s₃ h₃ => ?_) (fun _ _ h => h) (fun _ h => h)
  rw [wp_bind]
  refine wp_mono (held_any (held_partOp hr (fun _ => ⟨_, rfl⟩) fun _ _ => ⟨_, rfl⟩) h₃) (fun _ s₄ h₄ => ?_)
    (fun _ _ h => h) (fun _ h => h)
  rw [wp_bind, wp_get, wp_bind, wp_modify, wp_bind]
  refine wp_mono (held_any (held_receiveSingle hr _ _) (h₄.record hr (by simp))) (fun _ s₅ h₅ => ?_) (fun _ _ h => h)
    (fun _ h => h)
  cases (env.protocol.downloadSingle s₄.task.url).result with
  | error e => exact h₅.any
  | ok _ =>
    rw [wp_bind, wp_get]
    dsimp only
    split
    · exact h₅.any
    · exact ⟨h₅.world, hr.origin s₅.task _ ⟨rfl, rfl, rfl, rfl, rfl⟩ h₅.job, singleDone_laid h₅.shape _, trivial⟩

/-- The chunks of a ranged download. -/
theorem held_planRange (hr : JobRule G P) {n : Nat} (h : Held G P shape s)
    (hsize : n = 0 ∨ n = s.task.fileSize) (hshape : ∀ layout layout' size, shape layout size → shape layout' size) :
    Held G P shape { s with task := planRange env n s.task } :=
  ⟨h.world, hr.origin s.task _ ⟨rfl, rfl, rfl, rfl, rfl⟩ h.job, planRange_laid h.laid fun _ => hsize,
    hshape _ _ _ h.shape⟩

theorem held_recompute (hr : JobRule G P) : Keeps (Held G P shape) (updateTask recomputeDownloaded) :=
  held_change hr (fun _ => ⟨rfl, rfl, rfl, rfl, rfl⟩) (fun _ => rfl) (fun _ => rfl)

theorem held_transferWithRange (hr : JobRule G P) (h : Held G P (Announced info) s) :
    wp (transferWithRange env info) (fun _ => Held G P AnyShape) (fun _ => Held G P AnyShape)
      (Held G P AnyShape) s := by
  unfold transferWithRange
  rw [wp_bind]
  refine wp_mono (held_any (held_tolerates hr).ensureTaskTempDir h) (fun _ s₁ h₁ => ?_) (fun _ _ h => h) (fun _ h => h)
  rw [wp_bind, wp_updateTask, wp_bind]
  have hplan : Held G P (Announced info) { s₁ with task := planRange env info.fileSize s₁.task } :=
    held_planRange hr h₁ (by
      by_cases hzero : info.fileSize = 0
      · exact .inl hzero
      · exact .inr (h₁.shape hzero).symm) fun _ _ _ h => h
  refine wp_mono (held_any (held_recompute hr) hplan) (fun _ s₂ h₂ => ?_) (fun _ _ h => h) (fun _ h => h)
  rw [wp_bind]
  refine wp_mono (held_any (held_tolerates hr).persistTask h₂) (fun _ s₃ h₃ => ?_) (fun _ _ h => h) (fun _ h => h)
  rw [wp_bind, wp_get, wp_bind, wp_updateTask, wp_bind]
  have hmarked : Held G P (Announced info) { s₃ with task := markDone s₃.task } :=
    h₃.progress hr ⟨rfl, rfl, rfl, rfl, rfl⟩ (markDone_map _ (fun _ _ => rfl) _) rfl
  refine wp_mono (held_any (runPool_keeps (held_stepWorker hr) _) hmarked) (fun errors s₄ h₄ => ?_) (fun _ _ h => h)
    (fun _ h => h)
  cases errors with
  | nil =>
    rw [wp_bind, wp_get]
    split
    · exact h₄.any
    · exact (((held_tolerates hr).setFailure (by decide) _).bind fun _ => KeepsOr.pure _) _ h₄.any
  | cons first rest =>
    dsimp only
    split
    · rw [wp_bind, wp_updateTask, wp_bind]
      have hempty : Held G P (Announced info)
          { s₄ with task := { s₄.task with
              chunks := []
              downloaded := 0
              lastError := some (text "server ignored Range request; falling back to single-stream download") } } :=
        ⟨h₄.world, hr.origin s₄.task _ ⟨rfl, rfl, rfl, rfl, rfl⟩ h₄.job, .inl rfl, h₄.shape⟩
      refine wp_mono (held_any (held_tolerates hr).persistTask hempty) (fun _ s₅ h₅ => ?_) (fun _ _ h => h)
        (fun _ h => h)
      rw [wp_bind]
      exact wp_mono (held_transferSingleStream hr h₅) (fun _ _ h => h) (fun _ _ h => h) (fun _ h => h)
    · refine (((held_tolerates hr).setFailure ?_ _).bind fun _ => KeepsOr.pure _) _ h₄.any
      split <;> decide

/-- Metadata that did not change is remembered. -/
theorem Held.remember (hr : JobRule G P) (h : Held G P shape s) (hsame : metadataChanged s.task info = false) :
    Held G P (Announced info) { s with task := rememberMetadata s.task info } := by
  refine ⟨h.world, hr.origin s.task _ ⟨rfl, rfl, rfl, rfl, rfl⟩ h.job, rememberMetadata_laid h.laid hsame,
    fun hsize => ?_⟩
  exact if_neg hsize

theorem held_transferFrom (hr : JobRule G P) (h : Held G P AnyShape s) (hsame : metadataChanged s.task info = false) :
    wp (transferFrom env info) (fun _ => Held G P AnyShape) (fun _ => Held G P AnyShape) (Held G P AnyShape) s := by
  unfold transferFrom
  rw [wp_bind, wp_updateTask, wp_bind]
  refine wp_mono (held_any (held_tolerates hr).persistTask (h.remember hr hsame)) (fun _ s₁ h₁ => ?_) (fun _ _ h => h)
    (fun _ h => h)
  rw [wp_bind, wp_get]
  split
  · exact held_transferWithRange hr h₁
  · rw [wp_bind]
    exact wp_mono (held_transferSingleStream hr h₁) (fun _ _ h => h) (fun _ _ h => h) (fun _ h => h)

theorem held_transfer (hr : JobRule G P) : Keeps (Held G P AnyShape) (transfer env) := by
  unfold transfer
  refine (held_tolerates hr).beginTask.bind fun _ => (held_fetchMetadata hr).bind fun info s hs => ?_
  rw [wp_bind, wp_get]
  split
  · exact (((held_tolerates hr).setFailure (by decide) _).bind fun _ => KeepsOr.pure _) _ hs
  · exact held_transferFrom hr hs (Bool.eq_false_of_not_eq_true ‹_›)

theorem held_mergeAndComplete (hr : JobRule G P) : Keeps (Held G P AnyShape) (mergeAndComplete env) := by
  refine (held_tolerates hr).mergeAndComplete (fun s w' hw h => ?_) (fun s h => ?_)
  · exact ⟨hr.out _ _ _ hw h.job h.world, h.job, h.laid, h.shape⟩
  · exact (h.record hr (e := .assigned s.task.id .completed) (by simp)).progress hr ⟨rfl, rfl, rfl, rfl, rfl⟩ rfl rfl

/-- What a session keeps on its way through `download`. -/
theorem held_download (hr : JobRule G P) : Keeps (Held G P AnyShape) (download env) :=
  keeps_download (held_transfer hr) (held_mergeAndComplete hr) (held_tolerates hr).failWith

theorem held_prepareFrom (hr : JobRule G P) (h : Held G P AnyShape s) (hsame : metadataChanged s.task info = false) :
    wp (prepareFrom env info) (fun _ => Held G P AnyShape) (fun _ => Held G P AnyShape) (Held G P AnyShape) s := by
  unfold prepareFrom prepareChunks
  rw [wp_bind, wp_updateTask, wp_bind, wp_bind, wp_get]
  have hknown : Held G P (fun _ size => size = (rememberMetadata s.task info).fileSize)
      { s with task := rememberMetadata s.task info } :=
      ⟨h.world, (h.remember hr hsame).job, (h.remember hr hsame).laid, rfl⟩
  split
  · rw [wp_bind]
    refine wp_mono (held_any (held_tolerates hr).ensureTaskTempDir hknown) (fun _ s₁ h₁ => ?_) (fun _ _ h => h)
      (fun _ h => h)
    rw [wp_bind, wp_updateTask]
    have hplan : Held G P _ { s₁ with task := planRange env (rememberMetadata s.task info).fileSize s₁.task } :=
      held_planRange hr h₁ (.inr h₁.shape.symm) fun _ _ _ h => h
    exact ((held_recompute hr).bind fun _ => (held_tolerates hr).persistTask) _ hplan.any
  · exact (held_tolerates hr).persistTask _ hknown.any

theorem held_prepareTask (hr : JobRule G P) : Keeps (Held G P AnyShape) (prepareTask env) := by
  refine KeepsOr.tryCatch ?_ (held_tolerates hr).failWith
  refine (held_tolerates hr).beginTask.bind fun _ => (held_fetchMetadata hr).bind fun info s hs => ?_
  rw [wp_bind, wp_get]
  split
  · exact (held_tolerates hr).setFailure (by decide) _ _ hs
  · exact held_prepareFrom hr hs (Bool.eq_false_of_not_eq_true ‹_›)

theorem held_finalize (hr : JobRule G P) : Keeps (Held G P AnyShape) (finalizePreparedTask env) :=
  keeps_finalize (held_tolerates hr).persistTask ((held_tolerates hr).setFailure (by decide)) (held_mergeAndComplete hr)

end Sessions

end Cget
