import Cget.Recovery
import Cget.Resume
/-!
# Sessions of one task

A session recovers the store, reloads the task and downloads it. Whatever its transfers do,
it leaves what the next session can resume from; if it completes the task, the merged parts
are the remote file.
-/

namespace Cget

open Prog

variable {env : Env} {R : Bytes} {j : DownloadTask} {info : RemoteFileInfo} {s s' : Session} {c : Chunk}
  {part : Option Bytes}

/-! ## The merge of exact parts -/

/-- The part files of chunks that tile a range, in the order of the merge. -/
theorem gather_pieces {t : DownloadTask} {d : Disk} {cs : List Chunk} {start stop : Nat} (htiles : Tiles start cs stop)
    (hexact : ∀ c ∈ cs, Exact R c (t.partOn d c)) (hall : (gatherParts d t.tempDir cs).2 = none) :
    ∃ ps, Pieces R start ps stop ∧ ps.flatMap (·.2) = (gatherParts d t.tempDir cs).1 := by
  induction cs generalizing start with
  | nil => exact ⟨[], htiles, rfl⟩
  | cons c cs ih =>
    obtain ⟨rfl, hle, hrest⟩ := htiles
    have hc := hexact c List.mem_cons_self
    simp only [gatherParts] at hall ⊢
    split at hall
    · cases hall
    · rename_i hsafe
      simp only [DownloadTask.partOn, chunkPath, if_neg hsafe, Except.toOption, Option.bind_some] at hc
      rw [if_neg hsafe]
      cases hp : d.parts (joinPath t.tempDir c.tempPath) with
      | none => simp [hp] at hall
      | some b =>
        simp only [hp] at hall hc ⊢
        obtain ⟨ps, hps, hflat⟩ := ih hrest (fun e he => hexact e (List.mem_cons_of_mem _ he)) hall
        have hnext : c.start + c.size = c.stop + 1 := by rw [c.size_of_le hle]; omega
        exact ⟨(c.size, b) :: ps, ⟨hc, by rwa [hnext]⟩, by simp [hflat]⟩

/-- All is there, and the part files hold no byte too many. -/
structure Ready (R : Bytes) (j : DownloadTask) (s : Session) : Prop extends Resuming R j s where
  whole : s.task.fileSize = R.length
  exact : ∀ c ∈ s.task.chunks, Exact R c (s.task.partOn s.world.disk c)

/-- A merge that passes the size check is the remote file. -/
theorem Ready.merged {b : Bytes} (h : Ready R j s)
    (hb : assembled env s.world.disk s.task.chunks s.task.tempDir s.task.fileSize = some b) : b = R := by
  obtain ⟨hlen, hall, hpre⟩ := assembled_some hb
  rw [h.whole] at hlen
  by_cases hnil : s.task.chunks = []
  · rw [hnil] at hpre
    obtain rfl : b = [] := List.prefix_nil.1 hpre
    exact (List.length_eq_zero_iff.1 hlen.symm).symm
  · obtain ⟨ps, hps, hflat⟩ := gather_pieces (h.shaped.tiled hnil).2 h.exact hall
    rw [← hflat] at hpre
    have hmax := hps.length_le.2
    have hmin := hpre.length_le
    rw [Nat.sub_zero] at hmax
    have hbflat : b = ps.flatMap (·.2) := hpre.eq_of_length (by omega)
    rw [hbflat, hps.whole (by rw [Nat.sub_zero, ← hbflat]; exact hlen), Nat.sub_zero, slice_zero_length]

/-- The process is gone, and what is on disk can be resumed. -/
def Left (R : Bytes) (j : DownloadTask) (s : Session) : Prop := Resumable R j s.world

theorem Resuming.record (h : Resuming R j s) (e : Event) : Resuming R j (s.record e) :=
  ⟨h.job, h.status, h.shaped, h.good, h.saved.frame rfl rfl (List.subset_cons_self _ _)⟩

/-! ## Single streams -/

/-- The chunks of a single stream: none, or the whole file in `single.part`. -/
def IsSingle (R : Bytes) (t : DownloadTask) : Prop :=
  t.chunks.length ≤ 1 ∧ ∀ c ∈ t.chunks, 0 < R.length ∧ c.place = (0, R.length - 1, singlePart)

theorem chunkPath_single (t : DownloadTask) (hc : c.tempPath = singlePart) :
    chunkPath t c = .ok (joinPath t.tempDir singlePart) := by
  unfold chunkPath
  rw [hc, if_neg (by decide)]

theorem partOn_single (t : DownloadTask) (d : Disk) (hc : c.tempPath = singlePart) :
    t.partOn d c = d.parts (joinPath t.tempDir singlePart) := by
  rw [DownloadTask.partOn, chunkPath_single t hc]
  rfl

/-- A chunk of the whole file is exact as long as its part is a prefix of the file. -/
theorem exact_whole (hpos : 0 < R.length) (hc : c.place = (0, R.length - 1, singlePart)) (hp : part.getD [] <+: R) :
    Exact R c part := by
  simp only [Chunk.place, Prod.mk.injEq] at hc
  rwa [Exact, Chunk.bytes, hc.1, Chunk.size_whole hpos hc.1 hc.2.1, slice_zero_length]

theorem IsSingle.shaped {t : DownloadTask} (h : IsSingle R t) (hsize : t.fileSize = 0 ∨ t.fileSize = R.length)
    (hfull : t.chunks ≠ [] → t.fileSize = R.length) : Shaped R t := by
  obtain ⟨hlen, hplace⟩ := h
  rcases ht : t.chunks with _ | ⟨c, _ | ⟨d, ds⟩⟩
  · exact ⟨hsize, fun hne => absurd ht hne, by simp [ht], by simp [ht]⟩
  · obtain ⟨hpos, hc⟩ := hplace c (by simp [ht])
    simp only [Chunk.place, Prod.mk.injEq] at hc
    refine ⟨hsize, fun hne => ⟨hfull hne, ?_⟩, by simp [ht], by simp [ht]⟩
    rw [ht]
    exact ⟨hc.1, by omega, show c.stop + 1 = R.length by omega⟩
  · simp [ht] at hlen

/-- The only chunk of a task in `single.part` is the whole file. -/
theorem Shaped.single_place {t : DownloadTask} (h : Shaped R t) (hc : c ∈ t.chunks) (hname : c.tempPath = singlePart) :
    0 < R.length ∧ c.place = (0, R.length - 1, singlePart) := by
  have hlen := h.single c hc hname
  have htiles := (h.tiled (List.ne_nil_of_mem hc)).2
  rcases ht : t.chunks with _ | ⟨d, _ | ⟨e, es⟩⟩
  · simp [ht] at hlen
  · obtain rfl : c = d := by simpa [ht] using hc
    rw [ht] at htiles
    obtain ⟨hstart, hle, hstop : c.stop + 1 = R.length⟩ := htiles
    exact ⟨by omega, by simp [Chunk.place, hstart, hname]; omega⟩
  · simp [ht] at hlen

theorem AllGood.setSingle {t : DownloadTask} {d : Disk} {b : Option Bytes} (h : AllGood R t d) (hs : Shaped R t)
    (hp : b.getD [] <+: R) : AllGood R t (d.setPart (joinPath t.tempDir singlePart) b) := by
  intro c hc
  by_cases hpath : chunkPath t c = .ok (joinPath t.tempDir singlePart)
  · have hname : c.tempPath = singlePart :=
      chunkPath_inj (d := { c with tempPath := singlePart }) hpath (chunkPath_single t rfl)
    obtain ⟨hpos, hplace⟩ := hs.single_place hc hname
    rw [partOn_single t _ hname]
    simpa using (exact_whole hpos hplace hp).good
  · have hsame : t.partOn (d.setPart (joinPath t.tempDir singlePart) b) c = t.partOn d c := by
      unfold DownloadTask.partOn
      cases hq : chunkPath t c with
      | error e => rfl
      | ok q =>
        have hne : q ≠ joinPath t.tempDir singlePart := fun he => hpath (by rw [hq, he])
        simp [Except.toOption, hne]
    rw [hsame]
    exact h c hc

/-- `single.part` may hold any first bytes of the file. -/
theorem Resumable.setSingle {w : World} {b : Option Bytes} (h : Resumable R j w) (hp : b.getD [] <+: R) (n : Nat) :
    Resumable R j { w with disk := w.disk.setPart (joinPath j.tempDir singlePart) b, tick := n } := by
  obtain ⟨t, hmain, hlog, hjob, hst, hshaped, hgood⟩ := h
  refine ⟨t, hmain, hlog, hjob, hst, hshaped, ?_⟩
  rw [← hjob.2.2.2]
  exact hgood.setSingle hshaped hp

theorem Resuming.setSingle {b : Option Bytes} (h : Resuming R j s) (hp : b.getD [] <+: R) (n : Nat) :
    Resuming R j { s with world :=
      { s.world with disk := s.world.disk.setPart (joinPath j.tempDir singlePart) b, tick := n } } := by
  refine ⟨h.job, h.status, h.shaped, ?_, h.saved.setSingle hp n⟩
  have hgood := h.good.setSingle h.shaped hp
  rwa [h.job.2.2.2] at hgood

/-- A single stream that has received the bytes `done`. -/
structure Streaming (R : Bytes) (j : DownloadTask) (done : Bytes) (s : Session) : Prop extends Resuming R j s where
  single : IsSingle R s.task
  part : (s.world.disk.parts (joinPath j.tempDir singlePart)).getD [] = done

theorem streaming_tolerates {done : Bytes} : ToleratesSaves (Streaming R j done) where
  tick s n h := ⟨resuming_tolerates.tick s n h.toResuming, h.single, h.part⟩
  task s t h ht := ⟨resuming_tolerates.task s t h.toResuming ht, by rw [IsSingle, ht.2.1]; exact h.single, h.part⟩
  status s st h hst := ⟨resuming_tolerates.status s st h.toResuming hst, h.single, h.part⟩
  saved s h := ⟨resuming_tolerates.saved s h.toResuming, h.single, h.part⟩

theorem Streaming.append {done bs : Bytes} (h : Streaming R j done s) (hp : done ++ bs <+: R) (n : Nat) :
    Streaming R j (done ++ bs) { s with world :=
      { s.world with disk := s.world.disk.appendPart (joinPath j.tempDir singlePart) bs, tick := n } } := by
  unfold Disk.appendPart
  rw [h.part]
  exact ⟨h.toResuming.setSingle (b := some (done ++ bs)) hp n, h.single, by simp⟩

theorem countSingle_places (t : DownloadTask) (n : Nat) :
    (countSingle t n).chunks.map (·.place) = t.chunks.map (·.place) :=
  countSingle_map _ (fun _ _ => rfl) t n

theorem IsSingle.congr {t t' : DownloadTask} (h : IsSingle R t)
    (hplace : t'.chunks.map (·.place) = t.chunks.map (·.place)) :
    IsSingle R t' := by
  refine ⟨?_, fun c hc => ?_⟩
  · have := congrArg List.length hplace
    simp only [List.length_map] at this
    rw [this]
    exact h.1
  · obtain ⟨d, hd, hdc⟩ := place_mem hplace hc
    rw [← hdc]
    exact h.2 d hd

/-- The callbacks of a single stream write down what the server sends. -/
theorem receiveSingle_streams : ∀ (blocks : List Block) (done : Bytes) (s : Session), Streaming R j done s →
    done ++ blocks.flatMap (·.data) <+: R →
    wp (receiveSingle env (joinPath j.tempDir singlePart) blocks)
      (fun _ => Streaming R j (done ++ blocks.flatMap (·.data))) (fun _ => Resuming R j) (Left R j) s
  | [], done, s, h, _ => by simpa [receiveSingle] using h
  | b :: bs, done, s, h, hp => by
    rw [List.flatMap_cons, ← List.append_assoc] at hp ⊢
    have hcut : ∀ k, done ++ b.data.take k <+: R := fun k =>
      ((List.prefix_append_right_inj _).2 (List.take_prefix k b.data)).trans ((List.prefix_append _ _).trans hp)
    unfold receiveSingle
    simp only [wp_bind, onWorld, wp_focus, wp_updateTask]
    refine wp_fileOp (fun _ => ?_) (fun k _ => (h.append (hcut k) _).toResuming)
      (fun k _ => (h.append (hcut k) _).saved)
    have happ := h.append ((List.prefix_append _ _).trans hp) (s.world.tick + 1)
    refine wp_mono (streaming_tolerates.flushTask _ ⟨happ.toResuming.change ⟨rfl, rfl, rfl, rfl, rfl, rfl⟩ rfl
      (countSingle_places _ b.data.length), happ.single.congr (countSingle_places _ _), happ.part⟩)
      (fun _ s' h' => ?_) (fun _ _ h => h.toResuming) (fun _ h => h.saved)
    exact receiveSingle_streams bs _ s' h' hp

/-- The session knows the size of the file, if the server has announced it. -/
def Sized (R : Bytes) (j : DownloadTask) (info : RemoteFileInfo) (s : Session) : Prop :=
  Resuming R j s ∧ (info.fileSize ≠ 0 → info.fileSize = R.length ∧ s.task.fileSize = R.length)

theorem sized_tolerates : ToleratesSaves (Sized R j info) where
  tick s n h := ⟨resuming_tolerates.tick s n h.1, h.2⟩
  task s t h ht := ⟨resuming_tolerates.task s t h.1 ht, by rw [ht.2.2.1]; exact h.2⟩
  status s st h hst := ⟨resuming_tolerates.status s st h.1 hst, h.2⟩
  saved s h := ⟨resuming_tolerates.saved s h.1, h.2⟩

/-- The single part is emptied before the stream. -/
theorem emptySingle_wp (h : Sized R j info s) :
    wp (onWorld (truncateFile env (joinPath j.tempDir singlePart) 0))
      (fun _ s' => Sized R j info s' ∧ (s'.world.disk.parts (joinPath j.tempDir singlePart)).getD [] = [])
      (fun _ => Resuming R j) (Left R j) s := by
  simp only [onWorld, wp_focus, truncateFile, wp_bind, wp_get, wp_ite]
  split
  · have hempty : ((s.world.disk.parts (joinPath j.tempDir singlePart)).map (·.take 0)).getD [] = [] := by
      cases s.world.disk.parts (joinPath j.tempDir singlePart) <;> rfl
    refine wp_fileOp (fun _ => ⟨⟨h.1.setSingle (by rw [hempty]; exact List.nil_prefix) _, h.2⟩, by simpa using hempty⟩)
      (fun _ _ => resuming_tolerates.tick s _ h.1) (fun _ _ => (resuming_tolerates.tick s (s.world.tick + 1) h.1).saved)
  · rename_i hnone
    rw [Bool.not_eq_true, Option.isSome_eq_false_iff, Option.isNone_iff_eq_none] at hnone
    exact ⟨h, by rw [hnone]; rfl⟩

theorem singleChunks_single (t : DownloadTask) (hsize : info.fileSize ≠ 0 → info.fileSize = R.length) :
    IsSingle R { t with chunks := singleChunks info, downloaded := 0 } := by
  unfold IsSingle singleChunks
  dsimp only
  split
  · rename_i hpos
    have hlen := hsize (by omega)
    refine ⟨le_refl _, fun c hc => ?_⟩
    obtain rfl := List.mem_singleton.1 hc
    exact ⟨by omega, by rw [← hlen]; rfl⟩
  · exact ⟨Nat.zero_le _, by simp⟩

/-- A task without chunks, or with one of the whole file, begins a single stream. -/
theorem streaming_start {t : DownloadTask} (h : Resuming R j s) (hjob : s.task.SameJob t) (hsingle : IsSingle R t)
    (hsize : t.fileSize = 0 ∨ t.fileSize = R.length) (hfull : t.chunks ≠ [] → t.fileSize = R.length)
    (hempty : (s.world.disk.parts (joinPath j.tempDir singlePart)).getD [] = []) :
    Streaming R j [] { s with task := t } := by
  have hjob' := h.job.of_sameJob hjob
  refine ⟨⟨hjob', by rw [hjob.2.2.2.2.2]; exact h.status, hsingle.shaped hsize hfull, fun c hc => ?_, h.saved⟩,
    hsingle, hempty⟩
  obtain ⟨hpos, hplace⟩ := hsingle.2 c hc
  have hname : c.tempPath = singlePart := congrArg (fun q => q.2.2) hplace
  rw [partOn_single t _ hname, hjob'.2.2.2]
  exact (exact_whole hpos hplace (by rw [hempty]; exact List.nil_prefix)).good

theorem singleDone_single {t : DownloadTask} (h : IsSingle R t) : IsSingle R (singleDone t info R.length) := by
  obtain ⟨hlen, hplace⟩ := h
  unfold IsSingle singleDone
  dsimp only
  rcases ht : t.chunks with _ | ⟨c, cs⟩
  · dsimp only
    split
    · refine ⟨le_refl _, fun c hc => ?_⟩
      obtain rfl := List.mem_singleton.1 hc
      exact ⟨‹_›, rfl⟩
    · exact ⟨Nat.zero_le _, by simp⟩
  · rw [ht] at hlen
    obtain rfl : cs = [] := List.length_eq_zero_iff.1 (by simpa using hlen)
    refine ⟨le_refl _, fun d hd => ?_⟩
    obtain rfl := List.mem_singleton.1 hd
    exact hplace c (by simp [ht])

/-- A stream that has received all of the file is ready to be merged. -/
theorem Streaming.ready (h : Streaming R j R s) (hsize : info.fileSize ≠ 0 → info.fileSize = R.length) :
    Ready R j { s with task := singleDone s.task info R.length } := by
  have hwhole : (singleDone s.task info R.length).fileSize = R.length := by
    simp only [singleDone]
    split
    · rfl
    · exact hsize ‹_›
  have hsingle : IsSingle R (singleDone s.task info R.length) := singleDone_single h.single
  have hexact : ∀ c ∈ (singleDone s.task info R.length).chunks,
      Exact R c ((singleDone s.task info R.length).partOn s.world.disk c) := fun c hc => by
    obtain ⟨hpos, hplace⟩ := hsingle.2 c hc
    have hname : c.tempPath = singlePart := congrArg (fun q => q.2.2) hplace
    rw [partOn_single _ _ hname]
    refine exact_whole hpos hplace ?_
    change (s.world.disk.parts (joinPath s.task.tempDir singlePart)).getD [] <+: R
    rw [h.job.2.2.2, h.part]
  exact ⟨⟨h.job, h.status, hsingle.shaped (.inr hwhole) fun _ => hwhole, fun c hc => (hexact c hc).good, h.saved⟩,
    hwhole, hexact⟩

theorem transferSingleStream_ready (hf : Faithful R env.protocol j.url) (h : Sized R j info s) :
    wp (transferSingleStream env info) (fun _ => Ready R j) (fun _ => Resuming R j) (Left R j) s := by
  unfold transferSingleStream
  rw [wp_bind]
  refine wp_mono (sized_tolerates.ensureTaskTempDir s h) (fun _ s₁ h₁ => ?_) (fun _ _ h => h.1) (fun _ h => h.1.saved)
  rw [wp_bind, wp_get, wp_bind, h₁.1.job.2.2.2]
  refine wp_mono (emptySingle_wp h₁) (fun _ s₂ h₂ => ?_) (fun _ _ h => h) (fun _ h => h)
  obtain ⟨⟨h₂, hsize⟩, hempty⟩ := h₂
  rw [wp_bind, wp_updateTask, wp_bind]
  have hchunks : singleChunks info ≠ [] → info.fileSize ≠ 0 := by
    unfold singleChunks
    split <;> simp; omega
  have hstart := streaming_start (t := { s₂.task with chunks := singleChunks info, downloaded := 0 }) h₂
    ⟨rfl, rfl, rfl, rfl, rfl, rfl⟩ (singleChunks_single _ fun hne => (hsize hne).1) h₂.shaped.size
    (fun hne => (hsize (hchunks hne)).2) hempty
  refine wp_mono (streaming_tolerates.persistTask _ hstart) (fun _ s₃ h₃ => ?_) (fun _ _ h => h.toResuming)
    (fun _ h => h.saved)
  simp only [wp_bind, wp_get, wp_modify, onWorld, wp_focus]
  refine wp_fileOp (fun _ => ?_) (fun _ _ => resuming_tolerates.tick s₃ _ h₃.toResuming)
    (fun _ _ => (resuming_tolerates.tick s₃ (s₃.world.tick + 1) h₃.toResuming).saved)
  have hopen : Streaming R j [] (Session.record { s₃ with world :=
      { s₃.world with
        disk := s₃.world.disk.setPart (joinPath j.tempDir singlePart) (some []), tick := s₃.world.tick + 1 } }
      (.requested s₃.task.id .single)) :=
    ⟨(h₃.toResuming.setSingle (b := some []) List.nil_prefix _).record _, h₃.single,
      by simp [Session.record, World.record]⟩
  have hurl : s₃.task.url = j.url := h₃.job.2.1
  rw [hurl]
  refine wp_mono (receiveSingle_streams _ _ _ hopen hf.2.1) (fun _ s₄ h₄ => ?_) (fun _ _ h => h) (fun _ h => h)
  cases hresult : (env.protocol.downloadSingle j.url).result with
  | error e => exact h₄.toResuming
  | ok _ =>
    have hall : (env.protocol.downloadSingle j.url).bytes = R := hf.2.2.1 hresult
    have h₄ : Streaming R j R s₄ := by
      have := h₄
      rwa [List.nil_append, ← Transfer.bytes, hall] at this
    have hgot : fileSize (s₄.world.disk.parts (joinPath j.tempDir singlePart)) = R.length := by rw [fileSize, h₄.part]
    simp only [wp_bind, wp_get, wp_ite, wp_throw, wp_updateTask, hgot]
    split
    · exact h₄.toResuming
    · exact h₄.ready fun hne => (hsize hne).1

/-! ## Ranged downloads -/

/-- The task on disk has the chunks and the size of the one in memory. -/
structure Linked (R : Bytes) (j : DownloadTask) (s : Session) : Prop where
  job : OfJob j s.task
  status : s.task.status ≠ .corrupted
  shaped : Shaped R s.task
  stored : ∃ t, (s.world.disk.tasks j.id).main = some (.written t) ∧ .saved t ∈ s.world.log ∧ OfJob j t ∧
    t.status ≠ .corrupted ∧ t.fileSize = s.task.fileSize ∧ t.chunks.map (·.place) = s.task.chunks.map (·.place)

/-- Each part file holds the bytes of its chunk, and those that are done no more. -/
def Begun (R : Bytes) (t : DownloadTask) (d : Disk) : Prop :=
  ∀ c ∈ t.chunks, Good R c (t.partOn d c) ∧ Tidy c (t.partOn d c)

theorem Linked.resuming (h : Linked R j s) (hg : AllGood R s.task s.world.disk) : Resuming R j s := by
  obtain ⟨t, hmain, hlog, hjob, hst, hsize, hplace⟩ := h.stored
  have hdir : t.tempDir = s.task.tempDir := hjob.2.2.2.trans h.job.2.2.2.symm
  exact ⟨h.job, h.status, h.shaped, hg, t, hmain, hlog, hjob, hst, h.shaped.congr hsize hplace,
    hg.congr hdir hplace rfl⟩

theorem Resuming.linked (h : Resuming R j s) : Linked R j s.saved := by
  refine ⟨h.job, h.status, h.shaped, s.task, ?_, List.mem_cons_self, h.job, h.status, rfl, rfl⟩
  simp [Session.saved, Session.ticked, World.saveTask, TaskFiles.commit, h.job.1]

/-- A change of a task that keeps its places. -/
theorem Linked.change {t : DownloadTask} (h : Linked R j s) (hjob : s.task.SameJob t)
    (hsize : t.fileSize = s.task.fileSize)
    (hplace : t.chunks.map (·.place) = s.task.chunks.map (·.place)) : Linked R j { s with task := t } := by
  obtain ⟨u, hmain, hlog, hu, hst, husize, huplace⟩ := h.stored
  exact ⟨h.job.of_sameJob hjob, by rw [hjob.2.2.2.2.2]; exact h.status, h.shaped.congr hsize hplace, u, hmain,
    hlog, hu, hst, husize.trans hsize.symm, huplace.trans hplace.symm⟩

theorem Linked.stepped {i : Nat} {pc : WorkerPc} (h : Linked R j s) (hc : s.task.chunks[i]? = some c) :
    Linked R j (s.stepped env i c pc) := by
  have hsame : s.task.SameRequest (s.stepped env i c pc).task := stepped_same
  have hplace : (s.stepped env i c pc).task.chunks.map (·.place) = s.task.chunks.map (·.place) := by
    rw [stepped_chunks]
    have hmove : c.SamePlace (s.task.move env s.world.tick c (s.task.partOn s.world.disk c) pc).chunk :=
      workerMove_place
    obtain ⟨-, hstart, hstop, hname⟩ := hmove
    exact map_set_eq hc (by simp only [Chunk.place, hstart, hstop, hname])
  have hjob := h.job.of_sameRequest hsame
  have hshaped := h.shaped.congr hsame.2.2.2.2.1 hplace
  have hst : (s.stepped env i c pc).task.status ≠ .corrupted := by
    have hcases : _ ∨ (s.stepped env i c pc).task.status = .downloading ∨ _ := stepped_status
    rcases hcases with hs | hs | hs <;> rw [hs]
    exacts [h.status, by decide, by decide]
  refine ⟨hjob, hst, hshaped, ?_⟩
  obtain ⟨t, hmain, hlog, ht, htst, htsize, htplace⟩ := h.stored
  have hfiles : _ ∨ ∃ w : World, _ ∧ _ ∧ (s.stepped env i c pc).world = w.saveTask (s.stepped env i c pc).task :=
    stepped_files
  rcases hfiles with ⟨hfiles, hsub⟩ | ⟨w, -, -, hw⟩
  · exact ⟨t, by rw [hfiles]; exact hmain, hsub hlog, ht, htst, htsize.trans hsame.2.2.2.2.1.symm,
      htplace.trans hplace.symm⟩
  · refine ⟨(s.stepped env i c pc).task, ?_, ?_, hjob, hst, rfl, rfl⟩ <;> rw [hw]
    · simp [World.saveTask, TaskFiles.commit, hjob.1]
    · exact List.mem_cons_self

theorem good_of_holds {envs : TaskId → Env} {t : DownloadTask} {d : Disk} (h : (sliceRule R envs).Holds t d) :
    AllGood R t d := by
  intro c hc
  obtain ⟨i, hi⟩ := List.getElem?_of_mem hc
  rcases h i c hi with h | ⟨pc, h⟩ <;> exact h.1

/-- The part files when the process dies in a worker. -/
theorem good_stepped {i : Nat} {pc : WorkerPc} (h : Shaped R s.task) (hg : AllGood R s.task s.world.disk)
    (hc : s.task.chunks[i]? = some c) (hf : Faithful R env.protocol s.task.url)
    (ht : Tidy c (s.task.partOn s.world.disk c))
    (hpc : Continues R (chunkPath s.task c) c (s.task.partOn s.world.disk c) pc) :
    AllGood R (s.stepped env i c pc).task (s.stepped env i c pc).world.disk := by
  intro d hd
  obtain ⟨k, hk⟩ := List.getElem?_of_mem hd
  rw [stepped_chunks] at hk
  rcases getElem?_set_some hk with ⟨rfl, rfl⟩ | ⟨hki, hk⟩
  · rw [stepped_part]
    exact (workerMove_goesWell hf (hg c (List.mem_of_getElem? hc)) ht hpc).1
  · have hsame : (s.stepped env i c pc).task.partOn (s.stepped env i c pc).world.disk d =
        s.task.partOn s.world.disk d :=
      partOn_congr stepped_same rfl fun p hp => stepped_parts fun hcp =>
        hki (h.apart s.task (by simp) s.task (by simp) k i d c p hk hc hp hcp).2
    rw [hsame]
    exact hg d (List.mem_of_getElem? hk)

theorem slice_pool :
    PoolInvariant (sliceRule R fun _ => env) (fun s => Linked R j s ∧ s.task.fileSize = R.length) (Left R j) where
  step _ _ _ _ hc h _ _ := ⟨h.1.stepped hc, stepped_same.2.2.2.2.1.trans h.2⟩
  crash _ _ _ _ hc _ h hholds hb _ :=
    ((h.1.stepped hc).resuming (good_stepped h.1.shaped (good_of_holds hholds) hc hb.2.2.1 hb.2.1 hb.2.2.2)).saved
  ends _ _ h hholds := (h.1.resuming (good_of_holds hholds)).saved
  unseen h := absurd trivial h

/-- What a transfer leaves. -/
def Transferred (R : Bytes) (j : DownloadTask) (r : TransferEnd) (s : Session) : Prop :=
  Resuming R j s ∧ (r = .transferred → Ready R j s)

theorem chunkName_ne_singlePart (n : Nat) : ChunkPlanner.chunkName n ≠ singlePart := by
  intro h
  have hhead : some (99 : UInt8) = some 115 := congrArg List.head? h
  exact absurd hhead (by decide)

theorem planRange_shaped {t : DownloadTask} (h : Shaped R t) (hwhole : t.fileSize = R.length)
    (hsize : info.fileSize ≠ 0 → info.fileSize = R.length) : Shaped R (planRange env info.fileSize t) := by
  by_cases hnil : t.chunks = []
  · have hchunks : (planRange env info.fileSize t).chunks =
        ChunkPlanner.plan env.hardware info.fileSize (normalizedThreadCount env t) := by simp [planRange, hnil]
    refine ⟨.inr hwhole, fun hne => ?_, ?_, fun c hc hname => ?_⟩ <;> rw [hchunks] at *
    · have hpos : info.fileSize ≠ 0 := fun hzero => hne (by simp [ChunkPlanner.plan, hzero])
      rw [hsize hpos]
      exact ⟨hwhole, ChunkPlanner.plan_tiles ..⟩
    · exact ChunkPlanner.plan_names ..
    · obtain ⟨-, -, hn⟩ := ChunkPlanner.plan_fresh _ _ _ c hc
      exact absurd (hn.symm.trans hname) (chunkName_ne_singlePart _)
  · exact h.congr rfl (by simp [planRange, hnil])

/-- A ranged download before its threads start. -/
structure Ranging (R : Bytes) (j : DownloadTask) (s : Session) : Prop extends Linked R j s where
  whole : s.task.fileSize = R.length
  begun : Begun R s.task s.world.disk

theorem persist_ranging (h : Resuming R j s) (hwhole : s.task.fileSize = R.length) (hb : Begun R s.task s.world.disk) :
    wp (persistTask env) (fun _ => Ranging R j) (fun _ => Resuming R j) (Left R j) s := by
  have hsaving : Resuming R j (s.touched env) :=
    resuming_tolerates.task s _ h ⟨⟨rfl, rfl, rfl, rfl, rfl, rfl⟩, rfl, rfl, rfl⟩
  exact wp_persistTask (fun _ => ⟨hsaving.linked, hwhole, hb⟩) (fun _ _ => resuming_tolerates.tick _ _ hsaving)
    (fun _ _ => (resuming_tolerates.tick _ (s.world.tick + 1) hsaving).saved)

/-- The threads start on parts that can be continued. -/
theorem Ranging.pooled (h : Ranging R j s) (hf : Faithful R env.protocol j.url) :
    Pooled (sliceRule R fun _ => env) { workers := rangeWorkers s.task } { s with task := markDone s.task } := by
  refine pooled_start (fun _ => h.shaped.apart) fun i c hc => ?_
  rw [markDone_chunk, Option.map_eq_some_iff] at hc
  obtain ⟨d, hd, rfl⟩ := hc
  obtain ⟨hgood, htidy⟩ := h.begun d (List.mem_of_getElem? hd)
  have hurl : Faithful R env.protocol s.task.url := by rwa [h.job.2.1]
  split
  · exact ⟨hgood, fun _ => htidy ‹_›, hurl⟩
  · exact ⟨hgood, htidy, hurl⟩

/-- Chunks that all are complete are ready to be merged. -/
theorem Linked.ready (h : Linked R j s) (hwhole : s.task.fileSize = R.length)
    (hall : (sliceRule R fun _ => env).AllIdle s) (hdone : allComplete s.task.chunks) : Ready R j s := by
  have hgood : AllGood R s.task s.world.disk := fun c hc => by
    obtain ⟨i, hi⟩ := List.getElem?_of_mem hc
    exact (hall i c hi).1
  refine ⟨h.resuming hgood, hwhole, fun c hc => ?_⟩
  obtain ⟨i, hi⟩ := List.getElem?_of_mem hc
  have hcomplete := List.all_eq_true.1 hdone c hc
  simp only [Bool.and_eq_true, decide_eq_true_eq] at hcomplete
  exact (hgood c hc).exact ((hall i c hi).2.1 (by simp [Chunk.done, hcomplete.1]))

theorem transferWithRange_ready (hf : Faithful R env.protocol j.url) (h : Sized R j info s)
    (hwhole : s.task.fileSize = R.length) (hb : Begun R (planRange env info.fileSize s.task) s.world.disk) :
    wp (transferWithRange env info) (Transferred R j) (fun _ => Resuming R j) (Left R j) s := by
  unfold transferWithRange
  obtain ⟨h, hsize⟩ := h
  rw [wp_bind, onWorld, wp_focus]
  refine wp_fileOp (fun _ => ?_) (fun _ _ => resuming_tolerates.tick s _ h)
    (fun _ _ => (resuming_tolerates.tick s (s.world.tick + 1) h).saved)
  rw [wp_bind, wp_updateTask, wp_bind, wp_updateTask, wp_bind]
  have hplanned : Resuming R j { s with
      world := { s.world with tick := s.world.tick + 1 }
      task := recomputeDownloaded (planRange env info.fileSize s.task) } :=
    ⟨h.job, h.status, (planRange_shaped h.shaped hwhole fun hne => (hsize hne).1).congr rfl rfl,
      fun c hc => (hb c hc).1, h.saved⟩
  refine wp_mono (persist_ranging hplanned hwhole hb) (fun _ s₁ h₁ => ?_) (fun _ _ h => h) (fun _ h => h)
  rw [wp_bind, wp_get, wp_bind, wp_updateTask, wp_bind]
  have hstart : Linked R j { s₁ with task := markDone s₁.task } :=
    h₁.toLinked.change ⟨rfl, rfl, rfl, rfl, rfl, rfl⟩ rfl (markDone_map _ (fun _ _ => rfl) _)
  refine wp_mono (wp_runPool slice_pool (h₁.pooled hf) ⟨hstart, h₁.whole⟩) ?_ (fun _ _ h => h.elim) (fun _ h => h)
  intro errors s₂ h₂
  obtain ⟨hidle, hlinked, hwhole₂⟩ := h₂ fun _ => trivial
  have hres : Resuming R j s₂ := hlinked.resuming fun c hc => by
    obtain ⟨i, hi⟩ := List.getElem?_of_mem hc
    exact (hidle i c hi).1
  cases errors with
  | nil =>
    rw [wp_bind, wp_get]
    split
    · exact ⟨hres, fun _ => hlinked.ready hwhole₂ hidle ‹_›⟩
    · rw [wp_bind]
      exact wp_mono (resuming_tolerates.setFailure (by decide) _ _ hres) (fun _ _ h => ⟨h, by simp⟩) (fun _ _ h => h)
        (fun _ h => h.saved)
  | cons first rest =>
    dsimp only
    split
    · -- the fallback drops the chunks, and with them what the threads have received
      rw [wp_bind, wp_updateTask, wp_bind]
      have hcleared : Sized R j info { s₂ with task := { s₂.task with
          chunks := []
          downloaded := 0
          lastError := some (text "server ignored Range request; falling back to single-stream download") } } :=
        ⟨⟨hres.job, hres.status, ⟨.inr hwhole₂, by simp, by simp, by simp⟩, List.forall_mem_nil _, hres.saved⟩,
          fun hne => ⟨(hsize hne).1, hwhole₂⟩⟩
      refine wp_mono (sized_tolerates.persistTask _ hcleared) (fun _ s₃ h₃ => ?_) (fun _ _ h => h.1)
        (fun _ h => h.1.saved)
      rw [wp_bind]
      exact wp_mono (transferSingleStream_ready hf h₃) (fun _ _ h => ⟨h.toResuming, fun _ => h⟩) (fun _ _ h => h)
        (fun _ h => h)
    · rw [wp_bind]
      refine wp_mono (resuming_tolerates.setFailure ?_ _ _ hres) (fun _ _ h => ⟨h, by simp⟩) (fun _ _ h => h)
        (fun _ h => h.saved)
      split <;> decide

/-! ## Downloads -/

/-- If the session will plan chunks, or has some, their part files can be continued. -/
def CanContinue (R : Bytes) (env : Env) (t : DownloadTask) (d : Disk) : Prop :=
  ∀ info, env.protocol.fetchMetadata t.url = .ok info → metadataChanged t info = false →
    ranged env (rememberMetadata t info) info → Begun R (planRange env info.fileSize (rememberMetadata t info)) d

theorem Resuming.remember (h : Resuming R j s) (hinfo : info.fileSize = 0 ∨ info.fileSize = R.length) :
    Sized R j info { s with task := rememberMetadata s.task info } := by
  have hsize : info.fileSize ≠ 0 → (rememberMetadata s.task info).fileSize = R.length := fun hne => by
    simp only [rememberMetadata, if_neg hne]
    exact hinfo.resolve_left hne
  refine ⟨⟨h.job, h.status, ⟨?_, fun hne => ⟨?_, (h.shaped.tiled hne).2⟩, h.shaped.names, h.shaped.single⟩,
    h.good, h.saved⟩, fun hne => ⟨hinfo.resolve_left hne, hsize hne⟩⟩ <;> by_cases hzero : info.fileSize = 0
  · simpa [rememberMetadata, hzero] using h.shaped.size
  · exact .inr (hsize hzero)
  · simpa [rememberMetadata, hzero] using (h.shaped.tiled hne).1
  · exact hsize hzero

theorem transferFrom_ready (hf : Faithful R env.protocol j.url) (hinfo : env.protocol.fetchMetadata j.url = .ok info)
    (h : Resuming R j s)
    (hb : ranged env (rememberMetadata s.task info) info →
      Begun R (planRange env info.fileSize (rememberMetadata s.task info)) s.world.disk) :
    wp (transferFrom env info) (Transferred R j) (fun _ => Resuming R j) (Left R j) s := by
  unfold transferFrom
  rw [wp_bind, wp_updateTask, wp_bind]
  have hsaving : Sized R j info (Session.touched env { s with task := rememberMetadata s.task info }) :=
    sized_tolerates.task _ _ (h.remember (hf.2.2.2 info hinfo)) ⟨⟨rfl, rfl, rfl, rfl, rfl, rfl⟩, rfl, rfl, rfl⟩
  refine wp_persistTask (fun _ => ?_) (fun _ _ => (sized_tolerates.tick _ _ hsaving).1)
    (fun _ _ => (sized_tolerates.tick _ (s.world.tick + 1) hsaving).1.saved)
  have hsized := sized_tolerates.saved _ (sized_tolerates.tick _ (s.world.tick + 1) hsaving)
  rw [wp_bind, wp_get]
  split
  · rename_i hranged
    have hne : (rememberMetadata s.task info).fileSize ≠ 0 := by
      simp only [ranged, Bool.and_eq_true, decide_eq_true_eq] at hranged
      exact hranged.1.1
    exact transferWithRange_ready hf hsized (hsaving.1.shaped.size.resolve_left hne) (hb hranged)
  · rw [wp_bind]
    exact wp_mono (transferSingleStream_ready hf hsized) (fun _ _ h => ⟨h.toResuming, fun _ => h⟩) (fun _ _ h => h)
      (fun _ h => h)

theorem transfer_ready (hf : Faithful R env.protocol j.url) (h : Resuming R j s)
    (hb : CanContinue R env s.task s.world.disk) :
    wp (transfer env) (Transferred R j) (fun _ => Resuming R j) (Left R j) s := by
  have hbegun : Resuming R j (s.begun env) :=
    resuming_tolerates.task _ _ (resuming_tolerates.status s .downloading h (by decide))
      ⟨⟨rfl, rfl, rfl, rfl, rfl, rfl⟩, rfl, rfl, rfl⟩
  unfold transfer
  rw [wp_bind]
  refine wp_beginTask (fun _ => ?_) (fun _ _ => resuming_tolerates.tick _ _ hbegun)
    (fun _ _ => (resuming_tolerates.tick _ (s.world.tick + 1) hbegun).saved)
  have hsaved := resuming_tolerates.saved _ (resuming_tolerates.tick _ (s.world.tick + 1) hbegun)
  rw [wp_bind]
  refine wp_fetchMetadata (fun _ _ => hsaved.record _) (fun info hinfo => ?_)
  rw [wp_bind, wp_get]
  split
  · rw [wp_bind]
    exact wp_mono (resuming_tolerates.setFailure (by decide) _ _ (hsaved.record _)) (fun _ _ h => ⟨h, by simp⟩)
      (fun _ _ h => h) (fun _ h => h.saved)
  · rename_i hsame
    have hurl : (s.begun env).saved.task.url = j.url := h.job.2.1
    rw [hurl] at hinfo
    refine transferFrom_ready hf hinfo (hsaved.record _) fun hranged => ?_
    exact hb info (by rw [h.job.2.1]; exact hinfo) (Bool.eq_false_iff.2 hsame) hranged

/-- The file is in place. -/
def Delivered (R : Bytes) (j : DownloadTask) (s : Session) : Prop :=
  Resuming R j s ∧ s.world.disk.out j.targetPath = some R

theorem delivered_tolerates : ToleratesSaves (Delivered R j) where
  tick s n h := ⟨resuming_tolerates.tick s n h.1, h.2⟩
  task s t h ht := ⟨resuming_tolerates.task s t h.1 ht, h.2⟩
  status s st h hst := ⟨resuming_tolerates.status s st h.1 hst, h.2⟩
  saved s h := ⟨resuming_tolerates.saved s h.1, h.2⟩

theorem Resuming.merge {w : World} (h : Resuming R j s) (hw : OnlyTarget s.task.targetPath s.world w) :
    Resuming R j { s with world := w } :=
  ⟨h.job, h.status, h.shaped, h.good.congr rfl rfl hw.parts,
    h.saved.frame hw.tasks hw.parts (by rw [hw.log]; exact List.Subset.refl _)⟩

/-- Once the parts are ready, a commit that returns has delivered the file. -/
theorem mergeAndComplete_delivers (h : Ready R j s) :
    wp (mergeAndComplete env) (fun _ => Delivered R j) (fun _ => Resuming R j) (Left R j) s := by
  unfold mergeAndComplete
  simp only [wp_bind, wp_get, onWorld, wp_focus]
  refine wp_mono mergeChunks_wp ?_ (fun _ w hw => h.toResuming.merge hw.1) (fun w hw => (h.toResuming.merge hw.1).saved)
  rintro _ w ⟨hw, -, b, hb, hout⟩
  have hdelivered : Delivered R j { s with world := w } :=
    ⟨h.toResuming.merge hw, by rw [← h.job.2.2.1, hout, h.merged hb]⟩
  refine wp_mono (delivered_tolerates.verifyChecksum _ hdelivered) ?_ (fun _ _ h => h.1) (fun _ h => h.1.saved)
  intro ok s₁ h₁
  split
  · rw [wp_bind, wp_updateTask, wp_bind, setStatus, wp_modify, wp_bind, wp_updateTask]
    obtain ⟨hres, hout⟩ := h₁
    refine wp_mono (delivered_tolerates.persistTask _ ⟨⟨hres.job, by simp [Session.setStatus], ?_, ?_, ?_⟩, hout⟩)
      (fun _ _ h => h) (fun _ _ h => h.1) (fun _ h => h.1.saved)
    · exact hres.shaped.congr rfl rfl
    · exact hres.good.congr rfl rfl rfl
    · exact hres.saved.frame rfl rfl (List.subset_cons_self _ _)
  · exact h₁

/-- A download leaves what can be resumed; one that completes its task has delivered the file. -/
theorem download_delivers (hf : Faithful R env.protocol j.url) (h : Resuming R j s)
    (hb : CanContinue R env s.task s.world.disk) :
    wp (download env)
      (fun _ s' => Resuming R j s' ∧ (s'.task.status = .completed → s'.world.disk.out j.targetPath = some R))
      (fun _ => Resuming R j) (Left R j) s := by
  have hfail : ∀ e s', Resuming R j s' → wp (failWith env e)
      (fun _ s' => Resuming R j s' ∧ (s'.task.status = .completed → s'.world.disk.out j.targetPath = some R))
      (fun _ => Resuming R j) (Left R j) s' := fun e s' h' =>
    wp_mono (wp_and (resuming_tolerates.failWith e s' h') (failWith_uncompleted e s'))
      (fun _ _ h => ⟨h.1, fun hst => absurd hst h.2⟩) (fun _ _ h => h.1) (fun _ h => h.1.saved)
  unfold download
  rw [wp_tryCatch, wp_bind]
  refine wp_mono (wp_and (transfer_ready hf h hb)
    (tolerates_uncompleted.transfer_after (by simp [Session.setStatus]))) ?_
    (fun e s' h' => hfail e s' h'.1) (fun _ h => h.1)
  rintro r s₁ ⟨⟨hres, hready⟩, hst⟩
  cases r with
  | transferred =>
    exact wp_mono (mergeAndComplete_delivers (hready rfl)) (fun _ _ h => ⟨h.1, fun _ => h.2⟩)
      (fun e s' h' => hfail e s' h') (fun _ h => h)
  | failed => exact ⟨hres, fun hdone => absurd hdone hst⟩

/-! ## Recovery -/

theorem Good.shorten {part' : Option Bytes} (h : Good R c part) (hp : part'.getD [] <+: part.getD []) :
    Good R c part' :=
  (List.IsPrefix.take hp _).trans h

theorem Resumable.trim {w w' : World} (h : Resumable R j w) (hw : Trimmed w w') : Resumable R j w' := by
  obtain ⟨t, hmain, hlog, hjob, hst, hshaped, hgood⟩ := h
  exact ⟨t, by rw [hw.tasks]; exact hmain, by rw [hw.log]; exact hlog, hjob, hst, hshaped,
    fun c hc => (hgood c hc).shorten hw.partOn⟩

theorem repaired_fits {t t' : DownloadTask} {d : Disk} {sizes : List Nat} (h : Repaired t sizes d t') (hfits : t.Fits) :
    t'.Fits := by
  intro c' hc'
  obtain ⟨c, hc, n, hn, rfl, -⟩ := repairs_mem h.chunks hc'
  exact ⟨(hfits c hc).1, hn⟩

theorem repairedStatus_uncorrupted {t : DownloadTask} {sizes : List Nat} (h : t.status ≠ .corrupted) :
    repairedStatus t sizes ≠ .corrupted := by
  unfold repairedStatus
  split_ifs <;> first | exact h | decide

/-- A repaired task can be resumed, and its parts hold no byte too many. -/
theorem Resumable.repair {t t' : DownloadTask} {w w₁ : World} {sizes : List Nat} (h : Resumable R j w)
    (hjob : OfJob j t)
    (hst : t.status ≠ .corrupted) (hshaped : Shaped R t) (hgood : AllGood R t w.disk) (hw : Trimmed w w₁)
    (hr : Repaired t sizes w₁.disk t') :
    Resuming R j { world := w₁.noted t t', task := t' } ∧ ∀ c' ∈ t'.chunks, Exact R c' (t'.partOn w₁.disk c') := by
  have hplace : t'.chunks.map (·.place) = t.chunks.map (·.place) := repairs_map (fun _ _ => rfl) hr.chunks
  have hgood₁ : AllGood R t w₁.disk := fun c hc => (hgood c hc).shorten hw.partOn
  have hgood' : AllGood R t' w₁.disk := hgood₁.congr hr.same.2.2.2.1 hplace rfl
  have hnoted : (w₁.noted t t').disk = w₁.disk ∧ w₁.log ⊆ (w₁.noted t t').log := by
    unfold World.noted
    split
    exacts [⟨rfl, List.subset_cons_self _ _⟩, ⟨rfl, List.Subset.refl _⟩]
  refine ⟨⟨hjob.of_sameRequest hr.same, ?_, hshaped.congr hr.same.2.2.2.2.1 hplace, ?_, ?_⟩, fun c' hc' => ?_⟩
  · change t'.status ≠ .corrupted
    rw [hr.status]
    exact repairedStatus_uncorrupted hst
  · change AllGood R t' (w₁.noted t t').disk
    rw [hnoted.1]
    exact hgood'
  · exact (h.trim hw).frame (by rw [hnoted.1]) (by rw [hnoted.1]) hnoted.2
  · obtain ⟨c, hc, n, hn, rfl, hsize⟩ := repairs_mem hr.chunks hc'
    refine (hgood' _ hc').exact ?_
    rwa [show t'.partOn w₁.disk (c.repaired n) = t.partOn w₁.disk c from partOn_congr hr.same rfl fun _ _ => rfl]

/-! ## Sessions -/

/-- The store is recovered, the task reloaded and downloaded. -/
def runSession (env : Env) (id : TaskId) : Prog World Exn DownloadTask := do
  let _ ← recoverTasks env [id]
  let t ← loadTask id
  onTask t (download env)

/-- The session ended with the task Completed. -/
def completes : Outcome Exn DownloadTask → Bool
  | .ok t => t.status = .completed
  | _ => false

def sessionStep (id : TaskId) (w : World) (env : Env) : World := ((runSession env id).run w).2

/-- If the session will plan chunks, the part files found under their names can be continued. -/
def PlansClean (R : Bytes) (id : TaskId) (w : World) (env : Env) : Prop :=
  ∀ t ∈ w.disk.loadTask id, t.chunks = [] → ∀ info ∈ (env.protocol.fetchMetadata t.url).toOption,
    metadataChanged t info = false → ranged env (rememberMetadata t info) info →
      ∀ c ∈ ChunkPlanner.plan env.hardware info.fileSize (normalizedThreadCount env t), Good R c (t.partOn w.disk c)

instance {id : TaskId} {w : World} : Decidable (PlansClean R id w env) := by
  unfold PlansClean Good
  infer_instance

/-- Between two sessions. -/
def Resumed (R : Bytes) (j : DownloadTask) (w : World) : Prop := Resumable R j w ∧ SavesLoad w.log

theorem partOn_dir {t t' : DownloadTask} {d : Disk} (h : t'.tempDir = t.tempDir) : t'.partOn d c = t.partOn d c := by
  simp only [DownloadTask.partOn, chunkPath, h]

/-- The task a session downloads can be continued from what the recovery left. -/
theorem canContinue_repaired {t t' : DownloadTask} {w w₁ : World} {sizes : List Nat}
    (hclean : PlansClean R t.id w env) (hload : w.disk.loadTask t.id = some t) (hw : Trimmed w w₁)
    (hr : Repaired t sizes w₁.disk t') (hexact : ∀ c' ∈ t'.chunks, Exact R c' (t'.partOn w₁.disk c')) :
    CanContinue R env t' w₁.disk := by
  intro info hinfo hsame hranged c hc
  obtain ⟨hetag, hmodified, hthreads, -⟩ := hr.metadata
  by_cases hnil : t.chunks = []
  · have hnil' : t'.chunks = [] := by
      have := hr.chunks
      rw [hnil] at this
      exact List.forall₂_nil_left_iff.1 this
    have hplanned : c ∈ ChunkPlanner.plan env.hardware info.fileSize (normalizedThreadCount env t) := by
      have hc' : c ∈ (planRange env info.fileSize t').chunks := hc
      simp only [planRange, hnil', if_true] at hc'
      simpa only [normalizedThreadCount, hthreads] using hc'
    have hchoice : ranged env (rememberMetadata t' info) info = ranged env (rememberMetadata t info) info := by
      unfold ranged rememberMetadata normalizedThreadCount
      dsimp only
      rw [hthreads, hr.same.2.2.2.2.1]
    have hgood := hclean t hload hnil info (by rw [← hr.same.2.1, hinfo]; rfl)
      (by simpa only [metadataChanged, hetag, hmodified, hr.same.2.2.2.2.1] using hsame) (by rwa [← hchoice]) c hplanned
    obtain ⟨hzero, hpending, -⟩ := ChunkPlanner.plan_fresh _ _ _ c hplanned
    have hle := ((ChunkPlanner.plan_tiles _ _ _).mem.2 c hplanned).2.1
    have hpart : (planRange env info.fileSize (rememberMetadata t' info)).partOn w₁.disk c = t.partOn w₁.disk c :=
      partOn_dir hr.same.2.2.2.1
    rw [hpart]
    refine ⟨hgood.shorten hw.partOn, fun hdone => ?_⟩
    have := c.size_pos hle
    simp [Chunk.done, hpending, hzero] at hdone
    omega
  · have hne : t'.chunks ≠ [] := by
      rintro hnil'
      have := hr.chunks
      rw [hnil'] at this
      exact hnil (List.forall₂_nil_right_iff.1 this)
    have hkept : c ∈ t'.chunks := by
      have hc' : c ∈ (planRange env info.fileSize (rememberMetadata t' info)).chunks := hc
      simpa [planRange, rememberMetadata, hne] using hc'
    have := hexact c hkept
    have hpart : (planRange env info.fileSize (rememberMetadata t' info)).partOn w₁.disk c = t'.partOn w₁.disk c :=
      partOn_dir rfl
    rw [hpart]
    exact ⟨this.good, this.tidy⟩


theorem Resumable.loads {w : World} (h : Resumable R j w) (hlog : SavesLoad w.log) :
    ∃ t, (w.disk.tasks j.id).main.isSome ∧ w.disk.loadTask j.id = some t ∧ t.Fits ∧ OfJob j t ∧ t.status ≠ .corrupted ∧
      Shaped R t ∧ AllGood R t w.disk := by
  obtain ⟨t, hmain, hsaved, hjob, hst, hshaped, hgood⟩ := h
  have hloads : taskFromJson (.written t) = some t := hlog _ hsaved
  refine ⟨t, by simp [hmain], by simp [Disk.loadTask, TaskFiles.load, hmain, hloads],
    (taskFromJson_some hloads).2, hjob, hst, hshaped, hgood⟩

/-- A session leaves what can be resumed; one that completes the task has delivered the file. -/
theorem session_delivers {w : World} (h : Resumed R j w) (hf : Faithful R env.protocol j.url)
    (hclean : PlansClean R j.id w env) :
    wp (runSession env j.id)
      (fun t w' => Resumed R j w' ∧ (t.status = .completed → w'.disk.out j.targetPath = some R))
      (fun _ => Resumed R j) (Resumed R j) w := by
  obtain ⟨t, hmain, hload, hfits, hjob, hst, hshaped, hgood⟩ := h.1.loads h.2
  have htrim : ∀ w', Trimmed w w' → Resumed R j w' := fun w' hw => ⟨h.1.trim hw, by rw [hw.log]; exact h.2⟩
  unfold runSession
  rw [wp_bind, recoverTasks_single hmain hload hst]
  refine wp_mono (repairFromDisk_wp t w) ?_ (fun _ => htrim) htrim
  rintro t' w' ⟨w₁, hw₁, hr, rfl⟩
  obtain ⟨hres, hexact⟩ := h.1.repair hjob hst hshaped hgood hw₁ hr
  have hfits' := repaired_fits hr hfits
  have hnoted : (w₁.noted t t').disk = w₁.disk ∧ SavesLoad (w₁.noted t t').log := by
    have hlog₁ : SavesLoad w₁.log := by rw [hw₁.log]; exact h.2
    unfold World.noted
    split
    exacts [⟨rfl, hlog₁.quiet trivial⟩, ⟨rfl, hlog₁⟩]
  refine wp_saveTask (fun _ => ?_) (fun _ _ => ⟨hres.saved, hnoted.2⟩) (fun _ _ => ⟨hres.saved, hnoted.2⟩)
  have hsaved := resuming_tolerates.saved _ (resuming_tolerates.tick _ ((w₁.noted t t').tick + 1) hres)
  have hlog : SavesLoad (World.saveTask { w₁.noted t t' with tick := (w₁.noted t t').tick + 1 } t').log :=
    hnoted.2.quiet hfits'.loads
  have hreload :
      (World.saveTask { w₁.noted t t' with tick := (w₁.noted t t').tick + 1 } t').disk.loadTask j.id = some t' := by
    have hid : t'.id = j.id := hres.job.1
    simp [Disk.loadTask, TaskFiles.load, World.saveTask, TaskFiles.commit, hid, taskFromJson_written hfits']
  simp only [wp_bind, loadTask, wp_get, hreload, wp_pure, wp_onTask]
  have hcan :
      CanContinue R env t' (World.saveTask { w₁.noted t t' with tick := (w₁.noted t t').tick + 1 } t').disk := by
    have hbase := canContinue_repaired (by rw [hjob.1]; exact hclean) (by rw [hjob.1]; exact hload) hw₁ hr hexact
    intro info h1 h2 h3 c hc
    have hpart : (planRange env info.fileSize (rememberMetadata t' info)).partOn
        (World.saveTask { w₁.noted t t' with tick := (w₁.noted t t').tick + 1 } t').disk c =
        (planRange env info.fileSize (rememberMetadata t' info)).partOn w₁.disk c := by
      simp only [DownloadTask.partOn, World.saveTask, hnoted.1]
    rw [hpart]
    exact hbase info h1 h2 h3 c hc
  have hurl : t'.url = j.url := hres.job.2.1
  have hloads := download_loads (s := { world := _, task := t' }) (by rw [hurl]; exact hf.moderate) hlog hfits'
  exact wp_mono (wp_and (download_delivers hf hsaved hcan) hloads) (fun _ _ h => ⟨⟨h.1.1.saved, h.2⟩, h.1.2⟩)
    (fun _ _ h => ⟨h.1.saved, h.2⟩) (fun _ h => h)

/-- A new task can be resumed. -/
theorem createTask_resumed {env : Env} {r : CreateRequest} {d : Disk} {t : DownloadTask} {w : World}
    (h : (createTask env r).run { disk := d } = (.ok t, w)) : t = newTask env r ∧ Resumed R (newTask env r) w := by
  have hwp : wp (createTask env r) (fun t w => t = newTask env r ∧ Resumed R (newTask env r) w) (fun _ _ => True)
      (fun _ => True) { disk := d } := by
    simp only [createTask, ensureTaskTempDir, wp_bind, wp_modify, wp_pure]
    refine wp_fileOp (fun _ => ?_) (fun _ _ => trivial) (fun _ _ => trivial)
    refine wp_saveTask (fun _ => ⟨trivial, ?_, ?_⟩) (fun _ _ => trivial) (fun _ _ => trivial)
    · refine resumable_saved ⟨rfl, rfl, rfl, rfl⟩ ?_ ⟨.inl rfl, by simp [newTask], by simp [newTask], by simp [newTask]⟩
        (by simp [AllGood, newTask])
      simp only [newTask]
      split <;> decide
    · have hfits : (newTask env r).Fits := by simp [DownloadTask.Fits, newTask]
      have hassigned : (Event.assigned r.id (newTask env r).status).loads := trivial
      exact (SavesLoad.quiet (List.forall_mem_nil _) hassigned).quiet hfits.loads
  rwa [wp_of_ok h] at hwp

/-- However the sessions of a task go, one that completes it leaves the remote file at its
target, as long as no session plans chunks over part files of other chunks. -/
theorem completed_session_delivers {env₀ : Env} {r : CreateRequest} {d₀ : Disk} {t₀ : DownloadTask} {w₀ : World}
    (hcreate : (createTask env₀ r).run { disk := d₀ } = (.ok t₀, w₀)) (envs : List Env) (env : Env)
    (hf : ∀ e ∈ envs ++ [env], Faithful R e.protocol r.url)
    (hclean : GuardedRun (sessionStep r.id) (PlansClean R r.id) w₀ (envs ++ [env]))
    (hdone : completes ((runSession env r.id).run (envs.foldl (sessionStep r.id) w₀)).1) :
    ((runSession env r.id).run (envs.foldl (sessionStep r.id) w₀)).2.disk.out r.targetPath = some R := by
  obtain ⟨-, hres⟩ := createTask_resumed (R := R) hcreate
  obtain ⟨hclean, hlast⟩ := GuardedRun.append.1 hclean
  have hresumed : Resumed R (newTask env₀ r) (envs.foldl (sessionStep r.id) w₀) := by
    refine GuardedRun.inv (fun w e h hok => ?_) hres (hclean.and fun e he => hf e (List.mem_append_left _ he))
    exact wp_const.1 (wp_mono (session_delivers (j := newTask env₀ r) h hok.2 hok.1) (fun _ _ h => h.1) (fun _ _ h => h)
      (fun _ h => h))
  have hsession := session_delivers hresumed (hf env (by simp)) hlast.1
  rcases hr : (runSession env r.id).run (envs.foldl (sessionStep r.id) w₀) with ⟨t | e | _, w⟩ <;> rw [hr] at hdone
  · rw [wp_of_ok (show (runSession env (newTask env₀ r).id).run _ = _ from hr)] at hsession
    exact hsession.2 (of_decide_eq_true hdone)
  · cases hdone
  · cases hdone

/-- A server of `R` that answers the range requests that start before `upTo`, and the single
stream if that is all of the file. -/
def serverUpTo (R : Bytes) (info : RemoteFileInfo) (upTo : Nat) : Protocol where
  fetchMetadata _ := .ok info
  downloadRange _ start stop _ :=
    if start < upTo then { blocks := [{ data := slice R start (stop + 1 - start) }] }
    else { result := .error (.cget .networkError []) }
  downloadSingle _ := if upTo = R.length then { blocks := [{ data := R }] } else
    { result := .error (.cget .networkError []) }

theorem serverUpTo_faithful {upTo : Nat} {url : Text} (h : info.fileSize = 0 ∨ info.fileSize = R.length) :
    Faithful R (serverUpTo R info upTo) url := by
  refine ⟨fun start stop n => ?_, ?_, ?_, ?_⟩
  · simp only [serverUpTo]
    split <;> simp [Transfer.bytes]
  · simp only [serverUpTo]
    split <;> simp [Transfer.bytes]
  · simp only [serverUpTo]
    split <;> simp [Transfer.bytes]
  · intro info' hinfo
    obtain rfl : info = info' := by simpa [serverUpTo] using hinfo
    exact h

def fourBytes : Bytes := [1, 2, 3, 4]

/-- A session with this many threads, of which each takes its turns at once. -/
def threadsEnv (info : RemoteFileInfo) (upTo threads : Nat) : Env where
  protocol := serverUpTo fourBytes info upTo
  maxRetries := 0
  maxThreads := threads
  turns := (List.range threads).flatMap (List.replicate 12)

def fourRequest : CreateRequest where
  id := text "a"
  url := text "u"
  fileName := text "f"
  targetPath := text "/out"

def fourWorld : World := ((createTask (threadsEnv {} 4 1) fourRequest).run {}).2

theorem fourWorld_created :
    (createTask (threadsEnv {} 4 1) fourRequest).run {} = (.ok (newTask (threadsEnv {} 4 1) fourRequest), fourWorld) :=
  rfl

/-- Four threads, of which the last one fails. -/
def fourThreads : Env := threadsEnv { fileSize := 4, supportsRange := true } 3 4

def twoThreads : Env := threadsEnv { fileSize := 4, supportsRange := true } 4 2

theorem completed_session_delivers_resumed :
    ((runSession twoThreads fourRequest.id).run ([fourThreads].foldl (sessionStep fourRequest.id) fourWorld)).2.disk.out
        fourRequest.targetPath = some fourBytes :=
  completed_session_delivers fourWorld_created [fourThreads] twoThreads
    (by
      intro e he
      rcases List.mem_append.1 he with he | he <;> obtain rfl :=
        List.mem_singleton.1 he <;> exact serverUpTo_faithful (.inr rfl))
    (by decide +kernel) (by decide +kernel)

/-- Four threads leave their parts, a single stream that fails drops the chunks, and the two
chunks of the third session continue the parts of other chunks. -/
theorem stale_parts_corrupt_file :
    ∃ (R : Bytes) (r : CreateRequest) (w₀ : World) (envs : List Env) (env : Env),
      (∃ env₀ t₀, (createTask env₀ r).run {} = (.ok t₀, w₀)) ∧ (∀ e ∈ envs ++ [env], Faithful R e.protocol r.url) ∧
        completes ((runSession env r.id).run (envs.foldl (sessionStep r.id) w₀)).1 ∧
        ((runSession env r.id).run (envs.foldl (sessionStep r.id) w₀)).2.disk.out r.targetPath ≠ some R := by
  refine ⟨fourBytes, fourRequest, fourWorld, [fourThreads, threadsEnv {} 0 1], twoThreads,
    ⟨_, _, fourWorld_created⟩, ?_, by decide +kernel, by decide +kernel⟩
  intro e he
  simp only [List.cons_append, List.nil_append, List.mem_cons, List.not_mem_nil, or_false] at he
  rcases he with rfl | rfl | rfl
  exacts [serverUpTo_faithful (.inr rfl), serverUpTo_faithful (.inl rfl), serverUpTo_faithful (.inr rfl)]

end Cget
