import Cget.Lib.Slices
import Cget.Reloadable
/-!
# Resumed downloads

A session resumes from what earlier sessions left: the chunks in the task file and the part
files, which are found by name only. As long as each part file holds a prefix of the bytes
of the chunk that will use it, all transfers keep that up, and the merge is the remote file.
-/

namespace Cget

open Prog

variable {env : Env} {envs : TaskId → Env} {R : Bytes} {c : Chunk} {part : Option Bytes}

/-! ## Chunks of the remote file -/

/-- The bytes of the chunk in the remote file. -/
def Chunk.bytes (R : Bytes) (c : Chunk) : Bytes := slice R c.start c.size

/-- The part file holds the first bytes of its chunk, followed by anything once it is full. -/
def Good (R : Bytes) (c : Chunk) (part : Option Bytes) : Prop := (part.getD []).take c.size <+: c.bytes R

/-- The part file holds the first bytes of its chunk. -/
def Exact (R : Bytes) (c : Chunk) (part : Option Bytes) : Prop := part.getD [] <+: c.bytes R

/-- The part file of a chunk that is done is not too long. -/
def Tidy (c : Chunk) (part : Option Bytes) : Prop := c.done = true → fileSize part ≤ c.size

/-- The server sends nothing but the bytes it is asked for, from the first on, all of them in
a single stream that returns; it announces their number, if any. -/
def Faithful (R : Bytes) (p : Protocol) (url : Text) : Prop :=
  (∀ start stop n, (p.downloadRange url start stop n).bytes <+: slice R start (stop + 1 - start)) ∧
    (p.downloadSingle url).bytes <+: R ∧
    ((p.downloadSingle url).result = .ok () → (p.downloadSingle url).bytes = R) ∧
    ∀ info, p.fetchMetadata url = .ok info → info.fileSize = 0 ∨ info.fileSize = R.length

theorem Faithful.moderate {p : Protocol} {url : Text} (h : Faithful R p url) : Moderate p url := by
  refine ⟨fun start stop n _ => Nat.le_trans (h.1 start stop n).length_le slice_length_le, fun info hi hne => ?_⟩
  have hsize := (h.2.2.2 info hi).resolve_left hne
  rw [hsize]
  exact h.2.1.length_le

theorem Exact.length_le (h : Exact R c part) : fileSize part ≤ c.size :=
  Nat.le_trans (List.IsPrefix.length_le h) slice_length_le

theorem Exact.good (h : Exact R c part) : Good R c part := (List.take_prefix _ _).trans h

theorem Exact.tidy (h : Exact R c part) : Tidy c part := fun _ => h.length_le

theorem Tidy.status (h : Tidy c part) {st : ChunkStatus} (hst : st ≠ .completed) :
    Tidy { c with status := st } part := by
  intro hd
  simp only [Chunk.done, hst, decide_false, Bool.false_or, decide_eq_true_eq] at hd
  exact h (by simp [Chunk.done, show c.size ≤ c.downloaded from hd])

theorem Good.exact (h : Good R c part) (hlen : fileSize part ≤ c.size) : Exact R c part := by
  unfold Good at h
  rwa [List.take_of_length_le hlen] at h

theorem Good.cut (h : Good R c part) : Exact R c (part.map (·.take c.size)) := by
  cases part with
  | none => exact List.nil_prefix
  | some b => exact h

/-! ## Chunk workers -/

/-- Where a worker at `pc` will continue its part file. -/
def Continues (R : Bytes) (path : Except Exn Path) (c : Chunk) (part : Option Bytes) : WorkerPc → Prop
  | .opening _ start | .starting _ start | .announcing _ start | .requesting _ start =>
    path.toOption.isSome ∧ Exact R c part ∧ start = c.start + fileSize part ∧ fileSize part < c.size
  | .receiving _ bs _ | .flushing _ bs _ =>
    path.toOption.isSome ∧ part.getD [] ++ bs.flatMap (·.data) <+: c.bytes R
  | .closing _ | .storing _ => Exact R c part
  | _ => True

/-- What a move does to the chunk and its part file: all is well, and it goes on so unless
the process dies. -/
def GoesWell (R : Bytes) (path : Except Exn Path) (part : Option Bytes) (m : WorkerMove) : Prop :=
  Good R m.chunk (m.file path part) ∧
    (m.crashed = false → Tidy m.chunk (m.file path part) ∧ Continues R path m.chunk (m.file path part) m.next)

theorem file_self {m : WorkerMove} {path : Except Exn Path} (h : m.part = part) : m.file path part = part := by
  cases path with
  | error e => rfl
  | ok p => exact h

/-- A move that leaves the part file as it is. -/
theorem GoesWell.still {path : Except Exn Path} {m : WorkerMove} (hp : m.part = part) (hg : Good R m.chunk part)
    (hrun : m.crashed = false → Tidy m.chunk part ∧ Continues R path m.chunk part m.next) : GoesWell R path part m := by
  unfold GoesWell
  rw [file_self hp]
  exact ⟨hg, hrun⟩

theorem persistMove_goesWell {path : Except Exn Path} {f : Fault} {pc next failed : WorkerPc} (hg : Good R c part)
    (ht : Tidy c part) (hnext : Continues R path c part next) (hfailed : Continues R path c part failed) :
    GoesWell R path part (persistMove f c part pc next failed) := by
  cases f with
  | ok => exact .still rfl hg fun _ => ⟨ht, hnext⟩
  | fail k => exact .still rfl hg fun _ => ⟨ht, hfailed⟩
  | crash k => exact .still rfl hg (by simp [persistMove])

/-- A range request that continues the part file stays within the chunk. -/
theorem continues_range {n : Nat} {url : Text} (hf : Faithful R env.protocol url) (he : Exact R c part)
    (hlt : fileSize part < c.size) :
    part.getD [] ++ (env.protocol.downloadRange url (c.start + fileSize part) c.stop n).bytes <+: c.bytes R := by
  have hle : c.start ≤ c.stop := by
    by_contra hlt'
    simp [Chunk.size, not_le.1 hlt'] at hlt
  have hr := hf.1 (c.start + fileSize part) c.stop n
  rw [show c.stop + 1 - (c.start + fileSize part) = c.size - fileSize part by rw [c.size_of_le hle]; omega] at hr
  exact prefix_slice_append he hr

theorem workerMove_goesWell {url : Text} {path : Except Exn Path} {f g : Fault} {pc : WorkerPc}
    (hf : Faithful R env.protocol url) (hg : Good R c part) (ht : Tidy c part) (hc : Continues R path c part pc) :
    GoesWell R path part (workerMove env url path f g c part pc) := by
  cases pc with
  | attempt n =>
    cases path with
    | error e => exact .still rfl hg fun _ => ⟨ht, trivial⟩
    | ok p =>
      simp only [workerMove]
      split
      · cases f with
        | ok =>
          have hcut : Exact R c (part.map (·.take c.size)) := hg.cut
          exact ⟨hcut.good, fun _ => ⟨fun _ => hcut.length_le, trivial⟩⟩
        | fail k => exact .still rfl hg fun _ => ⟨ht, trivial⟩
        | crash k => exact .still rfl hg (by simp)
      · rename_i hlt
        have he : Exact R c part := hg.exact (not_lt.1 hlt)
        split
        · exact .still rfl hg fun _ => ⟨fun _ => he.length_le, trivial⟩
        · exact .still rfl hg fun _ => ⟨fun _ => he.length_le, rfl, he, rfl, not_le.1 ‹_›⟩
  | opening n start =>
    obtain ⟨hp, he, hstart, hlt⟩ := hc
    cases f with
    | ok =>
      cases path with
      | error e => cases hp
      | ok p => exact ⟨he.good, fun _ => ⟨fun _ => he.length_le, rfl, he, hstart, hlt⟩⟩
    | fail k => exact .still rfl hg fun _ => ⟨ht, trivial⟩
    | crash k => exact .still rfl hg (by simp [workerMove])
  | starting n start =>
    obtain ⟨hp, he, hstart, hlt⟩ := hc
    exact .still rfl hg fun _ => ⟨fun _ => he.length_le, hp, he, hstart, hlt⟩
  | announcing n start => exact persistMove_goesWell hg ht hc trivial
  | requesting n start =>
    obtain ⟨hp, he, rfl, hlt⟩ := hc
    exact .still rfl hg fun _ => ⟨ht, hp, continues_range hf he hlt⟩
  | receiving n blocks result =>
    obtain ⟨hp, hrest⟩ := hc
    cases path with
    | error e => cases hp
    | ok p =>
      cases blocks with
      | nil =>
        have he : Exact R c part := by
          rwa [List.flatMap_nil, List.append_nil] at hrest
        cases result with
        | error e => exact .still rfl hg fun _ => ⟨ht, trivial⟩
        | ok _ => exact .still rfl hg fun _ => ⟨ht, he⟩
      | cons b bs =>
        rw [List.flatMap_cons, ← List.append_assoc] at hrest
        have hpart : ∀ k, Exact R c (some (part.getD [] ++ b.data.take k)) := fun k =>
          ((List.prefix_append_right_inj _).2 (List.take_prefix k b.data)).trans ((List.prefix_append _ _).trans hrest)
        cases f with
        | ok =>
          have hall : Exact R c (some (part.getD [] ++ b.data)) := (List.prefix_append _ _).trans hrest
          simp only [workerMove]
          refine ⟨hall.good, fun _ => ⟨fun _ => hall.length_le, ?_⟩⟩
          dsimp only
          split <;> exact ⟨rfl, hrest⟩
        | fail k => exact ⟨(hpart k).good, fun _ => ⟨fun _ => (hpart k).length_le, trivial⟩⟩
        | crash k => exact ⟨(hpart k).good, by simp [workerMove]⟩
  | flushing n blocks result => exact persistMove_goesWell hg ht hc trivial
  | closing n =>
    simp only [workerMove]
    split
    · exact .still rfl hg fun _ => ⟨ht, trivial⟩
    · exact .still rfl hg fun _ => ⟨fun _ => Exact.length_le hc, hc⟩
  | storing n => exact persistMove_goesWell hg ht trivial trivial
  | caught n e =>
    cases e with
    | other what => exact .still rfl hg fun _ => ⟨ht, trivial⟩
    | cget code what =>
      have hfailed : Tidy { c with status := .failed } part := ht.status (by simp)
      simp only [workerMove]
      split <;> exact .still rfl hg fun _ => ⟨hfailed, trivial⟩
  | recording n => exact persistMove_goesWell hg ht trivial trivial
  | sleeping n =>
    refine .still rfl hg fun _ => ⟨ht, ?_⟩
    simp only [workerMove]
    split <;> trivial
  | returned => exact .still rfl hg fun _ => ⟨ht, trivial⟩
  | threw e => exact .still rfl hg fun _ => ⟨ht, trivial⟩

/-- Chunks whose part files hold the bytes of a faithful server. -/
def sliceRule (R : Bytes) (envs : TaskId → Env) : ChunkRule envs where
  sees := True
  fails := True
  idle t _ c p := Good R c p ∧ Tidy c p ∧ Faithful R (envs t.id).protocol t.url
  busy t _ c p pc := Good R c p ∧ Tidy c p ∧ Faithful R (envs t.id).protocol t.url ∧ Continues R (chunkPath t c) c p pc
  idle_frame ht hp h := by
    obtain rfl := hp trivial
    rw [ht.1, ht.2.1]
    exact h
  busy_frame ht hp h := by
    obtain rfl := hp trivial
    rw [ht.1, ht.2.1, chunkPath_congr ht rfl]
    exact h
  start h _ _ := ⟨⟨h.1, h.2.1, h.2.2, trivial⟩, h.1, h.2.1.status (by simp), h.2.2, trivial⟩
  move := @fun t _ c p pc n h hran => by
    have hmove := workerMove_goesWell (f := (envs t.id).fault n)
      (g := (envs t.id).saveFault n) h.2.2.1 h.1 h.2.1 h.2.2.2
    refine ⟨hmove.1, (hmove.2 hran).1, h.2.2.1, ?_⟩
    have hpath : chunkPath t (t.move (envs t.id) n c p pc).chunk = chunkPath t c :=
      chunkPath_congr .refl workerMove_place.2.2.2
    rw [hpath]
    exact (hmove.2 hran).2
  finish h := ⟨h.1, h.2.1, h.2.2.1⟩
  fail _ _ _ _ _ _ h := ⟨⟨h.1, h.2.1, h.2.2.1⟩, h.1, h.2.1.status (by simp), h.2.2.1⟩

/-! ## Stored tasks -/

/-- What a chunk is for, and the name of its part file. -/
def Chunk.place (c : Chunk) : Nat × Nat × Path := (c.start, c.stop, c.tempPath)

/-- The chunks of a task are none, or the ones of the remote file. -/
structure Shaped (R : Bytes) (t : DownloadTask) : Prop where
  size : t.fileSize = 0 ∨ t.fileSize = R.length
  tiled : t.chunks ≠ [] → t.fileSize = R.length ∧ Tiles 0 t.chunks R.length
  names : (t.chunks.map (·.tempPath)).Nodup
  single : ∀ c ∈ t.chunks, c.tempPath = singlePart → t.chunks.length = 1

/-- Each part file holds the bytes of its chunk. -/
def AllGood (R : Bytes) (t : DownloadTask) (d : Disk) : Prop := ∀ c ∈ t.chunks, Good R c (t.partOn d c)

/-- The task of the job `j`, with some progress. -/
def OfJob (j t : DownloadTask) : Prop :=
  t.id = j.id ∧ t.url = j.url ∧ t.targetPath = j.targetPath ∧ t.tempDir = j.tempDir

/-- What is on disk can be resumed. -/
def Resumable (R : Bytes) (j : DownloadTask) (w : World) : Prop :=
  ∃ t, (w.disk.tasks j.id).main = some (.written t) ∧ .saved t ∈ w.log ∧ OfJob j t ∧ t.status ≠ .corrupted ∧
    Shaped R t ∧ AllGood R t w.disk

/-- The task in memory can be saved, and what is on disk can be resumed. -/
structure Resuming (R : Bytes) (j : DownloadTask) (s : Session) : Prop where
  job : OfJob j s.task
  status : s.task.status ≠ .corrupted
  shaped : Shaped R s.task
  good : AllGood R s.task s.world.disk
  saved : Resumable R j s.world

section Stored

variable {t t' j : DownloadTask} {d d' : Disk} {w w' : World} {s : Session}

theorem map_place {β : Type} {cs ds : List Chunk} (h : cs.map (·.place) = ds.map (·.place)) (f : Nat × Nat × Path → β) :
    cs.map (fun c => f c.place) = ds.map (fun c => f c.place) := by
  have := congrArg (List.map f) h
  simpa [List.map_map, Function.comp_def] using this

theorem place_mem {cs ds : List Chunk} (h : cs.map (·.place) = ds.map (·.place)) (hc : c ∈ cs) :
    ∃ d ∈ ds, d.place = c.place := by
  have := List.mem_map_of_mem (f := Chunk.place) hc
  rw [h] at this
  exact List.mem_map.1 this

theorem Shaped.congr (h : Shaped R t) (hsize : t'.fileSize = t.fileSize)
    (hplace : t'.chunks.map (·.place) = t.chunks.map (·.place)) : Shaped R t' := by
  refine ⟨by rw [hsize]; exact h.size, fun hne => ?_, ?_, fun c hc hn => ?_⟩
  · have hne' : t.chunks ≠ [] := by
      rintro hnil
      rw [hnil] at hplace
      simp [hne] at hplace
    rw [hsize]
    exact ⟨(h.tiled hne').1, (tiles_congr (map_place hplace fun q => (q.1, q.2.1))).2 (h.tiled hne').2⟩
  · rw [show t'.chunks.map (·.tempPath) = t.chunks.map (·.tempPath) from map_place hplace fun q => q.2.2]
    exact h.names
  · obtain ⟨d, hd, hdc⟩ := place_mem hplace hc
    have hname : d.tempPath = c.tempPath := congrArg (fun q => q.2.2) hdc
    have hlen := congrArg List.length hplace
    simp only [List.length_map] at hlen
    rw [hlen]
    exact h.single d hd (hname.trans hn)

theorem good_place {c d : Chunk} {part : Option Bytes} (h : Good R d part) (hp : d.place = c.place) :
    Good R c part := by
  simp only [Chunk.place, Prod.mk.injEq] at hp
  have hsize : d.size = c.size := by simp only [Chunk.size, hp.1, hp.2.1]
  simpa only [Good, Chunk.bytes, hp.1, hsize] using h

theorem AllGood.congr (h : AllGood R t d) (hdir : t'.tempDir = t.tempDir)
    (hplace : t'.chunks.map (·.place) = t.chunks.map (·.place)) (hparts : d'.parts = d.parts) : AllGood R t' d' := by
  intro c hc
  obtain ⟨e, he, hec⟩ := place_mem hplace hc
  have hname : c.tempPath = e.tempPath := (congrArg (fun q => q.2.2) hec).symm
  have hpart : t'.partOn d' c = t.partOn d e := by
    simp only [DownloadTask.partOn, chunkPath, hdir, hname, hparts]
  rw [hpart]
  exact good_place (h e he) hec

theorem Resumable.frame (h : Resumable R j w) (ht : w'.disk.tasks = w.disk.tasks) (hp : w'.disk.parts = w.disk.parts)
    (hlog : w.log ⊆ w'.log) : Resumable R j w' := by
  obtain ⟨t, hmain, hsaved, hjob, hst, hshaped, hgood⟩ := h
  exact ⟨t, by rw [ht]; exact hmain, hlog hsaved, hjob, hst, hshaped, hgood.congr rfl rfl hp⟩

theorem OfJob.of_sameJob (h : OfJob j t) (hs : t.SameJob t') : OfJob j t' :=
  ⟨hs.1.trans h.1, hs.2.1.trans h.2.1, hs.2.2.1.trans h.2.2.1, hs.2.2.2.1.trans h.2.2.2⟩

theorem OfJob.of_sameRequest (h : OfJob j t) (hs : t.SameRequest t') : OfJob j t' :=
  ⟨hs.1.trans h.1, hs.2.1.trans h.2.1, hs.2.2.1.trans h.2.2.1, hs.2.2.2.1.trans h.2.2.2⟩

/-- A save of a task in order. -/
theorem resumable_saved (hjob : OfJob j t) (hst : t.status ≠ .corrupted) (hshaped : Shaped R t)
    (hgood : AllGood R t w.disk) :
    Resumable R j (w.saveTask t) := by
  refine ⟨t, ?_, List.mem_cons_self, hjob, hst, hshaped, hgood⟩
  simp [World.saveTask, TaskFiles.commit, hjob.1]

theorem resuming_tolerates : ToleratesSaves (Resuming R j) where
  tick _ _ h := ⟨h.job, h.status, h.shaped, h.good, h.saved⟩
  task _ _ h ht :=
    ⟨h.job.of_sameJob ht.1, by rw [ht.1.2.2.2.2.2]; exact h.status, h.shaped.congr ht.2.2.1 (by rw [ht.2.1]),
      h.good.congr ht.1.2.2.2.1 (by rw [ht.2.1]) rfl, h.saved⟩
  status _ _ h hst :=
    ⟨h.job, (by rintro rfl; cases hst), h.shaped.congr rfl rfl, h.good,
      h.saved.frame rfl rfl (List.subset_cons_self _ _)⟩
  saved _ h := ⟨h.job, h.status, h.shaped, h.good, resumable_saved h.job h.status h.shaped h.good⟩

/-- Other progress of a task that keeps its chunks and its size. -/
theorem Resuming.change (h : Resuming R j s) (hjob : s.task.SameJob t) (hsize : t.fileSize = s.task.fileSize)
    (hplace : t.chunks.map (·.place) = s.task.chunks.map (·.place)) : Resuming R j { s with task := t } :=
  ⟨h.job.of_sameJob hjob, by rw [hjob.2.2.2.2.2]; exact h.status, h.shaped.congr hsize hplace,
    h.good.congr hjob.2.2.2.1 hplace rfl, h.saved⟩

/-- No two chunks of a task share a part file. -/
theorem Shaped.apart (h : Shaped R t) : PartsApart [t] := by
  simp only [PartsApart, List.mem_singleton, forall_eq, true_and]
  intro j k c d p hc hd hpc hpd
  exact index_unique h.names hc hd (chunkPath_inj hpc hpd)

end Stored

end Cget
