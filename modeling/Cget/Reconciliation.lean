import Cget.Layout
import Cget.Partition
import Cget.Recovery
/-!
# Reconciliation

After `repairFromDisk` a task and its part files agree: each counter is the size of the part
file, cut to the chunk, each status says how full it is, and a second repair finds nothing
left to do. The counters are those of the source, on 64 bits: the total is the sum of the
chunks as long as that sum fits.
-/

namespace Cget

open Prog

variable {env : Env} {t t' : DownloadTask} {w w' : World} {d : Disk} {c : Chunk} {cs : List Chunk} {p : Path} {n : Nat}

/-! ## On words -/

/-- The loop's `total += actual`. -/
def totalOnWords (sizes : List Nat) : Nat := sizes.foldl (fun total actual => (total + actual) % 2 ^ 64) 0

/-- The task `repairFromDisk` makes of the repaired chunks. -/
def repairWithOnWords (env : Env) (t : DownloadTask) (chunks : List Chunk) : DownloadTask :=
  let total := totalOnWords (chunks.map (·.downloaded))
  { t with
    chunks := chunks
    downloaded := total
    status :=
      if unfinishedStatus t.status then
        if total = t.fileSize ∧ t.fileSize ≠ 0 then .completed else .paused
      else t.status
    updatedAt := env.now }

/-- `PersistenceStore::repairFromDisk`. -/
def repairFromDiskOnWords (env : Env) (t : DownloadTask) : Prog World Exn DownloadTask :=
  if t.chunks = [] then do
    recordRepair t (repairEmpty t)
    pure (repairEmpty t)
  else do
    let chunks ← repairChunks env t t.chunks
    recordRepair t (repairWithOnWords env t chunks)
    pure (repairWithOnWords env t chunks)

/-- The additions wrap, and that is all. -/
theorem foldl_wrapped (sizes : List Nat) : ∀ n < 2 ^ 64,
    sizes.foldl (fun total actual => (total + actual) % 2 ^ 64) n = (n + sizes.sum) % 2 ^ 64 := by
  induction sizes with
  | nil =>
    intro n hn
    exact (Nat.mod_eq_of_lt hn).symm
  | cons size sizes ih =>
    intro n _
    rw [List.foldl_cons, ih _ (Nat.mod_lt _ (by decide)), Nat.mod_add_mod, List.sum_cons, Nat.add_assoc]

theorem totalOnWords_eq (sizes : List Nat) : totalOnWords sizes = sizes.sum % 2 ^ 64 := by
  rw [totalOnWords, foldl_wrapped sizes 0 (by decide), Nat.zero_add]

theorem repairWithOnWords_exact (h : (cs.map (·.downloaded)).sum < 2 ^ 64) :
    repairWithOnWords env t cs = repairWith env t cs := by
  simp only [repairWithOnWords, repairWith, totalOnWords_eq, Nat.mod_eq_of_lt h]

/-- While the total fits, the repair is the one on numbers. -/
theorem repairFromDiskOnWords_exact (h : (partSizes t w.disk t.chunks).sum < 2 ^ 64) :
    (repairFromDiskOnWords env t).run w = (repairFromDisk env t).run w := by
  unfold repairFromDiskOnWords repairFromDisk
  split
  · rfl
  · have hsizes : wp (repairChunks env t t.chunks) _ _ _ w := repairChunks_wp t.chunks w
    rcases hrun : (repairChunks env t t.chunks).run w with ⟨cs | e | _, w₁⟩
    · rw [wp_of_ok hrun] at hsizes
      rw [run_bind_ok hrun, run_bind_ok hrun, repairWithOnWords_exact (by rw [hsizes.2.2]; exact h)]
    · rw [run_bind_thrown hrun, run_bind_thrown hrun]
    · rw [run_bind_stopped hrun, run_bind_stopped hrun]

/-- A part file that fits is left alone, whatever the disk does. -/
theorem cutPart_fitting (h : fileSize (w.disk.parts p) ≤ n) : (cutPart env p n).run w = (.ok (), w) := by
  have hfits : ¬ n < fileSize (w.disk.parts p) := Nat.not_lt.2 h
  change (if n < fileSize (w.disk.parts p) then truncateFile env p n else pure ()).run w = _
  rw [if_neg hfits]
  rfl

/-! ## Chunks with part files of their own -/

/-- The chunks have safe paths, and no two the same. -/
structure OwnParts (t : DownloadTask) (cs : List Chunk) : Prop where
  safe : ∀ c ∈ cs, ∃ p, chunkPath t c = .ok p
  distinct : cs.Pairwise fun c c' => chunkPath t c ≠ chunkPath t c'

theorem OwnParts.tail (h : OwnParts t (c :: cs)) : OwnParts t cs :=
  ⟨fun c hc => h.safe c (List.mem_cons_of_mem _ hc), h.distinct.of_cons⟩

theorem partOn_path (h : chunkPath t c = .ok p) (d : Disk) : t.partOn d c = d.parts p := by
  simp [DownloadTask.partOn, h, Except.toOption]

theorem partOn_cut (h : chunkPath t c ≠ .ok p) : t.partOn (d.cut p n) c = t.partOn d c := by
  cases hpath : chunkPath t c with
  | error e => simp [DownloadTask.partOn, hpath, Except.toOption]
  | ok q =>
    have hq : q ≠ p := fun h' => h (h' ▸ hpath)
    rw [partOn_path hpath, partOn_path hpath, Disk.cut, Disk.setPart_parts, Function.update_of_ne hq]

/-- The chunk as the repair of the disk `d` leaves it. -/
def repairedOn (t : DownloadTask) (d : Disk) (c : Chunk) : Chunk := c.repaired (min (fileSize (t.partOn d c)) c.size)

/-- The disk `d'` is `d` with each part file cut to its chunk. -/
structure CutTo (t : DownloadTask) (cs : List Chunk) (d d' : Disk) : Prop where
  tasks : d'.tasks = d.tasks
  out : d'.out = d.out
  cut : ∀ c ∈ cs, t.partOn d' c = (t.partOn d c).map (·.take c.size)
  others : ∀ p, (∀ c ∈ cs, chunkPath t c ≠ .ok p) → d'.parts p = d.parts p

theorem CutTo.cons {d' : Disk} (hap : OwnParts t (c :: cs)) (hpath : chunkPath t c = .ok p)
    (h : CutTo t cs (d.cut p c.size) d') :
    CutTo t (c :: cs) d d' := by
  have hrest : ∀ c' ∈ cs, chunkPath t c' ≠ .ok p :=
    fun c' hc' h' => List.rel_of_pairwise_cons hap.distinct hc' (hpath.trans h'.symm)
  refine ⟨h.tasks, h.out, ?_, ?_⟩
  · intro c' hc'
    rcases List.mem_cons.1 hc' with rfl | hc'
    · rw [partOn_path hpath, partOn_path hpath, h.others p hrest]
      simp [Disk.cut]
    · rw [h.cut c' hc', partOn_cut (hrest c' hc')]
  · intro q hq
    have hne : q ≠ p := fun h' => hq c List.mem_cons_self (h' ▸ hpath)
    rw [h.others q fun c' hc' => hq c' (List.mem_cons_of_mem _ hc'), Disk.cut, Disk.setPart_parts,
      Function.update_of_ne hne]

/-- The loop over the chunks, or a truncation failed. -/
theorem repairChunks_cuts (hap : OwnParts t cs) :
    wp (repairChunks env t cs)
      (fun cs' w' => cs' = cs.map (repairedOn t w.disk) ∧ CutTo t cs w.disk w'.disk ∧ w'.log = w.log)
      (fun _ _ => ¬ env.Truncates) (fun _ => ¬ env.Truncates) w := by
  induction cs generalizing w with
  | nil => exact ⟨rfl, ⟨rfl, rfl, fun c hc => absurd hc List.not_mem_nil, fun p _ => rfl⟩, rfl⟩
  | cons c cs ih =>
    obtain ⟨p, hpath⟩ := hap.safe c List.mem_cons_self
    unfold repairChunks
    simp only [hpath, wp_bind, wp_get, wp_pure]
    refine wp_mono cutPart_cuts ?_ (fun _ _ h => h) (fun _ h => h)
    rintro _ w₁ ⟨hdisk, hlog⟩
    refine wp_mono (ih hap.tail) ?_ (fun _ _ h => h) (fun _ h => h)
    rintro cs' w₂ ⟨rfl, hcut, hlog'⟩
    rw [hdisk] at hcut ⊢
    refine ⟨?_, hcut.cons hap hpath, hlog'.trans hlog⟩
    have hrest : cs.map (repairedOn t (w.disk.cut p c.size)) = cs.map (repairedOn t w.disk) := by
      refine List.map_congr_left fun c' hc' => ?_
      have hne : chunkPath t c' ≠ .ok p := fun h' => List.rel_of_pairwise_cons hap.distinct hc' (hpath.trans h'.symm)
      rw [repairedOn, partOn_cut hne, repairedOn]
    rw [List.map_cons, hrest, repairedOn, partOn_path hpath]

theorem repairChunks_repairs (henv : env.Truncates) (hap : OwnParts t cs) :
    Returns (repairChunks env t cs)
      (fun cs' w' => cs' = cs.map (repairedOn t w.disk) ∧ CutTo t cs w.disk w'.disk ∧ w'.log = w.log) w :=
  wp_mono (repairChunks_cuts hap) (fun _ _ h => h) (fun _ _ h => h henv) (fun _ h => h henv)

/-- Where every part file fits, the loop writes nothing. -/
theorem repairChunks_fitting (hsafe : ∀ c ∈ cs, ∃ p, chunkPath t c = .ok p)
    (hfits : ∀ c ∈ cs, fileSize (t.partOn w.disk c) ≤ c.size) :
    (repairChunks env t cs).run w = (.ok (cs.map (repairedOn t w.disk)), w) := by
  induction cs with
  | nil => rfl
  | cons c cs ih =>
    obtain ⟨p, hpath⟩ := hsafe c List.mem_cons_self
    have hfit := hfits c List.mem_cons_self
    rw [partOn_path hpath] at hfit
    have hrest := ih (fun c hc => hsafe c (List.mem_cons_of_mem _ hc)) fun c hc => hfits c (List.mem_cons_of_mem _ hc)
    unfold repairChunks
    simp only [hpath]
    have hget : (get : Prog World Exn World).run w = (.ok w, w) := rfl
    rw [run_bind_ok hget, run_bind_ok (cutPart_fitting hfit), run_bind_ok hrest,
      List.map_cons, repairedOn, partOn_path hpath]
    rfl

/-! ## What a repair reconciles -/

/-- The chunk `c'` and its part file, which held `size` bytes, agree. -/
structure Chunk.Reconciled (c : Chunk) (size : Nat) (c' : Chunk) : Prop where
  downloaded : c'.downloaded = min size c.size
  completed : c'.status = .completed ↔ c'.downloaded = c.size
  pending : c'.status = .pending ↔ c'.downloaded = 0
  paused : c'.status = .paused ↔ c'.downloaded ≠ c.size ∧ c'.downloaded ≠ 0
  place : c'.start = c.start ∧ c'.stop = c.stop ∧ c'.tempPath = c.tempPath

/-- The task `t` on the disk `d` and the task `t'` on the disk `d'` are before and after a
repair that makes a task and its part files agree. -/
structure Reconciles (t : DownloadTask) (d : Disk) (t' : DownloadTask) (d' : Disk) : Prop where
  chunks : List.Forall₂ (fun c c' => c.Reconciled (fileSize (t.partOn d c)) c') t.chunks t'.chunks
  bounded : ∀ c ∈ t.chunks, fileSize (t.partOn d' c) ≤ c.size
  untouched : ∀ c ∈ t.chunks, fileSize (t.partOn d c) ≤ c.size → t.partOn d' c = t.partOn d c
  total : t.chunks ≠ [] → t'.downloaded = (t'.chunks.map (·.downloaded)).sum
  idle : t'.status ≠ .downloading ∧ t'.status ≠ .retrying

/-- A repair with this result has left nothing to repair but the time of the last change. -/
def UpToDate (t' : DownloadTask) (w' : World) : Prop :=
  ∀ env, ∃ now, (repairFromDiskOnWords env t').run w' = (.ok { t' with updatedAt := now }, w')

theorem size_pos (h : c.start ≤ c.stop) : 0 < c.size := by
  rw [Chunk.size, if_neg (by omega)]
  omega

theorem repaired_reconciled (h : c.start ≤ c.stop) : c.Reconciled (fileSize (t.partOn d c)) (repairedOn t d c) := by
  have hsize := size_pos h
  have hmin : min (fileSize (t.partOn d c)) c.size ≤ c.size := Nat.min_le_right _ _
  refine ⟨rfl, ?_, ?_, ?_, rfl, rfl, rfl⟩ <;>
    · simp only [repairedOn, Chunk.repaired]
      split <;> [skip; split] <;> simp <;> omega

theorem fileSize_take (part : Option Bytes) (n : Nat) : fileSize (part.map (·.take n)) = min (fileSize part) n := by
  cases part with
  | none => simp
  | some b => simp [Nat.min_comm]

theorem partOn_repaired (hdir : t'.tempDir = t.tempDir) (d' : Disk) :
    t'.partOn d' (repairedOn t d c) = t.partOn d' c := by
  unfold DownloadTask.partOn chunkPath
  rw [hdir]
  rfl

theorem chunkPath_repaired (hdir : t'.tempDir = t.tempDir) : chunkPath t' (repairedOn t d c) = chunkPath t c := by
  unfold chunkPath
  rw [hdir]
  rfl

/-- A chunk whose part file was cut to it is repaired to what it is. -/
theorem repaired_again {d' : Disk} (hdir : t'.tempDir = t.tempDir)
    (hcut : t.partOn d' c = (t.partOn d c).map (·.take c.size)) :
    repairedOn t' d' (repairedOn t d c) = repairedOn t d c := by
  have hactual : fileSize (t'.partOn d' (repairedOn t d c)) = min (fileSize (t.partOn d c)) c.size := by
    rw [partOn_repaired hdir, hcut, fileSize_take]
  have hsize : (repairedOn t d c).size = c.size := rfl
  rw [repairedOn, hactual, hsize, Nat.min_assoc, Nat.min_self]
  rfl

/-- A task that loads, with chunks that end below 2^63 and have part files of their own. -/
structure Recoverable (t : DownloadTask) : Prop where
  loads : taskFromJson (.written t) = some t
  ends : ∀ c ∈ t.chunks, c.stop < 2 ^ 63
  apart : OwnParts t t.chunks

theorem Recoverable.ordered (h : Recoverable t) (hc : c ∈ t.chunks) : c.start ≤ c.stop := by
  have hall : t.chunks.all (·.acceptable) = true := by
    by_contra hnot
    have hnone : taskFromJson (.written t) = none := if_neg hnot
    cases hnone.symm.trans h.loads
  exact ((acceptable_iff c).1 (List.all_eq_true.1 hall c hc)).1

/-- The size of each chunk is what the source computes on 64 bits. -/
theorem Recoverable.size_exact (h : Recoverable t) (hc : c ∈ t.chunks) : c.sizeOnWords = pure c.size :=
  Chunk.sizeOnWords_exact (h.ordered hc) (lt_trans (h.ends c hc) (by decide))

/-- The bytes the chunks of `t` have on the disk. -/
def DownloadTask.bytesOn (t : DownloadTask) (d : Disk) : Nat :=
  (t.chunks.map fun c => min (Cget.fileSize (t.partOn d c)) c.size).sum

theorem downloaded_repaired : (t.chunks.map (repairedOn t d)).map (·.downloaded) =
    t.chunks.map fun c => min (fileSize (t.partOn d c)) c.size := by
  rw [List.map_map]
  rfl

/-! ## The repair of a task -/

theorem unfinished_idle {st : TaskStatus} (h : unfinishedStatus st = false) : st ≠ .downloading ∧ st ≠ .retrying := by
  constructor <;> rintro rfl <;> cases h

theorem repairEmpty_idle (t : DownloadTask) :
    (repairEmpty t).status ≠ .downloading ∧ (repairEmpty t).status ≠ .retrying := by
  unfold repairEmpty
  by_cases hst : t.status = .downloading ∨ t.status = .retrying
  · rw [if_pos hst]
    split <;> simp
  · rw [if_neg hst]
    exact not_or.1 hst

theorem repairEmpty_chunks (t : DownloadTask) : (repairEmpty t).chunks = t.chunks := by
  unfold repairEmpty
  split
  · split <;> rfl
  · rfl

theorem repairWithOnWords_finished : unfinishedStatus (repairWithOnWords env t cs).status = false := by
  simp only [repairWithOnWords]
  split
  · split <;> rfl
  · exact Bool.eq_false_iff.2 ‹_›

theorem recordRepair_idle (h : repairsStatus t = false) : (recordRepair t t').run w = (.ok (), w) := by
  rw [recordRepair, h]
  rfl

/-- A task without chunks that is not at work is repaired to itself. -/
theorem upToDate_empty (hnil : t.chunks = []) (hidle : t.status ≠ .downloading ∧ t.status ≠ .retrying) :
    UpToDate t w := by
  intro env
  have hrepairs : repairsStatus t = false := by simp [repairsStatus, hnil, hidle]
  have hsame : repairEmpty t = t := if_neg (not_or.2 hidle)
  refine ⟨t.updatedAt, ?_⟩
  rw [repairFromDiskOnWords, if_pos hnil, hsame, run_bind_ok (recordRepair_idle hrepairs)]
  rfl

/-- A task whose chunks and part files agree is repaired to itself. -/
theorem upToDate_chunks (hne : t.chunks ≠ []) (hfinished : unfinishedStatus t.status = false)
    (hsafe : ∀ c ∈ t.chunks, ∃ p, chunkPath t c = .ok p) (hfits : ∀ c ∈ t.chunks, fileSize (t.partOn w.disk c) ≤ c.size)
    (hagree : ∀ c ∈ t.chunks, repairedOn t w.disk c = c)
    (htotal : t.downloaded = totalOnWords (t.chunks.map (·.downloaded))) :
    UpToDate t w := by
  intro env
  have hchunks : t.chunks.map (repairedOn t w.disk) = t.chunks := by
    conv_rhs => rw [← List.map_id t.chunks]
    exact List.map_congr_left hagree
  have hsame : repairWithOnWords env t t.chunks = { t with updatedAt := env.now } := by
    simp only [repairWithOnWords, hfinished, ← htotal]
    rfl
  refine ⟨env.now, ?_⟩
  rw [repairFromDiskOnWords, if_neg hne, run_bind_ok (repairChunks_fitting hsafe hfits), hchunks,
    run_bind_ok (recordRepair_idle (repairsStatus_resting hfinished)), hsame]
  rfl

/-- What a repair leaves is up to date. -/
theorem upToDate_repaired (hne : t.chunks ≠ []) (hap : OwnParts t t.chunks) (hcut : CutTo t t.chunks d w.disk) :
    UpToDate (repairWithOnWords env t (t.chunks.map (repairedOn t d))) w := by
  have hdir : (repairWithOnWords env t (t.chunks.map (repairedOn t d))).tempDir = t.tempDir := rfl
  apply upToDate_chunks
  · exact fun h => hne (List.map_eq_nil_iff.1 h)
  · exact repairWithOnWords_finished
  · intro c' hc'
    obtain ⟨c, hc, rfl⟩ := List.mem_map.1 hc'
    rw [chunkPath_repaired hdir]
    exact hap.safe c hc
  · intro c' hc'
    obtain ⟨c, hc, rfl⟩ := List.mem_map.1 hc'
    rw [partOn_repaired hdir, hcut.cut c hc, fileSize_take]
    exact Nat.min_le_right _ _
  · intro c' hc'
    obtain ⟨c, hc, rfl⟩ := List.mem_map.1 hc'
    exact repaired_again hdir (hcut.cut c hc)
  · rfl

/-- The total is the sum of the chunks exactly if that sum fits. -/
theorem total_iff :
    (repairWithOnWords env t (t.chunks.map (repairedOn t d))).downloaded =
        ((repairWithOnWords env t (t.chunks.map (repairedOn t d))).chunks.map (·.downloaded)).sum ↔
      t.bytesOn d < 2 ^ 64 := by
  simp only [repairWithOnWords, totalOnWords_eq, downloaded_repaired]
  exact Nat.mod_eq_iff_lt (by decide)

/-- A repair reconciles the task, but for the total, which wraps. -/
theorem repair_returns (henv : env.Truncates) (h : Recoverable t) :
    Returns (repairFromDiskOnWords env t)
      (fun t' w' => (Reconciles t w.disk t' w'.disk ↔ t.bytesOn w.disk < 2 ^ 64) ∧ UpToDate t' w') w := by
  unfold Returns repairFromDiskOnWords
  split
  · rename_i hnil
    rw [wp_bind, recordRepair_wp, wp_pure]
    have hchunks : (repairEmpty t).chunks = [] := (repairEmpty_chunks t).trans hnil
    have hupToDate := upToDate_empty (w := w.noted t (repairEmpty t)) hchunks (repairEmpty_idle t)
    refine ⟨iff_of_true ?_ (by simp [DownloadTask.bytesOn, hnil]), hupToDate⟩
    refine ⟨by rw [repairEmpty_chunks, hnil]; exact .nil, ?_, ?_, fun hne => absurd hnil hne, repairEmpty_idle t⟩
    all_goals
      rw [hnil]
      exact fun c hc => absurd hc List.not_mem_nil
  · rename_i hne
    rw [wp_bind]
    refine wp_mono (repairChunks_repairs henv h.apart) ?_ (fun _ _ h => h) (fun _ h => h)
    rintro cs w₁ ⟨rfl, hcut, -⟩
    rw [wp_bind, recordRepair_wp, wp_pure]
    have hcut' : CutTo t t.chunks w.disk
        (w₁.noted t (repairWithOnWords env t (t.chunks.map (repairedOn t w.disk)))).disk := by
      rw [noted_disk]
      exact hcut
    refine ⟨?_, upToDate_repaired hne h.apart hcut'⟩
    rw [← total_iff]
    refine ⟨fun hrec => hrec.total hne,
      fun htotal => ⟨?_, ?_, ?_, fun _ => htotal, unfinished_idle repairWithOnWords_finished⟩⟩
    · exact List.forall₂_map_right_iff.2 (List.forall₂_same.2 fun c hc => repaired_reconciled (h.ordered hc))
    · intro c hc
      rw [hcut'.cut c hc, fileSize_take]
      exact Nat.min_le_right _ _
    · intro c hc hfits
      rw [hcut'.cut c hc]
      exact take_fitting hfits

/-- The repair returns and leaves the task and its part files agreed and nothing to repair,
exactly if the bytes on the disk can be counted on 64 bits. -/
theorem repair_reconciles_iff (henv : env.Truncates) (h : Recoverable t) :
    Returns (repairFromDiskOnWords env t) (fun t' w' => Reconciles t w.disk t' w'.disk ∧ UpToDate t' w') w ↔
      t.bytesOn w.disk < 2 ^ 64 := by
  obtain ⟨t', w', hrun, hiff, hupToDate⟩ := returns_iff.1 (repair_returns (w := w) henv h)
  rw [Returns, wp_of_ok hrun, hiff]
  exact and_iff_left hupToDate

/-- Chunks of the same range, with a part file each. -/
def overlapping (n stop : Nat) : DownloadTask :=
  { id := text "a"
    tempDir := text "a"
    chunks := (List.range n).map fun i => { index := i, stop := stop, tempPath := ChunkPlanner.chunkName i } }

theorem overlapping_safe (n stop : Nat) :
    ∀ c ∈ (overlapping n stop).chunks, ∃ p, chunkPath (overlapping n stop) c = .ok p := by
  intro c hc
  obtain ⟨i, -, rfl⟩ := List.mem_map.1 hc
  obtain ⟨hup, habs⟩ := chunkName_safe i
  exact ⟨_, if_neg (by simp [hup, habs])⟩

theorem overlapping_recoverable {n stop : Nat} (h : stop < 2 ^ 63) : Recoverable (overlapping n stop) := by
  refine ⟨if_pos ?_, ?_, overlapping_safe n stop, ?_⟩
  · simp [overlapping, Chunk.acceptable]
  · simpa [overlapping] using fun _ _ => h
  · refine List.pairwise_map.2 (List.nodup_range.imp ?_)
    intro i j hij heq
    obtain ⟨hup, habs⟩ := chunkName_safe i
    have hi : chunkPath (overlapping n stop) { index := i, stop := stop, tempPath := ChunkPlanner.chunkName i } =
        .ok (joinPath (text "a") (ChunkPlanner.chunkName i)) := if_neg (by simp [hup, habs])
    exact hij (ChunkPlanner.chunkName_injective (chunkPath_inj hi (heq ▸ hi)))

/-- Two part files, of five and of two bytes. -/
def twoParts : World :=
  { disk := { parts := fun p => if p = text "a/chunk_0.part" then some (text "12345")
      else if p = text "a/chunk_1.part" then some (text "12") else none } }

theorem repair_reconciles_two : Returns (repairFromDiskOnWords { protocol := .silent } (overlapping 2 4))
    (fun t' w' => Reconciles (overlapping 2 4) twoParts.disk t' w'.disk ∧ UpToDate t' w') twoParts :=
  (repair_reconciles_iff (fun _ => rfl) (overlapping_recoverable (by decide))).2 (by decide)

/-- Part files of `size` bytes on every path. -/
def sparse (size : Nat) : World := { disk := { parts := fun _ => some (List.replicate size 0) } }

theorem sparse_bytes (n stop : Nat) : (overlapping n stop).bytesOn (sparse (stop + 1)).disk = n * (stop + 1) := by
  have hchunk : ∀ c ∈ (overlapping n stop).chunks,
      min (fileSize ((overlapping n stop).partOn (sparse (stop + 1)).disk c)) c.size = stop + 1 := by
    intro c hc
    obtain ⟨p, hpath⟩ := (overlapping_safe n stop) c hc
    obtain ⟨i, -, rfl⟩ := List.mem_map.1 hc
    rw [partOn_path hpath]
    simp [sparse, Chunk.size]
  have hlength : (overlapping n stop).chunks.length = n := by simp [overlapping]
  rw [DownloadTask.bytesOn, List.map_congr_left hchunk, List.map_const', List.sum_replicate_nat, hlength]

/-- Full part files that are too many to count. -/
theorem sparse_unreconciled {n stop : Nat} (hstop : stop < 2 ^ 63) (hmany : 2 ^ 64 ≤ n * (stop + 1)) :
    ¬ Returns (repairFromDiskOnWords { protocol := .silent } (overlapping n stop))
      (fun t' w' => Reconciles (overlapping n stop) (sparse (stop + 1)).disk t' w'.disk ∧ UpToDate t' w')
      (sparse (stop + 1)) := by
  intro hreconciles
  have henv : Env.Truncates { protocol := .silent } := fun _ => rfl
  have hrec : Recoverable (overlapping n stop) := overlapping_recoverable hstop
  have hrepair := repair_returns (w := sparse (stop + 1)) henv hrec
  obtain ⟨t', w', hrun, hiff, -⟩ := returns_iff.1 hrepair
  rw [Returns, wp_of_ok hrun, hiff, sparse_bytes] at hreconciles
  exact absurd hreconciles.1 (Nat.not_lt.2 hmany)

/-- Four full part files of 2^62 + 1 bytes count as four bytes. -/
theorem sparse_parts_wrap : Recoverable (overlapping 4 (2 ^ 62)) ∧
    ¬ Returns (repairFromDiskOnWords { protocol := .silent } (overlapping 4 (2 ^ 62)))
      (fun t' w' => Reconciles (overlapping 4 (2 ^ 62)) (sparse (2 ^ 62 + 1)).disk t' w'.disk ∧ UpToDate t' w')
      (sparse (2 ^ 62 + 1)) :=
  ⟨overlapping_recoverable (by decide), sparse_unreconciled (by decide) (by decide)⟩

end Cget
