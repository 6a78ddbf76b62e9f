import Cget.Agreement
import Cget.Operations
import Cget.Reconciliation
import Cget.Sessions
import Cget.Termination
/-!
# Sessions that complete a task

A server serves a file if it announces its size and lets some attempt at each chunk through.
Whatever came before, a session with such a server and a disk that works comes to its end with
the task Completed and the remote file at the target.
-/

namespace Cget

open Prog Filter

variable {env : Env} {R : Bytes} {j t t' : DownloadTask} {d : Disk} {info : RemoteFileInfo} {c : Chunk}
  {part : Option Bytes} {p : Protocol} {url : Text} {retries : ℕ}

/-- A server with the bytes `R`. A single stream brings them all. Of the range requests up to `stop`,
those of one attempt are answered in full; the others may bring less and fail, if the code tries again. -/
structure Serves (R : Bytes) (p : Protocol) (retries : ℕ) (url : Text) (info : RemoteFileInfo) : Prop where
  faithful : Faithful R p url
  metadata : p.fetchMetadata url = .ok info
  announced : info.fileSize = R.length
  single : (p.downloadSingle url).result = .ok ()
  retried : ∀ start stop n e, (p.downloadRange url start stop n).result = .error e →
    ∃ code what, e = .cget code what ∧ fatalCode code = false
  answered : ∀ stop < R.length, ∃ n ≤ retries, ∀ start ≤ stop, (p.downloadRange url start stop n).result = .ok () ∧
    (p.downloadRange url start stop n).bytes = slice R start (stop + 1 - start)

/-! ## The fate of a chunk -/

theorem appendBlocks_some (b : Bytes) (blocks : List Block) :
    appendBlocks (some b) blocks = some (b ++ blocks.flatMap (·.data)) := by
  induction blocks generalizing b with
  | nil => simp [appendBlocks]
  | cons block blocks ih =>
    rw [List.flatMap_cons, ← List.append_assoc, ← ih]
    rfl

theorem Exact.full (h : Exact R c part) (hsize : fileSize part = c.size) (hle : c.start ≤ c.stop)
    (hstop : c.stop < R.length) :
    part.getD [] = c.bytes R := by
  refine List.IsPrefix.eq_of_length h ?_
  have hlen : (part.getD []).length = c.size := hsize
  rw [hlen, Chunk.bytes, slice, List.length_take, List.length_drop, c.size_of_le hle]
  omega

/-- An attempt before the one that gets through leaves its bytes, and another is made. -/
theorem caughtFate_passes {again : Option Bytes → ℕ → Fate} {n : ℕ} {retries : ℕ} {e : Exn} {P : Fate → Prop}
    (hretried : ∃ code what, e = .cget code what ∧ fatalCode code = false) (hn : n < env.maxRetries)
    (hagain : P (again part (n + 1))) : P (caughtFate env again n part retries e) := by
  obtain ⟨code, what, rfl, hcode⟩ := hretried
  rw [caughtFate, hcode, if_neg (by simpa using hn.ne)]
  exact hagain

/-- Attempt `n`, if attempt `m` gets through and the attempts after `n` come to it. -/
theorem tryFate_served {again : Option Bytes → ℕ → Fate} {m n retries : ℕ} {path : Path}
    (h : Serves R env.protocol env.maxRetries url info) (hle : c.start ≤ c.stop)
    (hm : ∀ start ≤ c.stop, (env.protocol.downloadRange url start c.stop m).result = .ok () ∧
      (env.protocol.downloadRange url start c.stop m).bytes = slice R start (c.stop + 1 - start))
        (hstop : c.stop < R.length)
    (hagain : n = m ∨ n < env.maxRetries ∧ ∀ part retries, Exact R c part →
      (again part retries).error = none ∧ Exact R c (again part retries).part) (hg : Good R c part) :
    (tryFate env url (.ok path) c again n part retries).error = none ∧
      Exact R c (tryFate env url (.ok path) c again n part retries).part := by
  rw [tryFate]
  split_ifs with hlong hfull
  · exact ⟨rfl, hg.cut⟩
  · exact ⟨rfl, hg.exact (Nat.not_lt.1 hlong)⟩
  have hexact : Exact R c part := hg.exact (Nat.not_lt.1 hlong)
  have hlt : fileSize part < c.size := Nat.not_le.1 hfull
  have hafter : Exact R c (some (part.getD [] ++
      (env.protocol.downloadRange url (c.start + fileSize part) c.stop n).bytes)) :=
    continues_range h.faithful hexact hlt
  simp only [requestFate, transferFate, appendBlocks_some, onPath]
  split
  · rename_i e he
    rcases hagain with rfl | ⟨hn, hagain⟩
    · rw [(hm _ (by have := c.size_of_le hle; omega)).1] at he
      cases he
    · exact caughtFate_passes (P := fun f => f.error = none ∧ Exact R c f.part) (h.retried _ _ _ e he) hn
        (hagain _ _ hafter)
  · rw [closedFate]
    split_ifs with hshort
    · rcases hagain with rfl | ⟨hn, hagain⟩
      · have hsize := c.size_of_le hle
        have hbytes := (hm (c.start + fileSize part) (by omega)).2
        have hpart : (part.getD []).length = fileSize part := rfl
        refine absurd ?_ hshort
        rw [fileSize_some, List.length_append, ← Transfer.bytes, hbytes, hpart, slice, List.length_take,
          List.length_drop]
        omega
      · exact caughtFate_passes (P := fun f => f.error = none ∧ Exact R c f.part) ⟨_, _, rfl, rfl⟩ hn
          (hagain _ _ hafter)
    · exact ⟨rfl, hafter⟩

/-- Every chunk is completed with its bytes. -/
theorem attemptFate_served {left n m retries : ℕ} {path : Path} (h : Serves R env.protocol env.maxRetries url info)
    (hle : c.start ≤ c.stop) (hstop : c.stop < R.length)
    (hm : ∀ start ≤ c.stop, (env.protocol.downloadRange url start c.stop m).result = .ok () ∧
      (env.protocol.downloadRange url start c.stop m).bytes = slice R start (c.stop + 1 - start))
    (hmax : m ≤ env.maxRetries) (hn : n + left = env.maxRetries) (hnm : n ≤ m) (hg : Good R c part) :
    (attemptFate env url (.ok path) c left n part retries).error = none ∧
      Exact R c (attemptFate env url (.ok path) c left n part retries).part := by
  induction left generalizing n part retries with
  | zero => exact tryFate_served h hle hm hstop (.inl (by omega)) hg
  | succ left ih =>
    refine tryFate_served h hle hm hstop ?_ hg
    rcases Nat.eq_or_lt_of_le hnm with rfl | hlt
    · exact .inl rfl
    · exact .inr ⟨by omega, fun part retries he => ih (by omega) hlt he.good⟩

/-! ## The bytes of the chunks -/

/-- Chunks that tile a range have its bytes. -/
theorem Tiles.bytes {start stop : ℕ} {cs : List Chunk} (h : Tiles start cs stop) :
    start ≤ stop ∧ cs.flatMap (Chunk.bytes R) = slice R start (stop - start) := by
  induction cs generalizing start with
  | nil =>
    obtain rfl : start = stop := h
    simp [slice]
  | cons c cs ih =>
    obtain ⟨rfl, hle, hrest⟩ := h
    obtain ⟨hstop, hbytes⟩ := ih hrest
    have hsize := c.size_of_le hle
    have hnext : c.stop + 1 = c.start + c.size := by omega
    refine ⟨by omega, ?_⟩
    rw [List.flatMap_cons, hbytes, Chunk.bytes, hnext, ← slice_add]
    congr 1
    omega

/-- A task whose chunks can be downloaded from a server of `R`. -/
structure Downloads (R : Bytes) (t : DownloadTask) (d : Disk) : Prop extends Downloadable t d where
  whole_size : t.fileSize = R.length
  good : ∀ c ∈ t.chunks, Good R c (t.partOn d c)
  exact : ∀ c ∈ t.chunks, c.schedulable = false → Exact R c (t.partOn d c)

section Downloads

variable (h : Serves R env.protocol env.maxRetries t.url info) (ht : Downloads R t d)

include h ht

theorem chunkFate_served (hc : c ∈ t.chunks) :
    (chunkFate env t d c).error = none ∧ Exact R c (chunkFate env t d c).part := by
  obtain ⟨-, hle, hstop⟩ := ht.tiles.mem.2 c hc
  rw [ht.whole_size] at hstop
  obtain ⟨p, hp⟩ := ht.paths c hc
  obtain ⟨m, hmax, hm⟩ := h.answered c.stop hstop
  rw [chunkFate, hp]
  exact attemptFate_served h hle hstop hm hmax (Nat.zero_add _) (Nat.zero_le m) (ht.good c hc)

theorem not_doomed_served : ¬ Doomed env d t := by
  rintro ⟨c, hc, -, herror⟩
  rw [(chunkFate_served h ht hc).1] at herror
  cases herror

theorem rangedBytes_served : rangedBytes env t d = R := by
  have hparts : ∀ c ∈ t.chunks, (referencePart env t d c).getD [] = c.bytes R := by
    intro c hc
    obtain ⟨-, hle, hstop⟩ := ht.tiles.mem.2 c hc
    rw [ht.whole_size] at hstop
    rw [referencePart]
    split
    · obtain ⟨hreturns, hexact⟩ := chunkFate_served h ht hc
      refine hexact.full ?_ hle hstop
      rw [chunkFate] at hreturns ⊢
      exact attemptFate_full (Nat.zero_add _) hreturns
    · rename_i hsched
      rw [Bool.not_eq_true] at hsched
      exact (ht.exact c hc hsched).full (ht.whole c hc hsched) hle hstop
  have hbytes := ht.tiles.bytes (R := R)
  rw [ht.whole_size, Nat.sub_zero, slice_zero_length] at hbytes
  rw [rangedBytes, List.flatMap_def, List.map_congr_left hparts, ← List.flatMap_def]
  exact hbytes.2

theorem rangedEnding_served (hdigest : t.accepts env R) :
    rangedEnding env t d = { status := .completed, file := some R } := by
  rw [rangedEnding, if_neg (not_doomed_served h ht), rangedBytes_served h ht, committed, if_pos hdigest]

end Downloads

theorem singleEnding_served (h : Serves R env.protocol retries t.url info) (hdigest : t.accepts env R) :
    singleEnding env t d info = { status := .completed, file := some R } := by
  have hbytes : (env.protocol.downloadSingle t.url).bytes = R := h.faithful.2.2.1 h.single
  have hnone : singleFailure (env.protocol.downloadSingle t.url) info = none := by
    simp only [singleFailure, h.single, hbytes, h.announced, ne_eq, not_true_eq_false, and_false, if_false]
  rw [singleEnding, hnone, hbytes]
  simp only [committed, hdigest, if_true]

/-- Such a server never answers so that `downloadWithRange` does more than report. -/
theorem Serves.ordinary (h : Serves R env.protocol retries t.url info) (ht : Downloadable t d) :
    OrdinaryRanges env t d := by
  refine ht.ordinary fun c _ _ already n _ _ e he => ?_
  obtain ⟨code, what, rfl, hcode⟩ := h.retried _ _ _ _ he
  simp only [fatalCode, Bool.or_eq_false_iff, decide_eq_false_iff_not] at hcode
  exact ⟨hcode.1.1, hcode.1.2⟩

/-! ## The ending of a session -/

/-- A task as a recovery leaves it, with part files that can be continued. -/
structure Recovered (R : Bytes) (env : Env) (t : DownloadTask) (d : Disk) : Prop where
  laid : t.Laid
  sorted : ∀ c ∈ t.chunks, c.Sorted
  whole : Whole t d
  size : t.fileSize = 0 ∨ t.fileSize = R.length
  continues : CanContinue R env t d

theorem Recovered.downloads (h : Recovered R env t d) (hserver : Serves R env.protocol env.maxRetries t.url info)
    (hsame : metadataChanged t info = false) (hranged : ranged env (rememberMetadata t info) info) :
    RangesMeet env t d info ∧ Downloads R (plannedTask env t info) d := by
  have hknown : (rememberMetadata t info).fileSize ≠ 0 := by
    simp only [ranged, Bool.and_eq_true, decide_eq_true_eq] at hranged
    exact hranged.1.1
  have hannounced : info.fileSize ≠ 0 := by
    intro hzero
    have hempty : R.length = 0 := hserver.announced ▸ hzero
    simp only [rememberMetadata, if_pos hzero] at hknown
    rcases h.size with hsize | hsize
    · exact hknown hsize
    · exact hknown (hsize.trans hempty)
  have hplan : plannedTask env t info = planRange env info.fileSize (rememberMetadata t info) := by
    rw [plannedTask, rememberMetadata_size hannounced]
  have hdownloadable := plannedTask_downloadable h.laid h.sorted h.whole hsame hranged
  have hgood : ∀ c ∈ (plannedTask env t info).chunks, Good R c ((plannedTask env t info).partOn d c) := by
    rw [hplan]
    exact fun c hc => (h.continues info hserver.metadata hsame hranged c hc).1
  have hplanned : Serves R env.protocol env.maxRetries (plannedTask env t info).url info := hserver
  refine ⟨⟨.inl hannounced, hdownloadable, hplanned.ordinary hdownloadable⟩,
    ⟨hdownloadable, ?_, hgood, fun c hc hsched => ?_⟩⟩
  · exact (rememberMetadata_size hannounced).trans hserver.announced
  · exact (hgood c hc).exact (hdownloadable.whole c hc hsched).le

theorem taskEnding_served (h : Recovered R env t d) (hserver : Serves R env.protocol env.maxRetries t.url info)
    (hsame : metadataChanged t info = false) (hdigest : t.accepts env R) :
    taskEnding env t d = { status := .completed, file := some R } := by
  rw [taskEnding, hserver.metadata]
  dsimp only
  rw [hsame, if_neg Bool.false_ne_true]
  split
  · rename_i hranged
    have hplanned : Serves R env.protocol env.maxRetries (plannedTask env t info).url info := hserver
    exact rangedEnding_served hplanned (h.downloads hserver hsame hranged).2 hdigest
  · exact singleEnding_served hserver hdigest

/-- A repair sets the counter of each chunk to the bytes it leaves in its part file. -/
theorem repairFromDisk_cuts {w : World} (hap : OwnParts t t.chunks) :
    wp (repairFromDisk env t)
      (fun t' w' => t.WorkedOn t' ∧ t'.chunks = t.chunks.map (repairedOn t w.disk) ∧ CutTo t t.chunks w.disk w'.disk)
      (fun _ _ => ¬ env.Truncates) (fun _ => ¬ env.Truncates) w := by
  unfold repairFromDisk
  split
  · rename_i hnil
    rw [wp_bind, recordRepair_wp, wp_pure, noted_disk, repairEmpty_chunks, hnil]
    refine ⟨?_, rfl, ⟨rfl, rfl, List.forall_mem_nil _, fun _ _ => rfl⟩⟩
    unfold repairEmpty
    split_ifs
    · exact ⟨.paused, t.lastError, t.downloaded, t.chunks, t.updatedAt, rfl⟩
    · exact ⟨.pendingRecovery, _, t.downloaded, t.chunks, t.updatedAt, rfl⟩
    · exact .refl
  · rw [wp_bind]
    refine wp_mono (repairChunks_cuts hap) ?_ (fun _ _ h => h) (fun _ h => h)
    rintro cs w₁ ⟨rfl, hcut, -⟩
    rw [wp_bind, recordRepair_wp, wp_pure, noted_disk]
    exact ⟨⟨_, t.lastError, _, _, _, rfl⟩, rfl, hcut⟩

theorem DownloadTask.Laid.ownParts (h : t.Laid) : OwnParts t t.chunks := by
  refine ⟨h.paths, ?_⟩
  have hapart := h.apart
  rw [List.pairwise_iff_getElem]
  intro i k hi hk hik heq
  obtain ⟨p, hp⟩ := h.paths _ (List.getElem_mem hi)
  have hboth := hapart t (by simp) t (by simp) i k _ _ p (List.getElem?_eq_getElem hi)
    (List.getElem?_eq_getElem hk) hp (heq ▸ hp)
  exact hik.ne hboth.2

/-- Complete chunks have their bytes after a repair. -/
theorem whole_repaired {d₀ : Disk} (hdir : t'.tempDir = t.tempDir)
    (hchunks : t'.chunks = t.chunks.map (repairedOn t d₀)) (hcut : CutTo t t.chunks d₀ d) : Whole t' d := by
  intro c' hc' hsched
  rw [hchunks] at hc'
  obtain ⟨c, hc, rfl⟩ := List.mem_map.1 hc'
  have hcomplete := (repaired_sorted (Nat.min_le_right (fileSize (t.partOn d₀ c)) c.size)).complete hsched
  rw [partOn_repaired hdir, hcut.cut c hc, fileSize_take]
  exact hcomplete.2

/-! ## Sessions -/

/-- The stored versions are those of the job `j`. -/
def KeptFor (j : DownloadTask) (w : World) : Prop := Filed (fun t => j.SameOrigin t) w

theorem keptFor_rule : StoreRule (KeptFor j) (fun t => j.SameOrigin t) := filed_rule fun _ _ h h' => h'.trans h

theorem keptFor_session {id : TaskId} : Keeps (KeptFor j) (runSession env id) := by
  unfold runSession
  refine (recoverTasks_keeps keptFor_rule _).bind fun _ w h => ?_
  rw [wp_bind]
  refine wp_loadTask (fun t ht => ?_) fun _ => h
  exact wp_mono (onTask_keeps (keptFor_rule.loads w id t h ht) h (held_download keptFor_rule.toJobRule))
    (fun _ _ h => h.1) (fun _ _ h => h) (fun _ h => h)

theorem metadataChanged_repaired {sizes : List ℕ} (hr : Repaired t sizes d t') :
    metadataChanged t' info = metadataChanged t info := by
  simp only [metadataChanged, hr.metadata.1, hr.metadata.2.1, hr.same.2.2.2.2.1]

/-- However its threads take turns, unless the run is cut short. -/
theorem session_completes {w : World} (hf : env.Faultless) (h : Resumed R j w) (hkept : KeptFor j w)
    (hserver : Serves R env.protocol env.maxRetries j.url info) (hclean : PlansClean R j.id w env)
    (hsame : ∀ t ∈ w.disk.loadTask j.id, metadataChanged t info = false) (hdigest : j.accepts env R) :
    wp (runSession env j.id) (fun t w' => t.status = .completed ∧ w'.disk.out j.targetPath = some R) (fun _ _ => False)
      (fun _ => True) w := by
  obtain ⟨t, hmain, hload, hfits, hjob, hst, hshaped, hgood⟩ := h.1.loads h.2
  obtain ⟨-, hlaid, horigin⟩ := hkept.job hload
  unfold runSession
  rw [wp_bind, recoverTasks_single hmain hload hst]
  have htruncates : env.Truncates := fun n => (hf.smooth n).1
  refine wp_mono (wp_and (repairFromDisk_wp t w) (repairFromDisk_cuts hlaid.ownParts)) ?_ (fun _ _ h => h.2 htruncates)
    (fun _ _ => trivial)
  rintro t' _ ⟨⟨w₁, hw₁, hr, rfl⟩, -, hchunks, hcut⟩
  rw [noted_disk] at hcut
  obtain ⟨hres, hexact⟩ := h.1.repair hjob hst hshaped hgood hw₁ hr
  have hfits' := repaired_fits hr hfits
  refine wp_saveTask (fun _ => ?_) (fun k hk => by simp [(hf.smooth _).2] at hk)
    (fun k hk => by simp [(hf.smooth _).2] at hk)
  have hsaved := resuming_tolerates.saved _ (resuming_tolerates.tick _ ((w₁.noted t t').tick + 1) hres)
  have hreload :
      (World.saveTask { w₁.noted t t' with tick := (w₁.noted t t').tick + 1 } t').disk.loadTask j.id = some t' := by
    have hid : t'.id = j.id := hres.job.1
    simp [Disk.loadTask, TaskFiles.load, World.saveTask, TaskFiles.commit, hid, taskFromJson_written hfits']
  simp only [wp_bind, loadTask, wp_get, hreload, wp_pure, wp_onTask]
  obtain ⟨d, hd⟩ : ∃ d, d = (World.saveTask { w₁.noted t t' with tick := (w₁.noted t t').tick + 1 } t').disk := ⟨_, rfl⟩
  have hparts : d.parts = w₁.disk.parts := by
    rw [hd]
    change (w₁.noted t t').disk.parts = w₁.disk.parts
    rw [noted_disk]
  have hpart : ∀ u c, DownloadTask.partOn u d c = u.partOn w₁.disk c :=
    fun u c => by simp only [DownloadTask.partOn, hparts]
  have hrecovered : Recovered R env t' d := by
    refine ⟨laid_iff.2 ?_, fun c hc => ?_, fun c hc hsched => ?_, hres.shaped.size, fun info' h1 h2 h3 c hc => ?_⟩
    · rw [show t'.layout = t.layout from repairs_map (fun _ _ => rfl) hr.chunks, hr.same.2.2.2.2.1]
      exact laid_iff.1 hlaid
    · obtain ⟨c₀, -, n, hn, rfl, -⟩ := repairs_mem hr.chunks hc
      exact repaired_sorted hn
    · rw [hpart]
      exact whole_repaired hr.same.2.2.2.1 hchunks hcut c hc hsched
    · rw [hpart]
      exact canContinue_repaired (by rw [hjob.1]; exact hclean)
        (by rw [hjob.1]; exact hload) hw₁ hr hexact info' h1 h2 h3 c hc
  have hurl : t'.url = j.url := hres.job.2.1
  have hserver' : Serves R env.protocol env.maxRetries t'.url info := hurl ▸ hserver
  have hunchanged : metadataChanged t' info = false := (metadataChanged_repaired hr).trans (hsame t hload)
  have haccepts : t'.accepts env R := by
    have hsum : t'.expectedSha256 = j.expectedSha256 := hr.same.2.2.2.2.2.trans horigin.2.2.2.2
    simpa only [DownloadTask.accepts, hsum] using hdigest
  have hends := download_ends (s := { world := _, task := t' }) hf (hd ▸ Poised.refl) fun info' h1 h2 h3 => by
    obtain rfl : info = info' := by simpa [hserver'.metadata] using h1
    exact (hrecovered.downloads hserver' h2 h3).1
  rw [taskEnding_served hrecovered hserver' hunchanged haccepts] at hends
  refine wp_mono hends (fun _ s' hs' => ⟨hs'.1, ?_⟩) (fun _ _ h => h) (fun _ h => h)
  rw [← hres.job.2.2.1]
  exact hs'.2

/-! ## Sessions that return -/

section Returning

variable (hc : env.NoCrash)

include hc

theorem Env.NoCrash.repairChunks (t : DownloadTask) : ∀ cs, Survives (repairChunks env t cs)
  | [] => KeepsOr.pure _
  | c :: cs => by
    unfold Cget.repairChunks
    split
    · exact KeepsOr.throw _
    · refine KeepsOr.get_bind fun w => KeepsOr.bind ?_ fun _ => (Env.NoCrash.repairChunks t cs).bind fun _ =>
        KeepsOr.pure _
      refine KeepsOr.get_bind fun w => ?_
      split
      · exact hc.truncateFile
      · exact KeepsOr.pure _

theorem Env.NoCrash.repairFromDisk (t : DownloadTask) : Survives (repairFromDisk env t) := by
  have hrecord : ∀ t', Survives (recordRepair t t') := fun t' _ _ => recordRepair_wp.2 trivial
  unfold Cget.repairFromDisk
  split
  · exact (hrecord _).bind fun _ => KeepsOr.pure _
  · exact (hc.repairChunks t _).bind fun _ => (hrecord _).bind fun _ => KeepsOr.pure _

theorem Env.NoCrash.recoverLoop : ∀ ts, Survives (recoverLoop env ts)
  | [] => KeepsOr.pure _
  | t :: ts => by
    have hsave : ∀ t', Survives (saveTask env t') := fun t' _ _ =>
      wp_saveTask (fun _ => trivial) (fun _ _ => trivial) fun k hk => hc.2.1 _ k hk
    unfold Cget.recoverLoop
    split
    · exact (Env.NoCrash.recoverLoop ts).bind fun _ => KeepsOr.pure _
    · exact (hc.repairFromDisk t).bind fun t' => (hsave t').bind fun _ => (Env.NoCrash.recoverLoop ts).bind fun _ =>
        KeepsOr.pure _

end Returning

section Turns

variable {turns : ℕ → ℕ} {w : World}

theorem repairChunks_upTo (n : ℕ) (t : DownloadTask) (cs : List Chunk) :
    repairChunks (env.upTo turns n) t cs = repairChunks env t cs := by
  induction cs with
  | nil => rfl
  | cons c cs ih =>
    rw [repairChunks, repairChunks, ih]
    rfl

theorem repairFromDisk_upTo (n : ℕ) (t : DownloadTask) : repairFromDisk
    (env.upTo turns n) t = repairFromDisk env t := by
  rw [repairFromDisk, repairFromDisk, repairChunks_upTo]
  rfl

/-- A recovery has no threads. -/
theorem recoverLoop_upTo (n : ℕ) (ts : List DownloadTask) : recoverLoop (env.upTo turns n) ts = recoverLoop env ts := by
  induction ts with
  | nil => rfl
  | cons t ts ih =>
    rw [recoverLoop, recoverLoop, ih, repairFromDisk_upTo]
    rfl

theorem onTask_concludes {m : ℕ → EngineM Unit} (h : Concludes m { world := w, task := t }) :
    Concludes (fun n => onTask t (m n)) w := by
  obtain ⟨o, s', ho, hrun⟩ := h
  cases o with
  | ok a =>
    refine ⟨.ok s'.task, s'.world, by simp, hrun.mono fun n hn => ?_⟩
    simp only [onTask, hn]
  | thrown e =>
    refine ⟨.thrown e, s'.world, by simp, hrun.mono fun n hn => ?_⟩
    simp only [onTask, hn]
  | stopped => exact absurd rfl ho

theorem session_concludes (hc : env.NoCrash) (hturns : ∀ j n, ∃ m ≥ n, turns m = j) {id : TaskId} (w : World) :
    Concludes (fun n => runSession (env.upTo turns n) id) w := by
  have hrecover : Survives (recoverTasks env [id]) := KeepsOr.get_bind fun w => hc.recoverLoop _
  have hload : Survives (loadTask id) := fun w _ => wp_loadTask (fun _ _ => trivial) fun _ => trivial
  simp only [runSession]
  refine Survives.andThen hrecover (fun n => ?_) fun _ w => ?_
  · simp only [recoverTasks, recoverLoop_upTo]
    rfl
  · exact Survives.andThen hload (fun _ => rfl) fun t w => onTask_concludes (download_concludes hc hturns _)

end Turns

theorem Env.Faultless.upTo (hf : env.Faultless) (turns : ℕ → ℕ) (n : ℕ) : (env.upTo turns n).Faultless :=
  ⟨hf.smooth, hf.commit, hf.engine⟩

/-- Whatever earlier sessions came to: a session with a server of the file and a disk that works delivers it, if no
session plans chunks over part files of other chunks, and the server's metadata and digest are those of the task. -/
theorem served_session_delivers {env₀ : Env} {r : CreateRequest} {parts out : Path → Option Bytes} {t₀ : DownloadTask}
    {w₀ : World}
    (hcreate : (createTask env₀ r).run (.fresh parts out) = (.ok t₀, w₀)) (envs : List Env) (env : Env)
    (info : RemoteFileInfo) (turns : ℕ → ℕ) (hfaithful : ∀ e ∈ envs, Faithful R e.protocol r.url)
    (hclean : GuardedRun (sessionStep r.id) (PlansClean R r.id) w₀ (envs ++ [env]))
    (hserver : Serves R env.protocol env.maxRetries r.url info)
    (hsame : ∀ t ∈ (envs.foldl (sessionStep r.id) w₀).disk.loadTask r.id, metadataChanged t info = false)
    (hdigest : (newTask env₀ r).accepts env R) (hf : env.Faultless) (hturns : ∀ j n, ∃ m ≥ n, turns m = j) :
    ∀ᶠ n in atTop, completes ((runSession (env.upTo turns n) r.id).run (envs.foldl (sessionStep r.id) w₀)).1 ∧
      ((runSession (env.upTo turns n) r.id).run (envs.foldl (sessionStep r.id) w₀)).2.disk.out r.targetPath =
        some R := by
  obtain ⟨-, hres⟩ := createTask_resumed (R := R) hcreate
  have hkept : KeptFor (newTask env₀ r) w₀ := by
    have hkeeps : Keeps (KeptFor (newTask env₀ r)) (createTask env₀ r) :=
      createTask_keeps keptFor_rule.toJobRule ⟨rfl, rfl, rfl, rfl, rfl⟩
    have hrun := hkeeps.run (.fresh parts out) Filed.fresh
    rwa [hcreate] at hrun
  obtain ⟨hclean, hlast⟩ := GuardedRun.append.1 hclean
  have hresumed : Resumed R (newTask env₀ r) (envs.foldl (sessionStep r.id) w₀) ∧
      KeptFor (newTask env₀ r) (envs.foldl (sessionStep r.id) w₀) := by
    refine GuardedRun.inv (I := fun w => Resumed R (newTask env₀ r) w ∧ KeptFor (newTask env₀ r) w)
      (fun w e h hok => ⟨?_, ?_⟩) ⟨hres, hkept⟩ (hclean.and hfaithful)
    · have hsession := session_delivers (j := newTask env₀ r) h.1 hok.2 hok.1
      exact wp_const.1 (wp_mono hsession (fun _ _ h => h.1) (fun _ _ h => h) (fun _ h => h))
    · exact keptFor_session.run w h.2
  have hsession : ∀ n, wp (runSession (env.upTo turns n) r.id)
      (fun t w => t.status = .completed ∧ w.disk.out r.targetPath = some R)
      (fun _ _ => False) (fun _ => True) (envs.foldl (sessionStep r.id) w₀) := fun n =>
    session_completes (j := newTask env₀ r) (hf.upTo turns n) hresumed.1 hresumed.2 hserver hlast.1 hsame hdigest
  have hends := (session_concludes hf.noCrash hturns (envs.foldl (sessionStep r.id) w₀)).wp hsession
  filter_upwards [hends] with n hn
  rcases hr : (runSession (env.upTo turns n) r.id).run (envs.foldl (sessionStep r.id) w₀) with ⟨t | e | _, w⟩
  · rw [wp_of_ok hr] at hn
    exact ⟨decide_eq_true hn.1, hn.2⟩
  · rw [wp_of_thrown hr] at hn
    exact hn.elim
  · rw [wp_of_stopped hr] at hn
    exact hn.elim

/-- A server whose first answer to each request for a range breaks off after a byte. -/
def stuttering : Env where
  protocol :=
    { fetchMetadata := fun _ => .ok { fileSize := 4, supportsRange := true }
      downloadRange := fun _ start stop n =>
        if n = 0 then
          { blocks := [{ data := (slice fourBytes start (stop + 1 - start)).take 1 }]
            result := .error (.cget .networkError []) }
        else { blocks := [{ data := slice fourBytes start (stop + 1 - start) }] }
      downloadSingle := fun _ => { blocks := [{ data := fourBytes }] } }
  maxRetries := 1
  maxThreads := 4

theorem stuttering_serves {url : Text} :
    Serves fourBytes stuttering.protocol stuttering.maxRetries url { fileSize := 4, supportsRange := true } where
  faithful := by
    refine ⟨fun start stop n => ?_, ?_, fun _ => ?_, fun info hinfo => ?_⟩
    · simp only [stuttering]
      split
      · simp only [Transfer.bytes, List.flatMap_cons, List.flatMap_nil, List.append_nil]
        exact List.take_prefix 1 _
      · simp [Transfer.bytes]
    · simp [stuttering, Transfer.bytes]
    · simp [stuttering, Transfer.bytes]
    · obtain rfl : _ = info := by simpa [stuttering] using hinfo
      exact .inr rfl
  metadata := rfl
  announced := rfl
  single := rfl
  retried start stop n e he := by
    simp only [stuttering] at he
    split at he
    · obtain rfl : _ = e := by simpa using he
      exact ⟨_, _, rfl, rfl⟩
    · cases he
  answered stop _ := ⟨1, le_rfl, fun start _ => ⟨rfl, by simp [stuttering, Transfer.bytes]⟩⟩

/-- After a session of which one thread failed. -/
theorem served_session_delivers_resumed :
    ∀ᶠ n in atTop,
      completes ((runSession (stuttering.upTo (fun n => n.unpair.1) n) fourRequest.id).run
        ([fourThreads].foldl (sessionStep fourRequest.id) fourWorld)).1 ∧
      ((runSession (stuttering.upTo (fun n => n.unpair.1) n) fourRequest.id).run
        ([fourThreads].foldl (sessionStep fourRequest.id) fourWorld)).2.disk.out fourRequest.targetPath =
        some fourBytes := by
  refine served_session_delivers fourWorld_created [fourThreads] stuttering _ _ (fun e he => ?_) (by decide +kernel)
    stuttering_serves (by decide +kernel) rfl ⟨fun _ => ⟨rfl, rfl⟩, rfl, rfl⟩ fun j n =>
    ⟨Nat.pair j n, Nat.right_le_pair j n, ?_⟩
  · obtain rfl := List.mem_singleton.1 he
    exact serverUpTo_faithful (.inr rfl)
  · rw [Nat.unpair_pair]

end Cget
