import Cget.Destination
import Cget.PoolFates
/-!
# How a download ends

Without failures of its file operations, a session ends in one of a few ways: with a status
and a file at the target path, an `Ending`. Which one it is depends on the server's answers
and on the part files, not on how the threads of the session take turns.
-/

namespace Cget

open Prog

variable {env : Env} {t u : DownloadTask} {d : Disk} {s : Session} {info : RemoteFileInfo} {c : Chunk}
  {cs : List Chunk} {b : Bytes}

/-! ## Operations that go through -/

section Operations

variable {Q : Unit → World → Prop} {E : Exn → World → Prop} {S : World → Prop} {Q' : Unit → Session → Prop}
  {E' : Exn → Session → Prop} {S' : Session → Prop}

theorem Env.Faultless.noCrash (hf : env.Faultless) : env.NoCrash := by
  refine ⟨fun n k h => by simp [(hf.smooth n).1] at h, fun n k h => by simp [(hf.smooth n).2] at h, fun f hin k h => ?_⟩
  rw [hf.commit] at hin
  simp only [CommitFaults.all, List.mem_cons, List.not_mem_nil, or_false, or_self] at hin
  cases hin.symm.trans h

theorem Env.Smooth.fileOp (hf : env.Smooth) {full : Disk → Disk} {part : Nat → Disk → Disk} {e : Exn} {w : World}
    (h : Q () { disk := full w.disk, tick := w.tick + 1, log := w.log }) : wp (fileOp env full part e) Q E S w :=
  wp_fileOp (fun _ => h) (fun k hk => by simp [(hf _).1] at hk) fun k hk => by simp [(hf _).1] at hk

theorem Env.Persists.persistTask (hp : env.Persists) (h : Q' () (s.touched env).saved) :
    wp (persistTask env) Q' E' S' s :=
  wp_persistTask (fun _ => h) (fun k hk => by simp [hp _] at hk) fun k hk => by simp [hp _] at hk

theorem Env.Persists.setFailure (hp : env.Persists) {st : TaskStatus} {message : Text}
    (h : Q' () (s.failed env st message).saved) : wp (setFailure env st message) Q' E' S' s :=
  wp_setFailure (fun _ => h) (fun k hk => by simp [hp _] at hk) fun k hk => by simp [hp _] at hk

theorem Env.Persists.beginTask (hp : env.Persists) (h : Q' () (s.begun env).saved) : wp (beginTask env) Q' E' S' s :=
  wp_beginTask (fun _ => h) (fun k hk => by simp [hp _] at hk) fun k hk => by simp [hp _] at hk

theorem Env.Smooth.persistTask (hf : env.Smooth) (h : Q' () (s.touched env).saved) : wp (persistTask env) Q' E' S' s :=
  hf.persists.persistTask h

theorem Env.Smooth.setFailure (hf : env.Smooth) {st : TaskStatus} {message : Text}
    (h : Q' () (s.failed env st message).saved) : wp (setFailure env st message) Q' E' S' s := hf.persists.setFailure h

/-- The last write of a task that is complete. -/
theorem Env.Faultless.saves (hf : env.Faultless) : (env.ending env.commit.save).Smooth := by
  rw [hf.commit]
  exact fun _ => ⟨rfl, rfl⟩

end Operations

/-! ## Endings -/

/-- The status of a task, and the file at its target path. -/
structure Ending where
  status : TaskStatus
  file : Option Bytes
  deriving DecidableEq

def EndsAs (target : Path) (e : Ending) (t : DownloadTask) (w : World) : Prop :=
  t.status = e.status ∧ w.disk.out target = e.file

/-- The status `failWith` sets. -/
def failureStatus : Exn → TaskStatus
  | .cget .metadataMismatchError _ => .metadataMismatch
  | _ => .failed

theorem failWith_eq (e : Exn) : failWith env e = setFailure env (failureStatus e) e.what := by
  cases e with
  | cget code what => cases code <;> rfl
  | other what => rfl

/-- `verifyChecksum` accepts these bytes. -/
def DownloadTask.accepts (env : Env) (t : DownloadTask) (b : Bytes) : Bool :=
  match t.expectedSha256 with
  | none => true
  | some digest => env.sha256 b = lowercaseHex digest

/-- The ending of a session that has merged these bytes. -/
def committed (env : Env) (t : DownloadTask) (b : Bytes) : Ending where
  status := if t.accepts env b then .completed else .failed
  file := some b

/-- What `verifyChecksum` says of bytes it does not accept. -/
def DownloadTask.mismatch (env : Env) (t : DownloadTask) (b : Bytes) : Text :=
  match t.expectedSha256 with
  | none => []
  | some digest => text "SHA256 mismatch: expected " ++ lowercaseHex digest ++ text ", got " ++ env.sha256 b

/-- The record of a task that has merged these bytes. -/
def finalized (env : Env) (t : DownloadTask) (b : Bytes) : DownloadTask :=
  if t.accepts env b then
    { t with downloaded := t.fileSize, status := .completed, lastError := none, updatedAt := env.now }
  else { t with status := .failed, lastError := some (t.mismatch env b), updatedAt := env.now }

theorem accepts_of_digest (h : ∀ digest, t.expectedSha256 = some digest → env.sha256 b = lowercaseHex digest) :
    t.accepts env b = true := by
  unfold DownloadTask.accepts
  split
  · rfl
  · rename_i digest hdigest
    exact decide_eq_true (h digest hdigest)

theorem verifyChecksum_accepts (hf : env.Faultless) (hb : s.target = some b) :
    wp (verifyChecksum env)
      (fun ok s' => ok = s.task.accepts env b ∧ (ok = true → s'.task = s.task ∧ s'.world.disk = s.world.disk) ∧
        (ok = false → s'.task = finalized env s.task b ∧ s'.world.disk.out = s.world.disk.out))
      (fun _ _ => False) (fun _ => False) s := by
  have hopen : env.commit.openMerged = .ok := by rw [hf.commit]
  refine wp_verifyChecksum hb (fun n hok => ?_) (fun n digest hdigest _ hne => ?_) (fun n k _ hk => ?_) fun n k hk => ?_
  · exact ⟨(accepts_of_digest fun digest h => (hok digest h).2).symm, fun _ => ⟨rfl, rfl⟩, by simp⟩
  · have hrefused : s.task.accepts env b = false := by
      rw [DownloadTask.accepts, hdigest]
      exact decide_eq_false hne
    have hmessage : s.task.mismatch env b = checksumMessage (lowercaseHex digest) (env.sha256 b) := by
      rw [DownloadTask.mismatch, hdigest]
      rfl
    refine hf.smooth.setFailure ⟨hrefused.symm, by simp, fun _ => ⟨?_, rfl⟩⟩
    rw [finalized, hrefused, if_neg Bool.false_ne_true, hmessage]
    rfl
  · cases hopen.symm.trans hk
  · cases hopen.symm.trans hk

/-- A merge of part files that are all there, of the right size in sum. -/
theorem mergeAndComplete_finalized (hf : env.Faultless)
    (hgather : gatherParts s.world.disk s.task.tempDir s.task.chunks = (b, none)) (hsize : b.length = s.task.fileSize) :
    wp (mergeAndComplete env) (fun _ s' => s'.task = finalized env s.task b ∧
      s'.world.disk.out s.task.targetPath = some b) (fun _ _ => False) (fun _ => False) s := by
  have hassembled : assembled env s.world.disk s.task.chunks s.task.tempDir s.task.fileSize = some b := by
    have hcut : env.commit.write.cut (gatherParts s.world.disk s.task.tempDir s.task.chunks).1 = some b := by
      rw [hf.commit, hgather]
      rfl
    rw [assembled_written (by rw [hf.commit]) (by rw [hf.commit]) hcut, hgather, if_pos ⟨rfl, hsize⟩]
  unfold mergeAndComplete
  simp only [wp_bind, wp_get, onWorld, wp_focus]
  refine wp_mono mergeChunks_wp ?_ ?_ ?_
  · rintro _ w ⟨-, -, b', hb', hout⟩
    obtain rfl := Option.some.inj (hassembled.symm.trans hb')
    refine wp_mono (verifyChecksum_accepts hf hout) ?_ (fun _ _ h => h) (fun _ h => h)
    rintro ok s' ⟨hok, hdone, hrefused⟩
    cases ok with
    | true =>
      obtain ⟨htask, hdisk⟩ := hdone rfl
      dsimp only at htask hdisk
      simp only [if_true, wp_bind, updateTask, setStatus, wp_modify]
      refine hf.saves.persistTask ⟨?_, ?_⟩
      · rw [finalized, ← hok, if_pos rfl, ← htask]
        rfl
      · rw [← hout]
        exact congrFun (congrArg (·.out) hdisk) _
    | false =>
      obtain ⟨htask, hsame⟩ := hrefused rfl
      exact ⟨htask, by rw [hsame]; exact hout⟩
  · rintro e w ⟨-, ⟨hnone, -⟩ | ⟨-, hfault, -⟩⟩
    · rw [hassembled] at hnone
      cases hnone
    · exact hfault (by rw [hf.commit])
  · rintro w ⟨-, f, hin, k, hcrash⟩
    exact hf.noCrash.2.2 f hin k hcrash

theorem finalized_status : (finalized env t b).status = (committed env t b).status := by
  unfold finalized committed
  split <;> rfl

theorem mergeAndComplete_committed (hf : env.Faultless)
    (hgather : gatherParts s.world.disk s.task.tempDir s.task.chunks = (b, none)) (hsize : b.length = s.task.fileSize) :
    wp (mergeAndComplete env) (fun _ s' => EndsAs s.task.targetPath (committed env s.task b) s'.task s'.world)
      (fun _ _ => False) (fun _ => False) s :=
  wp_mono (mergeAndComplete_finalized hf hgather hsize) (fun _ _ h => ⟨h.1 ▸ finalized_status, h.2⟩) (fun _ _ h => h)
    (fun _ h => h)

/-! ## Merges -/

/-- Where a part file that is there is found. -/
theorem partOn_some (h : t.partOn d c = some b) :
    (isPathTraversal c.tempPath || isAbsolute c.tempPath) = false ∧
    d.parts (joinPath t.tempDir c.tempPath) = some b := by
  unfold DownloadTask.partOn chunkPath at h
  split at h
  · cases h
  · exact ⟨Bool.eq_false_of_not_eq_true ‹_›, h⟩

/-- The bytes of a merge are those of the part files in order. -/
theorem gatherParts_flatMap (hthere : ∀ c ∈ cs, (t.partOn d c).isSome) :
    gatherParts d t.tempDir cs = (cs.flatMap fun c => (t.partOn d c).getD [], none) := by
  induction cs with
  | nil => rfl
  | cons c cs ih =>
    obtain ⟨b, hb⟩ := Option.isSome_iff_exists.1 (hthere c List.mem_cons_self)
    obtain ⟨hsafe, hp⟩ := partOn_some hb
    rw [List.flatMap_cons, hb, gatherParts, hsafe, hp, if_neg Bool.false_ne_true,
      ih fun c hc => hthere c (List.mem_cons_of_mem _ hc)]
    rfl

/-! ## Single streams -/

theorem DownloadTask.SameOrigin.trans {t' : DownloadTask} (h : t.SameOrigin u) (h' : u.SameOrigin t') :
    t.SameOrigin t' :=
  ⟨h'.1.trans h.1, h'.2.1.trans h.2.1, h'.2.2.1.trans h.2.2.1, h'.2.2.2.1.trans h.2.2.2.1, h'.2.2.2.2.trans h.2.2.2.2⟩

/-- Before its merge, a session keeps its job and the output files. -/
theorem tolerates_origin (t : DownloadTask) (out : Path → Option Bytes) :
    Tolerates (fun s => t.SameOrigin s.task ∧ s.world.disk.out = out) where
  tick _ _ h := h
  part _ _ _ h := h
  task _ _ h hj := ⟨h.1.trans hj.1.origin, h.2⟩
  progress _ _ h hj := ⟨h.1.trans hj.origin, h.2⟩
  status _ _ h _ := h
  saved _ h := h
  logged _ _ h _ := h

/-- The exception of a single stream. -/
def singleFailure (answer : Transfer) (info : RemoteFileInfo) : Option Exn :=
  match answer.result with
  | .error e => some e
  | .ok _ =>
    if info.fileSize ≠ 0 ∧ answer.bytes.length ≠ info.fileSize then
      some (.cget .fileSystemError (text "downloaded file size mismatch: expected " ++ decimal info.fileSize ++
        text ", got " ++ decimal answer.bytes.length))
    else none

theorem receiveSingle_received (hf : env.Smooth) (p : Path) : ∀ (blocks : List Block) (s : Session) (b : Bytes),
    s.world.disk.parts p = some b →
    wp (receiveSingle env p blocks)
      (fun _ s' => s'.world.disk.parts p = some (b ++ blocks.flatMap (·.data)) ∧
        s'.task.chunks.map (·.tempPath) = s.task.chunks.map (·.tempPath))
      (fun _ _ => False) (fun _ => False) s
  | [], s, b, hb => by
    rw [List.flatMap_nil, List.append_nil]
    exact ⟨hb, rfl⟩
  | block :: blocks, s, b, hb => by
    unfold receiveSingle
    simp only [wp_bind, onWorld, wp_focus]
    refine hf.fileOp ?_
    rw [wp_updateTask]
    -- a flush persists the task, which leaves both as they are
    have hrest : ∀ s' : Session, s'.world.disk.parts p = some (b ++ block.data) →
        s'.task.chunks.map (·.tempPath) = s.task.chunks.map (·.tempPath) →
        wp (receiveSingle env p blocks)
          (fun _ s' => s'.world.disk.parts p = some (b ++ (block :: blocks).flatMap (·.data)) ∧
            s'.task.chunks.map (·.tempPath) = s.task.chunks.map (·.tempPath))
          (fun _ _ => False) (fun _ => False) s' := by
      intro s' hpart hnames
      refine wp_mono (receiveSingle_received hf p blocks s' _ hpart) ?_ (fun _ _ h => h) (fun _ h => h)
      rintro _ s'' ⟨hpart', hnames'⟩
      rw [List.append_assoc] at hpart'
      exact ⟨hpart', hnames'.trans hnames⟩
    have hpart : (s.world.disk.appendPart p block.data).parts p = some (b ++ block.data) := by
      simp [Disk.appendPart, hb]
    have hnames := countSingle_map (·.tempPath) (fun _ _ => rfl) s.task block.data.length
    unfold flushTask
    split
    · exact hf.persistTask (hrest _ hpart hnames)
    · exact hrest _ hpart hnames

/-- The merge of a single stream is what was received. -/
theorem gatherParts_singleDone (hnames : t.chunks.map (·.tempPath) = (singleChunks info).map (·.tempPath))
    (hpart : d.parts (joinPath t.tempDir singlePart) = some b) (hfits : info.fileSize ≠ 0 → b.length = info.fileSize) :
    gatherParts d t.tempDir (singleDone t info b.length).chunks = (b, none) ∧
    b.length = (singleDone t info b.length).fileSize := by
  have hsafe : (isPathTraversal singlePart || isAbsolute singlePart) = false := by decide
  unfold singleChunks at hnames
  constructor
  · cases hcs : t.chunks with
    | nil =>
      simp only [singleDone, hcs]
      split
      · simp only [gatherParts, hsafe, hpart, if_neg Bool.false_ne_true, List.append_nil]
      · rename_i hnone
        rw [List.length_eq_zero_iff.1 (by omega : b.length = 0)]
        rfl
    | cons c cs =>
      rw [hcs] at hnames
      split at hnames
      · simp only [List.map_cons, List.map_nil, List.cons.injEq, List.map_eq_nil_iff] at hnames
        obtain ⟨hname, rfl⟩ := hnames
        simp only [singleDone, hcs, gatherParts, hname, hsafe, hpart, if_neg Bool.false_ne_true, List.append_nil]
      · simp at hnames
  · simp only [singleDone]
    split
    · rfl
    · exact hfits ‹_›

theorem truncateFile_returns (hf : env.Smooth) {p : Path} {n : Nat} {w : World} :
    wp (truncateFile env p n) (fun _ _ => True) (fun _ _ => False) (fun _ => False) w := by
  unfold truncateFile
  simp only [wp_bind, wp_get, wp_ite]
  split
  · exact hf.fileOp trivial
  · trivial

/-- What a single stream leaves for the merge. -/
theorem transferSingleStream_transferred (hf : env.Smooth) :
    wp (transferSingleStream env info)
      (fun _ s' => singleFailure (env.protocol.downloadSingle s.task.url) info = none ∧
        gatherParts s'.world.disk s'.task.tempDir s'.task.chunks =
        ((env.protocol.downloadSingle s.task.url).bytes, none) ∧
        (env.protocol.downloadSingle s.task.url).bytes.length = s'.task.fileSize)
      (fun e _ => singleFailure (env.protocol.downloadSingle s.task.url) info = some e) (fun _ => False) s := by
  generalize hanswer : env.protocol.downloadSingle s.task.url = answer
  -- the transfer, once the part file is open and empty
  have hopened : ∀ s₁ : Session, s.task.SameOrigin s₁.task →
      s₁.task.chunks.map (·.tempPath) = (singleChunks info).map (·.tempPath) →
      s₁.world.disk.parts (joinPath s.task.tempDir singlePart) = some [] →
      wp (receiveSingle env (joinPath s.task.tempDir singlePart) answer.blocks)
        (fun _ s₂ => wp
          (match answer.result with
          | .error e => throw e
          | .ok _ => do
            let s₃ ← get
            let downloaded := fileSize (s₃.world.disk.parts (joinPath s.task.tempDir singlePart))
            if info.fileSize ≠ 0 ∧ downloaded ≠ info.fileSize then
              throw (.cget .fileSystemError (text "downloaded file size mismatch: expected " ++ decimal info.fileSize ++
                text ", got " ++ decimal downloaded))
            else updateTask (singleDone · info downloaded) : EngineM Unit)
          (fun _ s' => singleFailure answer info = none ∧
            gatherParts s'.world.disk s'.task.tempDir s'.task.chunks = (answer.bytes, none) ∧
            answer.bytes.length = s'.task.fileSize)
          (fun e _ => singleFailure answer info = some e) (fun _ => False) s₂)
        (fun e _ => singleFailure answer info = some e) (fun _ => False) s₁ := by
    intro s₁ horigin hnames hpart
    have hkeeps : Keeps (fun s' : Session => s.task.SameOrigin s'.task ∧ s'.world.disk.out = s₁.world.disk.out)
        (receiveSingle env (joinPath s.task.tempDir singlePart) answer.blocks) :=
      (tolerates_origin s.task s₁.world.disk.out).toToleratesData.receiveSingle _ _
    have hkept := hkeeps s₁ ⟨horigin, rfl⟩
    refine wp_mono (wp_and (receiveSingle_received hf _ answer.blocks s₁ [] hpart) hkept) ?_ (fun _ _ h => h.1.elim)
      (fun _ h => h.1)
    rintro _ s₂ ⟨⟨hpart₂, hnames₂⟩, horigin₂, -⟩
    have hbytes : s₂.world.disk.parts (joinPath s.task.tempDir singlePart) = some answer.bytes := hpart₂
    unfold singleFailure
    cases answer.result with
    | error e => rfl
    | ok _ =>
      simp only [wp_bind, wp_get, hbytes, fileSize_some]
      by_cases hsize : info.fileSize ≠ 0 ∧ answer.bytes.length ≠ info.fileSize
      · rw [if_pos hsize, if_pos hsize]
        rfl
      · rw [if_neg hsize, if_neg hsize, wp_updateTask]
        refine ⟨rfl, gatherParts_singleDone (hnames₂.trans hnames) ?_ fun hne => ?_⟩
        · rw [horigin₂.2.2.2.1, hbytes]
        · by_contra hlen
          exact hsize ⟨hne, hlen⟩
  unfold transferSingleStream ensureTaskTempDir
  simp only [wp_bind, onWorld, wp_focus, wp_get]
  refine hf.fileOp ?_
  refine wp_mono (truncateFile_returns hf) (fun _ w _ => ?_) (fun _ _ h => h.elim) (fun _ h => h)
  rw [wp_updateTask]
  refine hf.persistTask ?_
  refine hf.fileOp ?_
  rw [wp_modify]
  subst hanswer
  exact hopened _ ⟨rfl, rfl, rfl, rfl, rfl⟩ rfl (by simp [Session.record, World.record])

/-! ## Ranged downloads -/

/-- The chunk is complete, or can be started. -/
def Chunk.Sorted (c : Chunk) : Prop := c.status = .completed ∧ c.downloaded = c.size ∨ c.schedulable

theorem Chunk.Sorted.done (h : c.Sorted) : c.done = !c.schedulable := by
  rcases h with ⟨hst, -⟩ | hsched
  · simp [Chunk.done, Chunk.schedulable, hst]
  · rw [hsched]
    simp only [Chunk.schedulable, Bool.and_eq_true, Bool.or_eq_true, decide_eq_true_eq] at hsched
    simp only [Chunk.done, Bool.not_true, Bool.or_eq_false_iff, decide_eq_false_iff_not, not_le]
    refine ⟨fun hst => ?_, hsched.2⟩
    simp [hst] at hsched

theorem Chunk.Sorted.complete (h : c.Sorted) (hsched : c.schedulable = false) :
    c.status = .completed ∧ c.downloaded = c.size :=
  h.resolve_right (by simp [hsched])

/-- Planned chunks can be started. -/
theorem plan_schedulable {hardware size requestedThreads : Nat} :
    ∀ c ∈ ChunkPlanner.plan hardware size requestedThreads, c.schedulable := by
  intro c hc
  have hfresh := ChunkPlanner.plan_fresh _ _ _ c hc
  have hsize := Chunk.size_pos ((ChunkPlanner.plan_tiles hardware size requestedThreads).mem.2 c hc).2.1
  simp only [Chunk.schedulable, hfresh.1, hfresh.2.1]
  simpa using hsize

/-- What becomes of the part file of a chunk. -/
def referencePart (env : Env) (t : DownloadTask) (d : Disk) (c : Chunk) : Option Bytes :=
  if c.schedulable then (chunkFate env t d c).part else t.partOn d c

/-- The part files of a task when its chunks have been downloaded. -/
def rangedBytes (env : Env) (t : DownloadTask) (d : Disk) : Bytes :=
  t.chunks.flatMap fun c => (referencePart env t d c).getD []

instance : Decidable (Doomed env d t) := inferInstanceAs (Decidable (∃ c ∈ t.chunks, _ ∧ _))

/-- The ending of a session that downloads the chunks of `t`. -/
def rangedEnding (env : Env) (t : DownloadTask) (d : Disk) : Ending :=
  if Doomed env d t then { status := .failed, file := d.out t.targetPath } else committed env t (rangedBytes env t d)

/-- The chunks of `t` have been downloaded. -/
structure Gathered (env : Env) (t : DownloadTask) (d : Disk) (s : Session) : Prop where
  same : t.SameRequest s.task
  length : s.task.chunks.length = t.chunks.length
  chunk : ∀ (j : Nat) (c₀ c : Chunk), t.chunks[j]? = some c₀ → s.task.chunks[j]? = some c →
    c₀.SamePlace c ∧ s.task.partOn s.world.disk c = referencePart env t d c₀ ∧ Filled c (s.task.partOn s.world.disk c)

/-- The fate of a chunk depends on its part file. -/
theorem chunkFate_partOn {d' : Disk} (h : t.SameRequest u) (hpart : u.partOn d' c = t.partOn d c) :
    chunkFate env u d' c = chunkFate env t d c := by
  have hpath : chunkPath u c = chunkPath t c := chunkPath_congr h rfl
  simp only [chunkFate, hpath, hpart, h.2.1]

theorem chunkFate_congr {d' : Disk} (h : t.SameRequest u) (hparts : d'.parts = d.parts) :
    chunkFate env u d' c = chunkFate env t d c := by
  have hpath : chunkPath u c = chunkPath t c := chunkPath_congr h rfl
  exact chunkFate_partOn h (by simp only [DownloadTask.partOn, hpath, hparts])

/-- A chunk of the session, and the one it was. -/
theorem Gathered.mem (h : Gathered env t d s) (hc : c ∈ s.task.chunks) : Filled c (s.task.partOn s.world.disk c) := by
  obtain ⟨j, hj⟩ := List.getElem?_of_mem hc
  exact (h.chunk j _ c (List.getElem?_eq_getElem (h.length ▸ (List.getElem?_eq_some_iff.1 hj).1)) hj).2.2

theorem Gathered.map {β : Type} (h : Gathered env t d s) {f g : Chunk → β}
    (hfg : ∀ c₀ c, c₀.SamePlace c → s.task.partOn s.world.disk c = referencePart env t d c₀ → f c = g c₀) :
    s.task.chunks.map f = t.chunks.map g := by
  apply List.ext_getElem?
  intro j
  rw [List.getElem?_map, List.getElem?_map]
  by_cases hj : j < t.chunks.length
  · have hc₀ := List.getElem?_eq_getElem hj
    have hc := List.getElem?_eq_getElem (h.length.symm ▸ hj)
    obtain ⟨hplace, hpart, -⟩ := h.chunk j _ _ hc₀ hc
    rw [hc₀, hc, Option.map_some, Option.map_some, hfg _ _ hplace hpart]
  · have hlong := Nat.le_of_not_lt hj
    rw [List.getElem?_eq_none (h.length.symm ▸ hlong), List.getElem?_eq_none hlong]
    rfl

theorem Gathered.allComplete (h : Gathered env t d s) : allComplete s.task.chunks := by
  refine List.all_eq_true.2 fun c hc => ?_
  simp [(h.mem hc).status, (h.mem hc).count]

theorem committed_congr (h : t.SameOrigin u) : committed env u b = committed env t b := by
  have haccepts : u.accepts env b = t.accepts env b := by
    unfold DownloadTask.accepts
    rw [h.2.2.2.2]
  rw [committed, committed, haccepts]

/-- The part files of a task that was downloaded in ranges have all its bytes. -/
theorem Gathered.gathers (h : Gathered env t d s) (htiles : Tiles 0 t.chunks t.fileSize) :
    gatherParts s.world.disk s.task.tempDir s.task.chunks = (rangedBytes env t d, none) ∧
      (rangedBytes env t d).length = s.task.fileSize := by
  have hsizes : s.task.chunks.map (·.size) = t.chunks.map (·.size) := h.map fun c₀ c hplace _ => hplace.size_eq
  have htiled : (t.chunks.map (·.size)).sum = t.fileSize := by simpa using htiles.sum_size
  have hthere : ∀ c ∈ s.task.chunks, (s.task.partOn s.world.disk c).isSome := by
    intro c hc
    have hpos : 0 < c.size := by
      have hmem : c.size ∈ t.chunks.map (·.size) := hsizes ▸ List.mem_map_of_mem hc
      obtain ⟨c₀, hc₀, hsize⟩ := List.mem_map.1 hmem
      exact hsize ▸ Chunk.size_pos (htiles.mem.2 c₀ hc₀).2.1
    have hfile := (h.mem hc).file
    cases hpart : s.task.partOn s.world.disk c with
    | none =>
      rw [hpart, fileSize_none] at hfile
      omega
    | some b => rfl
  have hbytes : (s.task.chunks.flatMap fun c => (s.task.partOn s.world.disk c).getD []) = rangedBytes env t d := by
    rw [rangedBytes, List.flatMap_def, List.flatMap_def]
    exact congrArg List.flatten (h.map fun c₀ c _ hpart => by rw [hpart])
  constructor
  · rw [gatherParts_flatMap hthere, hbytes]
  · rw [← hbytes, List.length_flatMap, h.same.2.2.2.2.1, ← htiled, ← hsizes]
    exact congrArg List.sum (List.map_congr_left fun c hc => (h.mem hc).file)

/-- The merge of such a task. -/
theorem Gathered.merge (hf : env.Faultless) (h : Gathered env t d s) (htiles : Tiles 0 t.chunks t.fileSize) :
    wp (mergeAndComplete env) (fun _ s' => EndsAs t.targetPath (committed env t (rangedBytes env t d)) s'.task s'.world)
      (fun _ _ => False) (fun _ => False) s := by
  obtain ⟨hgather, hlength⟩ := h.gathers htiles
  have hmerge := mergeAndComplete_committed hf hgather hlength
  rw [committed_congr h.same.origin, h.same.2.2.1] at hmerge
  exact hmerge

/-- An exception for which `downloadWithRange` does no more than the scheduler. -/
def Ordinary (e : Exn) : Prop :=
  e.toWorkerError.code ≠ .rangeNotSupportedError ∧ e.toWorkerError.code ≠ .metadataMismatchError

/-- Complete chunks have their bytes. -/
def Whole (t : DownloadTask) (d : Disk) : Prop :=
  ∀ c ∈ t.chunks, c.schedulable = false → fileSize (t.partOn d c) = c.size

/-- A task whose chunks can be downloaded. -/
structure Downloadable (t : DownloadTask) (d : Disk) : Prop where
  tiles : Tiles 0 t.chunks t.fileSize
  paths : ∀ c ∈ t.chunks, ∃ p, chunkPath t c = .ok p
  apart : PartsApart [t]
  sorted : ∀ c ∈ t.chunks, c.Sorted
  whole : Whole t d

/-- The end of the threads of a download: a chunk failed, or all are there. -/
theorem PoolJoined.ends {workers : List PoolWorker} {errors : List WorkerError} {s₀ : Session} (ht : Downloadable t d)
    (hsame : t.SameRequest s₀.task) (hchunks : s₀.task.chunks = t.chunks) (hparts : s₀.world.disk.parts = d.parts)
    (hstarted : ∀ j c, t.chunks[j]? = some c → (j ∈ workers.map (·.chunk) ↔ c.schedulable))
    (h : PoolJoined env s₀ (workers.map (·.chunk)) errors s) :
    errors = [] ∧ ¬ Doomed env d t ∧ Gathered env t d s ∨ errors ≠ [] ∧ Doomed env d t := by
  have hfate : ∀ c, chunkFate env s₀.task s₀.world.disk c = chunkFate env t d c := fun c => chunkFate_congr hsame hparts
  by_cases hnone : errors = []
  · subst hnone
    have hended : ∀ (j : Nat) (c₀ c : Chunk), t.chunks[j]? = some c₀ → s.task.chunks[j]? = some c → c₀.schedulable →
        (chunkFate env t d c₀).error = none ∧ s.task.partOn s.world.disk c = (chunkFate env t d c₀).part ∧
          Filled c (s.task.partOn s.world.disk c) := by
      intro j c₀ c hc₀ hc hsched
      rw [← hfate]
      refine (h.ended j c₀ c (hchunks ▸ hc₀) hc ((hstarted j c₀ hc₀).2 hsched)).resolve_right ?_
      rintro ⟨e, -, he⟩
      cases he
    refine .inl ⟨rfl, ?_, hsame.trans h.same, h.length.trans (congrArg _ hchunks), fun j c₀ c hc₀ hc => ?_⟩
    · rintro ⟨c₀, hmem, hsched, herror⟩
      obtain ⟨j, hc₀⟩ := List.getElem?_of_mem hmem
      have hj : j < s.task.chunks.length := by
        rw [h.length, hchunks]
        exact (List.getElem?_eq_some_iff.1 hc₀).1
      rw [(hended j c₀ _ hc₀ (List.getElem?_eq_getElem hj) hsched).1] at herror
      cases herror
    · refine ⟨h.place j c₀ c (hchunks ▸ hc₀) hc, ?_⟩
      by_cases hsched : c₀.schedulable
      · rw [referencePart, if_pos hsched]
        exact (hended j c₀ c hc₀ hc hsched).2
      · rw [Bool.not_eq_true] at hsched
        obtain ⟨rfl, hpart⟩ := h.left j c₀ c (hchunks ▸ hc₀) hc (by simp [hstarted j c₀ hc₀, hsched])
        have hkept : s₀.task.partOn s₀.world.disk c = t.partOn d c := by
          simp only [DownloadTask.partOn, chunkPath_congr hsame rfl, hparts]
        have hmem := List.mem_of_getElem? hc₀
        obtain ⟨hst, hcount⟩ := (ht.sorted c hmem).complete hsched
        rw [hpart, hkept, referencePart, hsched, if_neg Bool.false_ne_true]
        exact ⟨rfl, ht.whole c hmem hsched, hcount, hst⟩
  · refine .inr ⟨hnone, ?_⟩
    obtain ⟨x, hx⟩ := List.exists_mem_of_ne_nil _ hnone
    obtain ⟨j, hj, c₀, hc₀, e, he, -⟩ := h.errors x hx
    rw [hchunks] at hc₀
    rw [hfate] at he
    exact ⟨c₀, List.mem_of_getElem? hc₀, (hstarted j c₀ hc₀).1 hj, by rw [he]; rfl⟩

theorem markDone_sorted (h : ∀ c ∈ t.chunks, c.Sorted) : markDone t = t := by
  have hchunks : t.chunks.map (fun c => if c.done then { c with status := .completed } else c) = t.chunks := by
    refine (List.map_congr_left fun c hc => ?_).trans (List.map_id _)
    rw [(h c hc).done]
    cases hsched : c.schedulable with
    | true => rfl
    | false =>
      rw [← ((h c hc).complete hsched).1]
      rfl
  rw [markDone, hchunks]

/-- The threads are those of the chunks that are not done. -/
theorem mem_started {j : Nat} (hc : t.chunks[j]? = some c) :
    j ∈ (rangeWorkers t).map (·.chunk) ↔ c.done = false := by
  rw [rangeWorkers, List.map_map, List.mem_map]
  constructor
  · rintro ⟨i, hi, rfl⟩
    have hstarts := (List.mem_filter.1 hi).2
    have hi : t.chunks[i]? = some c := hc
    rw [hi, Option.map_some, Option.getD_some, Bool.not_eq_true'] at hstarts
    exact hstarts
  · intro hdone
    refine ⟨j, List.mem_filter.2 ⟨List.mem_range.2 (List.getElem?_eq_some_iff.1 hc).1, ?_⟩, rfl⟩
    rw [hc, Option.map_some, Option.getD_some, hdone, Bool.not_false]

theorem sorted_started {j : Nat} (hsorted : ∀ c ∈ t.chunks, c.Sorted) (hc : t.chunks[j]? = some c) :
    j ∈ (rangeWorkers t).map (·.chunk) ↔ c.schedulable := by
  rw [mem_started hc, (hsorted c (List.mem_of_getElem? hc)).done, Bool.not_eq_false']

/-- No chunk that has to be downloaded fails otherwise than ordinarily. -/
def OrdinaryRanges (env : Env) (t : DownloadTask) (d : Disk) : Prop :=
  ∀ c ∈ t.chunks, c.schedulable → ∀ e, (chunkFate env t d c).error = some e → Ordinary e

/-- So it is if the server answers all requests for these chunks ordinarily. -/
theorem Downloadable.ordinary (ht : Downloadable t d)
    (h : ∀ c ∈ t.chunks, c.schedulable → ∀ already n, already < c.size → n ≤ env.maxRetries →
      ∀ e, (env.protocol.downloadRange t.url (c.start + already) c.stop n).result = .error e → Ordinary e) :
    OrdinaryRanges env t d := by
  intro c hc hsched e he
  obtain ⟨p, hp⟩ := ht.paths c hc
  have hmeets : Meets env t.url (chunkPath t c) c Ordinary := by
    refine ⟨fun e he => ?_, h c hc hsched, ?_⟩
    · rw [hp] at he
      cases he
    · simp [Ordinary, sizeMismatch, Exn.toWorkerError]
  exact attemptFate_meets hmeets (Nat.zero_add _) he

/-- How the threads of `downloadWithRange` end on chunks that can be downloaded. -/
theorem runPool_ends (hf : env.Smooth) (ht : Downloadable t d) (hordinary : OrdinaryRanges env t d)
    (hsame : t.SameRequest s.task) (hchunks : s.task.chunks = t.chunks) (hparts : s.world.disk.parts = d.parts) :
    wp (runPool env (rangeWorkers s.task))
      (fun errors s' => errors = [] ∧ ¬ Doomed env d t ∧ Gathered env t d s' ∨
        errors ≠ [] ∧ Doomed env d t ∧ ∀ x ∈ errors, x.code ≠ .rangeNotSupportedError ∧ x.code ≠ .metadataMismatchError)
      (fun _ _ => False) (fun _ => True) { s with task := markDone s.task } := by
  have hsorted : ∀ c ∈ s.task.chunks, c.Sorted := fun c hc => ht.sorted c (hchunks ▸ hc)
  have hself : { s with task := markDone s.task } = s := by rw [markDone_sorted hsorted]
  have happ : PartsApart [s.task] := by
    refine ht.apart.of_places fun u hu j c hc => ?_
    obtain rfl := List.mem_singleton.1 hu
    exact ⟨t, by simp, hsame, c, hchunks ▸ hc, rfl⟩
  have hstart : ∀ w ∈ rangeWorkers s.task, w.pc = some (.attempt 0) ∧ w.chunk < s.task.chunks.length := by
    intro w hw
    obtain ⟨hpc, c, hc, -⟩ := mem_rangeWorkers hw
    exact ⟨hpc, (List.getElem?_eq_some_iff.1 hc).1⟩
  have hstarted : ∀ j c, t.chunks[j]? = some c → (j ∈ (rangeWorkers s.task).map (·.chunk) ↔ c.schedulable) :=
    fun j c hc =>
    sorted_started hsorted (hchunks ▸ hc)
  rw [hself]
  refine wp_mono (runPool_joined hf happ hstart (rangeWorkers_distinct _)) (fun errors s' h => ?_) (fun _ _ h => h)
    (fun _ h => h)
  rcases h.ends ht hsame hchunks hparts hstarted with hdone | ⟨hne, hdoomed⟩
  · exact .inl hdone
  · refine .inr ⟨hne, hdoomed, fun x hx => ?_⟩
    obtain ⟨j, hj, c, hc, e, he, rfl⟩ := h.errors x hx
    rw [chunkFate_congr hsame hparts] at he
    exact hordinary c (List.mem_of_getElem? (hchunks ▸ hc)) ((hstarted j c (hchunks ▸ hc)).1 hj) e he

/-- How `downloadWithRange` ends on them. -/
theorem transferWithRange_ends (hf : env.Smooth) (ht : Downloadable t d) (hordinary : OrdinaryRanges env t d)
    (hsame : t.SameRequest s.task) (hplan : (planRange env info.fileSize s.task).chunks = t.chunks)
    (hparts : s.world.disk.parts = d.parts) :
    wp (transferWithRange env info)
      (fun r s' => r = .transferred ∧ ¬ Doomed env d t ∧ Gathered env t d s' ∨
        r = .failed ∧ Doomed env d t ∧ s'.task.status = .failed)
      (fun _ _ => False) (fun _ => True) s := by
  unfold transferWithRange ensureTaskTempDir
  simp only [wp_bind, onWorld, wp_focus, wp_get]
  refine hf.fileOp ?_
  rw [wp_updateTask, wp_updateTask]
  refine hf.persistTask ?_
  rw [wp_updateTask]
  refine wp_mono (runPool_ends hf ht hordinary ?_ ?_ ?_) ?_ (fun _ _ h => h) (fun _ h => h)
  · exact hsame
  · exact hplan
  · exact hparts
  · rintro errors s' (⟨rfl, hcalm, hgathered⟩ | ⟨hne, hdoomed, hcodes⟩)
    · dsimp only
      rw [wp_bind, wp_get, if_pos hgathered.allComplete]
      exact .inl ⟨rfl, hcalm, hgathered⟩
    · cases errors with
      | nil => exact absurd rfl hne
      | cons first rest =>
        have hranges : (first :: rest).any (·.code = .rangeNotSupportedError) = false := by
          rw [List.any_eq_false]
          exact fun x hx => by simpa using (hcodes x hx).1
        have hmismatch := (hcodes first List.mem_cons_self).2
        dsimp only
        rw [hranges, if_neg Bool.false_ne_true, if_neg hmismatch, wp_bind]
        exact hf.setFailure (.inr ⟨rfl, hdoomed, rfl⟩)

/-! ## Downloads -/

/-- The task once its chunks are planned. -/
def plannedTask (env : Env) (t : DownloadTask) (info : RemoteFileInfo) : DownloadTask :=
  planRange env (rememberMetadata t info).fileSize (rememberMetadata t info)

/-- The ending of a single stream. -/
def singleEnding (env : Env) (t : DownloadTask) (d : Disk) (info : RemoteFileInfo) : Ending :=
  match singleFailure (env.protocol.downloadSingle t.url) info with
  | some e => { status := failureStatus e, file := d.out t.targetPath }
  | none => committed env t (env.protocol.downloadSingle t.url).bytes

/-- The ending of a task, from what the server says of its file. -/
def taskEnding (env : Env) (t : DownloadTask) (d : Disk) : Ending :=
  match env.protocol.fetchMetadata t.url with
  | .error e => { status := failureStatus e, file := d.out t.targetPath }
  | .ok info =>
    if metadataChanged t info then { status := .metadataMismatch, file := d.out t.targetPath }
    else if ranged env (rememberMetadata t info) info then rangedEnding env (plannedTask env t info) d
    else singleEnding env t d info

/-- The ranges of the task can be downloaded, and no answer makes `download` do what the
scheduler does not. -/
structure RangesMeet (env : Env) (t : DownloadTask) (d : Disk) (info : RemoteFileInfo) : Prop where
  announced : info.fileSize ≠ 0 ∨ t.chunks ≠ []
  downloadable : Downloadable (plannedTask env t info) d
  ordinary : OrdinaryRanges env (plannedTask env t info) d

theorem rememberMetadata_size (h : info.fileSize ≠ 0) : (rememberMetadata t info).fileSize = info.fileSize := if_neg h

/-- `download` plans the same chunks as `prepareTask`, if it plans any. -/
theorem planRange_announced (h : info.fileSize ≠ 0 ∨ t.chunks ≠ []) :
    (planRange env info.fileSize (rememberMetadata t info)).chunks = (plannedTask env t info).chunks := by
  rcases h with hsize | hchunks
  · rw [plannedTask, rememberMetadata_size hsize]
  · simp only [plannedTask, planRange]
    rw [if_neg (show (rememberMetadata t info).chunks ≠ [] from hchunks),
      if_neg (show (rememberMetadata t info).chunks ≠ [] from hchunks)]

/-- Tasks with the same chunks to download. -/
structure DownloadTask.SamePlan (t u : DownloadTask) : Prop where
  same : t.SameRequest u
  chunks : u.chunks = t.chunks
  threads : u.requestedThreads = t.requestedThreads

theorem DownloadTask.SamePlan.remember (h : t.SamePlan u) : (rememberMetadata t info).SamePlan
    (rememberMetadata u info) := by
  obtain ⟨⟨h1, h2, h3, h4, h5, h6⟩, hchunks, hthreads⟩ := h
  refine ⟨⟨h1, h2, h3, h4, ?_, h6⟩, hchunks, hthreads⟩
  simp only [rememberMetadata, h5]

theorem DownloadTask.SamePlan.plan (h : t.SamePlan u) (size : Nat) :
    (planRange env size t).SamePlan (planRange env size u) := by
  refine ⟨h.same, ?_, h.threads⟩
  simp only [planRange, normalizedThreadCount, h.chunks, h.threads]

theorem DownloadTask.SamePlan.ranged (h : t.SamePlan u) : ranged env u info = ranged env t info := by
  unfold Cget.ranged normalizedThreadCount
  rw [h.same.2.2.2.2.1, h.threads]

/-- A session on the task `t`, with the files of `d`. -/
structure Poised (t : DownloadTask) (d : Disk) (s : Session) : Prop where
  plan : t.SamePlan s.task
  parts : s.world.disk.parts = d.parts
  out : s.world.disk.out = d.out
  etag : s.task.remoteEtag = t.remoteEtag
  lastModified : s.task.remoteLastModified = t.remoteLastModified

theorem Poised.refl {w : World} : Poised t w.disk { world := w, task := t } := ⟨⟨.refl, rfl, rfl⟩, rfl, rfl, rfl, rfl⟩

theorem Poised.metadata (h : Poised t d s) : metadataChanged s.task info = metadataChanged t info := by
  unfold metadataChanged
  rw [h.plan.same.2.2.2.2.1, h.etag, h.lastModified]

/-- How `download` goes on with metadata that did not change. -/
theorem transferFrom_ends (hf : env.Faultless) (h : Poised t d s)
    (hmeet : ranged env (rememberMetadata t info) info → RangesMeet env t d info) :
    wp (transferFrom env info)
      (fun r s' => wp (match r with | .transferred => mergeAndComplete env | .failed => pure ())
        (fun _ s' => EndsAs t.targetPath
          (if ranged env (rememberMetadata t info) info then rangedEnding env (plannedTask env t info) d
            else singleEnding env t d info) s'.task s'.world)
        (fun _ _ => False) (fun _ => False) s')
      (fun e s' => ranged env (rememberMetadata t info) info = false ∧
        singleFailure (env.protocol.downloadSingle t.url) info = some e ∧ t.SameOrigin s'.task ∧
        s'.world.disk.out = d.out)
      (fun _ => True) s := by
  have hkeeps := tolerates_origin t d.out
  have horigin : t.SameOrigin (rememberMetadata s.task info) := h.plan.same.origin
  have hplan : (rememberMetadata t info).SamePlan (rememberMetadata s.task info) := h.plan.remember
  unfold transferFrom
  rw [wp_bind, wp_updateTask, wp_bind]
  refine hf.smooth.persistTask ?_
  rw [wp_bind, wp_get]
  generalize hs₁ : (Session.touched env { s with task := rememberMetadata s.task info }).saved = s₁
  have htask : s₁.task = { rememberMetadata s.task info with updatedAt := env.now } := by rw [← hs₁]; rfl
  have hplan₁ : (rememberMetadata t info).SamePlan s₁.task := by
    rw [htask]; exact ⟨hplan.same, hplan.chunks, hplan.threads⟩
  have hkept : t.SameOrigin s₁.task ∧ s₁.world.disk.out = d.out := by rw [htask, ← hs₁]; exact ⟨horigin, h.out⟩
  have hparts₁ : s₁.world.disk.parts = d.parts := by rw [← hs₁]; exact h.parts
  rw [hplan₁.ranged]
  by_cases hranged : ranged env (rememberMetadata t info) info
  · rw [if_pos hranged, if_pos hranged]
    obtain ⟨hannounced, hdownloadable, hordinary⟩ := hmeet hranged
    have hsame : (plannedTask env t info).SameRequest s₁.task := hplan₁.same
    have hchunks : (planRange env info.fileSize s₁.task).chunks = (plannedTask env t info).chunks :=
      (hplan₁.plan _).chunks.trans (planRange_announced hannounced)
    refine wp_mono (wp_and (transferWithRange_ends hf.smooth hdownloadable hordinary hsame hchunks hparts₁)
      (hkeeps.transferWithRange info _ hkept)) ?_ (fun _ _ h => h.1.elim) (fun _ _ => trivial)
    rintro r s' ⟨⟨rfl, hcalm, hgathered⟩ | ⟨rfl, hdoomed, hst⟩, horigin, hout⟩
    · rw [rangedEnding, if_neg hcalm]
      exact hgathered.merge hf hdownloadable.tiles
    · rw [rangedEnding, if_pos hdoomed]
      exact ⟨hst, by rw [hout]; rfl⟩
  · rw [if_neg hranged, if_neg hranged]
    have htransfer : wp (transferSingleStream env info) _ _ _ s₁ := transferSingleStream_transferred hf.smooth
    rw [hkept.1.2.1] at htransfer
    rw [wp_bind]
    refine wp_mono (wp_and htransfer (hkeeps.transferSingleStream info _ hkept)) ?_ ?_ (fun _ _ => trivial)
    · rintro _ s' ⟨⟨hnone, hgather, hsize⟩, horigin, hout⟩
      rw [wp_pure, singleEnding, hnone]
      have hmerge := mergeAndComplete_committed hf hgather hsize
      rw [committed_congr horigin, horigin.2.2.1] at hmerge
      exact hmerge
    · rintro e s' ⟨hsome, horigin, hout⟩
      exact ⟨by simpa using hranged, hsome, horigin, hout⟩

/-- How `download` and `prepareTask` begin. -/
theorem Poised.begin (hp : env.Persists) (h : Poised t d s) {Q : RemoteFileInfo → Session → Prop}
    {E : Exn → Session → Prop}
    {S : Session → Prop} (herror : ∀ e s₁, env.protocol.fetchMetadata t.url = .error e → Poised t d s₁ → E e s₁)
    (hok : ∀ info s₁, env.protocol.fetchMetadata t.url = .ok info → Poised t d s₁ → s₁.task.status = .downloading →
      Q info s₁) :
    wp (beginTask env) (fun _ => wp (fetchMetadata env) Q E S) E S s := by
  obtain ⟨⟨hsame, hchunks, hthreads⟩, hparts, hout, hetag, hmodified⟩ := h
  refine hp.beginTask (wp_fetchMetadata (fun e he => ?_) fun info hinfo => ?_)
  · exact herror e _ (hsame.2.1 ▸ he) ⟨⟨hsame, hchunks, hthreads⟩, hparts, hout, hetag, hmodified⟩
  · exact hok info _ (hsame.2.1 ▸ hinfo) ⟨⟨hsame, hchunks, hthreads⟩, hparts, hout, hetag, hmodified⟩ rfl

/-- How `download` ends on a task whose ranges, if it comes to them, can be downloaded. -/
theorem download_ends (hf : env.Faultless) (h : Poised t d s)
    (hmeet : ∀ info, env.protocol.fetchMetadata t.url = .ok info → metadataChanged t info = false →
      ranged env (rememberMetadata t info) info → RangesMeet env t d info) :
    wp (download env) (fun _ s' => EndsAs t.targetPath (taskEnding env t d) s'.task s'.world) (fun _ _ => False)
      (fun _ => True) s := by
  unfold download transfer taskEnding
  simp only [wp_tryCatch, wp_bind, failWith_eq]
  refine h.begin hf.smooth.persists (fun e s₁ hfetch h₁ => ?_) fun info s₁ hfetch h₁ _ => ?_
  · rw [hfetch]
    refine hf.smooth.setFailure ⟨rfl, ?_⟩
    exact congrFun h₁.out t.targetPath
  · rw [hfetch, wp_get, h₁.metadata]
    dsimp only
    by_cases hnew : metadataChanged t info
    · rw [if_pos hnew, if_pos hnew, wp_bind]
      refine hf.smooth.setFailure ⟨rfl, ?_⟩
      exact congrFun h₁.out t.targetPath
    · rw [if_neg hnew, if_neg hnew]
      refine wp_mono (transferFrom_ends hf h₁ (hmeet info hfetch (by simpa using hnew))) ?_ ?_ (fun _ h => h)
      · exact fun r s' h => wp_mono h (fun _ _ h => h) (fun _ _ h => h.elim) (fun _ h => h.elim)
      · rintro e s' ⟨hsingle, hsome, horigin, hout⟩
        rw [hsingle, if_neg Bool.false_ne_true, singleEnding, hsome]
        refine hf.smooth.setFailure ⟨rfl, ?_⟩
        exact congrFun hout t.targetPath

end Cget
