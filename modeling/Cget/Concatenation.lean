import Cget.Merge
/-!
# The merge, block by block

`FileSystemService::mergeChunks` with its two loops: every part file is read through a buffer of
1 MiB and written to the temp file as it is read. No write is checked, so one that is cut short
shows in the size of the temp file only. The files are one store here, in which a part file can
be any file; `Engine` has the same function with parts and output files apart, and the loops as
one step.
-/

namespace Cget

namespace FileSystemService

open Prog

/-! ## Files and streams -/

abbrev Files := Path → Option Bytes

/-- How the operations of a merge end. The output takes `room` bytes, and then its writes are
cut short; it takes all of them without. -/
structure Storage where
  createDirectories : Bool := true
  opens : Bool := true
  room : Option Nat := none
  removes : Bool := true
  renames : Bool := true

/-- The files, and whether the output stream has failed. -/
structure Merging where
  files : Files
  failed : Bool := false

def bufferSize : Nat := 1024 * 1024

/-- What gets to the file of bytes that are written to it. -/
def Storage.taken (storage : Storage) (bytes : Bytes) : Bytes := storage.room.elim bytes bytes.take

/-- `out.write`: a stream that has failed writes nothing. -/
def write (storage : Storage) (path : Path) (block : Bytes) (m : Merging) : Merging :=
  if m.failed then m
  else
    let old := (m.files path).getD []
    let new := storage.taken (old ++ block)
    { files := Function.update m.files path (some new), failed := new.length < old.length + block.length }

/-- `while (in)`: a read that comes to the end of the file leaves its stream failed. -/
def copy (storage : Storage) (path : Path) (rest : Bytes) (m : Merging) : Merging :=
  let read := rest.take bufferSize
  let m := if read = [] then m else write storage path read m
  if rest.length < bufferSize then m else copy storage path (rest.drop bufferSize) m
termination_by rest.length
decreasing_by
  have hsize : 0 < bufferSize := by decide
  rw [List.length_drop]
  omega

/-! ## The merge -/

/-- One turn of the loop over the chunks. -/
def copyChunk (storage : Storage) (tempDir target : Path) (c : Chunk) : Prog Merging Exn Unit := do
  if isPathTraversal c.tempPath || isAbsolute c.tempPath then
    throw (.cget .pathTraversalError (text "unsafe chunk temp path: " ++ c.tempPath))
  else
    let m ← get
    match m.files (joinPath tempDir c.tempPath) with
    | none => throw (.cget .fileSystemError (text "missing chunk file: " ++ joinPath tempDir c.tempPath))
    | some bytes => modify (copy storage (tempTarget target) bytes)

def copyChunks (storage : Storage) (tempDir target : Path) : List Chunk → Prog Merging Exn Unit
  | [] => pure ()
  | c :: chunks => do
    copyChunk storage tempDir target c
    copyChunks storage tempDir target chunks

def checkSize (path : Path) (expectedSize : Nat) : Prog Merging Exn Unit := do
  let m ← get
  let actualSize := fileSize (m.files path)
  if actualSize ≠ expectedSize then
    throw (.cget .fileSystemError (text "merged file size mismatch: expected " ++ decimal expectedSize ++
      text ", got " ++ decimal actualSize))
  else pure ()

/-- The removal, which may fail, and the rename. -/
def replaceTarget (storage : Storage) (target : Path) : Prog Merging Exn Unit := do
  modify (fun m => if storage.removes then { m with files := Function.update m.files target none } else m)
  if storage.renames then
    modify (fun m => { m with files := Function.update (Function.update m.files target (m.files (tempTarget target)))
                                (tempTarget target) none })
  else throw (.cget .fileSystemError (text "failed to move merged file into place"))

def mergeChunks (storage : Storage) (chunks : List Chunk) (tempDir target : Path) (expectedSize : Nat) :
    Prog Merging Exn Unit := do
  if !storage.createDirectories then
    throw (.cget .fileSystemError (text "failed to create output parent directory"))
  else if !storage.opens then
    throw (.cget .permissionDeniedError (text "failed to open output temp file: " ++ tempTarget target))
  else
    modify (fun m => { files := Function.update m.files (tempTarget target) (some []) })
    copyChunks storage tempDir target chunks
    checkSize (tempTarget target) expectedSize
    replaceTarget storage target

/-! ## What the loops write -/

variable {storage : Storage} {path tempDir target : Path} {chunks : List Chunk} {all block rest : Bytes} {m : Merging}

/-- `all` was written to the file so far, as far as there was room. -/
structure Written (storage : Storage) (path : Path) (all : Bytes) (m : Merging) : Prop where
  file : m.files path = some (storage.taken all)
  failed : m.failed = true ↔ (storage.taken all).length < all.length

theorem taken_isPrefix (storage : Storage) (bytes : Bytes) : storage.taken bytes <+: bytes := by
  unfold Storage.taken
  cases storage.room with
  | none => exact List.prefix_rfl
  | some room => exact List.take_prefix room bytes

/-- A block after what all had room. -/
theorem taken_whole (h : ¬ (storage.taken all).length < all.length) : storage.taken all = all :=
  (taken_isPrefix storage all).eq_of_length (le_antisymm (taken_isPrefix storage all).length_le (not_lt.1 h))

/-- Nothing gets through after a write that was cut short. -/
theorem taken_append (h : (storage.taken all).length < all.length) (block : Bytes) :
    storage.taken (all ++ block) = storage.taken all := by
  unfold Storage.taken at h ⊢
  cases hroom : storage.room with
  | none =>
    rw [hroom] at h
    exact absurd h (lt_irrefl _)
  | some room =>
    rw [hroom] at h
    rw [Option.elim_some, List.length_take] at h
    rw [Option.elim_some, Option.elim_some]
    exact List.take_append_of_le_length (by omega)

theorem Written.write (h : Written storage path all m) (block : Bytes) :
    Written storage path (all ++ block) (FileSystemService.write storage path block m) := by
  unfold FileSystemService.write
  by_cases hfailed : m.failed = true
  · have hshort := h.failed.1 hfailed
    have hsame := taken_append hshort block
    rw [if_pos hfailed]
    refine ⟨h.file.trans (congrArg some hsame.symm), iff_of_true hfailed ?_⟩
    rw [hsame, List.length_append]
    omega
  · have hwhole := taken_whole (mt h.failed.2 hfailed)
    have hold : (m.files path).getD [] = all := by rw [h.file, hwhole]; rfl
    rw [if_neg hfailed, hold]
    refine ⟨Function.update_self _ _ _, ?_⟩
    rw [decide_eq_true_eq, List.length_append]

theorem bufferSize_pos : 0 < bufferSize := by decide

/-- The reads of a file, one after the other, are the file. -/
theorem Written.copy {all : Bytes} {m : Merging} (h : Written storage path all m) (rest : Bytes) :
    Written storage path (all ++ rest) (FileSystemService.copy storage path rest m) := by
  -- The read, with the write that follows it if it read anything.
  have hread : Written storage path (all ++ rest.take bufferSize)
      (if rest.take bufferSize = [] then m else FileSystemService.write storage path (rest.take bufferSize) m) := by
    split
    · rename_i hnil
      rwa [hnil, List.append_nil]
    · exact h.write _
  rw [FileSystemService.copy]
  by_cases hend : rest.length < bufferSize
  · rw [if_pos hend]
    rwa [List.take_of_length_le hend.le] at hread ⊢
  · have hrest := hread.copy (rest.drop bufferSize)
    rw [List.append_assoc, List.take_append_drop] at hrest
    rwa [if_neg hend]
termination_by rest.length
decreasing_by
  rw [List.length_drop]
  have := bufferSize_pos
  omega

theorem write_frame {p : Path} (hp : p ≠ path) : (write storage path block m).files p = m.files p := by
  unfold write
  split
  · rfl
  · exact Function.update_of_ne hp _ _

/-- The loops touch no other file than the one they write. -/
theorem copy_frame {p : Path} (hp : p ≠ path) (rest : Bytes) (m : Merging) :
    (copy storage path rest m).files p = m.files p := by
  have hread : (if rest.take bufferSize = [] then m else write storage path (rest.take bufferSize) m).files p =
      m.files p := by
    split
    · rfl
    · exact write_frame hp
  rw [copy]
  split
  · exact hread
  · exact (copy_frame hp (rest.drop bufferSize) _).trans hread
termination_by rest.length
decreasing_by
  rw [List.length_drop]
  have := bufferSize_pos
  omega

/-! ## The loop over the chunks -/

/-- The parts are gathered as in `Engine`, where only what is read matters. -/
def gathered (files : Files) (tempDir : Path) (chunks : List Chunk) : Bytes × Option Exn :=
  gatherParts { parts := files } tempDir chunks

/-- The temp file is none of the parts. -/
def Apart (tempDir target : Path) (chunks : List Chunk) : Prop :=
  ∀ c ∈ chunks, joinPath tempDir c.tempPath ≠ tempTarget target

section Gathered

variable {files files' : Files} {c : Chunk} {bytes : Bytes}

theorem gathered_unsafe (h : (isPathTraversal c.tempPath || isAbsolute c.tempPath) = true) :
    gathered files tempDir (c :: chunks) =
    ([], some (.cget .pathTraversalError (text "unsafe chunk temp path: " ++ c.tempPath))) :=
  if_pos h

theorem gathered_missing (hsafe : ¬ (isPathTraversal c.tempPath || isAbsolute c.tempPath) = true)
    (h : files (joinPath tempDir c.tempPath) = none) : gathered files tempDir (c :: chunks) =
      ([], some (.cget .fileSystemError (text "missing chunk file: " ++ joinPath tempDir c.tempPath))) := by
  simp only [gathered, gatherParts, if_neg hsafe, h]

theorem gathered_part (hsafe : ¬ (isPathTraversal c.tempPath || isAbsolute c.tempPath) = true)
    (h : files (joinPath tempDir c.tempPath) = some bytes) : gathered files tempDir (c :: chunks) =
      (bytes ++ (gathered files tempDir chunks).1, (gathered files tempDir chunks).2) := by
  simp only [gathered, gatherParts, if_neg hsafe, h]

theorem gathered_congr
    (h : ∀ c ∈ chunks, files (joinPath tempDir c.tempPath) = files' (joinPath tempDir c.tempPath)) :
    gathered files tempDir chunks = gathered files' tempDir chunks := by
  induction chunks with
  | nil => rfl
  | cons c chunks ih =>
    have hc := h c List.mem_cons_self
    have htail := ih fun d hd => h d (List.mem_cons_of_mem _ hd)
    unfold gathered at htail ⊢
    simp only [gatherParts, hc, htail]

end Gathered

/-- The loop writes what there is to gather, and throws what stops it. -/
theorem copyChunks_wp (h : Written storage (tempTarget target) all m) (hapart : Apart tempDir target chunks) :
    wp (copyChunks storage tempDir target chunks)
      (fun _ m' => (gathered m.files tempDir chunks).2 = none ∧
        Written storage (tempTarget target) (all ++ (gathered m.files tempDir chunks).1) m' ∧
        ∀ p, p ≠ tempTarget target → m'.files p = m.files p)
      (fun e m' => (gathered m.files tempDir chunks).2 = some e ∧ ∀ p, p ≠ tempTarget target → m'.files p = m.files p)
      (fun _ => False) m := by
  induction chunks generalizing m all with
  | nil =>
    rw [copyChunks, wp_pure]
    refine ⟨rfl, ?_, fun p _ => rfl⟩
    rw [show (gathered m.files tempDir []).1 = [] from rfl, List.append_nil]
    exact h
  | cons c chunks ih =>
    have hpart := hapart c List.mem_cons_self
    have htail : Apart tempDir target chunks := fun d hd => hapart d (List.mem_cons_of_mem _ hd)
    rw [copyChunks, wp_bind, copyChunk]
    by_cases hsafe : (isPathTraversal c.tempPath || isAbsolute c.tempPath) = true
    · rw [if_pos hsafe, wp_throw, gathered_unsafe hsafe]
      exact ⟨rfl, fun p _ => rfl⟩
    rw [if_neg hsafe, wp_bind, wp_get]
    cases hbytes : m.files (joinPath tempDir c.tempPath) with
    | none =>
      rw [wp_throw, gathered_missing hsafe hbytes]
      exact ⟨rfl, fun p _ => rfl⟩
    | some bytes =>
      have hframe := fun p (hp : p ≠ tempTarget target) =>
        (copy_frame hp bytes m : (copy storage (tempTarget target) bytes m).files p = m.files p)
      have hsame : gathered (copy storage (tempTarget target) bytes m).files tempDir chunks =
          gathered m.files tempDir chunks :=
        gathered_congr fun d hd => hframe _ (htail d hd)
      rw [wp_modify, gathered_part hsafe hbytes]
      refine wp_mono (ih (h.copy bytes) htail) ?_ ?_ fun _ h => h
      · rintro - m' ⟨hnone, hwritten, hrest⟩
        rw [hsame] at hnone hwritten
        rw [List.append_assoc] at hwritten
        exact ⟨hnone, hwritten, fun p hp => (hrest p hp).trans (hframe p hp)⟩
      · rintro e m' ⟨hsome, hrest⟩
        rw [hsame] at hsome
        exact ⟨hsome, fun p hp => (hrest p hp).trans (hframe p hp)⟩

/-! ## The whole merge -/

variable {expectedSize : Nat}

/-- The checks that are passed before the target is touched. -/
structure Storage.Assembles (storage : Storage) (files : Files) (tempDir : Path) (chunks : List Chunk)
    (expectedSize : Nat) :
    Prop where
  createDirectories : storage.createDirectories = true
  opens : storage.opens = true
  gathered : (gathered files tempDir chunks).2 = none
  size : (storage.taken (FileSystemService.gathered files tempDir chunks).1).length = expectedSize

theorem checkSize_wp {bytes : Bytes} (h : m.files path = some bytes) :
    wp (checkSize path expectedSize) (fun _ m' => m' = m ∧ bytes.length = expectedSize)
      (fun _ m' => m' = m ∧ bytes.length ≠ expectedSize) (fun _ => False) m := by
  rw [checkSize, wp_bind, wp_get]
  simp only [h, fileSize_some]
  split
  · exact ⟨rfl, ‹_›⟩
  · exact ⟨rfl, not_not.1 ‹_›⟩

/-- What is left of the target when the rename fails. -/
def Storage.afterRemoval (storage : Storage) (file : Option Bytes) : Option Bytes :=
  if storage.removes then none else file

theorem replaceTarget_wp :
    wp (replaceTarget storage target)
      (fun _ m' => storage.renames = true ∧ m'.files target = m.files (tempTarget target) ∧
        m'.files (tempTarget target) = none ∧ ∀ p, p ≠ target → p ≠ tempTarget target → m'.files p = m.files p)
      (fun _ m' => storage.renames = false ∧ m'.files target = storage.afterRemoval (m.files target) ∧
        ∀ p, p ≠ target → m'.files p = m.files p)
      (fun _ => False) m := by
  have hne := tempTarget_ne target
  rw [replaceTarget, wp_bind, wp_modify]
  -- after the removal only the target may differ
  have hremoved : ∀ p, p ≠ target →
      (if storage.removes then { m with files := Function.update m.files target none } else m).files p = m.files p := by
    intro p hp
    split
    · exact Function.update_of_ne hp _ _
    · rfl
  have htarget : (if storage.removes then { m with files := Function.update m.files target none } else m).files target =
      storage.afterRemoval (m.files target) := by
    unfold Storage.afterRemoval
    split
    · exact Function.update_self _ _ _
    · rfl
  generalize (if storage.removes then { m with files := Function.update m.files target none } else m : Merging) =
    m₁ at *
  rw [wp_ite]
  split
  · rename_i hrenames
    rw [wp_modify]
    refine ⟨hrenames, ?_, Function.update_self _ _ _, fun p hp hp' => ?_⟩
    · rw [← hremoved _ hne]
      exact (Function.update_of_ne hne.symm _ _).trans (Function.update_self _ _ _)
    · exact (Function.update_of_ne hp' _ _).trans ((Function.update_of_ne hp _ _).trans (hremoved p hp))
  · rename_i hrenames
    rw [wp_throw]
    exact ⟨Bool.eq_false_iff.2 hrenames, htarget, hremoved⟩

/-- Each way the merge can end. -/
theorem merge_wp (hapart : Apart tempDir target chunks) :
    wp (mergeChunks storage chunks tempDir target expectedSize)
      (fun _ m' => storage.Assembles m.files tempDir chunks expectedSize ∧ storage.renames = true ∧
        m'.files target = some (storage.taken (gathered m.files tempDir chunks).1) ∧
        m'.files (tempTarget target) = none ∧ ∀ p, p ≠ target → p ≠ tempTarget target → m'.files p = m.files p)
      (fun _ m' => ¬ storage.Assembles m.files tempDir chunks expectedSize ∧ m'.files target = m.files target ∨
        storage.Assembles m.files tempDir chunks expectedSize ∧ storage.renames = false ∧
          m'.files target = storage.afterRemoval (m.files target))
      (fun _ => False) m := by
  have hne := tempTarget_ne target
  rw [mergeChunks, wp_ite]
  split
  · rename_i hcreate
    exact .inl ⟨fun h => by simp [h.createDirectories] at hcreate, rfl⟩
  rename_i hcreate
  rw [wp_ite]
  split
  · rename_i hopens
    exact .inl ⟨fun h => by simp [h.opens] at hopens, rfl⟩
  rename_i hopens
  rw [wp_bind, wp_modify, wp_bind]
  generalize hm₀ : ({ files := Function.update m.files (tempTarget target) (some []) } : Merging) = m₀
  have hopened : ∀ p, p ≠ tempTarget target → m₀.files p = m.files p := by
    rintro p hp
    rw [← hm₀]
    exact Function.update_of_ne hp _ _
  have hempty : Written storage (tempTarget target) [] m₀ := by
    have hnil : storage.taken [] = [] := List.prefix_nil.1 (taken_isPrefix storage [])
    rw [← hm₀]
    refine ⟨?_, ?_⟩
    · rw [hnil]
      exact Function.update_self _ _ _
    · rw [hnil]
      exact iff_of_false Bool.false_ne_true (lt_irrefl _)
  have hgathered : gathered m₀.files tempDir chunks = gathered m.files tempDir chunks :=
    gathered_congr fun c hc => hopened _ (hapart c hc)
  refine wp_mono (copyChunks_wp hempty hapart) ?_ ?_ fun _ h => h
  · rintro - m₁ ⟨hnone, hwritten, hframe⟩
    rw [hgathered, List.nil_append] at hwritten
    rw [hgathered] at hnone
    have hrest : ∀ p, p ≠ tempTarget target → m₁.files p = m.files p := fun p hp => (hframe p hp).trans (hopened p hp)
    rw [wp_bind]
    refine wp_mono (checkSize_wp hwritten.file) ?_ ?_ fun _ h => h
    · rintro - _ ⟨rfl, hsize⟩
      have hassembles : storage.Assembles m.files tempDir chunks expectedSize :=
        ⟨by simpa using hcreate, by simpa using hopens, hnone, hsize⟩
      refine wp_mono replaceTarget_wp ?_ ?_ fun _ h => h
      · rintro - m₂ ⟨hrenames, htarget, htemp, hothers⟩
        exact ⟨hassembles, hrenames, htarget.trans hwritten.file, htemp,
          fun p hp hp' => (hothers p hp hp').trans (hrest p hp')⟩
      · rintro e m₂ ⟨hrenames, htarget, -⟩
        rw [hrest target hne.symm] at htarget
        exact .inr ⟨hassembles, hrenames, htarget⟩
    · rintro e _ ⟨rfl, hsize⟩
      exact .inl ⟨fun h => hsize h.size, hrest target hne.symm⟩
  · rintro e m₁ ⟨hsome, hframe⟩
    rw [hgathered] at hsome
    refine .inl ⟨fun h => ?_, (hframe target hne.symm).trans (hopened target hne.symm)⟩
    rw [h.gathered] at hsome
    cases hsome

/-! ## Concatenation -/

/-- No chunk's temp path leaves the temp directory. -/
def SafePaths (chunks : List Chunk) : Prop :=
  ∀ c ∈ chunks, isPathTraversal c.tempPath = false ∧ isAbsolute c.tempPath = false

/-- The part files in the order of the chunks. -/
def partFiles (files : Files) (tempDir : Path) (chunks : List Chunk) : List (Option Bytes) :=
  chunks.map fun c => files (joinPath tempDir c.tempPath)

def concatenation (files : Files) (tempDir : Path) (chunks : List Chunk) : Bytes :=
  (partFiles files tempDir chunks).flatMap (·.getD [])

/-- With safe paths nothing but a missing part ends the loop. -/
theorem gathered_safe {files : Files} (hsafe : SafePaths chunks) :
    ((gathered files tempDir chunks).2 = none ↔ none ∉ partFiles files tempDir chunks) ∧
      (none ∉ partFiles files tempDir chunks →
        (gathered files tempDir chunks).1 = concatenation files tempDir chunks) := by
  induction chunks with
  | nil => exact ⟨iff_of_true rfl (by simp [partFiles]), fun _ => rfl⟩
  | cons c chunks ih =>
    obtain ⟨htail, hbytes⟩ := ih fun d hd => hsafe d (List.mem_cons_of_mem _ hd)
    obtain ⟨htraversal, habsolute⟩ := hsafe c List.mem_cons_self
    have hc : ¬ (isPathTraversal c.tempPath || isAbsolute c.tempPath) = true := by simp [htraversal, habsolute]
    have hparts : partFiles files tempDir (c :: chunks) =
        files (joinPath tempDir c.tempPath) :: partFiles files tempDir chunks := rfl
    cases hfile : files (joinPath tempDir c.tempPath) with
    | none =>
      rw [gathered_missing hc hfile, hparts, hfile]
      exact ⟨iff_of_false (by simp) (by simp), fun h => absurd List.mem_cons_self h⟩
    | some bytes =>
      have hmem : none ∉ partFiles files tempDir (c :: chunks) ↔ none ∉ partFiles files tempDir chunks := by
        rw [hparts, hfile]
        simp
      rw [gathered_part hc hfile, hmem]
      refine ⟨htail, fun h => ?_⟩
      change bytes ++ (gathered files tempDir chunks).1 = _
      rw [hbytes h, concatenation, concatenation, hparts, hfile]
      rfl

theorem length_concatenation (files : Files) (tempDir : Path) (chunks : List Chunk) :
    (concatenation files tempDir chunks).length = ((partFiles files tempDir chunks).map fileSize).sum := by
  rw [concatenation, List.length_flatMap]
  rfl

/-- Without a write that is cut short, a merge succeeds if and only if all parts are there and
add up to the expected size, and the target then holds them one after the other; the parts are
left as they are, a part that is the target itself apart. With one, it does not touch the target. -/
theorem merge_concatenates (storage : Storage) (chunks : List Chunk) (tempDir target : Path) (expectedSize : Nat)
    (files : Files)
    (hsafe : SafePaths chunks) (hapart : Apart tempDir target chunks) (hcreate : storage.createDirectories = true)
    (hopens : storage.opens = true) (hrenames : storage.renames = true) :
    let r := (mergeChunks storage chunks tempDir target expectedSize).run { files }
    let size := ((partFiles files tempDir chunks).map fileSize).sum
    (storage.room = none →
      (r.1 = .ok () ↔ none ∉ partFiles files tempDir chunks ∧ size = expectedSize) ∧
      (r.1 = .ok () → r.2.files target = some (concatenation files tempDir chunks) ∧
        r.2.files (tempTarget target) = none ∧ ∀ c ∈ chunks, joinPath tempDir c.tempPath ≠ target →
          r.2.files (joinPath tempDir c.tempPath) = files (joinPath tempDir c.tempPath))) ∧
      ∀ room, storage.room = some room → room < size → size = expectedSize →
        (∃ e, r.1 = .thrown e) ∧ r.2.files target = files target := by
  obtain ⟨hparts, hbytes⟩ : ((gathered files tempDir chunks).2 = none ↔ none ∉ partFiles files tempDir chunks) ∧
      (none ∉ partFiles files tempDir chunks →
        (gathered files tempDir chunks).1 = concatenation files tempDir chunks) :=
    gathered_safe hsafe
  have hlength := length_concatenation files tempDir chunks
  have hrun : wp (mergeChunks storage chunks tempDir target expectedSize) _ _ _ { files } := merge_wp hapart
  dsimp only
  rcases hr : (mergeChunks storage chunks tempDir target expectedSize).run { files } with ⟨_ | e | _, m'⟩
  · rw [wp_of_ok hr] at hrun
    obtain ⟨hassembles, -, htarget, htemp, hframe⟩ := hrun
    have hall := hparts.1 hassembles.gathered
    have hsize := hassembles.size
    rw [hbytes hall] at hsize htarget
    refine ⟨fun hroom => ⟨iff_of_true rfl ⟨hall, ?_⟩, fun _ => ⟨?_, htemp, fun c hc hne => hframe _ hne (hapart c hc)⟩⟩,
      ?_⟩
    · rw [Storage.taken, hroom, Option.elim_none, hlength] at hsize
      exact hsize
    · rw [Storage.taken, hroom, Option.elim_none] at htarget
      exact htarget
    · intro room hroom hshort hexpected
      rw [Storage.taken, hroom, Option.elim_some, List.length_take, hlength] at hsize
      omega
  · rw [wp_of_thrown hr] at hrun
    have hfailed : ¬ storage.Assembles files tempDir chunks expectedSize ∧ m'.files target = files target := by
      refine hrun.resolve_right fun h => ?_
      rw [hrenames] at h
      cases h.2.1
    refine ⟨fun hroom => ⟨iff_of_false (by rintro ⟨⟩) ?_, by rintro ⟨⟩⟩, fun room _ _ _ => ⟨⟨e, rfl⟩, hfailed.2⟩⟩
    rintro ⟨hall, hsize⟩
    refine hfailed.1 ⟨hcreate, hopens, hparts.2 hall, ?_⟩
    rw [hbytes hall, Storage.taken, hroom, Option.elim_none, hlength, hsize]
  · rw [wp_of_stopped hr] at hrun
    exact hrun.elim

def twoChunks : List Chunk := [{ index := 0, tempPath := text "a" }, { index := 1, tempPath := text "b" }]

def twoFiles : Files := fun p =>
  if p = text "/t/a" then some [1, 2]
  else if p = text "/t/b" then some [3]
  else if p = text "/o" then some [9]
  else none

theorem merge_concatenates_two :
    let r := (mergeChunks {} twoChunks (text "/t") (text "/o") 3).run { files := twoFiles }
    r.1 = .ok () ∧ r.2.files (text "/o") = some [1, 2, 3] := by
  obtain ⟨hmerge, -⟩ := merge_concatenates {} twoChunks (text "/t") (text "/o") 3 twoFiles
    (by unfold SafePaths; decide +kernel) (by unfold Apart; decide +kernel) rfl rfl rfl
  obtain ⟨hiff, hholds⟩ := hmerge rfl
  have hok := hiff.2 ⟨by decide +kernel, by decide +kernel⟩
  exact ⟨hok, (hholds hok).1⟩

/-- A part that is the target is not left as it is. -/
theorem part_replaced :
    let r := (mergeChunks {} twoChunks (text "/t") (text "/t/a") 3).run { files := twoFiles }
    SafePaths twoChunks ∧ Apart (text "/t") (text "/t/a") twoChunks ∧ r.1 = .ok () ∧
      ¬ ∀ c ∈ twoChunks, r.2.files (joinPath (text "/t") c.tempPath) = twoFiles (joinPath (text "/t") c.tempPath) := by
  have hapart : Apart (text "/t") (text "/t/a") twoChunks := by unfold Apart; decide +kernel
  have hrun : wp (mergeChunks {} twoChunks (text "/t") (text "/t/a") 3) _ _ _ { files := twoFiles } := merge_wp hapart
  have hassembles : ({} : Storage).Assembles twoFiles (text "/t") twoChunks 3 :=
    ⟨rfl, rfl, by decide +kernel, by decide +kernel⟩
  dsimp only
  rcases hr : (mergeChunks {} twoChunks (text "/t") (text "/t/a") 3).run { files := twoFiles } with ⟨_ | e | _, m'⟩
  · rw [wp_of_ok hr] at hrun
    obtain ⟨-, -, htarget, -⟩ := hrun
    refine ⟨by unfold SafePaths; decide +kernel, hapart, rfl, fun hsame => ?_⟩
    have hpart := hsame { index := 0, tempPath := text "a" } List.mem_cons_self
    rw [show joinPath (text "/t") (text "a") = text "/t/a" by decide +kernel] at hpart
    exact absurd (hpart.symm.trans htarget) (by decide +kernel)
  · rw [wp_of_thrown hr] at hrun
    rcases hrun with h | h
    · exact absurd hassembles h.1
    · cases h.2.1
  · rw [wp_of_stopped hr] at hrun
    exact hrun.elim

/-! ## The merge in one step -/

section OneStep

variable {env : Env} {w : World} {size : Nat} {files : Files}

/-- What a write that ends so lets through. -/
def Fault.room : Fault → Option Nat
  | .ok => none
  | .fail k => some k
  | .crash k => some k

/-- The operations of a merge in `Engine`. -/
def storageOf (f : CommitFaults) : Storage where
  createDirectories := f.directory = .ok
  opens := f.openTemp = .ok
  room := Fault.room f.write
  removes := f.remove = .ok
  renames := f.rename = .ok

/-- What is assembled in one step is what the loops leave in the temp file. -/
theorem assembled_iff (hcrash : ¬ env.Crashes) (hfiles : ∀ c ∈ chunks, files (joinPath tempDir c.tempPath) =
    w.disk.parts (joinPath tempDir c.tempPath)) {b : Bytes} :
    assembled env w.disk chunks tempDir size = some b ↔
      (storageOf env.commit).Assembles files tempDir chunks size ∧
        (storageOf env.commit).taken (gathered files tempDir chunks).1 = b := by
  have hgathered : gathered files tempDir chunks = gatherParts w.disk tempDir chunks :=
    (gathered_congr hfiles).trans (gatherParts_congr
      (show ({ parts := w.disk.parts } : Disk).parts = w.disk.parts from rfl) _ _)
  have hassembles : (storageOf env.commit).Assembles files tempDir chunks size ↔ env.commit.directory = .ok ∧
      env.commit.openTemp = .ok ∧ (gatherParts w.disk tempDir chunks).2 = none ∧
        ((storageOf env.commit).taken (gatherParts w.disk tempDir chunks).1).length = size := by
    rw [← hgathered]
    exact ⟨fun h => ⟨of_decide_eq_true h.createDirectories, of_decide_eq_true h.opens, h.gathered, h.size⟩,
      fun h => ⟨decide_eq_true h.1, decide_eq_true h.2.1, h.2.2.1, h.2.2.2⟩⟩
  have htaken : env.commit.write.cut (gatherParts w.disk tempDir chunks).1 =
      some ((storageOf env.commit).taken (gatherParts w.disk tempDir chunks).1) := by
    cases hwrite : env.commit.write with
    | ok => simp [Fault.cut, Storage.taken, storageOf, Fault.room, hwrite]
    | fail k => simp [Fault.cut, Storage.taken, storageOf, Fault.room, hwrite]
    | crash k => exact absurd ⟨_, by simp [CommitFaults.all], k, hwrite⟩ hcrash
  rw [hassembles, hgathered, assembled, htaken, Option.filter_some]
  simp only [decide_eq_true_eq]
  split_ifs <;> simp_all

/-- The merge of `Engine` ends as the loops do, with the same target. -/
theorem merge_refines (hcrash : ¬ env.Crashes) (hapart : Apart tempDir target chunks)
    (hfiles : ∀ c ∈ chunks, files (joinPath tempDir c.tempPath) = w.disk.parts (joinPath tempDir c.tempPath))
    (htarget : files target = w.disk.out target) :
    let r := (Cget.mergeChunks env chunks tempDir target size).run w
    let r' := (mergeChunks (storageOf env.commit) chunks tempDir target size).run { files }
    (r.1 = .ok () ↔ r'.1 = .ok ()) ∧ r'.2.files target = r.2.disk.out target := by
  have hloops : wp (mergeChunks (storageOf env.commit) chunks tempDir target size) _ _ _ { files } := merge_wp hapart
  have hstep : wp (Cget.mergeChunks env chunks tempDir target size) _ _ _ w := mergeChunks_wp
  have hassembled : ∀ b, assembled env w.disk chunks tempDir size = some b ↔ _ := fun b => assembled_iff hcrash hfiles
  have hrenames : (storageOf env.commit).renames = true ↔ env.commit.rename = .ok := decide_eq_true_iff
  have hnone : assembled env w.disk chunks tempDir size = none ↔
      ¬ (storageOf env.commit).Assembles files tempDir chunks size := by
    rw [Option.eq_none_iff_forall_ne_some]
    exact ⟨fun h hassembles => h _ ((hassembled _).2 ⟨hassembles, rfl⟩), fun h b hb => h ((hassembled b).1 hb).1⟩
  dsimp only
  rcases hr : (Cget.mergeChunks env chunks tempDir target size).run w with ⟨_ | e | _, w'⟩
  · rw [wp_of_ok hr] at hstep
    obtain ⟨-, hrename, b, hb, hout⟩ := hstep
    obtain ⟨hassembles, rfl⟩ := (hassembled b).1 hb
    rcases hr' : (mergeChunks (storageOf env.commit) chunks tempDir target size).run { files } with ⟨_ | e' | _, m'⟩
    · rw [wp_of_ok hr'] at hloops
      exact ⟨Iff.rfl, hloops.2.2.1.trans hout.symm⟩
    · rw [wp_of_thrown hr'] at hloops
      rcases hloops with ⟨hnot, -⟩ | ⟨-, hfalse, -⟩
      · exact absurd hassembles hnot
      · rw [hrenames.2 hrename] at hfalse
        cases hfalse
    · rw [wp_of_stopped hr'] at hloops
      exact hloops.elim
  · rw [wp_of_thrown hr] at hstep
    obtain ⟨-, hstep⟩ := hstep
    rcases hr' : (mergeChunks (storageOf env.commit) chunks tempDir target size).run { files } with ⟨_ | e' | _, m'⟩
    · rw [wp_of_ok hr'] at hloops
      obtain ⟨hassembles, hrename, -⟩ := hloops
      rcases hstep with ⟨hno, -⟩ | ⟨-, hfault, -⟩
      · exact absurd hassembles (hnone.1 hno)
      · exact absurd (hrenames.1 hrename) hfault
    · rw [wp_of_thrown hr'] at hloops
      refine ⟨iff_of_false (by rintro ⟨⟩) (by rintro ⟨⟩), ?_⟩
      rcases hstep with ⟨hno, hout⟩ | ⟨⟨b, hb⟩, -, hout⟩
      · rcases hloops with ⟨-, hsame⟩ | ⟨hassembles, -⟩
        · exact hsame.trans (htarget.trans hout.symm)
        · exact absurd hassembles (hnone.1 hno)
      · rcases hloops with ⟨hnot, -⟩ | ⟨-, -, hleft⟩
        · exact absurd ((hassembled b).1 hb).1 hnot
        · rw [hleft, hout, Storage.afterRemoval, Env.unmoved]
          exact if_congr decide_eq_true_iff rfl htarget
    · rw [wp_of_stopped hr'] at hloops
      exact hloops.elim
  · rw [wp_of_stopped hr] at hstep
    exact absurd hstep.2 hcrash

end OneStep

end FileSystemService

end Cget
