import Cget.OutputPath
/-!
# Containment

Which directory `removeTaskTempDir` removes and which file a chunk is written to. Both guards
look for `..`; only `chunkPath` also looks for absolute paths, and neither for a path without
components, which names the directory itself.
-/

namespace Cget

/-! ## Paths as texts with components -/

variable {env : Env} {id : TaskId} {t : DownloadTask} {c : Chunk} {a b p : Path}

theorem joinPath_posix (a b : Path) : joinPath a b = posix.join a b := rfl

theorem isAbsolute_iff : isAbsolute p = true ↔ posix.Absolute p := by
  rw [isAbsolute, decide_eq_true_iff]
  rfl

theorem isPathTraversal_iff : isPathTraversal p = true ↔ posix.Climbs p := by
  rw [isPathTraversal, List.any_eq_true]
  simp only [decide_eq_true_eq, exists_eq_right]
  rfl

/-! ## Removing a task's directory -/

def tempRootDir (env : Env) : Path := joinPath env.appHome (text "temp")

/-- The directory that `removeTaskTempDir` removes with all it contains. -/
def removedDir (env : Env) (id : TaskId) : Except Exn Path :=
  if isPathTraversal id then .error (.cget .pathTraversalError (text "unsafe task id: " ++ id)) else .ok
    (taskTempDir env id)

theorem removeTaskTempDir_removes (env : Env) (id : TaskId) :
    removeTaskTempDir env id = Prog.ofExcept (removedDir env id) >>= fun dir =>
      fileOp env (·.removeParts dir) (fun _ d => d)
        (.cget .fileSystemError (text "failed to remove task temp directory")) := by
  unfold removeTaskTempDir removedDir
  split
  · rfl
  · rfl

theorem removed_below_iff (env : Env) (id : TaskId) :
    (∀ dir, removedDir env id = .ok dir → posix.Below (tempRootDir env) dir) ↔
      isPathTraversal id ∨ if isAbsolute id then posix.Below (tempRootDir env) id else posix.parts id ≠ [] := by
  by_cases hup : isPathTraversal id = true
  · have hthrows : ∀ dir, removedDir env id ≠ .ok dir := by
      intro dir h
      rw [removedDir, if_pos hup] at h
      cases h
    exact iff_of_true (fun dir h => absurd h (hthrows dir)) (.inl hup)
  · have hremoved : removedDir env id = .ok (posix.join (tempRootDir env) id) := if_neg hup
    simp only [hremoved, Except.ok.injEq, forall_eq', hup, Bool.false_eq_true, false_or]
    rw [isPathTraversal_iff] at hup
    by_cases habsolute : isAbsolute id = true
    · rw [if_pos habsolute, posix.join_absolute (isAbsolute_iff.1 habsolute)]
    · rw [if_neg habsolute, posix.below_join_iff (isAbsolute_iff.not.1 habsolute) hup]

theorem chunk_below_iff (t : DownloadTask) (c : Chunk) :
    (∀ p, chunkPath t c = .ok p → posix.Below t.tempDir p) ↔
      isPathTraversal c.tempPath ∨ isAbsolute c.tempPath ∨ posix.parts c.tempPath ≠ [] := by
  by_cases hguard : (isPathTraversal c.tempPath || isAbsolute c.tempPath) = true
  · have hthrows : ∀ p, chunkPath t c ≠ .ok p := by
      intro p h
      rw [chunkPath, if_pos hguard] at h
      cases h
    rw [Bool.or_eq_true] at hguard
    exact iff_of_true (fun p h => absurd h (hthrows p)) (hguard.imp_right .inl)
  · have hpath : chunkPath t c = .ok (posix.join t.tempDir c.tempPath) := if_neg hguard
    rw [Bool.or_eq_true, not_or] at hguard
    obtain ⟨hup, habsolute⟩ := hguard
    simp only [hpath, Except.ok.injEq, forall_eq', hup, habsolute, Bool.false_eq_true, false_or]
    exact posix.below_join_iff (isAbsolute_iff.not.1 habsolute) (isPathTraversal_iff.not.1 hup)

/-- What is removed and what is written stays below its directory exactly when the path throws
or has a component; an absolute id is taken as it is. -/
theorem paths_contained_iff (env : Env) (id : TaskId) (t : DownloadTask) (c : Chunk) :
    ((∀ dir, removedDir env id = .ok dir → posix.Below (tempRootDir env) dir) ↔
      isPathTraversal id ∨ if isAbsolute id then posix.Below (tempRootDir env) id else posix.parts id ≠ []) ∧
    ((∀ p, chunkPath t c = .ok p → posix.Below t.tempDir p) ↔
      isPathTraversal c.tempPath ∨ isAbsolute c.tempPath ∨ posix.parts c.tempPath ≠ []) :=
  ⟨removed_below_iff env id, chunk_below_iff t c⟩

/-- `remove_all` meets `/etc`, and for the empty id all temp directories; a chunk without a name
is its task's directory. -/
theorem paths_escape :
    let env : Env := { appHome := text "/home/user/.cget", protocol := .silent }
    let t : DownloadTask := { id := text "a", tempDir := text "/home/user/.cget/temp/a" }
    (removedDir env (text "/etc") = .ok (text "/etc") ∧ ¬ posix.Below (tempRootDir env) (text "/etc")) ∧
    (removedDir env [] = .ok (text "/home/user/.cget/temp/") ∧
      ¬ posix.Below (tempRootDir env) (text "/home/user/.cget/temp/")) ∧
    (chunkPath t {} = .ok (text "/home/user/.cget/temp/a/") ∧
      ¬ posix.Below t.tempDir (text "/home/user/.cget/temp/a/")) := by
  decide +kernel

end Cget
