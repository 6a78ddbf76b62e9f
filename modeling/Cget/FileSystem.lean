import Cget.Lib.Lexical
import Cget.Types
/-!
# Paths and files

`filesystem_service.cpp` on POSIX: path text, the files of the state directory and the
output files. A task's JSON files, the part files and the output files are kept apart:
an output path inside the `tasks` or `temp` directories is outside this model. Output paths
with the same components name one file; links are not followed.
-/

namespace Cget

/-! ## Paths -/

/-- `path::operator/`: an absolute right operand replaces the left one. -/
def joinPath (a b : Path) : Path :=
  if b.head? = some 47 then b
  else if a = [] ∨ a.getLast? = some 47 then a ++ b
  else a ++ 47 :: b

def isAbsolute (p : Path) : Bool := p.head? = some 47

/-- `FileSystemService::isPathTraversal`: some component is `..`. -/
def isPathTraversal (p : Path) : Bool := (p.splitOn 47).any (· = text "..")

/-- `FileSystemService::chunkPath`. -/
def chunkPath (t : DownloadTask) (c : Chunk) : Except Exn Path :=
  if isPathTraversal c.tempPath || isAbsolute c.tempPath then
    .error (.cget .pathTraversalError (text "unsafe chunk temp path: " ++ c.tempPath))
  else .ok (joinPath t.tempDir c.tempPath)

/-- A path `chunkPath` accepts. -/
def SafeName (n : Path) : Prop := (isPathTraversal n || isAbsolute n) = false

def posix : Lexical.Signs UInt8 := ⟨47, 46, by decide⟩

/-- Two paths of one output file. -/
abbrev OneFile (p q : Path) : Prop := posix.Same p q

/-- Where `mergeChunks` assembles the file for `target`. -/
def tempTarget (target : Path) : Path := target ++ text ".cget.tmp"

theorem tempTarget_apart (target : Path) : ¬ OneFile (tempTarget target) target := by
  unfold tempTarget
  exact posix.not_same_append (by decide) (by decide) target

theorem oneFile_of_temp {p q : Path} (h : OneFile (tempTarget p) (tempTarget q)) : OneFile p q := by
  unfold tempTarget at h
  exact Lexical.Signs.Same.of_append posix (by decide) (by decide) h

theorem tempTarget_ne (target : Path) : tempTarget target ≠ target := fun h => tempTarget_apart target (h.symm ▸ .refl)

theorem joinPath_right_injective {a b c : Path} (hb : isAbsolute b = false) (hc : isAbsolute c = false)
    (h : joinPath a b = joinPath a c) : b = c := by
  simp only [isAbsolute, decide_eq_false_iff_not] at hb hc
  simp only [joinPath, hb, hc, if_false] at h
  split at h
  · exact List.append_cancel_left h
  · simpa using List.append_cancel_left h

/-- Safe temp paths of one task that differ name different files. -/
theorem chunkPath_inj {t : DownloadTask} {c d : Chunk} {p : Path} (hc : chunkPath t c = .ok p)
    (hd : chunkPath t d = .ok p) : c.tempPath = d.tempPath := by
  unfold chunkPath at hc hd
  split at hc
  · cases hc
  · split at hd
    · cases hd
    · rename_i h1 h2
      simp only [Bool.or_eq_true, not_or, Bool.not_eq_true] at h1 h2
      simp only [Except.ok.injEq] at hc hd
      exact joinPath_right_injective h1.2 h2.2 (hc.trans hd.symm)

/-! ## Files -/

/-- The text of a task file: what `saveTask` wrote for a task, or bytes that are no
task JSON (a write cut short, or corruption). -/
inductive TaskText where
  | written (t : DownloadTask)
  | torn
  deriving DecidableEq, Repr

/-- `task_<id>.json` and its `.bak` and `.tmp`. -/
structure TaskFiles where
  main : Option TaskText := none
  bak : Option TaskText := none
  tmp : Option TaskText := none
  deriving DecidableEq, Repr

/-- The files the program works on. -/
structure Disk where
  tasks : TaskId → TaskFiles := fun _ => {}
  parts : Path → Option Bytes := fun _ => none
  out : Path → Option Bytes := fun _ => none

/-- `FileSystemService::fileSize`: 0 for a missing file. -/
def fileSize (file : Option Bytes) : Nat := (file.getD []).length

@[simp] theorem fileSize_none : fileSize none = 0 := rfl

@[simp] theorem fileSize_some (b : Bytes) : fileSize (some b) = b.length := rfl

def Disk.setPart (d : Disk) (p : Path) (b : Option Bytes) : Disk :=
  { d with parts := Function.update d.parts p b }

/-- The file that `p` names is replaced, whichever path one looks for it at. -/
def Disk.setOut (d : Disk) (p : Path) (b : Option Bytes) : Disk :=
  { d with out := fun q => if OneFile q p then b else d.out q }

/-- `remove_all` of a directory of part files, whose path may end in a slash. -/
def Disk.removeParts (d : Disk) (dir : Path) : Disk :=
  { d with parts := fun p => if (joinPath dir []).isPrefixOf p then none else d.parts p }

/-- What the loop of `mergeChunks` has written when it stops, and why it stopped early. -/
def gatherParts (d : Disk) (tempDir : Path) : List Chunk → Bytes × Option Exn
  | [] => ([], none)
  | c :: cs =>
    if isPathTraversal c.tempPath || isAbsolute c.tempPath then
      ([], some (.cget .pathTraversalError (text "unsafe chunk temp path: " ++ c.tempPath)))
    else
      match d.parts (joinPath tempDir c.tempPath) with
      | none => ([], some (.cget .fileSystemError (text "missing chunk file: " ++ joinPath tempDir c.tempPath)))
      | some b => (b ++ (gatherParts d tempDir cs).1, (gatherParts d tempDir cs).2)

@[simp] theorem Disk.setPart_parts (d : Disk) (p : Path) (b : Option Bytes) :
    (d.setPart p b).parts = Function.update d.parts p b := rfl

@[simp] theorem Disk.setPart_out (d : Disk) (p : Path) (b : Option Bytes) : (d.setPart p b).out = d.out := rfl

@[simp] theorem Disk.setPart_tasks (d : Disk) (p : Path) (b : Option Bytes) :
    (d.setPart p b).tasks = d.tasks := rfl

@[simp] theorem Disk.setOut_out (d : Disk) (p q : Path) (b : Option Bytes) :
    (d.setOut p b).out q = if OneFile q p then b else d.out q := rfl

@[simp] theorem Disk.setOut_parts (d : Disk) (p : Path) (b : Option Bytes) :
    (d.setOut p b).parts = d.parts := rfl

@[simp] theorem Disk.setOut_tasks (d : Disk) (p : Path) (b : Option Bytes) :
    (d.setOut p b).tasks = d.tasks := rfl

/-- All paths of a file lead to it. -/
def Disk.Coherent (d : Disk) : Prop := ∀ p q, OneFile p q → d.out p = d.out q

theorem Disk.Coherent.setOut {d : Disk} (h : d.Coherent) (p : Path) (b : Option Bytes) : (d.setOut p b).Coherent := by
  intro q r hqr
  have hsame : OneFile q p ↔ OneFile r p := ⟨fun hq => hqr.symm.trans hq, fun hr => hqr.trans hr⟩
  simp only [Disk.setOut_out, hsame, h q r hqr]

/-- A merge reads part files only. -/
theorem gatherParts_congr {d d' : Disk} (h : d.parts = d'.parts) (tempDir : Path) (cs : List Chunk) :
    gatherParts d tempDir cs = gatherParts d' tempDir cs := by
  induction cs with
  | nil => rfl
  | cons c cs ih => simp only [gatherParts, h, ih]

end Cget
