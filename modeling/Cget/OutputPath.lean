import Cget.Manager
/-!
# Output paths

`createTask` from the request on: the URL, the file name and the path of the output file,
which is another one if there is a file already and overwriting is not forced. The check is
made when the task is created; the file appears when the task is merged.
-/

namespace Cget

/-! ## Path text -/

/-- `path::filename`. -/
def fileNameOf (p : Path) : Path := (p.splitOn 47).getLastD []

/-- `path::parent_path`, of a path with a file name. -/
def parentPath (p : Path) : Path :=
  let dir := p.take (p.length - (fileNameOf p).length)
  if dir ≠ [] ∧ dir.all (· = 47) then [47] else (dir.reverse.dropWhile (· = 47)).reverse

/-- `path::stem` and `path::extension` of a file name. A dot at its start is no extension. -/
def splitExtension (name : Path) : Path × Path :=
  match name.reverse.idxOf? 46 with
  | none => (name, [])
  | some back =>
    let dot := name.length - 1 - back
    if dot = 0 ∨ name = text ".." then (name, []) else (name.take dot, name.drop dot)

/-- Where `needle` starts first. -/
def findText (needle : Text) : Text → Option Nat
  | [] => if needle = [] then some 0 else none
  | c :: cs => if needle.isPrefixOf (c :: cs) then some 0 else (findText needle cs).map (· + 1)

def unsafeName (name : Text) : Bool := name = [] || name = text "." || name = text ".."

def sanitizeFileName (name : Text) : Text :=
  if unsafeName name then text "download"
  else
    let cleaned := name.map (fun c => if c = 47 ∨ c = 92 ∨ c < 32 then 95 else c)
    if unsafeName cleaned then text "download" else cleaned

/-- `FileSystemService::fileNameFromUrl`. -/
def fileNameFromUrl (url : Text) : Text :=
  let clean := (url.takeWhile (· ≠ 35)).takeWhile (· ≠ 63)
  let name := fileNameOf clean
  sanitizeFileName (if name = [] then text "download" else name)

/-! ## Requests -/

structure CreateTaskRequest where
  url : Text
  outputPath : Option Path := none
  fileName : Option Text := none
  expectedSha256 : Option Text := none
  taskRateLimitBytesPerSec : Option Nat := none
  taskRateLimitOverride : Bool := false
  requestedThreads : Nat := 0
  forceOverwrite : Bool := false
  queueOnly : Bool := false

/-- What `createTask` meets beside the files: the directories, the schemes of this libcurl, the
id that is generated. -/
structure Places where
  isDirectory : Path → Bool := fun _ => false
  currentPath : Path := text "/home/user"
  supportedScheme : Text → Bool := fun s => s = text "http" || s = text "https"
  supportedSchemesText : Text := text "http, https"
  generatedId : TaskId
  defaultPerTaskBytesPerSec : Option Nat := none

def Places.exists_ (places : Places) (d : Disk) (p : Path) : Bool := places.isDirectory p || (d.out p).isSome

/-- `DownloadManager::validateUrl`. -/
def validateUrl (places : Places) (url : Text) : Except Exn Unit :=
  match findText (text "://") url with
  | none => .error (.cget .invalidUrlError (text "URL must include a supported scheme"))
  | some schemeEnd =>
    let scheme := url.take schemeEnd
    if !places.supportedScheme scheme then
      .error (.cget .invalidUrlError
        (text "unsupported or unavailable URL scheme: " ++ scheme ++ text "; supported here: " ++
        places.supportedSchemesText))
    else if ((url.drop (schemeEnd + 3)).takeWhile (fun c => c ≠ 47 ∧ c ≠ 63 ∧ c ≠ 35)) = [] then
      .error (.cget .invalidUrlError (text "URL host is required"))
    else .ok ()

def isSha256Hex (value : Text) : Bool :=
  value.length = 64 && value.all (fun c => (48 ≤ c && c ≤ 57) || (97 ≤ c && c ≤ 102) || (65 ≤ c && c ≤ 70))

def CreateTaskRequest.name (q : CreateTaskRequest) : Text := q.fileName.getD (fileNameFromUrl q.url)

/-! ## The output path -/

def downloadsDir (env : Env) : Path := joinPath env.appHome (text "downloads")

/-- The path a request asks for. -/
def requestedTarget (env : Env) (places : Places) (d : Disk) (outputPath : Option Path) (fileName : Text) :
    Except Exn Path :=
  let target := outputPath.getD (joinPath (downloadsDir env) (sanitizeFileName fileName))
  if isPathTraversal target then .error (.cget .pathTraversalError (text "output path contains '..': " ++ target))
  else
    let target :=
      if fileNameOf target = [] ∨ (places.exists_ d target ∧ places.isDirectory target) then
        joinPath target (sanitizeFileName fileName)
      else target
    .ok (if isAbsolute target then target else joinPath places.currentPath target)

/-- The name `uniquePath` tries in round `index`. -/
def candidatePath (path : Path) (index : Nat) : Path :=
  let parts := splitExtension (fileNameOf path)
  joinPath (parentPath path) (parts.1 ++ text " (" ++ decimal index ++ text ")" ++ parts.2)

/-- The loop of `uniquePath`, from round `index` on. -/
def uniqueLoop (taken : Path → Bool) (path : Path) : (rounds index : Nat) → Except Exn Path
  | 0, _ => .error (.cget .fileAlreadyExistsError (text "could not find non-conflicting output path"))
  | rounds + 1, index =>
    if taken (candidatePath path index) then uniqueLoop taken path rounds (index + 1) else .ok
      (candidatePath path index)

/-- `FileSystemService::uniquePath`. -/
def uniquePath (taken : Path → Bool) (path : Path) : Except Exn Path := uniqueLoop taken path 9999 1

/-- The path the task gets. -/
def chooseTarget (taken : Path → Bool) (target : Path) (forceOverwrite : Bool) : Except Exn Path :=
  if !forceOverwrite && taken target then uniquePath taken target else .ok target

def ensureDirectories (env : Env) : Prog World Exn Unit := do
  fileOp env id (fun _ d => d) (.cget .fileSystemError (text "failed to create tasks directory"))
  fileOp env id (fun _ d => d) (.cget .fileSystemError (text "failed to create temp directory"))
  fileOp env id (fun _ d => d) (.cget .fileSystemError (text "failed to create downloads directory"))
  fileOp env id (fun _ d => d) (.cget .fileSystemError (text "failed to create logs directory"))

/-- `FileSystemService::resolveOutputPath`. -/
def resolveOutputPath (env : Env) (places : Places) (outputPath : Option Path) (fileName : Text)
    (forceOverwrite : Bool) :
    Prog World Exn Path := do
  ensureDirectories env
  let w ← get
  let target ← Prog.ofExcept (requestedTarget env places w.disk outputPath fileName)
  fileOp env id (fun _ d => d) (.cget .fileSystemError (text "failed to create output parent directory"))
  let w ← get
  Prog.ofExcept (chooseTarget (places.exists_ w.disk) target forceOverwrite)

def checkDigest : Option Text → Except Exn Unit
  | some digest =>
    if isSha256Hex digest then .ok ()
    else .error (.cget .invalidCommandError (text "SHA256 must be exactly 64 hexadecimal characters"))
  | none => .ok ()

/-- `DownloadManager::createTask`, from the request on. -/
def createRequested (env : Env) (places : Places) (q : CreateTaskRequest) : Prog World Exn DownloadTask := do
  Prog.ofExcept (validateUrl places q.url)
  ensureDirectories env
  Prog.ofExcept (checkDigest q.expectedSha256)
  let target ← resolveOutputPath env places q.outputPath q.name q.forceOverwrite
  createTask env
    { id := places.generatedId
      url := q.url
      fileName := q.name
      targetPath := target
      expectedSha256 := q.expectedSha256
      requestedThreads := q.requestedThreads
      taskRateLimitBytesPerSec :=
        if q.taskRateLimitOverride then q.taskRateLimitBytesPerSec else places.defaultPerTaskBytesPerSec
      queueOnly := q.queueOnly }

/-- The path that the request resolves to on this disk. -/
def CreateTaskRequest.resolved (env : Env) (places : Places) (d : Disk) (q : CreateTaskRequest) : Except Exn Path :=
  (requestedTarget env places d q.outputPath q.name).bind (chooseTarget (places.exists_ d) · q.forceOverwrite)

/-! ## What is chosen -/

open Prog

variable {env : Env} {places : Places} {q : CreateTaskRequest} {w : World} {taken : Path → Bool} {path p : Path}

theorem uniqueLoop_free : ∀ (rounds index : Nat), uniqueLoop taken path rounds index = .ok p → taken p = false
  | 0, _, h => by cases h
  | rounds + 1, index, h => by
    unfold uniqueLoop at h
    split at h
    · exact uniqueLoop_free rounds (index + 1) h
    · cases h
      exact Bool.eq_false_iff.2 ‹_›

/-- Without force no existing path is chosen. -/
theorem chooseTarget_free (h : chooseTarget taken path false = .ok p) : taken p = false := by
  unfold chooseTarget at h
  split at h
  · exact uniqueLoop_free _ _ h
  · rename_i hfree
    cases h
    simpa using hfree

theorem resolved_free {d : Disk} (hforce : q.forceOverwrite = false) (h : q.resolved env places d = .ok p) :
    d.out p = none := by
  unfold CreateTaskRequest.resolved at h
  cases htarget : requestedTarget env places d q.outputPath q.name with
  | error e => rw [htarget] at h; cases h
  | ok target =>
    rw [htarget] at h
    have hchosen : chooseTarget (places.exists_ d) target q.forceOverwrite = .ok p := h
    rw [hforce] at hchosen
    have hfree := chooseTarget_free hchosen
    simp only [Places.exists_, Bool.or_eq_false_iff] at hfree
    simpa using hfree.2

example : (uniquePath (· = text "/d/a.tar.gz") (text "/d/a.tar.gz")).toOption = some (text "/d/a.tar (1).gz") := by
  decide +kernel

end Cget
