import Cget.Merge
import Cget.Lib.InStep
/-!
# Two sessions abreast

Two orders of the same threads leave a task in two sessions. They may differ in what progress
there was, in what the task file says and in the log. What the engine does next does not look
at any of that: with the same failures ahead, both sessions go the same way to the end.
-/

namespace Cget

open Prog

variable {env : Env} {dir target : Path} {P : Path → Prop} {t u : DownloadTask} {w w' : World} {s s' : Session}
  {cs cs' : List Chunk} {info : RemoteFileInfo}

/-! ## What is seen of a world -/

/-- The same operation is next, and the output files and the part files of these names in `dir` are the same. -/
structure SameView (dir : Path) (P : Path → Prop) (w w' : World) : Prop where
  tick : w'.tick = w.tick
  out : w'.disk.out = w.disk.out
  parts : ∀ n, P n → w'.disk.parts (joinPath dir n) = w.disk.parts (joinPath dir n)

namespace SameView

theorem setPart (h : SameView dir P w w') (p : Path) (b : Option Bytes) :
    SameView dir P { w with disk := w.disk.setPart p b } { w' with disk := w'.disk.setPart p b } := by
  refine ⟨h.tick, h.out, fun n hn => ?_⟩
  by_cases hp : joinPath dir n = p
  · rw [Disk.setPart_parts, Disk.setPart_parts, hp, Function.update_self, Function.update_self]
  · rw [Disk.setPart_parts, Disk.setPart_parts, Function.update_of_ne hp, Function.update_of_ne hp, h.parts n hn]

theorem setOut (h : SameView dir P w w') (p : Path) (b : Option Bytes) :
    SameView dir P { w with disk := w.disk.setOut p b } { w' with disk := w'.disk.setOut p b } := by
  refine ⟨h.tick, ?_, h.parts⟩
  funext q
  rw [Disk.setOut_out, Disk.setOut_out, h.out]

/-- Chunks with the same part files make up the same bytes. -/
theorem gathered (h : SameView dir P w w') : ∀ {cs cs' : List Chunk}, cs'.map (·.tempPath) = cs.map (·.tempPath) →
    (∀ n ∈ cs.map (·.tempPath), SafeName n → P n) → gatherParts w'.disk dir cs' = gatherParts w.disk dir cs
  | [], [], _, _ => rfl
  | c :: cs, c' :: cs', hnames, hP => by
    obtain ⟨hname, hnames⟩ : c'.tempPath = c.tempPath ∧ cs'.map (·.tempPath) = cs.map (·.tempPath) :=
      List.cons.inj hnames
    have hrest := h.gathered hnames fun n hn => hP n (List.mem_cons_of_mem _ hn)
    rw [gatherParts, gatherParts, hrest, hname]
    split
    · rfl
    · rename_i hsafe
      rw [h.parts _ (hP _ List.mem_cons_self (Bool.eq_false_of_not_eq_true hsafe))]

end SameView

theorem view_operation {f : Nat → Fault} {full full' : World → World} {part part' : Nat → World → World} {e : Exn}
    (hfull : ∀ w w', SameView dir P w w' → SameView dir P (full w) (full' w'))
    (hpart : ∀ k w w', SameView dir P w w' → SameView dir P (part k w) (part' k w')) :
    InStep (SameView dir P) (operation f full part e) (operation f full' part' e) := by
  intro w w' h
  have hticked : SameView dir P { w with tick := w.tick + 1 } { w' with tick := w'.tick + 1 } :=
    ⟨congrArg (· + 1) h.tick, h.out, h.parts⟩
  have hfault : f w'.tick = f w.tick := congrArg f h.tick
  simp only [operation, hfault]
  split
  · exact ⟨rfl, hfull _ _ hticked⟩
  · exact ⟨rfl, hpart _ _ _ hticked⟩
  · exact ⟨rfl, hpart _ _ _ hticked⟩

theorem view_fileOp {full : Disk → Disk} {part : Nat → Disk → Disk} {e : Exn}
    (hfull : ∀ w w', SameView dir P w w' →
      SameView dir P { w with disk := full w.disk } { w' with disk := full w'.disk })
    (hpart : ∀ k w w', SameView dir P w w' →
      SameView dir P { w with disk := part k w.disk } { w' with disk := part k w'.disk }) :
    InStep (SameView dir P) (fileOp env full part e) (fileOp env full part e) :=
  view_operation hfull hpart

/-- A save is not seen. -/
theorem view_saveTask : InStep (SameView dir P) (saveTask env t) (saveTask env u) :=
  view_operation (fun _ _ h => ⟨h.tick, h.out, h.parts⟩) fun _ _ _ h => h

theorem view_mergeChunks (hnames : cs'.map (·.tempPath) = cs.map (·.tempPath))
    (hP : ∀ n ∈ cs.map (·.tempPath), SafeName n → P n) (size : Nat) :
    InStep (SameView dir P) (mergeChunks env cs dir target size) (mergeChunks env cs' dir target size) := by
  have hsame : ∀ w w' : World, SameView dir P w w' →
      SameView dir P { w with disk := id w.disk } { w' with disk := id w'.disk } :=
    fun _ _ h => h
  have hmove : ∀ w w', SameView dir P w w' →
      SameView dir P
        { w with disk := (w.disk.setOut target (w.disk.out (tempTarget target))).setOut (tempTarget target) none }
        { w' with
          disk := (w'.disk.setOut target (w'.disk.out (tempTarget target))).setOut (tempTarget target) none } := by
    intro w w' h
    rw [h.out]
    exact (h.setOut _ _).setOut _ _
  unfold mergeChunks assemble moveIntoPlace writeMerged checkMerged ignoringErrors
  refine .bind (.bind (view_fileOp hsame fun _ => hsame) fun _ =>
    .bind (view_fileOp (fun _ _ h => h.setOut _ _) fun _ => hsame) fun _ => .get_bind fun w w' h => ?_) fun _ => ?_
  · rw [h.gathered hnames hP]
    refine .bind (.tryCatch (view_fileOp (fun _ _ h => h.setOut _ _) fun k _ _ h => h.setOut _ _) fun _ => .pure _)
      fun _ => ?_
    split
    · exact .throw _
    · refine .get_bind fun w w' h => ?_
      rw [h.out]
      dsimp only
      split
      · exact .throw _
      · exact .pure _
  · exact .bind (.tryCatch (view_fileOp (fun _ _ h => h.setOut _ _) fun _ => hsame) fun _ => .pure _) fun _ =>
      view_fileOp hmove fun _ => hsame

/-! ## Sessions -/

/-- The status of a session that has not come to its end. -/
def TaskStatus.Unsettled (st : TaskStatus) : Prop := st = .downloading ∨ st = .retrying

/-- Two sessions on one task, in the directory `dir`, whose part files are among those seen. Their
statuses are the same once they are settled. -/
structure Abreast (dir : Path) (P : Path → Prop) (s s' : Session) : Prop where
  view : SameView dir P s.world s'.world
  same : s.task.SameRequest s'.task
  dir : s.task.tempDir = dir
  names : s'.task.chunks.map (·.tempPath) = s.task.chunks.map (·.tempPath)
  known : ∀ n ∈ s.task.chunks.map (·.tempPath), SafeName n → P n
  status : s'.task.status = s.task.status ∨ s.task.status.Unsettled ∧ s'.task.status.Unsettled

namespace Abreast

/-- A change of both tasks that keeps what they have in common. -/
theorem change {f : DownloadTask → DownloadTask} (h : Abreast dir P s s')
    (hf : ∀ u : DownloadTask, u.SameRequest (f u) ∧ (f u).chunks.map (·.tempPath) = u.chunks.map (·.tempPath) ∧
      (f u).status = u.status) :
    Abreast dir P { s with task := f s.task } { s' with task := f s'.task } := by
  obtain ⟨hview, hsame, hdir, hnames, hknown, hstatus⟩ := h
  obtain ⟨hsame₁, hnames₁, hstatus₁⟩ := hf s.task
  obtain ⟨hsame₂, hnames₂, hstatus₂⟩ := hf s'.task
  refine ⟨hview, ?_, hsame₁.2.2.2.1.trans hdir, by rw [hnames₁, hnames₂, hnames], by rw [hnames₁]; exact hknown,
    by rw [hstatus₁, hstatus₂]; exact hstatus⟩
  exact ⟨by rw [hsame₁.1, hsame₂.1, hsame.1], by rw [hsame₁.2.1, hsame₂.2.1, hsame.2.1],
    by rw [hsame₁.2.2.1, hsame₂.2.2.1, hsame.2.2.1], by rw [hsame₁.2.2.2.1, hsame₂.2.2.2.1, hsame.2.2.2.1],
    by rw [hsame₁.2.2.2.2.1, hsame₂.2.2.2.2.1, hsame.2.2.2.2.1], by rw [hsame₁.2.2.2.2.2, hsame₂.2.2.2.2.2,
      hsame.2.2.2.2.2]⟩

theorem record (h : Abreast dir P s s') (e e' : Event) : Abreast dir P (s.record e) (s'.record e') :=
  ⟨⟨h.view.tick, h.view.out, h.view.parts⟩, h.same, h.dir, h.names, h.known, h.status⟩

end Abreast

theorem abreast_onWorld {α : Type} {m m' : Prog World Exn α} (h : InStep (SameView dir P) m m') :
    InStep (Abreast dir P) (onWorld m) (onWorld m') :=
  h.focus (fun _ _ h => h.view) fun _ _ _ _ h hw => ⟨hw, h.same, h.dir, h.names, h.known, h.status⟩

theorem abreast_updateTask {f : DownloadTask → DownloadTask}
    (hf : ∀ u : DownloadTask, u.SameRequest (f u) ∧ (f u).chunks.map (·.tempPath) = u.chunks.map (·.tempPath) ∧
      (f u).status = u.status) :
    InStep (Abreast dir P) (updateTask f) (updateTask f) := .modify fun _ _ h => h.change hf

/-- From an assignment of the status on, both have it. -/
theorem abreast_setStatus (st : TaskStatus) : InStep (Abreast dir P) (setStatus st) (setStatus st) :=
  .modify fun _ _ h => ⟨⟨h.view.tick, h.view.out, h.view.parts⟩, h.same, h.dir, h.names, h.known, .inl rfl⟩

theorem abreast_save : InStep (Abreast dir P) (do let s ← get; onWorld (saveTask env s.task))
    (do let s ← get; onWorld (saveTask env s.task)) :=
  .get_bind fun _ _ _ => abreast_onWorld view_saveTask

theorem abreast_persistTask : InStep (Abreast dir P) (persistTask env) (persistTask env) := by
  unfold persistTask
  exact .bind (abreast_updateTask fun _ => ⟨⟨rfl, rfl, rfl, rfl, rfl, rfl⟩, rfl, rfl⟩) fun _ => abreast_save

theorem abreast_setFailure (st : TaskStatus) (message : Text) :
    InStep (Abreast dir P) (setFailure env st message) (setFailure env st message) := by
  unfold setFailure
  exact (abreast_setStatus st).bind fun _ =>
    .bind (abreast_updateTask fun _ => ⟨⟨rfl, rfl, rfl, rfl, rfl, rfl⟩, rfl, rfl⟩) fun _ => abreast_save

theorem abreast_failWith (e : Exn) : InStep (Abreast dir P) (failWith env e) (failWith env e) := by
  unfold failWith
  split
  · exact abreast_setFailure _ _
  · exact abreast_setFailure _ _

/-! ## A single stream -/

theorem abreast_receiveSingle (hsingle : P singlePart) : ∀ blocks, InStep (Abreast dir P)
    (receiveSingle env (joinPath dir singlePart) blocks) (receiveSingle env (joinPath dir singlePart) blocks)
  | [] => .pure _
  | b :: bs => by
    have happend : ∀ (data : Bytes) (w w' : World), SameView dir P w w' →
        SameView dir P { w with disk := w.disk.appendPart (joinPath dir singlePart) data }
          { w' with disk := w'.disk.appendPart (joinPath dir singlePart) data } := by
      intro data w w' h
      unfold Disk.appendPart
      rw [h.parts _ hsingle]
      exact h.setPart _ _
    unfold receiveSingle
    refine (abreast_onWorld (view_fileOp (happend _) fun _ => happend _)).bind fun _ =>
      .bind (abreast_updateTask fun u => ⟨⟨rfl, rfl, rfl, rfl, rfl, rfl⟩, countSingle_map _ (fun _ _ => rfl) u _, rfl⟩)
        fun _ => ?_
    refine .bind ?_ fun _ => abreast_receiveSingle hsingle bs
    unfold flushTask
    split
    · exact abreast_persistTask
    · exact .pure _

/-- The chunk list that a single stream leaves has the part files it had, if it had any. -/
theorem singleDone_names (h : t.chunks.map (·.tempPath) = u.chunks.map (·.tempPath)) (n : Nat) :
    (singleDone t info n).chunks.map (·.tempPath) = (singleDone u info n).chunks.map (·.tempPath) := by
  cases ht : t.chunks with
  | nil =>
    obtain hu : u.chunks = [] := by simpa [ht] using h.symm
    simp only [singleDone, ht, hu]
  | cons c cs =>
    cases hu : u.chunks with
    | nil => simp [ht, hu] at h
    | cons d ds => simpa [singleDone, ht, hu] using h

theorem singleDone_known (hsingle : P singlePart) (h : ∀ n ∈ t.chunks.map (·.tempPath), SafeName n → P n) (k : Nat) :
    ∀ n ∈ (singleDone t info k).chunks.map (·.tempPath), SafeName n → P n := by
  cases ht : t.chunks with
  | nil =>
    simp only [singleDone, ht]
    split
    · exact fun n hn _ => by rwa [List.mem_singleton.1 hn]
    · simp
  | cons c cs => simpa [singleDone, ht] using h

theorem Abreast.singleDone (h : Abreast dir P s s') (hsingle : P singlePart) (n : Nat) :
    Abreast dir P { s with task := singleDone s.task info n } { s' with task := Cget.singleDone s'.task info n } :=
  ⟨h.view, ⟨h.same.1, h.same.2.1, h.same.2.2.1, h.same.2.2.2.1, rfl, h.same.2.2.2.2.2⟩, h.dir,
    singleDone_names h.names n, singleDone_known hsingle h.known n, h.status⟩

/-- The chunks are replaced in both. -/
theorem Abreast.restart {chunks : List Chunk} (h : Abreast dir P s s')
    (hP : ∀ n ∈ chunks.map (·.tempPath), SafeName n → P n) :
    Abreast dir P { s with task := { s.task with chunks, downloaded := 0 } }
      { s' with task := { s'.task with chunks, downloaded := 0 } } :=
  ⟨h.view, h.same, h.dir, rfl, hP, h.status⟩

theorem abreast_transferSingleStream (hsingle : P singlePart) (info : RemoteFileInfo) :
    InStep (Abreast dir P) (transferSingleStream env info) (transferSingleStream env info) := by
  have hsame : ∀ w w' : World, SameView dir P w w' →
      SameView dir P { w with disk := id w.disk } { w' with disk := id w'.disk } :=
    fun _ _ h => h
  have hchunks : ∀ n ∈ (singleChunks info).map (·.tempPath), SafeName n → P n := by
    unfold singleChunks
    split
    · exact fun n hn _ => by rwa [List.mem_singleton.1 hn]
    · simp
  have htruncate : InStep (SameView dir P) (truncateFile env (joinPath dir singlePart) 0)
      (truncateFile env (joinPath dir singlePart) 0) := by
    unfold truncateFile
    refine .get_bind fun w w' h => ?_
    rw [h.parts _ hsingle]
    split
    · refine view_fileOp (fun w w' h => ?_) fun _ => hsame
      rw [h.parts _ hsingle]
      exact h.setPart _ _
    · exact .pure _
  unfold transferSingleStream
  refine .bind (abreast_onWorld (view_fileOp hsame fun _ => hsame)) fun _ => .get_bind fun s s' h => ?_
  rw [h.same.2.2.2.1, h.dir]
  refine (abreast_onWorld htruncate).bind fun _ => .bind (.modify fun _ _ h => h.restart hchunks) fun _ => ?_
  refine abreast_persistTask.bind fun _ =>
    (abreast_onWorld (view_fileOp (fun _ _ h => h.setPart _ _) fun _ => hsame)).bind fun _ => ?_
  refine .get_bind fun s s' h => ?_
  rw [h.same.2.1]
  refine .bind (.modify fun _ _ h => h.record _ _) fun _ => (abreast_receiveSingle hsingle _).bind fun _ => ?_
  split
  · exact .throw _
  · refine .get_bind fun s s' h => ?_
    rw [h.view.parts _ hsingle]
    dsimp only
    split
    · exact .throw _
    · exact .modify fun _ _ h => h.singleDone hsingle _

/-! ## The merge -/

theorem abreast_verifyChecksum : InStep (Abreast dir P) (verifyChecksum env) (verifyChecksum env) := by
  have hsame : ∀ w w' : World, SameView dir P w w' →
      SameView dir P { w with disk := id w.disk } { w' with disk := id w'.disk } :=
    fun _ _ h => h
  unfold verifyChecksum
  refine .get_bind fun s s' h => ?_
  rw [h.same.2.2.2.2.2, h.same.2.2.1, h.view.out]
  split
  · exact .pure _
  · refine (abreast_onWorld (view_fileOp hsame fun _ => hsame)).bind fun _ => ?_
    split
    · exact .throw _
    · split
      · exact (abreast_setFailure _ _).bind fun _ => .pure _
      · exact .pure _

theorem abreast_mergeAndComplete : InStep (Abreast dir P) (mergeAndComplete env) (mergeAndComplete env) := by
  unfold mergeAndComplete
  refine .get_bind fun s s' h => ?_
  rw [h.same.2.2.1, h.same.2.2.2.1, h.same.2.2.2.2.1, h.dir]
  refine (abreast_onWorld (view_mergeChunks h.names h.known _)).bind fun _ => abreast_verifyChecksum.bind fun ok => ?_
  split
  · refine .bind (abreast_updateTask fun _ => ⟨⟨rfl, rfl, rfl, rfl, rfl, rfl⟩, rfl, rfl⟩) fun _ =>
      (abreast_setStatus _).bind fun _ => ?_
    exact .bind (abreast_updateTask fun _ => ⟨⟨rfl, rfl, rfl, rfl, rfl, rfl⟩, rfl, rfl⟩) fun _ => abreast_persistTask
  · exact .pure _

end Cget
