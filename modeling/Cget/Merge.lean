import Cget.Engine
/-!
# How a merge ends

`mergeChunks` takes five file operations: the directory, the open, the writes, the removal
of the target and the rename. What it leaves depends on how these end and on the part files
alone, which `assembled` and `mergeChunks_wp` say.
-/

namespace Cget

open Prog

variable {env : Env} {w : World} {chunks : List Chunk} {tempDir target : Path} {size : Nat}

/-- Some operation of the commit kills the process. -/
def Env.Crashes (env : Env) : Prop := ∃ f ∈ env.commit.all, ∃ k, f = .crash k

/-- What is written of `bytes` by a write that ends as `f`. -/
def Fault.cut (bytes : Bytes) : Fault → Option Bytes
  | .ok => some bytes
  | .fail k => some (bytes.take k)
  | .crash _ => none

/-- The temp file `assemble` makes, if it gets through. -/
def assembled (env : Env) (d : Disk) (chunks : List Chunk) (tempDir : Path) (size : Nat) : Option Bytes :=
  if env.commit.directory = .ok ∧ env.commit.openTemp = .ok ∧ (gatherParts d tempDir chunks).2 = none then
    (env.commit.write.cut (gatherParts d tempDir chunks).1).filter (fun b => b.length = size)
  else none

theorem Fault.cut_prefix {f : Fault} {bytes b : Bytes} (h : f.cut bytes = some b) : b <+: bytes := by
  cases f with
  | ok => cases h; exact List.prefix_rfl
  | fail k => cases h; exact List.take_prefix _ _
  | crash k => cases h

theorem assembled_some {d : Disk} {b : Bytes} (h : assembled env d chunks tempDir size = some b) :
    b.length = size ∧ (gatherParts d tempDir chunks).2 = none ∧ b <+: (gatherParts d tempDir chunks).1 := by
  unfold assembled at h
  split at h
  · rename_i hg
    obtain ⟨hcut, hlen⟩ := Option.filter_eq_some_iff.1 h
    exact ⟨by simpa using hlen, hg.2.2, Fault.cut_prefix hcut⟩
  · cases h

theorem assembled_written {d : Disk} {b : Bytes} (h0 : env.commit.directory = .ok) (h1 : env.commit.openTemp = .ok)
    (h2 : env.commit.write.cut (gatherParts d tempDir chunks).1 = some b) :
    assembled env d chunks tempDir size =
      if (gatherParts d tempDir chunks).2 = none ∧ b.length = size then some b else none := by
  simp only [assembled, h0, h1, h2, true_and, Option.filter_some, decide_eq_true_eq]
  split_ifs <;> simp_all

/-- Only the temp file of `target` differs. -/
structure OnlyTemp (target : Path) (w w' : World) : Prop where
  tasks : w'.disk.tasks = w.disk.tasks
  parts : w'.disk.parts = w.disk.parts
  log : w'.log = w.log
  out : ∀ p, ¬ OneFile p (tempTarget target) → w'.disk.out p = w.disk.out p
  coherent : w.disk.Coherent → w'.disk.Coherent

theorem OnlyTemp.refl : OnlyTemp target w w := ⟨rfl, rfl, rfl, fun _ _ => rfl, id⟩

theorem OnlyTemp.ticked {w' : World} {n : Nat} (h : OnlyTemp target w w') : OnlyTemp target w { w' with tick := n } :=
  ⟨h.tasks, h.parts, h.log, h.out, h.coherent⟩

theorem OnlyTemp.setOut {w' : World} {b : Option Bytes} {n : Nat} (h : OnlyTemp target w w') :
    OnlyTemp target w { w' with disk := w'.disk.setOut (tempTarget target) b, tick := n } :=
  ⟨h.tasks, h.parts, h.log, fun p hp => by simp [hp, h.out p hp], fun hw => (h.coherent hw).setOut _ b⟩

theorem checkMerged_wp {stopped : Option Exn} {b : Bytes} (hb : w.disk.out (tempTarget target) = some b) :
    wp (checkMerged target stopped size) (fun _ w' => w' = w ∧ stopped = none ∧ b.length = size)
      (fun _ w' => w' = w ∧ ¬ (stopped = none ∧ b.length = size)) (fun _ => False) w := by
  unfold checkMerged
  cases stopped with
  | some e =>
    rw [wp_throw]
    exact ⟨rfl, by simp⟩
  | none =>
    simp only [wp_bind, wp_get, hb, fileSize_some]
    split
    · exact ⟨rfl, by simpa using ‹_›⟩
    · exact ⟨rfl, trivial, not_not.1 ‹_›⟩

theorem assemble_wp :
    wp (assemble env chunks tempDir target size)
      (fun _ w' => OnlyTemp target w w' ∧ ∃ b, assembled env w.disk chunks tempDir size = some b ∧
        w'.disk.out (tempTarget target) = some b)
      (fun _ w' => OnlyTemp target w w' ∧ assembled env w.disk chunks tempDir size = none)
      (fun w' => OnlyTemp target w w' ∧ env.Crashes) w := by
  unfold assemble
  simp only [wp_bind, wp_get, writeMerged, ignoringErrors, wp_tryCatch, wp_pure]
  refine wp_fileOp (fun h0 => ?_) (fun k h0 => ⟨OnlyTemp.refl.ticked, ?_⟩)
    (fun k h0 => ⟨OnlyTemp.refl.ticked, _, by simp [CommitFaults.all], _, h0⟩)
  · refine wp_fileOp (fun h1 => ?_) (fun k h1 => ⟨OnlyTemp.refl.ticked, ?_⟩)
      (fun k h1 => ⟨OnlyTemp.refl.ticked, _, by simp [CommitFaults.all], _, h1⟩)
    · -- what is in the temp file after the writes, however they went
      have hcheck : ∀ (w' : World) (b : Bytes), OnlyTemp target w w' → w'.disk.out (tempTarget target) = some b →
          env.commit.write.cut (gatherParts w.disk tempDir chunks).1 = some b →
          wp (checkMerged target (gatherParts w.disk tempDir chunks).2 size)
            (fun _ w' => OnlyTemp target w w' ∧ ∃ b, assembled env w.disk chunks tempDir size = some b ∧
              w'.disk.out (tempTarget target) = some b)
            (fun _ w' => OnlyTemp target w w' ∧ assembled env w.disk chunks tempDir size = none)
            (fun w' => OnlyTemp target w w' ∧ env.Crashes) w' := by
        intro w' b hw hb hcut
        have has : assembled env w.disk chunks tempDir size = _ := assembled_written h0 h1 hcut
        refine wp_mono (checkMerged_wp hb) ?_ ?_ (fun _ h => h.elim)
        · rintro _ _ ⟨rfl, hs, hl⟩
          exact ⟨hw, b, by rw [has, if_pos ⟨hs, hl⟩], hb⟩
        · rintro _ _ ⟨rfl, hn⟩
          exact ⟨hw, by rw [has, if_neg hn]⟩
      have hparts : gatherParts ((id w.disk).setOut (tempTarget target) (some [])) tempDir chunks =
          gatherParts w.disk tempDir chunks :=
        gatherParts_congr (show ((id w.disk).setOut (tempTarget target) (some [])).parts = w.disk.parts from rfl) _ _
      have hopen : OnlyTemp target w
          { disk := w.disk.setOut (tempTarget target) (some []), tick := w.tick + 1 + 1, log := w.log } :=
        OnlyTemp.refl.setOut
      simp only [hparts]
      refine wp_fileOp (fun h2 => ?_) (fun k h2 => ?_)
        (fun k h2 => ⟨hopen.setOut, _, by simp [CommitFaults.all], _, h2⟩)
      · exact hcheck _ (gatherParts w.disk tempDir chunks).1 hopen.setOut (by simp)
          (by rw [show env.commit.write = .ok from h2]; rfl)
      · exact hcheck _ ((gatherParts w.disk tempDir chunks).1.take k) hopen.setOut (by simp)
          (by rw [show env.commit.write = .fail k from h2]; rfl)
    · have hopen : env.commit.openTemp ≠ .ok := by rw [show env.commit.openTemp = .fail k from h1]; simp
      exact if_neg fun h => hopen h.2.1
  · have hdir : env.commit.directory ≠ .ok := by rw [show env.commit.directory = .fail k from h0]; simp
    exact if_neg fun h => hdir h.1

/-- Only `target` and its temp file differ. -/
structure OnlyTarget (target : Path) (w w' : World) : Prop where
  tasks : w'.disk.tasks = w.disk.tasks
  parts : w'.disk.parts = w.disk.parts
  log : w'.log = w.log
  out : ∀ p, ¬ OneFile p target → ¬ OneFile p (tempTarget target) → w'.disk.out p = w.disk.out p
  coherent : w.disk.Coherent → w'.disk.Coherent

theorem OnlyTemp.onlyTarget {w' : World} (h : OnlyTemp target w w') : OnlyTarget target w w' :=
  ⟨h.tasks, h.parts, h.log, fun p _ hp => h.out p hp, h.coherent⟩

theorem OnlyTarget.ticked {w' : World} {n : Nat} (h : OnlyTarget target w w') :
    OnlyTarget target w { w' with tick := n } :=
  ⟨h.tasks, h.parts, h.log, h.out, h.coherent⟩

theorem OnlyTarget.setTarget {w' : World} {b : Option Bytes} {n : Nat} (h : OnlyTarget target w w') :
    OnlyTarget target w { w' with disk := w'.disk.setOut target b, tick := n } :=
  ⟨h.tasks, h.parts, h.log, fun p hp hp' => by simp [hp, h.out p hp hp'], fun hw => (h.coherent hw).setOut _ b⟩

theorem OnlyTarget.setTemp {w' : World} {b : Option Bytes} {n : Nat} (h : OnlyTarget target w w') :
    OnlyTarget target w { w' with disk := w'.disk.setOut (tempTarget target) b, tick := n } :=
  ⟨h.tasks, h.parts, h.log, fun p hp hp' => by simp [hp', h.out p hp hp'], fun hw => (h.coherent hw).setOut _ b⟩

/-- What is at the target if the rename does not take place. -/
def Env.unmoved (env : Env) (old : Option Bytes) : Option Bytes := if env.commit.remove = .ok then none else old

theorem moveIntoPlace_wp {b : Bytes} (hb : w.disk.out (tempTarget target) = some b) :
    wp (moveIntoPlace env target)
      (fun _ w' => OnlyTarget target w w' ∧ env.commit.rename = .ok ∧ w'.disk.out target = some b)
      (fun _ w' => OnlyTarget target w w' ∧ env.commit.rename ≠ .ok ∧
        w'.disk.out target = env.unmoved (w.disk.out target))
      (fun w' => OnlyTarget target w w' ∧ env.Crashes) w := by
  have hself : OnlyTarget target w w := OnlyTemp.refl.onlyTarget
  have hcomm : ¬ OneFile target (tempTarget target) := fun h => tempTarget_apart target h.symm
  have hrename : ∀ w' : World, OnlyTarget target w w' → w'.disk.out (tempTarget target) = some b →
      w'.disk.out target = env.unmoved (w.disk.out target) →
      wp (fileOp (env.ending env.commit.rename)
          (fun d => (d.setOut target (d.out (tempTarget target))).setOut (tempTarget target) none)
          (fun _ d => d) (.cget .fileSystemError (text "failed to move merged file into place")))
        (fun _ w' => OnlyTarget target w w' ∧ env.commit.rename = .ok ∧ w'.disk.out target = some b)
        (fun _ w' => OnlyTarget target w w' ∧ env.commit.rename ≠ .ok ∧
          w'.disk.out target = env.unmoved (w.disk.out target))
        (fun w' => OnlyTarget target w w' ∧ env.Crashes) w' := by
    intro w' hw hb' hout
    refine wp_fileOp (fun h => ⟨(hw.setTarget (n := w'.tick + 1)).setTemp, h, ?_⟩) (fun k h => ⟨hw.ticked, ?_, hout⟩)
      (fun k h => ⟨hw.ticked, _, by simp [CommitFaults.all], _, h⟩)
    · simp [hb', hcomm]
    · rw [show env.commit.rename = .fail k from h]
      simp
  unfold moveIntoPlace
  simp only [wp_bind, ignoringErrors, wp_tryCatch, wp_pure]
  refine wp_fileOp (fun h => ?_) (fun k h => ?_) (fun k h => ⟨hself.ticked, _, by simp [CommitFaults.all], _, h⟩)
  · refine hrename _ hself.setTarget (by simp [tempTarget_apart, hb]) ?_
    simp [Env.unmoved, show env.commit.remove = .ok from h]
  · refine hrename _ hself.ticked hb ?_
    simp [Env.unmoved, show env.commit.remove = .fail k from h]

/-- Each way `mergeChunks` can end, and what is at the target then. -/
theorem mergeChunks_wp :
    wp (mergeChunks env chunks tempDir target size)
      (fun _ w' => OnlyTarget target w w' ∧ env.commit.rename = .ok ∧
        ∃ b, assembled env w.disk chunks tempDir size = some b ∧ w'.disk.out target = some b)
      (fun _ w' => OnlyTarget target w w' ∧
        (assembled env w.disk chunks tempDir size = none ∧ w'.disk.out target = w.disk.out target ∨
          (∃ b, assembled env w.disk chunks tempDir size = some b) ∧ env.commit.rename ≠ .ok ∧
            w'.disk.out target = env.unmoved (w.disk.out target)))
      (fun w' => OnlyTarget target w w' ∧ env.Crashes) w := by
  have htrans : ∀ {w' w'' : World}, OnlyTemp target w w' → OnlyTarget target w' w'' → OnlyTarget target w w'' :=
    fun h h' => ⟨h'.tasks.trans h.tasks, h'.parts.trans h.parts, h'.log.trans h.log,
      fun p hp hp' => (h'.out p hp hp').trans (h.out p hp'), fun hw => h'.coherent (h.coherent hw)⟩
  have htarget : ∀ {w' : World}, OnlyTemp target w w' → w'.disk.out target = w.disk.out target :=
    fun h => h.out target fun h => tempTarget_apart target h.symm
  unfold mergeChunks
  rw [wp_bind]
  refine wp_mono assemble_wp ?_ (fun _ w' h => ⟨h.1.onlyTarget, .inl ⟨h.2, htarget h.1⟩⟩)
    (fun w' h => ⟨h.1.onlyTarget, h.2⟩)
  rintro _ w' ⟨hw, b, has, hb⟩
  refine wp_mono (moveIntoPlace_wp hb) ?_ ?_ (fun _ h => ⟨htrans hw h.1, h.2⟩)
  · rintro _ w'' ⟨hw', hf, hout⟩
    exact ⟨htrans hw hw', hf, b, has, hout⟩
  · rintro _ w'' ⟨hw', hf, hout⟩
    exact ⟨htrans hw hw', .inr ⟨⟨b, has⟩, hf, by rw [hout, htarget hw]⟩⟩

end Cget
