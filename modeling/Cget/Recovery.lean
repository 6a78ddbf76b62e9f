import Cget.ChunkRule
/-!
# Recovery

`recoverTasks` cuts part files that are longer than their chunk, sets the counters of the
chunks to the sizes it finds, and changes the status of a task that was interrupted. It adds
nothing to a part file, and it decides on Completed from the sizes alone.
-/

namespace Cget

open Prog

variable {env : Env} {t t' : DownloadTask} {w w' : World} {c c' : Chunk} {cs cs' : List Chunk} {p : Path} {n : Nat}

/-! ## Part files that get shorter -/

/-- The part file is cut to a size. -/
def Disk.cut (d : Disk) (p : Path) (size : Nat) : Disk := d.setPart p ((d.parts p).map (·.take size))

/-- The sizes the loop of `repairFromDisk` finds, each after the cuts before it. -/
def partSizes (t : DownloadTask) : Disk → List Chunk → List Nat
  | _, [] => []
  | d, c :: cs => min (fileSize (t.partOn d c)) c.size ::
      partSizes t (match chunkPath t c with | .ok p => d.cut p c.size | .error _ => d) cs

/-- Nothing is written but part files, which only get shorter. -/
structure Trimmed (w w' : World) : Prop where
  tasks : w'.disk.tasks = w.disk.tasks
  out : w'.disk.out = w.disk.out
  log : w'.log = w.log
  parts : ∀ p, (w'.disk.parts p).getD [] <+: (w.disk.parts p).getD []

theorem Trimmed.refl : Trimmed w w := ⟨rfl, rfl, rfl, fun _ => List.prefix_rfl⟩

theorem Trimmed.trans {w'' : World} (h : Trimmed w w') (h' : Trimmed w' w'') : Trimmed w w'' :=
  ⟨h'.tasks.trans h.tasks, h'.out.trans h.out, h'.log.trans h.log, fun p => (h'.parts p).trans (h.parts p)⟩

theorem Trimmed.ticked (h : Trimmed w w') : Trimmed w { w' with tick := n } := ⟨h.tasks, h.out, h.log, h.parts⟩

theorem Trimmed.partOn (h : Trimmed w w') : (t.partOn w'.disk c).getD [] <+: (t.partOn w.disk c).getD [] := by
  unfold DownloadTask.partOn
  cases chunkPath t c with
  | error e => exact List.prefix_rfl
  | ok p => exact h.parts p

theorem Trimmed.cut (h : Trimmed w w') : Trimmed w { w' with disk := w'.disk.cut p n } := by
  refine ⟨h.tasks, h.out, h.log, fun q => ?_⟩
  refine List.IsPrefix.trans ?_ (h.parts q)
  by_cases hq : q = p
  · subst hq
    cases hpart : w'.disk.parts q with
    | none => simp [Disk.cut, hpart]
    | some b => simpa [Disk.cut, hpart] using List.take_prefix n b
  · simp [Disk.cut, hq]

theorem take_fitting {part : Option Bytes} (h : fileSize part ≤ n) : part.map (·.take n) = part := by
  cases part with
  | none => rfl
  | some b => exact congrArg some (List.take_of_length_le h)

theorem cut_whole {d : Disk} (h : fileSize (d.parts p) ≤ n) : d.cut p n = d := by
  rw [Disk.cut, take_fitting h, Disk.setPart, Function.update_eq_self]

theorem fileSize_cut {d : Disk} : fileSize ((d.cut p n).parts p) ≤ n := by
  cases hp : d.parts p <;> simp [Disk.cut, hp]

/-! ## The repair of a task -/

theorem cutPart_wp : wp (cutPart env p n) (fun _ w' => w'.disk = w.disk.cut p n ∧ Trimmed w w')
    (fun _ => Trimmed w) (Trimmed w) w := by
  unfold cutPart truncateFile
  simp only [wp_bind, wp_get, wp_ite, wp_pure]
  split
  · split
    · exact wp_fileOp (fun _ => ⟨rfl, Trimmed.refl.cut.ticked⟩) (fun _ _ => Trimmed.refl.ticked)
        (fun _ _ => Trimmed.refl.ticked)
    · rename_i hlong hnone
      rw [Bool.not_eq_true, Option.isSome_eq_false_iff, Option.isNone_iff_eq_none] at hnone
      simp [hnone] at hlong
  · exact ⟨(cut_whole (not_lt.1 ‹_›)).symm, .refl⟩

/-- Every file operation goes through. -/
def Env.Truncates (env : Env) : Prop := ∀ n, env.fault n = .ok

/-- The program returns, with this. -/
abbrev Returns {α : Type} (m : Prog World Exn α) (Q : α → World → Prop) (w : World) : Prop :=
  wp m Q (fun _ _ => False) (fun _ => False) w

theorem returns_iff {α : Type} {m : Prog World Exn α} {Q : α → World → Prop} :
    Returns m Q w ↔ ∃ a w', m.run w = (.ok a, w') ∧ Q a w' := by
  unfold Returns wp
  rcases m.run w with ⟨_ | _ | _, w'⟩ <;> simp

/-- A cut goes through, or the disk failed. -/
theorem cutPart_cuts :
    wp (cutPart env p n) (fun _ w' => w'.disk = w.disk.cut p n ∧ w'.log = w.log) (fun _ _ => ¬ env.Truncates)
      (fun _ => ¬ env.Truncates) w := by
  unfold cutPart truncateFile
  simp only [wp_bind, wp_get, wp_ite, wp_pure]
  split
  · split
    · refine wp_fileOp (fun _ => ⟨rfl, rfl⟩) (fun k hk hok => ?_) (fun k hk hok => ?_)
      · rw [hok] at hk
        cases hk
      · rw [hok] at hk
        cases hk
    · rename_i hlong hnone
      rw [Bool.not_eq_true, Option.isSome_eq_false_iff, Option.isNone_iff_eq_none] at hnone
      simp [hnone] at hlong
  · exact ⟨(cut_whole (not_lt.1 ‹_›)).symm, trivial⟩

theorem cutPart_returns (henv : env.Truncates) :
    Returns (cutPart env p n) (fun _ w' => w'.disk = w.disk.cut p n ∧ w'.log = w.log) w :=
  wp_mono cutPart_cuts (fun _ _ h => h) (fun _ _ h => h henv) (fun _ h => h henv)

/-- The chunk `c` as the repair leaves it on the disk `d`. -/
def RepairsTo (t : DownloadTask) (d : Disk) (c c' : Chunk) : Prop :=
  ∃ n ≤ c.size, c' = c.repaired n ∧ fileSize (t.partOn d c) ≤ c.size

theorem repairChunks_wp : ∀ (cs : List Chunk) (w : World),
    wp (repairChunks env t cs)
      (fun cs' w' => Trimmed w w' ∧ List.Forall₂ (RepairsTo t w'.disk) cs cs' ∧
        cs'.map (·.downloaded) = partSizes t w.disk cs)
      (fun _ => Trimmed w) (Trimmed w) w
  | [], _ => ⟨.refl, .nil, rfl⟩
  | c :: cs, w => by
    unfold repairChunks
    cases hpath : chunkPath t c with
    | error e => exact .refl
    | ok p =>
      have hpart : ∀ d : Disk, t.partOn d c = d.parts p :=
        fun d => by simp [DownloadTask.partOn, hpath, Except.toOption]
      simp only [wp_bind, wp_get, wp_pure]
      refine wp_mono cutPart_wp ?_ (fun _ _ h => h) (fun _ h => h)
      rintro _ w₁ ⟨hdisk, hw₁⟩
      refine wp_mono (repairChunks_wp cs w₁) ?_ (fun _ _ h => hw₁.trans h) (fun _ h => hw₁.trans h)
      rintro cs' w₂ ⟨hw₂, hall, hsizes⟩
      refine ⟨hw₁.trans hw₂, .cons ⟨_, Nat.min_le_right _ _, rfl, ?_⟩ hall, ?_⟩
      · refine Nat.le_trans (List.IsPrefix.length_le hw₂.partOn) ?_
        rw [hpart, hdisk]
        exact fileSize_cut
      · rw [List.map_cons, hsizes, hdisk, partSizes, hpart, hpath]
        rfl

/-- The status the repair gives a task whose part files have these sizes. -/
def repairedStatus (t : DownloadTask) (sizes : List Nat) : TaskStatus :=
  if repairsStatus t then
    if t.chunks = [] then if t.fileSize = 0 then .paused else .pendingRecovery
    else if sizes.sum = t.fileSize ∧ t.fileSize ≠ 0 then .completed else .paused
  else t.status

/-- What `repairFromDisk` makes of `t`, with the part sizes it found. -/
structure Repaired (t : DownloadTask) (sizes : List Nat) (d : Disk) (t' : DownloadTask) : Prop where
  same : t.SameRequest t'
  metadata : t'.remoteEtag = t.remoteEtag ∧ t'.remoteLastModified = t.remoteLastModified ∧
    t'.requestedThreads = t.requestedThreads ∧ t'.createdAt = t.createdAt
  chunks : List.Forall₂ (RepairsTo t d) t.chunks t'.chunks
  status : t'.status = repairedStatus t sizes

/-- What a repair does not change of a chunk it changes of none. -/
theorem repairs_map {β : Type} {f : Chunk → β} {d : Disk} (hf : ∀ c n, f (Chunk.repaired c n) = f c)
    (h : List.Forall₂ (RepairsTo t d) cs cs') : cs'.map f = cs.map f := by
  induction h with
  | nil => rfl
  | cons hc _ ih =>
    obtain ⟨n, -, rfl, -⟩ := hc
    rw [List.map_cons, List.map_cons, ih, hf]

/-- A repaired chunk is one of before, with a part file that is not too long. -/
theorem repairs_mem {d : Disk} (h : List.Forall₂ (RepairsTo t d) cs cs') (hc : c' ∈ cs') :
    ∃ c ∈ cs, RepairsTo t d c c' := by
  induction h with
  | nil => cases hc
  | cons hcc _ ih =>
    rcases List.mem_cons.1 hc with rfl | hc
    · exact ⟨_, List.mem_cons_self, hcc⟩
    · obtain ⟨c, hc, hrep⟩ := ih hc
      exact ⟨c, List.mem_cons_of_mem _ hc, hrep⟩

theorem repairedStatus_kept (h : repairsStatus t = false) (sizes : List Nat) : repairedStatus t sizes = t.status := by
  rw [repairedStatus, h]
  exact if_neg Bool.false_ne_true

/-- A task that is not at work or about to be is left with its status. -/
theorem repairsStatus_resting (h : unfinishedStatus t.status = false) : repairsStatus t = false := by
  unfold repairsStatus
  split
  · cases hs : t.status <;> simp [hs, unfinishedStatus] at h ⊢
  · exact h

/-- The world once the new status of `t` is set. -/
def World.noted (w : World) (t t' : DownloadTask) : World :=
  if repairsStatus t then w.record (.assigned t.id t'.status) else w

theorem noted_disk : (w.noted t t').disk = w.disk := by
  unfold World.noted
  split <;> rfl

theorem recordRepair_wp {Q : Unit → World → Prop} {E : Exn → World → Prop} {S : World → Prop} :
    wp (recordRepair t t') Q E S w ↔ Q () (w.noted t t') := by
  unfold recordRepair World.noted
  split
  · rw [wp_modify]
  · rfl

theorem repairEmpty_repaired {d : Disk} (h : t.chunks = []) : Repaired t [] d (repairEmpty t) := by
  unfold repairEmpty
  by_cases hst : t.status = .downloading ∨ t.status = .retrying
  · by_cases hsize : t.fileSize = 0
    · simp only [if_pos hst, if_pos hsize]
      exact ⟨.refl, ⟨rfl, rfl, rfl, rfl⟩, by simp [h], by simp [repairedStatus, repairsStatus, h, hst, hsize]⟩
    · simp only [if_pos hst, if_neg hsize]
      exact ⟨.refl, ⟨rfl, rfl, rfl, rfl⟩, by simp [h], by simp [repairedStatus, repairsStatus, h, hst, hsize]⟩
  · simp only [if_neg hst]
    exact ⟨.refl, ⟨rfl, rfl, rfl, rfl⟩, by simp [h], by simp [repairedStatus, repairsStatus, h, hst]⟩

theorem repairWith_repaired {d : Disk} {sizes : List Nat} (h : t.chunks ≠ [])
    (hall : List.Forall₂ (RepairsTo t d) t.chunks cs)
    (hsizes : cs.map (·.downloaded) = sizes) : Repaired t sizes d (repairWith env t cs) := by
  refine ⟨⟨rfl, rfl, rfl, rfl, rfl, rfl⟩, ⟨rfl, rfl, rfl, rfl⟩, hall, ?_⟩
  subst hsizes
  simp only [repairWith, repairedStatus, repairsStatus, if_neg h]

theorem repairFromDisk_wp (t : DownloadTask) (w : World) :
    wp (repairFromDisk env t)
      (fun t' w' => ∃ w₁, Trimmed w w₁ ∧ Repaired t (partSizes t w.disk t.chunks) w₁.disk t' ∧ w' = w₁.noted t t')
      (fun _ => Trimmed w) (Trimmed w) w := by
  unfold repairFromDisk
  split
  · rename_i hnil
    rw [wp_bind, recordRepair_wp, wp_pure]
    refine ⟨w, .refl, ?_, rfl⟩
    rw [hnil]
    exact repairEmpty_repaired hnil
  · rename_i hne
    rw [wp_bind]
    refine wp_mono (repairChunks_wp t.chunks w) ?_ (fun _ _ h => h) (fun _ h => h)
    rintro cs w₁ ⟨hw₁, hall, hsizes⟩
    rw [wp_bind, recordRepair_wp, wp_pure]
    exact ⟨w₁, hw₁, repairWith_repaired hne hall hsizes, rfl⟩

/-! ## The recovery of a store with one task -/

theorem loadAllTasks_single {id : TaskId} {d : Disk} (hmain : (d.tasks id).main.isSome)
    (hload : d.loadTask id = some t) :
    d.loadAllTasks env [id] = [t] := by
  simp [Disk.loadAllTasks, hmain, hload]

theorem recoverTasks_single {id : TaskId} (hmain : (w.disk.tasks id).main.isSome) (hload : w.disk.loadTask id = some t)
    (hst : t.status ≠ .corrupted) {Q : List DownloadTask → World → Prop} {E : Exn → World → Prop} {S : World → Prop} :
    wp (recoverTasks env [id]) Q E S w ↔
      wp (repairFromDisk env t) (fun t' => wp (saveTask env t') (fun _ => Q [t']) E S) E S w := by
  simp only [recoverTasks, wp_bind, wp_get, loadAllTasks_single hmain hload, recoverLoop, if_neg hst, wp_pure]

end Cget
