import Cget.Salvage
/-!
# When the queue settles

A call of `runQueuedTasks` ends well if no merge comes to throw and no task without chunks
is still to be downloaded when a worker fails. Both can be told from what the tasks are,
what the servers answer and which operations of the commit go through: a merge of
`finalizePreparedTask` finds the part files that the workers completed, and only certain
tasks come to it.
-/

namespace Cget

open Prog SchedState
open PersistenceStore (taskToJson taskFromJson_reread)

variable {env : Env} {envs : TaskId → Env} {t u p q : DownloadTask} {d d' : Disk} {w w' : World}
  {ts : List DownloadTask} {s : Session} {c : Chunk} {part : Option Bytes}

/-! ## Part files of complete chunks -/

/-- A chunk that is complete has its bytes. -/
def Backs (part : Option Bytes) (c : Chunk) : Prop :=
  c.status = .completed → c.downloaded = c.size → fileSize part = c.size

/-- A worker here has not completed its chunk, and may have bytes to write. -/
def WorkerPc.unsettled : WorkerPc → Bool
  | .storing _ | .caught _ _ | .returned | .threw _ => false
  | _ => true

theorem backs_of_incomplete (h : c.status ≠ .completed) : Backs part c := fun hst => absurd hst h

/-- A move that leaves an incomplete chunk incomplete. -/
theorem backs_still {m : WorkerMove} (hst : c.status ≠ .completed) (hsame : m.chunk.status = c.status) :
    Backs part m.chunk ∧ (m.next.unsettled → m.chunk.status ≠ .completed) := by
  rw [← hsame] at hst
  exact ⟨backs_of_incomplete hst, fun _ => hst⟩

/-- A worker completes a chunk when its bytes are there, and writes none after that. -/
theorem workerMove_backs {url : Text} {path : Except Exn Path} {f g : Fault} {pc : WorkerPc} (h : Backs part c)
    (hpc : pc.unsettled → c.status ≠ .completed) :
    Backs ((workerMove env url path f g c part pc).file path part) (workerMove env url path f g c part pc).chunk ∧
      ((workerMove env url path f g c part pc).next.unsettled →
        (workerMove env url path f g c part pc).chunk.status ≠ .completed) := by
  cases pc with
  | attempt n =>
    cases path with
    | error e => exact ⟨h, fun hx => by cases hx⟩
    | ok p =>
      simp only [workerMove]
      split
      · rename_i hlong
        cases f with
        | ok =>
          refine ⟨fun _ _ => ?_, fun hx => by cases hx⟩
          cases part with
          | none => cases hlong
          | some b => exact (List.length_take_of_le hlong.le : (b.take c.size).length = c.size)
        | fail k => exact ⟨h, fun hx => by cases hx⟩
        | crash k => exact ⟨h, fun _ => hpc rfl⟩
      · split
        · exact ⟨fun _ _ => Nat.le_antisymm (Nat.not_lt.1 ‹_›) ‹_›, fun hx => by cases hx⟩
        · exact ⟨backs_of_incomplete (hpc rfl), fun _ => hpc rfl⟩
  | opening n start => exact backs_still (hpc rfl) (by cases f <;> rfl)
  | starting n start => exact ⟨backs_of_incomplete (by simp [workerMove]), fun _ => by simp [workerMove]⟩
  | announcing n start => exact backs_still (hpc rfl) (by cases g <;> rfl)
  | requesting n start => exact backs_still (hpc rfl) rfl
  | receiving n blocks result =>
    refine backs_still (hpc rfl) ?_
    cases blocks with
    | nil => cases result <;> rfl
    | cons b bs => cases f <;> rfl
  | flushing n blocks result => exact backs_still (hpc rfl) (by cases g <;> rfl)
  | closing n =>
    simp only [workerMove]
    split
    · exact ⟨backs_of_incomplete (hpc rfl), fun hx => by cases hx⟩
    · rename_i hsize
      refine ⟨fun _ _ => ?_, fun hx => by cases hx⟩
      cases path <;> exact not_not.1 hsize
  | storing n => cases g <;> cases path <;> exact ⟨h, fun hx => by cases hx⟩
  | caught n e =>
    cases e with
    | other what => cases path <;> exact ⟨h, fun hx => by cases hx⟩
    | cget code what =>
      simp only [workerMove]
      split
      · exact ⟨backs_of_incomplete (by simp), fun hx => by cases hx⟩
      · exact ⟨backs_of_incomplete (by simp), fun _ => by simp⟩
  | recording n => exact backs_still (hpc rfl) (by cases g <;> rfl)
  | sleeping n => exact backs_still (hpc rfl) rfl
  | returned => cases path <;> exact ⟨h, fun hx => by cases hx⟩
  | threw e => cases path <;> exact ⟨h, fun hx => by cases hx⟩

/-- Complete chunks have their bytes, with whatever worker on them. -/
def backedRule (envs : TaskId → Env) : ChunkRule envs where
  sees := True
  fails := True
  idle _ _ c part := Backs part c
  busy _ _ c part pc := Backs part c ∧ (pc.unsettled → c.status ≠ .completed)
  idle_frame _ hp h := by rw [hp trivial]; exact h
  busy_frame _ hp h := by rw [hp trivial]; exact h
  start h hst _ := ⟨⟨h, fun _ => hst⟩, backs_of_incomplete (by simp), fun _ => by simp⟩
  move _ h _ := workerMove_backs h.1 h.2
  finish h := h.1
  fail _ _ _ _ _ _ h := ⟨h.1, backs_of_incomplete (by simp)⟩

theorem backed_of_holds (h : (backedRule envs).Holds t d) : t.Backed d := by
  intro c hc
  obtain ⟨j, hj⟩ := List.getElem?_of_mem hc
  rcases h j c hj with h | ⟨pc, h⟩
  · exact h
  · exact h.1

/-! ## Merges -/

/-- The operations of the merge that are not ignored go through, and the open for the digest. -/
structure DownloadTask.Mergeable (env : Env) (t : DownloadTask) : Prop where
  directory : env.commit.directory = .ok
  openTemp : env.commit.openTemp = .ok
  write : env.commit.write = .ok
  rename : env.commit.rename = .ok
  hashable : t.hashable env

/-- The part files of a task that is complete are all its bytes. -/
theorem gathers_backed (hlaid : t.Laid) (hchunks : t.chunks ≠ []) (hbacked : t.Backed d) (hall : allComplete t.chunks) :
    ∃ b, gatherParts d t.tempDir t.chunks = (b, none) ∧ b.length = t.fileSize := by
  have htiles := (hlaid.resolve_left hchunks).1
  have hfull : ∀ c ∈ t.chunks, fileSize (t.partOn d c) = c.size := by
    intro c hc
    have hcomplete := List.all_eq_true.1 hall c hc
    simp only [Bool.and_eq_true, decide_eq_true_eq] at hcomplete
    exact hbacked c hc hcomplete.1 hcomplete.2
  have hthere : ∀ c ∈ t.chunks, (t.partOn d c).isSome := by
    intro c hc
    have hpos : 0 < c.size := Chunk.size_pos (htiles.mem.2 c hc).2.1
    have hfile := hfull c hc
    cases hpart : t.partOn d c with
    | none =>
      rw [hpart, fileSize_none] at hfile
      omega
    | some b => rfl
  refine ⟨_, gatherParts_flatMap hthere, ?_⟩
  have hsum : (t.chunks.map (·.size)).sum = t.fileSize := by simpa using htiles.sum_size
  rw [List.length_flatMap, ← hsum]
  exact congrArg List.sum (List.map_congr_left fun c hc => hfull c hc)

theorem DownloadTask.Mergeable.merges (h : t.Mergeable env) (hlaid : t.Laid) (hchunks : t.chunks ≠ [])
    (hbacked : t.Backed w.disk) (hall : allComplete t.chunks) : Merges env { world := w, task := t } := by
  obtain ⟨b, hgather, hlength⟩ := gathers_backed hlaid hchunks hbacked hall
  refine ⟨⟨?_, h.rename⟩, h.hashable⟩
  dsimp only
  have hwritten : env.commit.write.cut (gatherParts w.disk t.tempDir t.chunks).1 = some b := by
    rw [h.write, hgather]; rfl
  rw [assembled_written h.directory h.openTemp hwritten, hgather, if_pos ⟨rfl, hlength⟩]
  exact Option.some_ne_none b

theorem SameUnder.backed (h : SameUnder t d d') (hbacked : t.Backed d) : t.Backed d' := by
  intro c hc
  rw [h.partOn c]
  exact hbacked c hc

/-- No merge throws if each goes through with the part files of its task as they were. -/
theorem unbroken_of : ∀ (ts : List DownloadTask) (w : World), (ts.map (·.id)).Nodup → AllDirsApart ts →
    (∀ t ∈ ts, t.Laid) →
    (∀ t ∈ ts, ∀ w' : World, SameUnder t w.disk w'.disk → FinishesMerge (envs t.id) w' t) → Unbroken envs ts w
  | [], _, _, _, _, _ => trivial
  | t :: ts, w, hids, hdirs, hlaid, hmerge => by
    rw [List.map_cons, List.nodup_cons] at hids
    refine ⟨hmerge t List.mem_cons_self w fun _ _ => rfl, fun t' w₁ hrun => ?_⟩
    refine unbroken_of ts w₁ hids.2 (fun u hu v hv => hdirs u (List.mem_cons_of_mem _ hu) v (List.mem_cons_of_mem _ hv))
      (fun u hu => hlaid u (List.mem_cons_of_mem _ hu)) fun u hu w' hw' => ?_
    have hne : t.id ≠ u.id := fun heq => hids.1 (heq ▸ List.mem_map_of_mem hu)
    refine hmerge u (List.mem_cons_of_mem _ hu) w' (SameUnder.trans (fun n hn => ?_) hw')
    have hkept : Keeps (fun w' : World => w'.disk.parts (joinPath u.tempDir n) = w.disk.parts (joinPath u.tempDir n))
        (finishTask envs t) :=
      keeps_parts (hdirs u (List.mem_cons_of_mem _ hu) t List.mem_cons_self hne).symm hne
        (hlaid t List.mem_cons_self) hn
    have hend := hkept w rfl
    rw [wp_of_ok hrun] at hend
    exact hend

/-! ## What comes to the merge -/

/-- `prepareTask` leaves the task Downloading, without chunks. -/
def DownloadTask.Unchunked (env : Env) (t : DownloadTask) : Prop :=
  (preparation env t).1 = .downloading ∧ (preparation env t).2.chunks = []

/-- The task can come to its merge in `finalizePreparedTask`: it has chunks, and is Downloading or
has a chunk to start. -/
def DownloadTask.Due (env : Env) (t : DownloadTask) : Prop :=
  (preparation env t).2.chunks ≠ [] ∧
    ((preparation env t).1 = .downloading ∨
      hasSchedulableChunk { (preparation env t).2 with status := (preparation env t).1 })

/-- A chunk of the task fails for good once it is started, where recovery has seen to the disk. -/
def DownloadTask.Stuck (env : Env) (d : Disk) (t : DownloadTask) : Prop :=
  isSchedulableStatus (preparation env t).1 ∧ Doomed env (t.cutParts d t.chunks) (preparation env t).2

/-- What `prepareTask` makes of `t`, unless its directory cannot be made. -/
def PreparedAs (env : Env) (t p : DownloadTask) : Prop :=
  ((preparation env t).2.SamePlan p ∧ p.status = (preparation env t).1) ∨
    (∃ n k, env.fault n = .fail k) ∧ (preparation env t).1 = .downloading ∧ p.chunks = t.chunks ∧ p.status = .failed

/-- Nothing is said of the store. -/
theorem job_rule {P : DownloadTask → Prop} (horigin : ∀ t t' : DownloadTask, t.SameOrigin t' → P t → P t') :
    JobRule (fun _ => True) P where
  origin := horigin
  tick _ _ _ := trivial
  parts _ _ _ := trivial
  logged _ _ _ _ := trivial
  saved _ _ _ _ _ := trivial
  out _ _ _ _ _ _ := trivial

theorem prepareAll_prepares : ∀ (ts : List DownloadTask) (w : World),
    (∀ t ∈ ts, t.Laid ∧ (envs t.id).engine = .ok () ∧ (envs t.id).Persists) →
    wp (prepareAll envs ts)
      (fun ps w' => List.Forall₂ (fun t p => PreparedAs (envs t.id) t p ∧ t.SameOrigin p ∧ p.Laid) ts ps ∧
        w'.disk.parts = w.disk.parts)
      (fun _ _ => False) (fun _ => True) w
  | [], _, _ => ⟨.nil, rfl⟩
  | t :: ts, w, h => by
    obtain ⟨hlaid, hengine, hp⟩ := h t List.mem_cons_self
    have hjob : JobRule (fun _ => True) (fun u => t.SameOrigin u) := job_rule fun _ _ h h' => h'.trans h
    have hheld : Keeps (Held (fun _ => True) (fun u => t.SameOrigin u) AnyShape) (prepareTask (envs t.id)) :=
      held_prepareTask hjob
    unfold prepareAll
    rw [wp_bind, wp_onTask, withEngine_created hengine]
    refine wp_mono (wp_and (prepareTask_saved hp .refl)
      (hheld _ ⟨trivial, ⟨rfl, rfl, rfl, rfl, rfl⟩, hlaid, trivial⟩)) ?_ (fun _ _ h => h.1)
      (fun _ _ => trivial)
    rintro _ s ⟨hs, hsession⟩
    rw [wp_bind]
    refine wp_mono (prepareAll_prepares ts s.world fun u hu => h u (List.mem_cons_of_mem _ hu)) ?_ (fun _ _ h => h)
      (fun _ h => h)
    rintro ps w' ⟨hps, hparts⟩
    rcases hs with ⟨hpoised, hst⟩ | ⟨hfault, hprep, hchunks, hst, hsame⟩
    · exact ⟨.cons ⟨.inl ⟨hpoised.plan, hst⟩, hsession.job, hsession.laid⟩ hps, hparts.trans hpoised.parts⟩
    · exact ⟨.cons ⟨.inr ⟨hfault, hprep, hchunks, hst⟩, hsession.job, hsession.laid⟩ hps, hparts.trans hsame⟩

/-- The chunks a task is prepared with are its own, or new ones. -/
theorem preparation_chunks (env : Env) (t : DownloadTask) : (preparation env t).2.chunks = t.chunks ∨
    t.chunks = [] ∧ ∀ c ∈ (preparation env t).2.chunks, c.status ≠ .completed := by
  unfold preparation
  split
  · exact .inl rfl
  · split
    · exact .inl rfl
    · dsimp only
      split
      · simp only [plannedTask, planRange]
        split
        · rename_i hnone
          refine .inr ⟨hnone, fun c hc => ?_⟩
          rw [(ChunkPlanner.plan_fresh _ _ _ c hc).2.1]
          decide
        · exact .inl rfl
      · exact .inl rfl

theorem preparation_status : (preparation env t).1 = .downloading ∨ Failing (preparation env t).1 := by
  unfold preparation
  split
  · rename_i e _
    right
    unfold failureStatus
    split
    · exact .inr rfl
    · exact .inl rfl
  · split
    · exact .inr (.inr rfl)
    · exact .inl rfl

namespace PreparedAs

theorem status (h : PreparedAs env t p) : p.status = .downloading ∨ Failing p.status := by
  rcases h with ⟨-, hst⟩ | ⟨-, -, -, hst⟩
  · rw [hst]
    exact preparation_status
  · exact .inr (.inl hst)

theorem backed (h : PreparedAs env t p) (hdir : p.tempDir = t.tempDir) (hbacked : t.Backed d) : p.Backed d := by
  intro c hc
  rw [partOn_dir hdir]
  have hown : p.chunks = t.chunks →
      (c.status = .completed → c.downloaded = c.size → fileSize (t.partOn d c) = c.size) :=
    fun heq => hbacked c (heq ▸ hc)
  rcases h with ⟨hplan, -⟩ | ⟨-, -, heq, -⟩
  · rcases preparation_chunks env t with heq | ⟨-, hnew⟩
    · exact hown (hplan.chunks.trans heq)
    · exact fun hst => absurd hst (hnew c (hplan.chunks ▸ hc))
  · exact hown heq

theorem due (h : PreparedAs env t p) (hchunks : p.chunks ≠ []) (hst : p.status = .downloading ∨ hasSchedulableChunk p) :
    t.Due env := by
  rcases h with ⟨hplan, heq⟩ | ⟨-, hprep, heq, -⟩
  · rw [hasSchedulableChunk, hplan.chunks, heq] at hst
    exact ⟨hplan.chunks ▸ hchunks, hst⟩
  · refine ⟨?_, .inl hprep⟩
    rcases preparation_chunks env t with hown | ⟨hnone, -⟩
    · rw [hown, ← heq]
      exact hchunks
    · exact absurd (heq.trans hnone) hchunks

theorem unchunked (h : PreparedAs env t p) (hst : p.status = .downloading) (hchunks : p.chunks = []) :
    t.Unchunked env := by
  rcases h with ⟨hplan, heq⟩ | ⟨-, -, -, heq⟩
  · exact ⟨heq.symm.trans hst, hplan.chunks.symm.trans hchunks⟩
  · rw [heq] at hst
    cases hst

/-- Where nothing fails the chunks of `p` are stuck if those of `t` are. -/
theorem stuck_iff {d₁ : Disk} (h : PreparedAs env t p) (hsmooth : env.Smooth) (hdir : p.tempDir = t.tempDir)
    (hfiles : SameUnder t (t.cutParts d t.chunks) d₁) :
    isSchedulableStatus p.status ∧ Doomed env d₁ p ↔ t.Stuck env d := by
  rcases h with ⟨hplan, hst⟩ | ⟨⟨n, k, hfault⟩, -⟩
  · have hfate : ∀ c, chunkFate env p d₁ c = chunkFate env (preparation env t).2 (t.cutParts d t.chunks) c := by
      intro c
      refine chunkFate_partOn hplan.same ?_
      rw [partOn_dir hdir, hfiles.partOn c]
      exact (partOn_dir (hplan.same.2.2.2.1.symm.trans hdir)).symm
    simp only [DownloadTask.Stuck, Doomed, hplan.chunks, hst, hfate]
  · rw [(hsmooth n).1] at hfault
    cases hfault

end PreparedAs

theorem prepared_ids {ps : List DownloadTask}
    (h : List.Forall₂ (fun t p => PreparedAs (envs t.id) t p ∧ t.SameOrigin p ∧ p.Laid) ts ps) :
    ps.map (·.id) = ts.map (·.id) := by
  induction h with
  | nil => rfl
  | cons h _ ih => rw [List.map_cons, List.map_cons, h.2.1.1, ih]

/-! ## The scheduler -/

/-- No operation of `prepareTask` or of a worker fails, and no chunk is started twice. -/
def QueueRun.Steady (r : QueueRun) (ts : List DownloadTask) (w : World) : Prop :=
  (∀ t ∈ ts, (r.prepare t.id).Smooth) ∧ r.StartsOnce ts w

/-- The scheduler has run on the tasks `ps`, which `prepareTask` made of `ts` of the world `w`. -/
structure Ran (r : QueueRun) (w : World) (ts ps : List DownloadTask) (d : Disk) (s : SchedState WorkerPc) : Prop where
  prepares : List.Forall₂ (fun t p => PreparedAs (r.prepare t.id) t p ∧ t.SameOrigin p ∧ p.Laid) ts ps
  spectated : Spectated ps s
  jobs : ∀ q ∈ s.tasks, q.Laid ∧ ∃ t ∈ ts, t.SameOrigin q
  statuses : ∀ q ∈ s.tasks, Prepared q.status
  backed : ∀ q ∈ s.tasks, q.Backed s.world.disk
  returned : r.Steady ts w → Returned r.prepare d ps s

namespace Ran

variable {r : QueueRun} {l ps : List DownloadTask} {sc : SchedState WorkerPc}

theorem ids (h : Ran r w l ps d sc) : ps.map (·.id) = l.map (·.id) := prepared_ids h.prepares

/-- A prepared task with what it was. -/
theorem source (h : Ran r w l ps d sc) {i : Nat} (hp : ps[i]? = some p) :
    ∃ t ∈ l, PreparedAs (r.prepare t.id) t p ∧ t.SameOrigin p := by
  obtain ⟨t, ht⟩ := getElem?_of_length h.prepares.length_eq hp
  have hrelated := related_at h.prepares ht hp
  exact ⟨t, List.mem_of_getElem? ht, hrelated.1, hrelated.2.1⟩

/-- A task there is now with what it was. -/
theorem at_task (h : Ran r w l ps d sc) (hids : (l.map (·.id)).Nodup) (hq : q ∈ sc.tasks) :
    ∃ t ∈ l, ∃ (i : Nat) (p : DownloadTask), ps[i]? = some p ∧ sc.tasks[i]? = some q ∧ PreparedAs (r.prepare t.id) t p ∧
      t.SameOrigin p ∧ t.SameOrigin q := by
  obtain ⟨i, hi⟩ := List.mem_iff_getElem?.1 hq
  obtain ⟨p, hp⟩ := getElem?_of_length (by simpa using congrArg List.length h.spectated.ids.symm) hi
  obtain ⟨t, ht, hprepared, hsame⟩ := h.source hp
  have hqid : (sc.tasks.map (·.id))[i]? = (ps.map (·.id))[i]? := by rw [h.spectated.ids]
  simp only [List.getElem?_map, hi, hp, Option.map_some, Option.some.injEq] at hqid
  obtain ⟨t', ht', horigin⟩ := (h.jobs q hq).2
  obtain rfl := List.inj_on_of_nodup_map hids ht' ht (horigin.1.symm.trans (hqid.trans hsame.1))
  exact ⟨t', ht', i, p, hp, hi, hprepared, hsame, horigin⟩

/-- The merges go through, if each that can come either goes through or does not come. -/
theorem merges (h : Ran r w l ps d sc) (hids : (l.map (·.id)).Nodup) {d₀ : Disk}
    (hfiles : ∀ t ∈ l, SameUnder t (t.cutParts d₀ t.chunks) d)
    (hmerges : ∀ t ∈ l, t.Due (r.prepare t.id) → t.Mergeable (r.finish t.id) ∨ r.Steady l w ∧
      t.Stuck (r.prepare t.id) d₀)
    (hq : q ∈ sc.tasks) (hw : SameUnder q sc.world.disk w'.disk) : FinishesMerge (r.finish q.id) w' q := by
  obtain ⟨t, ht, i, p, hp, hi, hprepared, hsame₀, horigin⟩ := h.at_task hids hq
  intro hchunks hmerge
  obtain ⟨hunfinished, hall⟩ : finishedStatus q.status = false ∧ allComplete q.chunks := by
    simpa [DownloadTask.toMerge] using hmerge
  have hpchunks : p.chunks ≠ [] := fun hnone => hchunks ((h.spectated.chunks i p q hp hi).2 hnone)
  have hactive : p.status = .downloading ∨ hasSchedulableChunk p := by
    by_cases hsched : hasSchedulableChunk p
    · exact .inr hsched
    · refine .inl (hprepared.status.resolve_right fun hfailing => ?_)
      -- nothing starts it, and the sweep leaves a failure
      have hsame : q = p := by
        rw [h.spectated.swept i p q hp hi (Bool.eq_false_of_not_eq_true hsched)]
        split
        · rw [sweepTask, if_neg]
          rcases hfailing with hst | hst <;> rw [hst] <;> decide
        · rfl
      rw [hsame] at hunfinished
      rcases hfailing with hst | hst <;> rw [hst] at hunfinished <;> cases hunfinished
  rcases hmerges t ht (hprepared.due hpchunks hactive) with hm | ⟨hsteady, hstuck⟩
  · have hmergeable : q.Mergeable (r.finish q.id) := by
      rw [horigin.1]
      exact ⟨hm.directory, hm.openTemp, hm.write, hm.rename,
        by rw [DownloadTask.hashable, horigin.2.2.2.2]; exact hm.hashable⟩
    exact hmergeable.merges (h.jobs q hq).1 hchunks (hw.backed (h.backed q hq)) hall
  · have hdoomed := ((hprepared.stuck_iff (hsteady.1 t ht) hsame₀.2.2.2.1 (hfiles t ht)).2 hstuck).2
    rw [← hsame₀.1] at hdoomed
    rw [(h.returned hsteady).incomplete hp hi hdoomed] at hall
    cases hall

/-- No task without chunks was swept, if none was Downloading or no worker failed. -/
theorem unswept (h : Ran r w l ps d sc) (hids : (l.map (·.id)).Nodup) {d₀ : Disk}
    (hfiles : ∀ t ∈ l, SameUnder t (t.cutParts d₀ t.chunks) d)
    (hsweep : (∀ t ∈ l, ¬ t.Unchunked (r.prepare t.id)) ∨ r.Steady l w ∧ ∀ t ∈ l, ¬ t.Stuck (r.prepare t.id) d₀)
    (hq : q ∈ sc.tasks) (hnone : q.chunks = []) : sc.world.Keeps q := by
  obtain ⟨t, ht, i, p, hp, hi, hprepared, hsame₀, horigin⟩ := h.at_task hids hq
  have hpnone : p.chunks = [] := (h.spectated.chunks i p q hp hi).1 hnone
  have hidle : hasSchedulableChunk p = false := unschedulable_of_nil hpnone
  have hsame : q = p := by
    rw [h.spectated.swept i p q hp hi hidle]
    rcases hsweep with hchunked | ⟨hsteady, hcalm⟩
    · split
      · rw [sweepTask, if_neg fun hst => hchunked t ht (hprepared.unchunked hst hpnone)]
      · rfl
    · have hreturned := h.returned hsteady
      have hcalm' : sc.workerFailed = false := by
        refine hreturned.undoomed fun p' hp' hst hdoomed => ?_
        obtain ⟨j, hj⟩ := List.mem_iff_getElem?.1 hp'
        obtain ⟨t', ht', hprepared', hsame'⟩ := h.source hj
        rw [hsame'.1] at hdoomed
        exact hcalm t' ht' ((hprepared'.stuck_iff (hsteady.1 t' ht') hsame'.2.2.2.1 (hfiles t' ht')).1 ⟨hst, hdoomed⟩)
      rw [hcalm']
      rfl
  rw [hsame]
  exact h.spectated.stored p (List.mem_of_getElem? hp) hidle

/-- Every task ends and its file is the task. -/
theorem finishes (h : Ran r w l ps d sc) (hids : (l.map (·.id)).Nodup) (hdirs : AllDirsApart l) {d₀ : Disk}
    (hfiles : ∀ t ∈ l, SameUnder t (t.cutParts d₀ t.chunks) d) (hsaves : ∀ id, (r.finish id).SavesAll)
    (hmerges : ∀ t ∈ l, t.Due (r.prepare t.id) → t.Mergeable (r.finish t.id) ∨ r.Steady l w ∧
      t.Stuck (r.prepare t.id) d₀)
    (hsweep : (∀ t ∈ l, ¬ t.Unchunked (r.prepare t.id)) ∨ r.Steady l w ∧ ∀ t ∈ l, ¬ t.Stuck (r.prepare t.id) d₀) :
    wp (finishAll r.finish sc.tasks)
      (fun us w' => us.map (·.id) = l.map (·.id) ∧ ∀ u ∈ us, Terminal u.status ∧ w'.Keeps u)
      (fun _ _ => False) (fun _ => True) sc.world := by
  have hqids : sc.tasks.map (·.id) = l.map (·.id) := h.spectated.ids.trans h.ids
  have hqdirs : AllDirsApart sc.tasks := by
    intro q hq v hv hid
    obtain ⟨-, t, ht, horigin⟩ := h.jobs q hq
    obtain ⟨-, u, hu, horigin'⟩ := h.jobs v hv
    refine (hdirs t ht u hu ?_).congr horigin.2.2.2.1 horigin'.2.2.2.1
    rwa [← horigin.1, ← horigin'.1]
  have hunbroken : Unbroken r.finish sc.tasks sc.world :=
    unbroken_of sc.tasks sc.world (hqids ▸ hids) hqdirs (fun q hq => (h.jobs q hq).1)
      fun q hq w' hw' => h.merges hids hfiles hmerges hq hw'
  have hkept : ∀ q ∈ sc.tasks, ∀ u : DownloadTask, u.id = q.id → sc.world.Keeps u → sc.world.Keeps u :=
    fun _ _ _ _ hu => hu
  refine wp_mono (finishAll_finished hsaves _ _ (hqids ▸ hids) h.statuses hkept) ?_
    (fun _ _ hno => hno hunbroken) (fun _ hs => hs)
  rintro us w' ⟨-, hfinished⟩
  refine ⟨(finished_ids hfinished).trans hqids, fun u hu => ?_⟩
  obtain ⟨i, hi⟩ := List.mem_iff_getElem?.1 hu
  obtain ⟨q, hq⟩ := getElem?_of_length hfinished.length_eq hi
  have hfin := related_at hfinished hq hi
  refine ⟨hfin.status, ?_⟩
  by_cases hskip : Skipped q
  · obtain ⟨rfl, hkeeps⟩ := hfin.skipped hskip
    exact hkeeps _ rfl (h.unswept hids hfiles hsweep (List.mem_of_getElem? hq) hskip.1)
  · exact hfin.keeps hskip

end Ran

/-- Sessions on tasks with these statuses. -/
theorem prepared_rule : QueueRule (fun _ => True) (fun t => Prepared t.status) where
  tick _ _ h := h
  task s t h ht := ⟨trivial, (congrArg Prepared ht.1.2.2.2.2.2).mpr h.2⟩
  status s st _ hst := by
    simp only [TaskStatus.working, Bool.or_eq_true, decide_eq_true_eq] at hst
    rcases hst with ((rfl | rfl) | rfl) | rfl
    · exact ⟨trivial, .inl (.inl rfl)⟩
    · exact ⟨trivial, .inl (.inr rfl)⟩
    · exact ⟨trivial, .inr (.inl rfl)⟩
    · exact ⟨trivial, .inr (.inr rfl)⟩
  saved _ h := h
  part _ _ _ h := h
  progress s t h ht := ⟨trivial, (congrArg Prepared ht.2.2.2.2.2).mpr h.2⟩
  logged _ _ h _ := h
  logs _ _ _ := trivial

/-- What the scheduler has done when it returns. -/
theorem schedule_ran {r : QueueRun} {l ps : List DownloadTask} {w₁ : World} {sc : SchedState WorkerPc}
    (hids : (l.map (·.id)).Nodup)
    (hdirs : AllDirsApart l) (hbacked : ∀ t ∈ l, t.Backed w.disk) (hsafe : r.NoPausedStart l w)
    (hrun : (prepareAll r.prepare l).run w = (.ok ps, w₁)) (hkeeps : ∀ p ∈ ps, Prepared p.status ∧ w₁.Keeps p)
    (hprepares : List.Forall₂ (fun t p => PreparedAs (r.prepare t.id) t p ∧ t.SameOrigin p ∧ p.Laid) l ps)
    (hparts : w₁.disk.parts = w.disk.parts)
    (hsc : runs (chunkExecutor r.prepare) r.config.normalized { tasks := ps, world := w₁ } r.schedule = sc)
    (hcrashed : sc.crashed = false) (hreturned : sc.coordinator = .returned) : Ran r w l ps w₁.disk sc := by
  have hpids : (ps.map (·.id)).Nodup := prepared_ids hprepares ▸ hids
  have hsource : ∀ p ∈ ps, ∃ t ∈ l, PreparedAs (r.prepare t.id) t p ∧ t.SameOrigin p ∧ p.Laid := by
    intro p hp
    obtain ⟨i, hi⟩ := List.mem_iff_getElem?.1 hp
    obtain ⟨t, ht⟩ := getElem?_of_length hprepares.length_eq hi
    exact ⟨t, List.mem_of_getElem? ht, related_at hprepares ht hi⟩
  have hpdirs : AllDirsApart ps := by
    intro p hp v hv hid
    obtain ⟨t, ht, -, hsame, -⟩ := hsource p hp
    obtain ⟨u, hu, -, hsame', -⟩ := hsource v hv
    exact (hdirs t ht u hu (by rwa [← hsame.1, ← hsame'.1])).congr hsame.2.2.2.1 hsame'.2.2.2.1
  have happ : PartsApart ps := hpdirs.apart hpids fun p hp => (hsource p hp).choose_spec.2.2.2
  have hown : Owned (backedRule r.prepare) ({ tasks := ps, world := w₁ } : SchedState WorkerPc) := by
    refine ⟨hpids, fun _ => happ, fun p hp j c hc _ => ?_, by simp, by simp, by simp⟩
    obtain ⟨t, ht, hprepared, hsame, -⟩ := hsource p hp
    have hpbacked : p.Backed w₁.disk :=
      hprepared.backed hsame.2.2.2.1 (SameUnder.backed (fun _ _ => congrFun hparts _) (hbacked t ht))
    exact hpbacked c (List.mem_of_getElem? hc)
  have hguard : GuardedRun (step (chunkExecutor r.prepare) r.config.normalized)
      (fun s c => startsNoPaused r.config.normalized s c) { tasks := ps, world := w₁ } r.schedule := by
    simpa [QueueRun.NoPausedStart, hrun] using hsafe
  have hown' := owned_run hown hguard
  have hjobs : True ∧ AllJobs (fun u => ∃ t ∈ l, t.SameOrigin u) sc.tasks := by
    rw [← hsc]
    refine run_inv (I := fun s : SchedState WorkerPc => True ∧ AllJobs (fun u => ∃ t ∈ l, t.SameOrigin u) s.tasks)
      (fun s c h => (job_rule ?_).schedStep h (step_effect c)) ⟨trivial, fun p hp => ?_⟩
    · rintro u v huv ⟨t, ht, hsame⟩
      exact ⟨t, ht, hsame.trans huv⟩
    · obtain ⟨t, ht, -, hsame, hlaid⟩ := hsource p hp
      exact ⟨hlaid, t, ht, hsame⟩
  have hstatuses : True ∧ ∀ q ∈ sc.tasks, Prepared q.status := by
    rw [← hsc]
    exact run_inv (I := fun s : SchedState WorkerPc => True ∧ ∀ q ∈ s.tasks, Prepared q.status)
      (fun s c h => schedStep_beside prepared_rule h (step_effect c)) ⟨trivial, fun p hp => (hkeeps p hp).1⟩
  rw [hsc] at hown'
  refine ⟨hprepares, runs_spectated hpids (fun p hp => (hkeeps p hp).2) hsc hreturned, hjobs.2, hstatuses.2,
    fun q hq => ?_, fun hsteady => ?_⟩
  · exact backed_of_holds ((hown' ⟨hcrashed, fun _ => trivial⟩).holds hq)
  · refine runs_returned hpids happ (fun p hp => ?_) ?_ hsc hreturned
    · obtain ⟨t, ht, -, hsame, -⟩ := hsource p hp
      rw [hsame.1]
      exact hsteady.1 t ht
    · simpa [QueueRun.StartsOnce, hrun] using hsteady.2

/-! ## The call -/

end Cget
