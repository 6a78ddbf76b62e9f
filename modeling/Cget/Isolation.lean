import Cget.Recovery
import Cget.Commit
import Cget.Lib.Sorting
/-!
# One task that does not recover

`loadAllTasks` guards each load, but the loop of `recoverTasks` guards nothing: what the
repair or the save of one task throws ends the recovery of all that come after it. The run
is compared with the one on the same store without that task, in which the operations on
the other tasks end as they do in the first.
-/

namespace Cget

open Prog

variable {env env' : Env} {t t' : DownloadTask} {w w' w₁ w₂ : World} {a n : TaskId}

/-! ## The order of recovery -/

/-- The entry of `loadAllTasks` for the file of `id`. -/
def Disk.entry (env : Env) (d : Disk) (id : TaskId) : DownloadTask := (d.loadTask id).getD (corruptedTask env id)

/-- The files in the order of their entries. -/
def Disk.loadOrder (env : Env) (scan : List TaskId) (d : Disk) : List TaskId :=
  (scan.filter (fun id => (d.tasks id).main.isSome)).insertionSort
    (fun a b => (d.entry env a).createdAt ≤ (d.entry env b).createdAt)

theorem loadOrder_once {scan pre post : List TaskId} (hscan : scan.Nodup)
    (h : w.disk.loadOrder env scan = pre ++ a :: post) :
    a ∉ pre ∧ a ∉ post := by
  have hnodup : (pre ++ a :: post).Nodup := by
    rw [← h, Disk.loadOrder, (List.perm_insertionSort _ _).nodup_iff]
    exact hscan.filter _
  have hmiddle := List.nodup_middle.1 hnodup
  simpa [not_or] using (List.nodup_cons.1 hmiddle).1

theorem loadAllTasks_order (env : Env) (scan : List TaskId) (d : Disk) :
    d.loadAllTasks env scan = (d.loadOrder env scan).map (d.entry env) := by
  unfold Disk.loadAllTasks Disk.loadOrder
  exact (List.map_insertionSort (r := fun a b => (d.entry env a).createdAt ≤ (d.entry env b).createdAt)
    (s := fun a b : DownloadTask => a.createdAt ≤ b.createdAt) (d.entry env) _ fun _ _ _ _ => Iff.rfl).symm

/-- The store without the files of `a`. -/
def World.without (w : World) (a : TaskId) : World := w.onFiles a fun _ => {}

theorem without_tasks (w : World) (h : n ≠ a) : (w.without a).disk.tasks n = w.disk.tasks n :=
  Function.update_of_ne h _ _

theorem without_entry (env : Env) (w : World) (h : n ≠ a) : (w.without a).disk.entry env n = w.disk.entry env n := by
  rw [Disk.entry, Disk.entry, Disk.loadTask, Disk.loadTask, without_tasks w h]

/-- Without the files of `a` the other tasks are recovered in the same order. -/
theorem without_order (env : Env) (scan : List TaskId) (w : World) (a : TaskId) :
    (w.without a).disk.loadOrder env scan = (w.disk.loadOrder env scan).filter (· ≠ a) := by
  have hfiles : scan.filter (fun id => ((w.without a).disk.tasks id).main.isSome) =
      (scan.filter (fun id => (w.disk.tasks id).main.isSome)).filter (· ≠ a) := by
    rw [List.filter_filter]
    refine List.filter_congr fun n _ => ?_
    by_cases hn : n = a
    · subst hn
      simp [World.without, World.onFiles]
    · simp [without_tasks w hn, hn]
  unfold Disk.loadOrder
  rw [hfiles, SortBy.filter_insertionSort fun n => (w.disk.entry env n).createdAt]
  have hsame := List.map_insertionSort
    (r := fun x y => ((w.without a).disk.entry env x).createdAt ≤ ((w.without a).disk.entry env y).createdAt)
    (s := fun x y => (w.disk.entry env x).createdAt ≤ (w.disk.entry env y).createdAt) (fun n => n)
    ((scan.filter (fun id => (w.disk.tasks id).main.isSome)).filter (· ≠ a)) fun x hx y hy => by
      have hxa : x ≠ a := by simpa using List.of_mem_filter hx
      have hya : y ≠ a := by simpa using List.of_mem_filter hy
      rw [without_entry env w hxa, without_entry env w hya]
  simpa using hsame

/-! ## The recovery of a task -/

/-- A round of the loop of `recoverTasks`. -/
def recoverTask (env : Env) (t : DownloadTask) : Prog World Exn DownloadTask := do
  let t' ← repairFromDisk env t
  saveTask env t'
  pure t'

theorem recoverLoop_round (h : t.status ≠ .corrupted) (ts : List DownloadTask) :
    recoverLoop env (t :: ts) = (do
      let t' ← recoverTask env t
      let rest ← recoverLoop env ts
      pure (t' :: rest)) := by
  rw [recoverLoop, if_neg h]
  simp only [recoverTask, Prog.bind_assoc]
  rfl

def Event.savedTask : Event → Option DownloadTask
  | .saved t => some t
  | _ => none

/-- The tasks that were saved, the last one first. -/
def World.savedTasks (w : World) : List DownloadTask := w.log.filterMap Event.savedTask

theorem noted_savedTasks : (w.noted t t').savedTasks = w.savedTasks := by
  unfold World.noted
  split <;> rfl

theorem noted_tasks : (w.noted t t').disk.tasks = w.disk.tasks := by
  unfold World.noted
  split <;> rfl

theorem Trimmed.savedTasks (h : Trimmed w w') : w'.savedTasks = w.savedTasks := by
  rw [World.savedTasks, h.log, World.savedTasks]

/-- A round that returns has saved one task, and one that does not has saved none. -/
theorem recoverTask_wp (env : Env) (t : DownloadTask) (w : World) :
    wp (recoverTask env t) (fun t' w' => w'.savedTasks = t' :: w.savedTasks)
      (fun _ w' => w'.savedTasks = w.savedTasks ∧ w'.disk.tasks = w.disk.tasks)
      (fun w' => w'.savedTasks = w.savedTasks ∧ w'.disk.tasks = w.disk.tasks) w := by
  rw [recoverTask, wp_bind]
  refine wp_mono (repairFromDisk_wp t w) ?_ (fun _ _ h => ⟨h.savedTasks, h.tasks⟩) (fun _ h => ⟨h.savedTasks, h.tasks⟩)
  rintro t' _ ⟨w₁, hw₁, -, rfl⟩
  have hnone : (w₁.noted t t').savedTasks = w.savedTasks ∧ (w₁.noted t t').disk.tasks = w.disk.tasks :=
    ⟨noted_savedTasks.trans hw₁.savedTasks, noted_tasks.trans hw₁.tasks⟩
  rw [wp_bind]
  exact wp_saveTask (fun _ => congrArg (t' :: ·) hnone.1) (fun _ _ => hnone) (fun _ _ => hnone)

/-- The part files of a task. -/
def DownloadTask.owns (t : DownloadTask) (p : Path) : Prop := ∃ c ∈ t.chunks, chunkPath t c = .ok p

theorem repairChunks_parts {x : Option Bytes} {p : Path} : ∀ {cs : List Chunk}, (∀ c ∈ cs, chunkPath t c ≠ .ok p) →
    Keeps (fun w => w.disk.parts p = x) (repairChunks env t cs)
  | [], _ => KeepsOr.pure _
  | c :: cs, h => by
    unfold repairChunks
    cases hc : chunkPath t c with
    | error e => exact KeepsOr.throw e
    | ok q =>
      have hq : p ≠ q := fun hpq => h c List.mem_cons_self (by rw [hc, hpq])
      have hcut : ∀ n, Keeps (fun w : World => w.disk.parts p = x) (cutPart env q n) := by
        intro n
        unfold cutPart truncateFile
        refine KeepsOr.get_bind fun w => ?_
        split
        · refine KeepsOr.get_bind fun w => ?_
          split
          · exact fun w hw => wp_fileOp (fun _ => by simpa [Function.update_of_ne hq] using hw) (fun _ _ => hw)
              fun _ _ => hw
          · exact KeepsOr.pure ()
        · exact KeepsOr.pure ()
      refine KeepsOr.get_bind fun w => (hcut _).bind fun _ => ?_
      exact (repairChunks_parts fun d hd => h d (List.mem_cons_of_mem _ hd)).bind fun _ => KeepsOr.pure _

/-- The recovery of a task changes no other part files. -/
theorem recoverTask_parts (env : Env) {p : Path} (hp : ¬t.owns p) (x : Option Bytes) :
    Keeps (fun w => w.disk.parts p = x) (recoverTask env t) := by
  have hrecord : ∀ t', Keeps (fun w : World => w.disk.parts p = x) (recordRepair t t') := by
    intro t'
    unfold recordRepair
    split
    · exact fun w hw => hw
    · exact KeepsOr.pure ()
  have hrepair : Keeps (fun w : World => w.disk.parts p = x) (repairFromDisk env t) := by
    unfold repairFromDisk
    split
    · exact (hrecord _).bind fun _ => KeepsOr.pure _
    · refine (repairChunks_parts fun c hc hcp => hp ⟨c, hc, hcp⟩).bind fun cs => ?_
      exact (hrecord _).bind fun _ => KeepsOr.pure _
  refine hrepair.bind fun t' => KeepsOr.bind (fun w hw => ?_) fun _ => KeepsOr.pure _
  exact wp_saveTask (fun _ => hw) (fun _ _ => hw) fun _ _ => hw

/-! ## Two runs -/

/-- The worlds agree, the files of `a` apart. -/
structure SameOff (a : TaskId) (w w' : World) : Prop where
  tasks : ∀ n, n ≠ a → w'.disk.tasks n = w.disk.tasks n
  parts : w'.disk.parts = w.disk.parts
  tick : w'.tick = w.tick
  log : w'.log = w.log

/-- From operation `n` to operation `m`, the faults of `env'` are those of `env`. -/
def FaultsAgree (env env' : Env) (n m : Nat) : Prop :=
  ∀ k, n ≤ k → k < m → env'.fault k = env.fault k ∧ env'.saveFault k = env.saveFault k

/-- Where the faults agree in the course of the run of `p`, that of `p'` does the same. -/
def Follows {α : Type} (a : TaskId) (env env' : Env) (p p' : Prog World Exn α) : Prop :=
  ∀ w w', SameOff a w w' → w.tick ≤ (p.run w).2.tick ∧
    (FaultsAgree env env' w.tick (p.run w).2.tick → (p'.run w').1 = (p.run w).1 ∧ SameOff a (p.run w).2 (p'.run w').2)

section Follows

variable {α β : Type} {p p' : Prog World Exn α}

theorem Follows.pure (x : α) : Follows a env env' (Pure.pure x) (Pure.pure x) :=
  fun _ _ h => ⟨le_rfl, fun _ => ⟨rfl, h⟩⟩

theorem Follows.throw (e : Exn) : Follows a env env' (throw e : Prog World Exn α) (throw e) :=
  fun _ _ h => ⟨le_rfl, fun _ => ⟨rfl, h⟩⟩

theorem SameOff.refl (a : TaskId) (w : World) : SameOff a w w := ⟨fun _ _ => rfl, rfl, rfl, rfl⟩

theorem FaultsAgree.mono {n m k l : Nat} (h : FaultsAgree env env' n m) (hn : n ≤ k) (hm : l ≤ m) :
    FaultsAgree env env' k l :=
  fun j hj hl => h j (hn.trans hj) (hl.trans_le hm)

theorem Follows.bind {f f' : α → Prog World Exn β} (h : Follows a env env' p p')
    (hf : ∀ x, Follows a env env' (f x) (f' x)) :
    Follows a env env' (p >>= f) (p' >>= f') := by
  intro w w' hw
  obtain ⟨hle, hrun⟩ := h w w' hw
  rcases hp : p.run w with ⟨x | e | _, w₁⟩
  · rw [run_bind_ok hp]
    rw [hp] at hle hrun
    have hle₁ : w₁.tick ≤ ((f x).run w₁).2.tick := (hf x w₁ w₁ (.refl a w₁)).1
    refine ⟨hle.trans hle₁, fun hagree => ?_⟩
    obtain ⟨hout, hoff⟩ := hrun (hagree.mono le_rfl hle₁)
    rw [run_bind_ok (Prod.ext hout rfl : p'.run w' = (.ok x, (p'.run w').2))]
    exact (hf x w₁ _ hoff).2 (hagree.mono hle le_rfl)
  · rw [run_bind_thrown hp]
    rw [hp] at hle hrun
    refine ⟨hle, fun hagree => ?_⟩
    obtain ⟨hout, hoff⟩ := hrun hagree
    rw [run_bind_thrown (Prod.ext hout rfl : p'.run w' = (.thrown e, (p'.run w').2))]
    exact ⟨rfl, hoff⟩
  · rw [run_bind_stopped hp]
    rw [hp] at hle hrun
    refine ⟨hle, fun hagree => ?_⟩
    obtain ⟨hout, hoff⟩ := hrun hagree
    rw [run_bind_stopped (Prod.ext hout rfl : p'.run w' = (.stopped, (p'.run w').2))]
    exact ⟨rfl, hoff⟩

theorem Follows.get_bind {f f' : World → Prog World Exn α}
    (h : ∀ w w', SameOff a w w' → Follows a env env' (f w) (f' w')) :
    Follows a env env' (get >>= f) (get >>= f') := fun w w' hw => h w w' hw w w' hw

theorem SameOff.ticked (h : SameOff a w w') : SameOff a { w with tick := w.tick + 1 } { w' with tick := w'.tick + 1 } :=
  ⟨h.tasks, h.parts, congrArg (· + 1) h.tick, h.log⟩

/-- An operation both runs meet with the same fault. -/
theorem Follows.operation {f f' : Nat → Fault} {full : World → World} {part : Nat → World → World} {e : Exn}
    (hagree : ∀ k, FaultsAgree env env' k (k + 1) → f' k = f k)
    (htick : ∀ w, (full w).tick = w.tick) (hptick : ∀ k w, (part k w).tick = w.tick)
    (hfull : ∀ w w', SameOff a w w' → SameOff a (full w) (full w'))
    (hpart : ∀ k w w', SameOff a w w' → SameOff a (part k w) (part k w')) :
    Follows a env env' (operation f full part e) (Cget.operation f' full part e) := by
  intro w w' hw
  have hend : ((Cget.operation f full part e).run w).2.tick = w.tick + 1 := by
    simp only [Cget.operation]
    split
    exacts [htick _, hptick _ _, hptick _ _]
  refine ⟨by omega, fun hfaults => ?_⟩
  rw [hend] at hfaults
  have hf : f' w'.tick = f w.tick := by rw [hw.tick, hagree _ hfaults]
  simp only [Cget.operation, hf]
  split
  · exact ⟨rfl, hfull _ _ hw.ticked⟩
  · exact ⟨rfl, hpart _ _ _ hw.ticked⟩
  · exact ⟨rfl, hpart _ _ _ hw.ticked⟩

end Follows

/-! ## Recovery in two runs -/

theorem follows_fileOp {g : Disk → Disk} {e : Exn} (hg : ∀ w w' : World, SameOff a w w' →
    SameOff a { w with disk := g w.disk } { w' with disk := g w'.disk }) :
    Follows a env env' (fileOp env g (fun _ d => d) e) (fileOp env' g (fun _ d => d) e) :=
  .operation (fun k h => (h k le_rfl (Nat.lt_succ_self k)).1) (fun _ => rfl) (fun _ _ => rfl) hg fun _ _ _ h => h

theorem follows_saveTask (t : DownloadTask) : Follows a env env' (saveTask env t) (saveTask env' t) := by
  refine .operation (fun k h => (h k le_rfl (Nat.lt_succ_self k)).2) (fun _ => rfl) (fun _ _ => rfl) (fun w w' h => ?_)
    fun _ _ _ h => h
  refine ⟨fun n hn => ?_, h.parts, h.tick, by simp only [World.saveTask, h.log]⟩
  by_cases ht : n = t.id
  · subst ht
    simp only [World.saveTask, Function.update_self, h.tasks _ hn]
  · simp only [World.saveTask, Function.update_of_ne ht, h.tasks n hn]

theorem follows_cutPart (p : Path) (size : Nat) : Follows a env env' (cutPart env p size) (cutPart env' p size) := by
  unfold cutPart truncateFile
  refine .get_bind fun w w' hw => ?_
  rw [hw.parts]
  split
  · refine .get_bind fun w w' hw => ?_
    rw [hw.parts]
    split
    · refine follows_fileOp fun w w' h => ⟨h.tasks, ?_, h.tick, h.log⟩
      simp only [Disk.setPart_parts, h.parts]
    · exact .pure ()
  · exact .pure ()

theorem follows_repairChunks (t : DownloadTask) (cs : List Chunk) :
    Follows a env env' (repairChunks env t cs) (repairChunks env' t cs) := by
  induction cs with
  | nil => exact .pure _
  | cons c cs ih =>
    unfold repairChunks
    cases chunkPath t c with
    | error e => exact .throw e
    | ok p =>
      refine .get_bind fun w w' hw => ?_
      simp only [hw.parts]
      exact (follows_cutPart p _).bind fun _ => ih.bind fun _ => .pure _

theorem follows_recordRepair : Follows a env env' (recordRepair t t') (recordRepair t t') := by
  unfold recordRepair
  split
  · exact fun w w' h => ⟨le_rfl, fun _ => ⟨rfl, h.tasks, h.parts, h.tick, congrArg (_ :: ·) h.log⟩⟩
  · exact .pure ()

theorem follows_recoverTask (hnow : env'.now = env.now) (t : DownloadTask) :
    Follows a env env' (recoverTask env t) (recoverTask env' t) := by
  have hrepair : Follows a env env' (repairFromDisk env t) (repairFromDisk env' t) := by
    unfold repairFromDisk
    split
    · exact follows_recordRepair.bind fun _ => .pure _
    · refine (follows_repairChunks t _).bind fun cs => ?_
      simp only [repairWith, hnow]
      exact follows_recordRepair.bind fun _ => .pure _
  exact hrepair.bind fun t' => (follows_saveTask t').bind fun _ => .pure _

theorem follows_recoverLoop (hnow : env'.now = env.now) (ts : List DownloadTask) :
    Follows a env env' (recoverLoop env ts) (recoverLoop env' ts) := by
  induction ts with
  | nil => exact .pure _
  | cons t ts ih =>
    by_cases hst : t.status = .corrupted
    · rw [recoverLoop, recoverLoop, if_pos hst, if_pos hst]
      exact ih.bind fun _ => .pure _
    · rw [recoverLoop_round hst, recoverLoop_round hst]
      exact (follows_recoverTask hnow t).bind fun _ => ih.bind fun _ => .pure _

/-! ## The loop from a task on -/

theorem recoverLoop_skip (h : t.status = .corrupted) (ts : List DownloadTask) (w : World) :
    ((recoverLoop env (t :: ts)).run w).2 = ((recoverLoop env ts).run w).2 := by
  rw [recoverLoop, if_pos h]
  exact run_map_state _ _ w

/-- Once the tasks `ts` are recovered, the loop goes on as it would from there. -/
theorem recoverLoop_append {us : List DownloadTask} : ∀ (ts : List DownloadTask) {w : World} {done : List DownloadTask},
    (recoverLoop env ts).run w = (.ok done, w₁) →
    (recoverLoop env (ts ++ us)).run w = (recoverLoop env us >>= fun rest => pure (done ++ rest)).run w₁ := by
  intro ts
  induction ts with
  | nil =>
    intro w done h
    obtain ⟨rfl, rfl⟩ : done = [] ∧ w = w₁ := by cases h; exact ⟨rfl, rfl⟩
    exact (run_map_id _ _).symm
  | cons t ts ih =>
    intro w done h
    by_cases hst : t.status = .corrupted
    · rw [recoverLoop, if_pos hst] at h
      obtain ⟨rest, w', hrest, hend⟩ := run_bind_eq_ok h
      cases hend
      rw [List.cons_append, recoverLoop, if_pos hst, run_bind_congr (ih hrest), Prog.bind_assoc]
      rfl
    · rw [recoverLoop_round hst] at h
      obtain ⟨t', w', hround, hloop⟩ := run_bind_eq_ok h
      obtain ⟨rest, w'', hrest, hend⟩ := run_bind_eq_ok hloop
      cases hend
      rw [List.cons_append, recoverLoop_round hst, run_bind_ok hround, run_bind_congr (ih hrest), Prog.bind_assoc]
      rfl

/-- Corrupted entries are passed over. -/
theorem recoverLoop_corrupted : ∀ (ts : List DownloadTask) (w : World), (∀ t ∈ ts, t.status = .corrupted) →
    ((recoverLoop env ts).run w).2 = w
  | [], _, _ => rfl
  | t :: ts, w, h => by
    rw [recoverLoop_skip (h t List.mem_cons_self)]
    exact recoverLoop_corrupted ts w fun u hu => h u (List.mem_cons_of_mem _ hu)

/-! ## With and without the task that fails -/

/-- `env` without the `count` operations from `n` on: the ones after them meet the faults they met. -/
def Env.skipping (env : Env) (n count : Nat) : Env :=
  { env with
    fault := fun k => env.fault (if k < n then k else k + count)
    saveFault := fun k => env.saveFault (if k < n then k else k + count) }

/-- In the course of `recoverTasks`, the turn of the task `t` in the file of `a` comes at `w₁`,
before the files `post`, and its recovery throws at `w₂`. -/
structure FailsIn (env : Env) (scan : List TaskId) (w : World) (a : TaskId) (t : DownloadTask) (post : List TaskId)
    (w₁ w₂ : World) : Prop where
  loads : w.disk.loadTask a = some t
  uncorrupted : t.status ≠ .corrupted
  turn : ∃ pre done, w.disk.loadOrder env scan = pre ++ a :: post ∧
    (recoverLoop env (pre.map (w.disk.entry env))).run w = (.ok done, w₁)
  throws : ∃ e, (recoverTask env t).run w₁ = (.thrown e, w₂)

/-- The two runs have repaired and saved the same tasks, that of the file of `a` apart. -/
structure SameOthers (a : TaskId) (t : DownloadTask) (present absent : World) : Prop where
  saved : present.savedTasks = absent.savedTasks
  files : ∀ n, n ≠ a → present.files n = absent.files n
  parts : ∀ p, ¬t.owns p → present.disk.parts p = absent.disk.parts p

/-- A task beside that of the file of `a` is listed, and not as Corrupted. -/
def World.HasOther (w : World) (env : Env) (scan : List TaskId) (a n : TaskId) : Prop :=
  n ∈ w.disk.loadOrder env scan ∧ n ≠ a ∧ (w.disk.entry env n).status ≠ .corrupted

/-- Every other task is repaired and saved as if the task `t` of the file of `a`, whose recovery
is what happens between `w₁` and `w₂`, were absent. And `recoverTasks`, with which `resume` and
`run` begin, returns, so that the other task can be resumed and run. -/
structure RecoversOthers (env : Env) (scan : List TaskId) (w : World) (a : TaskId) (t : DownloadTask)
    (w₁ w₂ : World) : Prop where
  same : SameOthers a t ((recoverTasks env scan).run w).2
    ((recoverTasks (env.skipping w₁.tick (w₂.tick - w₁.tick)) scan).run (w.without a)).2
  returns : ∀ n, w.HasOther env scan a n → ∃ ts w', (recoverTasks env scan).run w = (.ok ts, w')

/-- What the recovery of the task throws, `recoverTasks` throws. -/
theorem FailsIn.run {scan post : List TaskId} (h : FailsIn env scan w a t post w₁ w₂) :
    ∃ e, (recoverTasks env scan).run w = (.thrown e, w₂) := by
  obtain ⟨pre, done, horder, hturn⟩ := h.turn
  obtain ⟨e, hthrows⟩ := h.throws
  have hentry : w.disk.entry env a = t := by rw [Disk.entry, h.loads, Option.getD_some]
  refine ⟨e, ?_⟩
  change (recoverLoop env (w.disk.loadAllTasks env scan)).run w = _
  rw [loadAllTasks_order, horder, List.map_append, List.map_cons, hentry]
  rw [recoverLoop_append _ hturn, recoverLoop_round h.uncorrupted, Prog.bind_assoc, run_bind_thrown hthrows]

/-- Without the task the loop comes to the tasks after it in the world in which its turn came. -/
theorem FailsIn.absent {scan post : List TaskId} (hscan : scan.Nodup) (h : FailsIn env scan w a t post w₁ w₂)
    (count : Nat) :
    ∃ w₁', SameOff a w₁ w₁' ∧ ((recoverTasks (env.skipping w₁.tick count) scan).run (w.without a)).2 =
      ((recoverLoop (env.skipping w₁.tick count) (post.map (w.disk.entry env))).run w₁').2 := by
  obtain ⟨pre, done, horder, hturn⟩ := h.turn
  obtain ⟨hpre, hpost⟩ := loadOrder_once hscan horder
  have hfilter : ∀ l : List TaskId, a ∉ l → l.filter (· ≠ a) = l := fun l hl =>
    List.filter_eq_self.2 fun n hn => by simpa using fun he : n = a => hl (he ▸ hn)
  have hlist : (w.without a).disk.loadAllTasks env scan =
      pre.map (w.disk.entry env) ++ post.map (w.disk.entry env) := by
    rw [loadAllTasks_order, without_order, horder, List.filter_append, List.filter_cons_of_neg (by simp),
      hfilter pre hpre, hfilter post hpost, ← List.map_append]
    refine List.map_congr_left fun n hn => without_entry env w ?_
    rintro rfl
    exact (List.mem_append.1 hn).elim hpre hpost
  have hfollows : Follows a env (env.skipping w₁.tick count) (recoverLoop env (pre.map (w.disk.entry env)))
      (recoverLoop (env.skipping w₁.tick count) (pre.map (w.disk.entry env))) :=
    follows_recoverLoop (show (env.skipping w₁.tick count).now = env.now from rfl) _
  have hsame := (hfollows w (w.without a) ⟨fun n hn => without_tasks w hn, rfl, rfl, rfl⟩).2
  rw [hturn] at hsame
  generalize hrun : (recoverLoop (env.skipping w₁.tick count) (pre.map (w.disk.entry env))).run
    (w.without a) = r at hsame
  obtain ⟨o, w₁'⟩ := r
  obtain ⟨rfl, hoff⟩ := hsame fun k _ hk => by simp [Env.skipping, if_pos hk]
  refine ⟨w₁', hoff, ?_⟩
  change ((recoverLoop _ ((w.without a).disk.loadAllTasks env scan)).run (w.without a)).2 = _
  rw [hlist, recoverLoop_append _ hrun, run_map_state]

/-- If the others all come before it, they are recovered as if the failing task were absent. -/
theorem FailsIn.last {scan post : List TaskId} (hscan : scan.Nodup) (h : FailsIn env scan w a t post w₁ w₂)
    (hpost : ∀ n ∈ post, (w.disk.entry env n).status = .corrupted) :
    SameOthers a t ((recoverTasks env scan).run w).2
      ((recoverTasks (env.skipping w₁.tick (w₂.tick - w₁.tick)) scan).run (w.without a)).2 := by
  obtain ⟨e, hthrows⟩ := h.throws
  obtain ⟨e', hrun⟩ := h.run
  obtain ⟨hsaves, htasks⟩ := (wp_of_thrown hthrows).1 (recoverTask_wp env t w₁)
  have hparts : ∀ p, ¬t.owns p → w₂.disk.parts p = w₁.disk.parts p := fun p hp => by
    have := (recoverTask_parts env hp (w₁.disk.parts p)).run w₁ rfl
    rwa [hthrows] at this
  obtain ⟨w₁', hoff, habsent⟩ := h.absent hscan (w₂.tick - w₁.tick)
  rw [hrun, habsent, recoverLoop_corrupted _ _ (List.forall_mem_map.2 hpost)]
  have hsaves' : w₁'.savedTasks = w₁.savedTasks := by rw [World.savedTasks, hoff.log, World.savedTasks]
  refine ⟨hsaves.trans hsaves'.symm, fun n hn => ?_, fun p hp => ?_⟩
  · rw [World.files, World.files, htasks, hoff.tasks n hn]
  · rw [hparts p hp, hoff.parts]

/-- The others are recovered as if the failing task were absent, and left to be resumed and run,
if and only if there are none. -/
theorem recovers_others_iff {scan post : List TaskId} (hscan : scan.Nodup) (h : FailsIn env scan w a t post w₁ w₂) :
    RecoversOthers env scan w a t w₁ w₂ ↔ ∀ n, ¬ w.HasOther env scan a n := by
  constructor
  · intro hrecovers n hn
    obtain ⟨ts, w', hok⟩ := hrecovers.returns n hn
    obtain ⟨e, hrun⟩ := h.run
    cases hok.symm.trans hrun
  · intro hnone
    refine ⟨h.last hscan fun n hn => ?_, fun n hn => (hnone n hn).elim⟩
    obtain ⟨pre, done, horder, -⟩ := h.turn
    by_contra hst
    refine hnone n ⟨?_, ?_, hst⟩
    · rw [horder]
      exact List.mem_append_right _ (List.mem_cons_of_mem _ hn)
    · rintro rfl
      exact (loadOrder_once hscan horder).2 hn

section UnsafeNeighbour

/-- A task whose only chunk has a temp path outside its directory. -/
def unsafeTask (createdAt : Nat) : DownloadTask :=
  { id := text "a", chunks := [{ stop := 1, tempPath := text "../part" }], createdAt }

def plainTask : DownloadTask := { id := text "b", createdAt := 5 }

/-- The unsafe task, and a file of the task `b`. -/
def besideUnsafe (createdAt : Nat) (file : TaskText) : World where
  disk :=
    { tasks :=
        Function.update (Function.update (fun _ => {}) (text "a") { main := some (.written (unsafeTask createdAt)) })
          (text "b") { main := some file } }

def faultless : Env := { protocol := .silent }

def bothFiles : List TaskId := [text "a", text "b"]

/-- Beside it there is only a file that does not parse. -/
theorem unsafe_beside_torn :
    RecoversOthers faultless bothFiles (besideUnsafe 1 .torn) (text "a") (unsafeTask 1) (besideUnsafe 1 .torn)
      (besideUnsafe 1 .torn) := by
  have hfails : FailsIn faultless bothFiles (besideUnsafe 1 .torn) (text "a") (unsafeTask 1) []
      (besideUnsafe 1 .torn) (besideUnsafe 1 .torn) := by
    refine ⟨by decide, by decide, ⟨[text "b"], _, by decide, rfl⟩, ⟨_, rfl⟩⟩
  refine (recovers_others_iff (by decide) hfails).2 fun n hn => ?_
  obtain ⟨hlisted, hne, hst⟩ := hn
  obtain rfl : n = text "b" := by
    have hscanned := List.mem_of_mem_filter ((List.mem_insertionSort _).1 hlisted)
    exact (List.mem_pair.1 hscanned).resolve_left hne
  exact hst (by decide)

/-- Created before `b`, it ends the recovery, and `b` is not saved. -/
theorem unsafe_first_blocks :
    FailsIn faultless bothFiles (besideUnsafe 1 (.written plainTask)) (text "a") (unsafeTask 1) [text "b"]
        (besideUnsafe 1 (.written plainTask)) (besideUnsafe 1 (.written plainTask)) ∧
      ¬RecoversOthers faultless bothFiles (besideUnsafe 1 (.written plainTask)) (text "a") (unsafeTask 1)
        (besideUnsafe 1 (.written plainTask)) (besideUnsafe 1 (.written plainTask)) := by
  refine ⟨⟨by decide, by decide, ⟨[], _, by decide, rfl⟩, ⟨_, rfl⟩⟩, fun h => ?_⟩
  have hsaved := h.same.saved
  revert hsaved
  decide

end UnsafeNeighbour

end Cget
