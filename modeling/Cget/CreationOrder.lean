import Cget.Lib.Sorting
import Cget.Manager
import Cget.Timestamps
/-!
# The order of creation

`loadAllTasks` sorts the tasks by their creation time, which went through the text of the
task file and lost what was below a second. Here files load from their bytes, with the
functions of `types.cpp` for the times. Tasks made in different seconds are listed and
queued in the order in which they were made; of two made in one second the directory
decides.
-/

namespace Cget

open Prog

/-! ## The list, read from the bytes -/

/-- What the scan makes of the file of `id`. -/
def Disk.entryBytes (torn : Text) (env : Env) (d : Disk) (id : TaskId) : DownloadTask :=
  match (d.tasks id).loadBytes (utcTimes env.now) torn id with
  | .ok t => t
  | .error _ => corruptedTask env id

/-- The lists `loadAllTasks` may return: how `std::sort` arranges tasks of one time is open. -/
def Disk.MayLoad (torn : Text) (env : Env) (scan : List TaskId) (d : Disk) (l : List DownloadTask) : Prop :=
  l.Perm ((scan.filter (fun id => (d.tasks id).main.isSome)).map (d.entryBytes torn env)) ∧
    l.Pairwise (fun a b => a.createdAt ≤ b.createdAt)

/-- A list of runnable tasks that `runQueuedTasks` may come to. -/
def MaySelect (torn : Text) (r : QueueRun) (w : World) (l : List DownloadTask) : Prop :=
  ∃ listed recovered w₁ again, w.disk.MayLoad torn r.recover r.scan listed ∧
    (recoverLoop r.recover listed).run w = (.ok recovered, w₁) ∧ w₁.disk.MayLoad torn r.recover r.scanAgain again ∧
      l = again.filter (fun t => runnableStatus t.status)

/-- Whatever is loaded or selected, in any order of the directory, has the order of `ids`. -/
structure KeepsOrder (w : World) (ids : List TaskId) : Prop where
  loads : ∀ torn env scan l, scan.Perm ids → w.disk.MayLoad torn env scan l → l.map (·.id) = ids
  selects : ∀ torn r l, r.scan.Perm ids → r.scanAgain.Perm ids → MaySelect torn r w l → l.map (·.id) = ids

variable {torn : Text} {env : Env} {d : Disk} {w w' : World} {t u : DownloadTask} {ts l : List DownloadTask}
  {scan : List TaskId}

/-- A stable sort gives one of the lists. -/
theorem Disk.mayLoad_stable (torn : Text) (env : Env) (scan : List TaskId) (d : Disk) :
    d.MayLoad torn env scan (((scan.filter (fun id => (d.tasks id).main.isSome)).map
      (d.entryBytes torn env)).insertionSort
      (fun a b => a.createdAt ≤ b.createdAt)) :=
  ⟨List.perm_insertionSort _ _, SortBy.sorted DownloadTask.createdAt _⟩

/-- If the texts hold their tasks as they are, the list made of the texts is one of them too. -/
theorem Disk.loadAllTasks_mayLoad (htorn : ∀ u, PersistenceStore.taskFromJson (utcTimes env.now) torn ≠ .ok u)
    (hkept : ∀ id t, (d.tasks id).main = some (.written t) ∨ (d.tasks id).bak = some (.written t) →
      t.KeptBy (utcTimes env.now))
    (scan : List TaskId) : d.MayLoad torn env scan (d.loadAllTasks env scan) := by
  have hentry : (fun id => (d.loadTask id).getD (corruptedTask env id)) = d.entryBytes torn env := by
    funext id
    rw [Disk.loadTask, ← TaskFiles.loadBytes_eq htorn (hkept id) id, Disk.entryBytes]
    cases (d.tasks id).loadBytes (utcTimes env.now) torn id <;> rfl
  rw [Disk.loadAllTasks, hentry]
  exact d.mayLoad_stable torn env scan

/-! ## Tasks no engine has worked on -/

structure DownloadTask.Fresh (t : DownloadTask) : Prop where
  chunks : t.chunks = []
  status : t.status = .pending ∨ t.status = .queued
  inRange : t.InRange
  counts : t.ExactCounts
  createdAt : t.createdAt < 2 ^ 63

theorem DownloadTask.Fresh.created_eq (h : t.Fresh) (now : Nat) :
    (t.reread (utcTimes now)).createdAt = t.createdAt / oneSecond * oneSecond :=
  parseTimestamp_formatTimestamp now h.createdAt

theorem DownloadTask.Fresh.reread_chunks (h : t.Fresh) (now : Nat) : (t.reread (utcTimes now)).chunks = [] := by
  rw [h.counts.reread_eq, h.chunks]

/-- What is read back of such a task is one, made in the same second. -/
theorem DownloadTask.Fresh.reread (h : t.Fresh) (now : Nat) : (t.reread (utcTimes now)).Fresh := by
  have hcreated : (t.reread (utcTimes now)).createdAt < 2 ^ 63 := by
    rw [h.created_eq now]
    exact (Nat.div_mul_le_self _ _).trans_lt h.createdAt
  have hchunks := h.reread_chunks now
  rw [h.counts.reread_eq] at hcreated hchunks ⊢
  refine ⟨hchunks, h.status, { h.inRange with rateLimit := ?_ }, { h.counts with }, hcreated⟩
  intro n hn
  obtain ⟨m, hm, rfl⟩ := Option.mem_map.1 hn
  exact Json.throughDouble_le (h.inRange.rateLimit m hm)

theorem DownloadTask.Fresh.runnable (h : t.Fresh) : runnableStatus t.status = true := by
  rcases h.status with hst | hst <;> rw [hst] <;> rfl

/-- The file of `t` holds it, or what was read back of it. -/
def Disk.Holds (d : Disk) (t : DownloadTask) : Prop :=
  ∃ u : DownloadTask, (d.tasks t.id).main = some (.written u) ∧ u.id = t.id ∧ u.Fresh ∧
  u.createdAt / oneSecond = t.createdAt / oneSecond

theorem entryBytes_written {id : TaskId} (hmain : (d.tasks id).main = some (.written u)) (hu : u.Fresh) :
    d.entryBytes torn env id = u.reread (utcTimes env.now) := by
  have hall : (u.reread (utcTimes env.now)).chunks.all (·.acceptable) = true := by rw [hu.reread_chunks]; rfl
  have hload : (d.tasks id).loadBytes (utcTimes env.now) torn id = .ok (u.reread (utcTimes env.now)) := by
    rw [TaskFiles.loadBytes, hmain, Option.map_some, TaskText.bytes_written, tryLoadTaskFile_some,
      PersistenceStore.taskFromJson_reread hu.inRange, if_pos hall]
    rfl
  rw [Disk.entryBytes, hload]

/-- The entry of a task is fresh and has the start of the second in which it was made. -/
theorem Disk.Holds.entry (h : d.Holds t) (torn : Text) (env : Env) :
    (d.entryBytes torn env t.id).id = t.id ∧ (d.entryBytes torn env t.id).Fresh ∧
      (d.entryBytes torn env t.id).createdAt = t.createdAt / oneSecond * oneSecond := by
  obtain ⟨u, hmain, hid, hu, hsecond⟩ := h
  rw [entryBytes_written hmain hu]
  refine ⟨hid, hu.reread env.now, ?_⟩
  rw [hu.created_eq env.now, hsecond]

theorem saveTask_main (w : World) (u : DownloadTask) : ((w.saveTask u).disk.tasks u.id).main = some (.written u) := by
  change (Function.update w.disk.tasks u.id ((w.disk.tasks u.id).commit (.written u)) u.id).main = _
  rw [Function.update_self]
  rfl

theorem Disk.Holds.saved (h : w.disk.Holds t) (hu : u.Fresh)
    (hsame : u.id = t.id → u.createdAt / oneSecond = t.createdAt / oneSecond) :
    (w.saveTask u).disk.Holds t := by
  by_cases hid : t.id = u.id
  · refine ⟨u, ?_, hid.symm, hu, hsame hid.symm⟩
    rw [hid]
    exact saveTask_main w u
  · obtain ⟨v, hmain, hv⟩ := h
    refine ⟨v, ?_, hv⟩
    simpa [World.saveTask, hid] using hmain

/-! ## Creating and recovering -/

/-- A call of `createTask`. -/
structure Creation where
  env : Env
  request : CreateRequest

def Creation.task (c : Creation) : DownloadTask := newTask c.env c.request

/-- The numbers of a call are values of their types. -/
structure Creation.Typed (c : Creation) : Prop where
  now : c.env.now < 2 ^ 63
  requestedThreads : c.request.requestedThreads < 2 ^ 32
  rateLimit : ∀ n ∈ c.request.taskRateLimitBytesPerSec, n < 2 ^ 64

def createAll : List Creation → Prog World Exn (List DownloadTask)
  | [] => pure []
  | c :: cs => do
    let t ← createTask c.env c.request
    let ts ← createAll cs
    pure (t :: ts)

theorem Creation.Typed.fresh {c : Creation} (h : c.Typed) : c.task.Fresh where
  chunks := rfl
  status := by
    change (if c.request.queueOnly then TaskStatus.queued else .pending) = .pending ∨ _
    split
    · exact .inr (if_pos ‹_›)
    · exact .inl rfl
  inRange :=
    { fileSize := Nat.two_pow_pos _
      rateLimit := fun n hn => (h.rateLimit n hn).le
      peakSpeed := ⟨0, Binary64.whole_of_le (by decide), by decide, rfl⟩
      schedulerMaxChunks := Nat.two_pow_pos _
      schedulerPriority := Nat.two_pow_pos _
      failedChunks := Nat.two_pow_pos _
      persistedRetryCount := Nat.two_pow_pos _
      requestedThreads := lt_64_of_lt_32 h.requestedThreads
      chunks := List.forall_mem_nil _ }
  counts :=
    { fileSize := Nat.zero_le _
      downloaded := Nat.zero_le _
      peakSpeed := ⟨0, by decide, rfl⟩
      schedulerMaxChunks := Nat.two_pow_pos _
      schedulerPriority := Nat.two_pow_pos _
      failedChunks := Nat.two_pow_pos _
      persistedRetryCount := Nat.two_pow_pos _
      requestedThreads := h.requestedThreads
      chunks := List.forall_mem_nil _ }
  createdAt := h.now

/-- A call that returns has written its task and no other file. -/
theorem createTask_holds {c : Creation} (h : c.Typed) :
    wp (createTask c.env c.request)
      (fun t w' => t = c.task ∧ w'.disk.Holds c.task ∧ ∀ u, u.id ≠ c.request.id → w.disk.Holds u → w'.disk.Holds u)
      (fun _ _ => True) (fun _ => True) w := by
  simp only [createTask, ensureTaskTempDir, wp_bind, wp_modify, wp_pure]
  refine wp_fileOp (fun _ => ?_) (fun _ _ => trivial) (fun _ _ => trivial)
  refine wp_saveTask (fun _ => ⟨rfl, ?_, ?_⟩) (fun _ _ => trivial) (fun _ _ => trivial)
  · exact ⟨c.task, saveTask_main _ c.task, rfl, h.fresh, rfl⟩
  · intro u hu hholds
    have hother : u.id ≠ (newTask c.env c.request).id := hu
    exact Disk.Holds.saved hholds h.fresh fun he => absurd he.symm hother

theorem createAll_holds : ∀ (cs : List Creation) (w : World), (∀ c ∈ cs, c.Typed) → (cs.map (·.request.id)).Nodup →
    wp (createAll cs)
      (fun ts w' => ts = cs.map Creation.task ∧ (∀ c ∈ cs, w'.disk.Holds c.task) ∧
        ∀ u : DownloadTask, u.id ∉ cs.map (·.request.id) → w.disk.Holds u → w'.disk.Holds u)
      (fun _ _ => True) (fun _ => True) w
  | [], w, _, _ => ⟨rfl, List.forall_mem_nil _, fun _ _ h => h⟩
  | c :: cs, w, htyped, hids => by
    obtain ⟨hc, hids⟩ := List.nodup_cons.1 hids
    simp only [createAll, wp_bind, wp_pure]
    refine wp_mono (createTask_holds (htyped c List.mem_cons_self)) ?_ (fun _ _ _ => trivial) (fun _ _ => trivial)
    rintro t w₁ ⟨rfl, hholds, hothers⟩
    refine wp_mono (createAll_holds cs w₁ (fun c' hc' => htyped c' (List.mem_cons_of_mem _ hc')) hids) ?_
      (fun _ _ _ => trivial) (fun _ _ => trivial)
    rintro ts w₂ ⟨rfl, hrest, hkept⟩
    refine ⟨rfl, List.forall_mem_cons.2 ⟨hkept _ hc hholds, hrest⟩, ?_⟩
    intro u hu hheld
    rw [List.map_cons, List.mem_cons, not_or] at hu
    exact hkept u hu.2 (hothers u hu.1 hheld)

theorem repairFromDisk_fresh (h : u.Fresh) : repairFromDisk env u = pure u := by
  have hstatus : ¬ (u.status = .downloading ∨ u.status = .retrying) := by
    rcases h.status with hst | hst <;> rw [hst] <;> decide
  have hrepairs : repairsStatus u = false := by
    rcases h.status with hst | hst <;> simp [repairsStatus, h.chunks, hst]
  rw [repairFromDisk, if_pos h.chunks, recordRepair, hrepairs, repairEmpty, if_neg hstatus]
  rfl

/-- Recovery leaves a fresh task as it was read. -/
theorem recoverLoop_holds (env : Env) : ∀ (l : List DownloadTask) (w : World),
    (∀ u ∈ l, u.Fresh ∧ (u.id = t.id → u.createdAt / oneSecond = t.createdAt / oneSecond)) → w.disk.Holds t →
    wp (recoverLoop env l) (fun _ w' => w'.disk.Holds t) (fun _ _ => True) (fun _ => True) w
  | [], _, _, h => h
  | u :: l, w, hl, h => by
    obtain ⟨hu, hsame⟩ := hl u List.mem_cons_self
    have hopen : u.status ≠ .corrupted := by
      rcases hu.status with hst | hst <;> rw [hst] <;> decide
    rw [recoverLoop, if_neg hopen, repairFromDisk_fresh hu]
    simp only [wp_bind, wp_pure]
    refine wp_saveTask (fun _ => ?_) (fun _ _ => trivial) (fun _ _ => trivial)
    refine wp_mono (recoverLoop_holds env l _ (fun v hv => hl v (List.mem_cons_of_mem _ hv)) ?_) (fun _ _ h => h)
      (fun _ _ _ => trivial) (fun _ _ => trivial)
    exact Disk.Holds.saved h hu hsame

/-! ## Different seconds -/

/-- In what order the tasks were made, by the second. -/
def MadeInOrder (ts : List DownloadTask) : Prop :=
  ts.Pairwise (fun a b => a.createdAt / oneSecond < b.createdAt / oneSecond)

theorem scanned_all (hholds : ∀ t ∈ ts, d.Holds t) (hscan : scan.Perm (ts.map (·.id))) :
    scan.filter (fun id => (d.tasks id).main.isSome) = scan := by
  refine List.filter_eq_self.2 fun id hid => ?_
  obtain ⟨t, ht, rfl⟩ := List.mem_map.1 (hscan.subset hid)
  obtain ⟨u, hmain, -⟩ := hholds t ht
  rw [hmain]
  rfl

/-- There is only one list to load. -/
theorem mayLoad_ordered (hholds : ∀ t ∈ ts, d.Holds t) (horder : MadeInOrder ts) (hscan : scan.Perm (ts.map (·.id)))
    (hload : d.MayLoad torn env scan l) : l = ts.map (fun t => d.entryBytes torn env t.id) := by
  obtain ⟨hperm, hsorted⟩ := hload
  rw [scanned_all hholds hscan] at hperm
  have hentries : l.Perm (ts.map (fun t => d.entryBytes torn env t.id)) := by
    have hmapped := hperm.trans (hscan.map (d.entryBytes torn env))
    rwa [List.map_map] at hmapped
  refine SortBy.eq_of_sorted hentries hsorted (List.pairwise_map.2 ?_)
  refine List.Pairwise.imp_of_mem ?_ horder
  intro a b ha hb hab
  rw [((hholds a ha).entry torn env).2.2, ((hholds b hb).entry torn env).2.2]
  exact Nat.mul_lt_mul_of_pos_right hab (by decide)

theorem ids_of_entries (hholds : ∀ t ∈ ts, d.Holds t) :
    (ts.map (fun t => d.entryBytes torn env t.id)).map (·.id) = ts.map (·.id) := by
  rw [List.map_map]
  exact List.map_congr_left fun t ht => ((hholds t ht).entry torn env).1

theorem keepsOrder_of_seconds (hids : (ts.map (·.id)).Nodup) (hholds : ∀ t ∈ ts, w.disk.Holds t)
    (horder : MadeInOrder ts) :
    KeepsOrder w (ts.map (·.id)) where
  loads := by
    intro torn env scan l hscan hload
    rw [mayLoad_ordered hholds horder hscan hload, ids_of_entries hholds]
  selects := by
    rintro torn r l hscan hagain ⟨listed, recovered, w₁, again, hlisted, hrun, hload, rfl⟩
    have hentries := mayLoad_ordered hholds horder hscan hlisted
    -- every file is written once more, with what was read from it
    have hkept : ∀ t ∈ ts, w₁.disk.Holds t := by
      intro t ht
      have hrecovered := recoverLoop_holds r.recover listed w ?_ (hholds t ht)
      · rwa [wp_of_ok hrun] at hrecovered
      rw [hentries]
      intro u hu
      obtain ⟨t', ht', rfl⟩ := List.mem_map.1 hu
      obtain ⟨hid, hfresh, hcreated⟩ := (hholds t' ht').entry torn r.recover
      refine ⟨hfresh, fun hsame => ?_⟩
      obtain rfl : t' = t := List.inj_on_of_nodup_map hids ht' ht (hid.symm.trans hsame)
      rw [hcreated, Nat.mul_div_cancel _ (by decide)]
    have hagain := mayLoad_ordered hkept horder hagain hload
    have hall : again.filter (fun t => runnableStatus t.status) = again := by
      refine List.filter_eq_self.2 fun u hu => ?_
      rw [hagain] at hu
      obtain ⟨t, ht, rfl⟩ := List.mem_map.1 hu
      exact ((hkept t ht).entry torn r.recover).2.1.runnable
    rw [hall, hagain, ids_of_entries hkept]

/-! ## One second -/

/-- A scan that meets the newest first lists two tasks of one second the wrong way round. -/
theorem order_lost {a b : DownloadTask} (hids : (ts.map (·.id)).Nodup) (hholds : ∀ t ∈ ts, d.Holds t)
    (hsub : List.Sublist [a, b] ts) (hsame : a.createdAt / oneSecond = b.createdAt / oneSecond) (torn : Text)
    (env : Env) :
    ∃ scan l, scan.Perm (ts.map (·.id)) ∧ d.MayLoad torn env scan l ∧ l.map (·.id) ≠ ts.map (·.id) := by
  have hscan : (ts.map (·.id)).reverse.Perm (ts.map (·.id)) := List.reverse_perm _
  have hina : a ∈ ts := hsub.subset (by simp)
  have hinb : b ∈ ts := hsub.subset (by simp)
  obtain ⟨hida, -, hkeya⟩ := (hholds a hina).entry torn env
  obtain ⟨hidb, -, hkeyb⟩ := (hholds b hinb).entry torn env
  refine ⟨_, _, hscan, d.mayLoad_stable torn env _, ?_⟩
  rw [scanned_all hholds hscan]
  intro horder
  -- only the two tasks are looked at, before and after the sort
  let two : TaskId → Bool := fun id => id = a.id || id = b.id
  have hpair : List.Sublist [a.id, b.id] (ts.map (·.id)) := List.Sublist.map DownloadTask.id hsub
  have hmade : (ts.map (·.id)).filter two = [a.id, b.id] := SortBy.filter_pair hids hpair (by simp [two])
  have hmet : (ts.map (·.id)).reverse.filter two = [b.id, a.id] := by
    rw [List.filter_reverse, hmade]
    rfl
  have hentries : ((ts.map (·.id)).reverse.map (d.entryBytes torn env)).filter (fun t => two t.id) =
      [d.entryBytes torn env b.id, d.entryBytes torn env a.id] := by
    have hids : ∀ id ∈ (ts.map (·.id)).reverse, two (d.entryBytes torn env id).id = two id := by
      intro id hid
      obtain ⟨t, ht, rfl⟩ := List.mem_map.1 (List.mem_reverse.1 hid)
      rw [((hholds t ht).entry torn env).1]
    rw [List.filter_map]
    change List.map _ (List.filter (fun id => two (d.entryBytes torn env id).id) _) = _
    rw [List.filter_congr hids, hmet]
    rfl
  have htie : (d.entryBytes torn env b.id).createdAt ≤ (d.entryBytes torn env a.id).createdAt := by
    rw [hkeya, hkeyb, hsame]
  have hlisted := congrArg (List.filter two) horder
  rw [List.filter_map, hmade] at hlisted
  change List.map _ (List.filter (fun t : DownloadTask => two t.id) _) = _ at hlisted
  rw [SortBy.filter_insertionSort_pair DownloadTask.createdAt hentries htie, List.map_cons, hidb] at hlisted
  have hba : b.id = a.id := (List.cons.inj hlisted).1
  have hn := hpair.nodup hids
  rw [hba] at hn
  simp at hn

/-! ## Runs of createTask -/

theorem made_iff (cs : List Creation) (hnow : cs.Pairwise (fun a b => a.env.now < b.env.now)) :
    MadeInOrder (cs.map Creation.task) ↔ cs.Pairwise (fun a b => a.env.now / oneSecond ≠ b.env.now / oneSecond) := by
  rw [MadeInOrder, List.pairwise_map]
  constructor
  · exact List.Pairwise.imp fun h => ne_of_lt h
  · intro hapart
    refine (hapart.and hnow).imp ?_
    rintro a b ⟨hne, hlt⟩
    exact lt_of_le_of_ne (Nat.div_le_div_right hlt.le) hne

/-- The order in which tasks were made survives in the store exactly when no two of them were made in one second. -/
theorem creation_order_survives_iff (cs : List Creation) (w₀ w : World) (ts : List DownloadTask)
    (htyped : ∀ c ∈ cs, c.Typed)
    (hids : (cs.map (·.request.id)).Nodup) (hnow : cs.Pairwise (fun a b => a.env.now < b.env.now))
    (hrun : (createAll cs).run w₀ = (.ok ts, w)) :
    KeepsOrder w (ts.map (·.id)) ↔ cs.Pairwise (fun a b => a.env.now / oneSecond ≠ b.env.now / oneSecond) := by
  have hcreated := createAll_holds cs w₀ htyped hids
  rw [wp_of_ok hrun] at hcreated
  obtain ⟨rfl, hholds, -⟩ := hcreated
  have hids : ((cs.map Creation.task).map (·.id)).Nodup := by rwa [List.map_map]
  have hholds : ∀ t ∈ cs.map Creation.task, w.disk.Holds t := List.forall_mem_map.2 hholds
  rw [← made_iff cs hnow]
  refine ⟨fun hkeeps => ?_, keepsOrder_of_seconds hids hholds⟩
  rw [made_iff cs hnow, List.pairwise_iff_forall_sublist]
  intro a b hsub hsame
  have hsub : List.Sublist [a.task, b.task] (cs.map Creation.task) := List.Sublist.map Creation.task hsub
  obtain ⟨scan, l, hscan, hload, hlost⟩ := order_lost hids hholds hsub hsame [] a.env
  exact hlost (hkeeps.loads [] a.env scan l hscan hload)

/-- Two calls, the second `gap` nanoseconds after the first. -/
def twoCalls (gap : Nat) : List Creation :=
  [{ env := { protocol := .silent }
     request := { id := text "1", url := text "http://host/a", fileName := text "a", targetPath := text "/a" } },
   { env := { protocol := .silent, now := gap }
     request := { id := text "2", url := text "http://host/b", fileName := text "b", targetPath := text "/b" } }]

theorem twoCalls_typed {gap : Nat} (h : gap < 2 ^ 63) : ∀ c ∈ twoCalls gap, c.Typed := by
  intro c hc
  rcases List.mem_pair.1 hc with rfl | rfl
  · exact ⟨by decide, Nat.two_pow_pos _, fun _ h => by cases h⟩
  · exact ⟨h, Nat.two_pow_pos _, fun _ h => by cases h⟩

theorem twoCalls_run (gap : Nat) :
    (createAll (twoCalls gap)).run
      {} = (.ok ((twoCalls gap).map Creation.task), ((createAll (twoCalls gap)).run {}).2) := rfl

theorem creation_order_survives_second : KeepsOrder ((createAll (twoCalls oneSecond)).run {}).2 [text "1", text "2"] :=
  (creation_order_survives_iff (twoCalls oneSecond) {} _ _ (twoCalls_typed (by decide)) (by decide) (by decide)
    (twoCalls_run oneSecond)).2 (by decide)

/-- A nanosecond apart, the second task can be loaded first. -/
theorem later_task_first :
    (twoCalls 1).Pairwise (fun a b => a.env.now < b.env.now) ∧
      ∃ scan l, scan.Perm [text "1", text "2"] ∧
        ((createAll (twoCalls 1)).run {}).2.disk.MayLoad [] { protocol := .silent } scan l ∧
          l.map (·.id) ≠ [text "1", text "2"] := by
  refine ⟨by decide, ?_⟩
  have hcreated := createAll_holds (twoCalls 1) {} (twoCalls_typed (by decide)) (by decide)
  rw [wp_of_ok (twoCalls_run 1)] at hcreated
  have hholds := List.forall_mem_map.2 hcreated.2.1
  exact order_lost (by decide) hholds (List.Sublist.refl _) rfl [] { protocol := .silent }

end Cget
