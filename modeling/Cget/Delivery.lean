import Cget.Destination
import Cget.Sessions
import Cget.Settlement
/-!
# What Completed says of the target

A session saves Completed after it has merged the parts and checked the result. Recovery
saves it when the part files of an unfinished task add up to its size, merged or not. So the
status tells the truth in every run whose recoveries find all parts of an unfinished task
only where the merged file is there too.
-/

namespace Cget

open Prog SchedState

variable {sha : Bytes → Text} {id : TaskId} {target : Path} {env : Env} {envs : TaskId → Env} {w w' : World}
  {t t' u : DownloadTask} {ts : List DownloadTask} {s : Session}

/-- The file at the target has the size of the task, and the digest if one is expected. -/
def delivered (sha : Bytes → Text) (w : World) (t : DownloadTask) : Bool :=
  match w.disk.out t.targetPath with
  | none => false
  | some b =>
    b.length = t.fileSize && (t.expectedSha256.map fun digest => decide (sha b = lowercaseHex digest)).getD true

theorem delivered_iff : delivered sha w t ↔ ∃ b, w.disk.out t.targetPath = some b ∧ b.length = t.fileSize ∧
    ∀ digest, t.expectedSha256 = some digest → sha b = lowercaseHex digest := by
  unfold delivered
  cases w.disk.out t.targetPath with
  | none => simp
  | some b => cases t.expectedSha256 <;> simp

theorem delivered_same (h : delivered sha w t) (hout : w'.disk.out t'.targetPath = w.disk.out t.targetPath)
    (hsize : t'.fileSize = t.fileSize) (hdigest : t'.expectedSha256 = t.expectedSha256) : delivered sha w' t' := by
  unfold delivered at h ⊢
  rw [hout, hsize, hdigest]
  exact h

/-! ## The versions in the store -/

/-- No version of the task that loads is Completed. -/
def NoneCompleted (id : TaskId) (w : World) : Prop :=
  ∀ x t, (w.disk.tasks id).main = some x ∨ (w.disk.tasks id).bak = some x → taskFromJson x = some t →
  t.status ≠ .completed

theorem NoneCompleted.files (h : NoneCompleted id w) (hsame : w'.disk.tasks id = w.disk.tasks id) :
    NoneCompleted id w' := by
  rintro x t hx
  rw [hsame] at hx
  exact h x t hx

theorem NoneCompleted.save (h : NoneCompleted id w) (ht : t.id = id → t.status ≠ .completed) :
    NoneCompleted id (w.saveTask t) := by
  intro x u hx hu
  rcases saveTask_texts hx with ⟨hid, rfl⟩ | hx
  · obtain rfl : t = u := by
      have := (taskFromJson_some hu).1
      cases this
      rfl
    exact ht hid.symm
  · exact h x u hx hu

/-- The version that loads is Completed, and the file is there. -/
def Fulfilled (sha : Bytes → Text) (id : TaskId) (target : Path) (w : World) : Prop :=
  ∃ x t, (w.disk.tasks id).main = some x ∧ taskFromJson x = some t ∧ t.status = .completed ∧ t.targetPath = target ∧
  delivered sha w t

/-- If the task is Completed for the loader, it has been delivered. -/
def Honest (sha : Bytes → Text) (id : TaskId) (target : Path) (w : World) : Prop :=
  NoneCompleted id w ∨ Fulfilled sha id target w

theorem Fulfilled.same (h : Fulfilled sha id target w) (hfiles : w'.disk.tasks id = w.disk.tasks id)
    (hout : w'.disk.out target = w.disk.out target) : Fulfilled sha id target w' := by
  obtain ⟨x, t, hmain, hread, hst, rfl, hdelivered⟩ := h
  exact ⟨x, t, by rw [hfiles, hmain], hread, hst, rfl, delivered_same hdelivered hout rfl rfl⟩

theorem Honest.same (h : Honest sha id target w) (hfiles : w'.disk.tasks id = w.disk.tasks id)
    (hout : w'.disk.out target = w.disk.out target) : Honest sha id target w' :=
  h.imp (·.files hfiles) (·.same hfiles hout)

theorem NoneCompleted.loads (h : NoneCompleted id w) (hload : w.disk.loadTask id = some t) : t.status ≠ .completed := by
  exact h (.written t) t (load_spec hload) (taskFromJson_written (load_fits hload))

theorem Fulfilled.loads (h : Fulfilled sha id target w) (hload : w.disk.loadTask id = some t) :
    t.status = .completed ∧ delivered sha w t := by
  obtain ⟨x, u, hmain, hread, hst, -, hdelivered⟩ := h
  rw [Disk.loadTask, TaskFiles.load, hmain, Option.bind_some, hread, Option.some_or, Option.some.injEq] at hload
  subst hload
  exact ⟨hst, hdelivered⟩

theorem Honest.loads (h : Honest sha id target w) (hload : w.disk.loadTask id = some t) (hst : t.status = .completed) :
    delivered sha w t := by
  rcases h with h | h
  · exact absurd hst (h.loads hload)
  · exact (h.loads hload).2

/-- A task that is saved Completed, and loads, has been delivered. -/
theorem Fulfilled.save (hid : t.id = id) (htarget : t.targetPath = target) (hst : t.status = .completed)
    (hfits : t.Fits) (hdelivered : delivered sha w t) : Fulfilled sha id target (w.saveTask t) :=
  ⟨.written t, t, by simp [World.saveTask, TaskFiles.commit, ← hid], hfits.loads, hst, htarget,
    delivered_same hdelivered rfl rfl rfl⟩

theorem Honest.save (h : NoneCompleted id w) (hid : t.id = id) (htarget : t.targetPath = target)
    (hdelivered : delivered sha w t) :
    Honest sha id target (w.saveTask t) := by
  by_cases hread : t.status = .completed ∧ t.Fits
  · exact .inr (Fulfilled.save hid htarget hread.1 hread.2 hdelivered)
  · refine .inl fun x u hx hu hst => ?_
    rcases saveTask_texts hx with ⟨-, rfl⟩ | hx
    · obtain ⟨heq, hfits⟩ := taskFromJson_some hu
      cases heq
      exact hread ⟨hst, hfits⟩
    · exact h x u hx hu hst

/-! ## Sessions -/

/-- The task goes to the target, and no other one goes there. -/
def Apart (id : TaskId) (target : Path) (t : DownloadTask) : Prop :=
  (t.id = id → t.targetPath = target) ∧
  (t.id ≠ id → ¬ OneFile t.targetPath target ∧ ¬ OneFile (tempTarget t.targetPath) target)

theorem Apart.same (h : Apart id target t) (hid : t'.id = t.id) (htarget : t'.targetPath = t.targetPath) :
    Apart id target t' := by
  unfold Apart
  rw [hid, htarget]
  exact h

theorem apart_rule : StoreRule (Filed (Apart id target)) (Apart id target) :=
  filed_rule fun _ _ hsame ht => ht.same hsame.1 hsame.2.2.1

/-- A task that may still be at work. -/
structure Waiting (id : TaskId) (target : Path) (t : DownloadTask) : Prop where
  apart : Apart id target t
  status : t.id = id → t.status ≠ .completed

/-- A session before its end. -/
def Calm (id : TaskId) (target : Path) : Session → Prop := Beside (NoneCompleted id) (Waiting id target)

theorem waiting_rule : QueueRule (NoneCompleted id) (Waiting id target) where
  tick _ _ h := ⟨h.1, h.2⟩
  task _ t h ht := ⟨h.1, h.2.apart.same ht.1.1 ht.1.2.2.1,
    fun hid => by rw [ht.1.2.2.2.2.2]; exact h.2.status (ht.1.1.symm.trans hid)⟩
  status _ st h hst := ⟨h.1, h.2.apart, fun _ heq => by
    change st = _ at heq
    subst heq
    cases hst⟩
  saved _ h := ⟨h.1.save h.2.status, h.2⟩
  part _ _ _ h := ⟨h.1, h.2⟩
  progress _ t h ht := ⟨h.1, h.2.apart.same ht.1 ht.2.2.1,
    fun hid => by rw [ht.2.2.2.2.2]; exact h.2.status (ht.1.symm.trans hid)⟩
  logged _ _ h _ := ⟨h.1, h.2⟩
  logs _ _ h := h

/-- The `catch` clauses set another status. -/
theorem failWith_none {e : Exn} (h : NoneCompleted id s.world) :
    wp (failWith env e) (fun _ s' => NoneCompleted id s'.world) (fun _ s' => NoneCompleted id s'.world)
      (fun s' => NoneCompleted id s'.world) s := by
  have hset : ∀ {st : TaskStatus} {message : Text}, Failing st →
      wp (setFailure env st message) (fun _ s' => NoneCompleted id s'.world)
      (fun _ s' => NoneCompleted id s'.world) (fun s' => NoneCompleted id s'.world) s := by
    intro st message hst
    have hne : st ≠ .completed := by rcases hst with rfl | rfl <;> decide
    exact wp_setFailure (fun _ => h.save fun _ => hne) (fun _ _ => h) fun _ _ => h
  unfold failWith
  split
  · exact hset (.inr rfl)
  · exact hset (.inl rfl)

theorem verifyChecksum_calm {b : Bytes} (h : Calm id target s) (hb : s.world.disk.out s.task.targetPath = some b) :
    wp (verifyChecksum env)
      (fun ok s' => if ok then s'.task = s.task ∧ s'.world.disk = s.world.disk ∧
        s.task.digestOk env b else Calm id target s')
      (fun _ => Calm id target) (Calm id target) s := by
  have hticked : ∀ n, Calm id target { s with world := { s.world with tick := n } } := fun n => waiting_rule.tick s n h
  refine wp_verifyChecksum hb (fun n hok => ⟨rfl, rfl, fun digest hd => (hok digest hd).2⟩) (fun n digest _ _ _ => ?_)
    (fun n _ _ _ => hticked n) (fun n _ _ => hticked n)
  have hfail : Keeps (Calm id target) (setFailure env .failed (checksumMessage (lowercaseHex digest) (env.sha256 b))) :=
    waiting_rule.setFailure (by decide) _
  exact hfail _ (hticked n)

/-- The task's own merge: Completed is saved after the file is in place. -/
theorem mergeAndComplete_honest (hsha : env.sha256 = sha) (h : Calm id target s) (hid : s.task.id = id) :
    wp (mergeAndComplete env) (fun _ s' => Honest sha id target s'.world) (fun _ s' => NoneCompleted id s'.world)
      (fun s' => NoneCompleted id s'.world) s := by
  unfold mergeAndComplete
  simp only [wp_bind, wp_get, onWorld, wp_focus]
  have hmerged : ∀ w', OnlyTarget s.task.targetPath s.world w' → Calm id target { s with world := w' } := fun w' hw =>
    ⟨h.1.files (by rw [hw.tasks]), h.2⟩
  refine wp_mono mergeChunks_wp ?_ (fun _ w' hw => (hmerged w' hw.1).1) (fun w' hw => (hmerged w' hw.1).1)
  rintro _ w' ⟨hw, -, b, hassembled, hb⟩
  refine wp_mono (verifyChecksum_calm (hmerged w' hw) hb) ?_ (fun _ _ h => h.1) (fun _ h => h.1)
  intro ok s' hs'
  cases ok with
  | false => exact .inl hs'.1
  | true =>
    obtain ⟨htask, hdisk, hdigest⟩ := hs'
    dsimp only at htask hdisk hdigest
    rw [if_pos rfl, wp_bind, wp_updateTask, wp_bind, setStatus, wp_modify, wp_bind, wp_updateTask]
    have hnone : NoneCompleted id s'.world := (hmerged w' hw).1.files (by rw [hdisk])
    have hdelivered : delivered sha w' s.task :=
      delivered_iff.2 ⟨b, hb, (assembled_some hassembled).1, fun digest hd => hsha ▸ hdigest digest hd⟩
    refine wp_persistTask (fun _ => ?_) (fun _ _ => hnone) fun _ _ => hnone
    have hname : s'.task.id = id := (congrArg (·.id) htask).trans hid
    have htarget : s'.task.targetPath = s.task.targetPath := congrArg (·.targetPath) htask
    have hout : s'.world.disk.out s'.task.targetPath = w'.disk.out s.task.targetPath := by rw [hdisk, htarget]
    refine Honest.save (hnone.files rfl) hname (htarget.trans (h.2.apart.1 hid)) ?_
    exact delivered_same hdelivered hout (congrArg (·.fileSize) htask) (congrArg (·.expectedSha256) htask)

theorem download_honest (hsha : env.sha256 = sha) (h : Calm id target s) (hid : s.task.id = id) :
    wp (download env) (fun _ s' => Honest sha id target s'.world) (fun _ s' => Honest sha id target s'.world)
      (fun s' => Honest sha id target s'.world) s := by
  have hcatch : ∀ (e : Exn) (s' : Session), NoneCompleted id s'.world →
      wp (failWith env e) (fun _ s' => Honest sha id target s'.world)
      (fun _ s' => Honest sha id target s'.world) (fun s' => Honest sha id target s'.world) s' := fun e s' hnone =>
    wp_mono (failWith_none hnone) (fun _ _ h => .inl h) (fun _ _ h => .inl h) (fun _ h => .inl h)
  have htransfer : wp (transfer env) (fun _ s' => Calm id target s' ∧ s'.task.id = id)
      (fun _ s' => Calm id target s' ∧ s'.task.id = id) (fun s' => Calm id target s' ∧ s'.task.id = id) s :=
    wp_and (waiting_rule.transfer s h) (tolerates_id.transfer s hid)
  unfold download
  rw [wp_tryCatch, wp_bind]
  refine wp_mono htransfer ?_ (fun e s' hs' => hcatch e s' hs'.1.1) (fun _ hs' => .inl hs'.1.1)
  rintro r s' ⟨hcalm, hid'⟩
  cases r with
  | transferred => exact wp_mono (mergeAndComplete_honest hsha hcalm hid') (fun _ _ h => h) hcatch (fun _ h => .inl h)
  | failed => exact .inl hcalm.1

theorem finalize_honest (hsha : env.sha256 = sha) (h : Calm id target s) (hid : s.task.id = id) :
    wp (finalizePreparedTask env) (fun _ s' => Honest sha id target s'.world)
      (fun _ s' => Honest sha id target s'.world) (fun s' => Honest sha id target s'.world) s := by
  have hkept : ∀ {m : EngineM Unit}, Keeps (Calm id target) m → wp m (fun _ s' => Honest sha id target s'.world)
      (fun _ s' => Honest sha id target s'.world) (fun s' => Honest sha id target s'.world) s := fun hm =>
    wp_mono (hm s h) (fun _ _ h => .inl h.1) (fun _ _ h => .inl h.1) (fun _ h => .inl h.1)
  unfold finalizePreparedTask
  rw [wp_bind, wp_get]
  split
  · exact hkept waiting_rule.persistTask
  · split
    · exact hkept (waiting_rule.setFailure (by decide) _)
    · exact wp_mono (mergeAndComplete_honest hsha h hid) (fun _ _ h => h) (fun _ _ h => .inl h) (fun _ h => .inl h)

/-! ## Other tasks -/

/-- `G` looks at the files of the task and at the target only. -/
def Local (id : TaskId) (target : Path) (G : World → Prop) : Prop :=
  ∀ w w' : World, w'.disk.tasks id = w.disk.tasks id → w'.disk.out target = w.disk.out target → G w → G w'

theorem noneCompleted_local : Local id target (NoneCompleted id) := fun _ _ hfiles _ h => h.files hfiles

theorem honest_local : Local id target (Honest sha id target) := fun _ _ hfiles hout h => h.same hfiles hout

/-- Another task, that goes elsewhere. -/
structure Bystander (id : TaskId) (target : Path) (t : DownloadTask) : Prop where
  other : t.id ≠ id
  elsewhere : ¬ OneFile t.targetPath target
  temp : ¬ OneFile (tempTarget t.targetPath) target

theorem Apart.bystander (h : Apart id target t) (hid : t.id ≠ id) : Bystander id target t :=
  ⟨hid, (h.2 hid).1, (h.2 hid).2⟩

theorem Bystander.same (h : Bystander id target t) (hid : t'.id = t.id) (htarget : t'.targetPath = t.targetPath) :
    Bystander id target t' :=
  ⟨hid.symm ▸ h.other, htarget.symm ▸ h.elsewhere, htarget.symm ▸ h.temp⟩

theorem bystander_rule {G : World → Prop} (hG : Local id target G) : FinishRule G (Bystander id target) where
  tick s _ h := ⟨hG s.world _ rfl rfl h.1, h.2⟩
  task _ _ h ht := ⟨h.1, h.2.same ht.1.1 ht.1.2.2.1⟩
  status s _ h _ := ⟨hG s.world _ rfl rfl h.1, h.2.same rfl rfl⟩
  saved _ h := ⟨hG _ _ (files_saveTask h.2.other) rfl h.1, h.2⟩
  part s _ _ h := ⟨hG s.world _ rfl rfl h.1, h.2⟩
  progress _ _ h ht := ⟨h.1, h.2.same ht.1 ht.2.2.1⟩
  logged s _ h _ := ⟨hG s.world _ rfl rfl h.1, h.2⟩
  logs w _ h := hG w _ rfl rfl h
  out _ _ _ hw ht h := hG _ _ (by rw [hw.tasks]) (hw.out _ (fun h => ht.elsewhere h.symm) fun h => ht.temp h.symm) h
  anyStatus _ _ _ h := h.same rfl rfl

/-! ## The queue -/

/-- The task's own end in the queue. -/
theorem finishTask_honest (hsha : (envs t.id).sha256 = sha) (hw : NoneCompleted id w) (ht : Waiting id target t)
    (hid : t.id = id) :
    wp (finishTask envs t) (fun _ => Honest sha id target) (fun _ => Honest sha id target)
      (Honest sha id target) w := by
  have hcalm : Calm id target { world := w, task := t } := ⟨hw, ht⟩
  unfold finishTask
  split
  · exact wp_onTask.2 (download_honest hsha hcalm hid)
  · split
    · exact wp_onTask.2 (finalize_honest hsha hcalm hid)
    · exact .inl hw

theorem finishAll_honest (hsha : ∀ n, (envs n).sha256 = sha) :
    ∀ (ts : List DownloadTask) (w : World), (ts.map (·.id)).Nodup →
    NoneCompleted id w → (∀ t ∈ ts, Waiting id target t) →
    wp (finishAll envs ts) (fun _ => Honest sha id target) (fun _ => Honest sha id target) (Honest sha id target) w
  | [], _, _, hw, _ => .inl hw
  | t :: ts, w, hnodup, hw, hts => by
    rw [List.map_cons, List.nodup_cons] at hnodup
    have ht := hts t List.mem_cons_self
    have hrest : ∀ u ∈ ts, Waiting id target u := fun u hu => hts u (List.mem_cons_of_mem _ hu)
    unfold finishAll
    rw [wp_bind]
    by_cases hid : t.id = id
    · refine wp_mono (finishTask_honest (hsha t.id) hw ht hid) ?_ (fun _ _ h => h) (fun _ h => h)
      intro _ w₁ h₁
      have hothers : ∀ u ∈ ts, Bystander id target u := fun u hu =>
        (hrest u hu).apart.bystander fun hid' => hnodup.1 (hid.trans hid'.symm ▸ List.mem_map_of_mem hu)
      exact ((finishAll_beside (bystander_rule honest_local) ts hothers).bind fun _ => KeepsOr.pure _) w₁ h₁
    · refine wp_mono (finishTask_beside (bystander_rule noneCompleted_local) (ht.apart.bystander hid) w hw) ?_
        (fun _ _ h => .inl h) (fun _ h => .inl h)
      intro _ w₁ h₁
      rw [wp_bind]
      exact wp_mono (finishAll_honest hsha ts w₁ hnodup.2 h₁ hrest) (fun _ _ h => h) (fun _ _ h => h) (fun _ h => h)

theorem runRunnable_honest {r : QueueRun} (hsha : ∀ n, (r.finish n).sha256 = sha) (hnodup : (ts.map (·.id)).Nodup)
    (hw : NoneCompleted id w ∧ (∀ t ∈ ts, Waiting id target t) ∨ Honest sha id target w ∧
      ∀ t ∈ ts, Bystander id target t) :
    wp (runRunnable r ts) (fun _ => Honest sha id target) (fun _ => Honest sha id target) (Honest sha id target) w := by
  rcases hw with ⟨hw, hts⟩ | ⟨hw, hts⟩
  · exact runRunnable_beside waiting_rule hw hts (fun _ h => .inl h) fun ts' w' hw' hts' hids =>
      finishAll_honest hsha ts' w' (hids ▸ hnodup) hw' hts'
  · exact runRunnable_beside (bystander_rule honest_local).toQueueRule hw hts (fun _ h => h) fun ts' w' hw' hts' _ =>
      finishAll_beside (bystander_rule honest_local) ts' hts' w' hw'

/-! ## Recovery -/

/-- The part files of a task are as long as its chunks. -/
def PartsFull (d : Disk) (t : DownloadTask) : Prop := ∀ c ∈ t.chunks, c.size ≤ fileSize (t.partOn d c)

instance (d : Disk) (t : DownloadTask) : Decidable (PartsFull d t) :=
  inferInstanceAs (Decidable (∀ c ∈ t.chunks, _ ≤ _))

/-- If an unfinished task has all its parts, its file has been merged. -/
def MergedIfFull (sha : Bytes → Text) (w : World) (t : DownloadTask) : Prop :=
  unfinishedStatus t.status → t.chunks ≠ [] → PartsFull w.disk t → delivered sha w t

instance (sha : Bytes → Text) (w : World) (t : DownloadTask) : Decidable (MergedIfFull sha w t) :=
  inferInstanceAs (Decidable (_ → _ → _ → _))

/-- After the first chunk the parts are at most as long as before. -/
theorem partSizes_cons (t : DownloadTask) (d : Disk) (c : Chunk) (cs : List Chunk) :
    ∃ d', (∀ c', fileSize (t.partOn d' c') ≤ fileSize (t.partOn d c')) ∧
      partSizes t d (c :: cs) = min (fileSize (t.partOn d c)) c.size :: partSizes t d' cs := by
  refine ⟨_, fun c' => ?_, rfl⟩
  cases chunkPath t c with
  | ok p =>
    have hcut : Trimmed { disk := d } { disk := d.cut p c.size } := Trimmed.refl.cut
    exact List.IsPrefix.length_le hcut.partOn
  | error e => exact le_rfl

theorem partSizes_le (cs : List Chunk) : ∀ d, (partSizes t d cs).sum ≤ (cs.map (·.size)).sum := by
  induction cs with
  | nil => exact fun _ => le_rfl
  | cons c cs ih =>
    intro d
    obtain ⟨d', -, hsizes⟩ := partSizes_cons t d c cs
    rw [hsizes, List.sum_cons, List.map_cons, List.sum_cons]
    exact Nat.add_le_add (Nat.min_le_right _ _) (ih d')

/-- The sizes that recovery adds up reach the size of the file only if no part is too short. -/
theorem partSizes_full (cs : List Chunk) : ∀ d, (partSizes t d cs).sum = (cs.map (·.size)).sum →
    ∀ c ∈ cs, c.size ≤ fileSize (t.partOn d c) := by
  induction cs with
  | nil => exact fun _ _ => List.forall_mem_nil _
  | cons c cs ih =>
    intro d h
    obtain ⟨d', hshorter, hsizes⟩ := partSizes_cons t d c cs
    rw [hsizes, List.sum_cons, List.map_cons, List.sum_cons] at h
    have hrest := partSizes_le (t := t) cs d'
    refine List.forall_mem_cons.2 ⟨by omega, fun c' hc' => ?_⟩
    exact (ih d' (by omega) c' hc').trans (hshorter c')

theorem repaired_completed {sizes : List Nat} {d : Disk} (h : Repaired t sizes d t') (hst : t.status ≠ .completed)
    (hst' : t'.status = .completed) : unfinishedStatus t.status ∧ t.chunks ≠ [] ∧ sizes.sum = t.fileSize := by
  rw [h.status, repairedStatus] at hst'
  split_ifs at hst' with hrepairs hnil hsize hsum
  · unfold repairsStatus at hrepairs
    rw [if_neg hnil] at hrepairs
    exact ⟨hrepairs, hnil, hsum.1⟩
  · exact absurd hst' hst

theorem PartsFull.of_sum (hlaid : t.Laid) (hchunks : t.chunks ≠ [])
    (h : (partSizes t w.disk t.chunks).sum = t.fileSize) :
    PartsFull w.disk t := by
  have htiles := (hlaid.resolve_left hchunks).1.sum_size
  rw [Nat.zero_add] at htiles
  exact partSizes_full t.chunks w.disk (h.trans htiles.symm)

/-- What recovery has loaded of the task, when it comes to it. -/
def Reached (sha : Bytes → Text) (id : TaskId) (target : Path) (w : World) (t : DownloadTask) : Prop :=
  NoneCompleted id w ∧ t.status ≠ .completed ∧ MergedIfFull sha w t ∨
    Fulfilled sha id target w ∧ t.status = .completed ∧ delivered sha w t

/-- The recovery of other tasks changes none of this. -/
theorem Reached.same (h : Reached sha id target w t) (hfiles : w'.disk.tasks id = w.disk.tasks id)
    (hout : w'.disk.out = w.disk.out) (hparts : ∀ c, fileSize (t.partOn w'.disk c) ≤ fileSize (t.partOn w.disk c)) :
    Reached sha id target w' t := by
  rcases h with ⟨hnone, hst, hmerged⟩ | ⟨hdone, hst, hdelivered⟩
  · refine .inl ⟨hnone.files hfiles, hst, fun hunfinished hchunks hfull => ?_⟩
    exact delivered_same (hmerged hunfinished hchunks fun c hc => (hfull c hc).trans (hparts c)) (by rw [hout]) rfl rfl
  · exact .inr ⟨hdone.same hfiles (by rw [hout]), hst, delivered_same hdelivered (by rw [hout]) rfl rfl⟩

/-- What is saved of the task itself tells the truth. -/
theorem Reached.save (h : Reached sha id target w t) (hid : t.id = id) (htarget : t.targetPath = target)
    (hlaid : t.Laid) (hfits : t.Fits)
    {w₁ : World} (hw₁ : Trimmed w w₁) (hrep : Repaired t (partSizes t w.disk t.chunks) w₁.disk t')
    (hdisk : w'.disk = w₁.disk) : Honest sha id target (w'.saveTask t') := by
  have hid' : t'.id = id := hrep.same.1.trans hid
  have htarget' : t'.targetPath = target := hrep.same.origin.2.2.1.trans htarget
  have hkeeps : delivered sha w t → delivered sha w' t' := fun hdelivered =>
    delivered_same hdelivered (by rw [hdisk, hw₁.out, htarget', htarget]) hrep.same.2.2.2.2.1 hrep.same.origin.2.2.2.2
  have hfiles : w'.disk.tasks id = w.disk.tasks id := by rw [hdisk, hw₁.tasks]
  rcases h with ⟨hnone, hst, hmerged⟩ | ⟨-, hst, hdelivered⟩
  · by_cases hst' : t'.status = .completed
    · obtain ⟨hunfinished, hchunks, hsum⟩ := repaired_completed hrep hst hst'
      exact Honest.save (hnone.files hfiles) hid' htarget'
        (hkeeps (hmerged hunfinished hchunks (PartsFull.of_sum hlaid hchunks hsum)))
    · exact .inl ((hnone.files hfiles).save fun _ => hst')
  · have hst' : t'.status = .completed := by
      rw [hrep.status, repairedStatus_kept (repairsStatus_resting (by rw [hst]; rfl)), hst]
    exact .inr (Fulfilled.save hid' htarget' hst' (repaired_fits hrep hfits) (hkeeps hdelivered))

/-- The tasks still to recover, among them the task itself at most once. -/
theorem recoverLoop_honest : ∀ (ts : List DownloadTask) (w : World), (ts.map (·.id)).Nodup → Honest sha id target w →
    (∀ t ∈ ts, t.status ≠ .corrupted → (t.Laid ∧ Apart id target t) ∧ t.Fits ∧
      (t.id = id → Reached sha id target w t)) →
    wp (recoverLoop env ts) (fun _ => Honest sha id target) (fun _ => Honest sha id target) (Honest sha id target) w
  | [], _, _, hw, _ => hw
  | t :: ts, w, hnodup, hw, hts => by
    rw [List.map_cons, List.nodup_cons] at hnodup
    have hrest :
    ∀ u ∈ ts, u.status ≠ .corrupted → (u.Laid ∧ Apart id target u) ∧ u.Fits ∧ (u.id = id → Reached sha id target w u) :=
      fun u hu => hts u (List.mem_cons_of_mem _ hu)
    unfold recoverLoop
    split
    · rw [wp_bind]
      exact wp_mono (recoverLoop_honest ts w hnodup.2 hw hrest) (fun _ _ h => h) (fun _ _ h => h) (fun _ h => h)
    · rename_i hst
      obtain ⟨⟨hlaid, hapart⟩, hfits, hreached⟩ := hts t List.mem_cons_self hst
      have htrimmed : ∀ {w₁ : World}, Trimmed w w₁ → Honest sha id target w₁ :=
        fun h => hw.same (by rw [h.tasks]) (by rw [h.out])
      rw [wp_bind]
      refine wp_mono (repairFromDisk_wp t w) ?_ (fun _ _ h => htrimmed h) (fun _ h => htrimmed h)
      rintro t' _ ⟨w₁, hw₁, hrep, rfl⟩
      have hnoted : Honest sha id target (w₁.noted t t') :=
        (htrimmed hw₁).same (by rw [noted_disk]) (by rw [noted_disk])
      rw [wp_bind]
      refine wp_saveTask (fun _ => ?_) (fun _ _ => hnoted.same rfl rfl) (fun _ _ => hnoted.same rfl rfl)
      rw [wp_bind]
      have hid' : t'.id = t.id := hrep.same.1
      by_cases hid : t.id = id
      · -- the others are not the task
        refine wp_mono (recoverLoop_honest ts _ hnodup.2 ?_ fun u hu hst =>
          ⟨(hrest u hu hst).1, (hrest u hu hst).2.1, fun huid => ?_⟩)
          (fun _ _ h => h) (fun _ _ h => h) (fun _ h => h)
        · exact (hreached hid).save hid (hapart.1 hid) hlaid hfits hw₁ hrep noted_disk
        · exact absurd (List.mem_map_of_mem hu) (huid.trans hid.symm ▸ hnodup.1)
      · -- the task itself is as it was
        have hfiles : ∀ n : Nat, (({ w₁.noted t t' with tick := n } : World).saveTask t').disk.tasks id =
          w.disk.tasks id := by
          intro n
          rw [files_saveTask (hid'.symm ▸ hid)]
          change (w₁.noted t t').disk.tasks id = _
          rw [noted_disk, hw₁.tasks]
        have hdisk : ∀ n : Nat, (({ w₁.noted t t' with tick := n } : World).saveTask t').disk.out = w.disk.out ∧
            (({ w₁.noted t t' with tick := n } : World).saveTask t').disk.parts = w₁.disk.parts := by
          intro n
          change (w₁.noted t t').disk.out = _ ∧ (w₁.noted t t').disk.parts = _
          rw [noted_disk]
          exact ⟨hw₁.out, rfl⟩
        refine wp_mono (recoverLoop_honest ts _ hnodup.2 (hw.same (hfiles _) (by rw [(hdisk _).1])) fun u hu hst => ?_)
          (fun _ _ h => h) (fun _ _ h => h) (fun _ h => h)
        refine ⟨(hrest u hu hst).1, (hrest u hu hst).2.1, fun huid => ?_⟩
        refine ((hrest u hu hst).2.2 huid).same (hfiles _) (hdisk _).1 fun c => ?_
        refine List.IsPrefix.length_le ?_
        have hpart : ∀ d d' : Disk, d'.parts = d.parts → u.partOn d' c = u.partOn d c := fun d d' h => by
          rw [DownloadTask.partOn, DownloadTask.partOn, h]
        rw [hpart _ _ (hdisk _).2]
        exact hw₁.partOn

/-! ## Operations -/

/-- The task in the store, if it is unfinished and complete, has been merged. -/
def World.MergedIfFull (sha : Bytes → Text) (id : TaskId) (w : World) : Prop :=
  ∀ t ∈ w.disk.loadTask id, Cget.MergedIfFull sha w t

instance (sha : Bytes → Text) (id : TaskId) (w : World) : Decidable (w.MergedIfFull sha id) :=
  inferInstanceAs (Decidable (∀ t ∈ w.disk.loadTask id, Cget.MergedIfFull sha w t))

/-- What the store keeps while the task tells the truth. -/
def Truthful (sha : Bytes → Text) (id : TaskId) (target : Path) (w : World) : Prop :=
  Filed (Apart id target) w ∧ Honest sha id target w

theorem Truthful.loads (h : Truthful sha id target w) {n : TaskId} (hload : w.disk.loadTask n = some t) :
    t.id = n ∧ (t.Laid ∧ Apart id target t) ∧ t.Fits := ⟨(h.1.job hload).1, (h.1.job hload).2, load_fits hload⟩

theorem Truthful.reached (h : Truthful sha id target w) (hmerged : w.MergedIfFull sha id)
    (hload : w.disk.loadTask id = some t) :
    Reached sha id target w t :=
  h.2.imp (fun hnone => ⟨hnone, hnone.loads hload, hmerged t hload⟩) fun hdone => ⟨hdone, hdone.loads hload⟩

theorem recoverTasks_honest (h : Truthful sha id target w) (hmerged : w.MergedIfFull sha id) {scan : List TaskId}
    (hscan : scan.Nodup) :
    wp (recoverTasks env scan) (fun _ => Honest sha id target) (fun _ => Honest sha id target)
      (Honest sha id target) w := by
  unfold recoverTasks
  rw [wp_bind, wp_get]
  refine recoverLoop_honest _ w (loadAllTasks_nodup (fun n t hload => (h.loads hload).1) hscan) h.2 fun t ht hst => ?_
  obtain ⟨n, -, -, hload | ⟨-, rfl⟩⟩ := mem_loadAllTasks ht
  · obtain ⟨hname, hjob, hfits⟩ := h.loads hload
    exact ⟨hjob, hfits, fun hid => h.reached hmerged (hname.symm.trans hid ▸ hload)⟩
  · exact absurd rfl hst

theorem runQueuedTasks_honest {r : QueueRun} (h : Truthful sha id target w) (hmerged : w.MergedIfFull sha id)
    (hscan : r.scan.Nodup ∧ r.scanAgain.Nodup) (hsha : ∀ n, (r.finish n).sha256 = sha) :
    wp (runQueuedTasks r) (fun _ => Honest sha id target) (fun _ => Honest sha id target) (Honest sha id target) w := by
  unfold runQueuedTasks
  rw [wp_bind]
  refine wp_mono (wp_and (recoverTasks_honest h hmerged hscan.1) (recoverTasks_keeps apart_rule r.scan w h.1)) ?_
    (fun _ _ h => h.1) (fun _ h => h.1)
  rintro _ w₁ ⟨hw₁, hfiled₁⟩
  have h₁ : Truthful sha id target w₁ := ⟨hfiled₁, hw₁⟩
  have hlisted : ((w₁.disk.loadAllTasks r.recover r.scanAgain).map (·.id)).Nodup :=
    loadAllTasks_nodup (fun n t hload => (h₁.loads hload).1) hscan.2
  have hrunnable : ∀ t ∈ (w₁.disk.loadAllTasks r.recover r.scanAgain).filter (fun t => runnableStatus t.status),
      w₁.disk.loadTask t.id = some t ∧ Apart id target t ∧ t.status ≠ .completed := by
    intro t ht
    obtain ⟨ht, hrun⟩ := List.mem_filter.1 ht
    obtain ⟨n, -, -, hload | ⟨-, rfl⟩⟩ := mem_loadAllTasks ht
    · obtain ⟨hname, hjob, -⟩ := h₁.loads hload
      exact ⟨hname ▸ hload, hjob.2, fun hst => by rw [hst] at hrun; cases hrun⟩
    · cases hrun
  rw [wp_bind, wp_get, wp_bind]
  refine wp_ofExcept (fun _ _ => ?_) fun _ _ => hw₁
  rw [wp_bind]
  refine wp_mono (runRunnable_honest hsha (hlisted.sublist (List.filter_sublist.map _)) ?_) (fun _ _ h => h)
    (fun _ _ h => h) (fun _ h => h)
  rcases hw₁ with hnone | hdone
  · exact .inl ⟨hnone, fun t ht => ⟨(hrunnable t ht).2.1, fun _ => (hrunnable t ht).2.2⟩⟩
  · refine .inr ⟨.inr hdone, fun t ht => (hrunnable t ht).2.1.bystander ?_⟩
    rintro rfl
    exact (hrunnable t ht).2.2 (hdone.loads (hrunnable t ht).1).1

theorem downloadTask_honest (hsha : env.sha256 = sha) (h : Calm id target s) (hid : s.task.id = id) :
    wp (downloadTask env) (fun _ s' => Honest sha id target s'.world) (fun _ s' => Honest sha id target s'.world)
      (fun s' => Honest sha id target s'.world) s := by
  unfold downloadTask
  rw [wp_bind, wp_get]
  split
  · exact .inl h.1
  · split
    · exact .inl h.1
    · rw [setStatus, wp_bind, wp_modify, wp_bind, wp_get, wp_bind]
      have hqueued : Calm id target (s.setStatus .queued) := ⟨h.1, h.2.apart, fun _ => by simp [Session.setStatus]⟩
      have hsave : Keeps (Calm id target) (do let s ← get; onWorld (saveTask env s.task)) := waiting_rule.save
      have hkeepsId : Keeps (fun s => s.task.id = id) (do let s ← get; onWorld (saveTask env s.task)) :=
        tolerates_id.save
      have hsaved := wp_and (hsave _ hqueued) (hkeepsId (s.setStatus .queued) hid)
      rw [wp_bind, wp_get] at hsaved
      refine wp_mono hsaved (fun _ s₁ h₁ => ?_) (fun _ _ h => .inl h.1.1) (fun _ h => .inl h.1.1)
      exact wp_withEngine (fun _ _ => .inl h₁.1.1) (download_honest hsha h₁.1 h₁.2)

theorem downloadStored_honest (hsha : env.sha256 = sha) (h : Truthful sha id target w) {n : TaskId} :
    wp (downloadStored env n) (fun _ => Honest sha id target) (fun _ => Honest sha id target)
      (Honest sha id target) w := by
  unfold downloadStored
  rw [wp_bind]
  refine wp_loadTask (fun t hload => ?_) fun _ => h.2
  obtain ⟨hname, hjob, -⟩ := h.loads hload
  rw [wp_onTask]
  by_cases hid : n = id
  · subst hid
    rcases h.2 with hnone | hdone
    · exact downloadTask_honest hsha ⟨hnone, hjob.2, fun _ => hnone.loads hload⟩ hname
    · unfold downloadTask
      rw [wp_bind, wp_get, if_pos (hdone.loads hload).1]
      exact .inr hdone
  · have hother : Bystander id target t := hjob.2.bystander fun heq => hid (hname.symm.trans heq)
    exact wp_mono ((bystander_rule honest_local).downloadTask { world := w, task := t } ⟨h.2, hother⟩)
      (fun _ _ h => h.1) (fun _ _ h => h.1) (fun _ h => h.1)

theorem pauseTask_honest (h : Truthful sha id target w) {n : TaskId} :
    wp (pauseTask env n) (fun _ => Honest sha id target) (fun _ => Honest sha id target) (Honest sha id target) w := by
  unfold pauseTask
  rw [wp_bind]
  refine wp_loadTask (fun t hload => ?_) fun _ => h.2
  split
  · exact h.2
  · rename_i hpausable
    obtain ⟨hname, -⟩ := h.loads hload
    rw [wp_bind, wp_modify]
    refine wp_saveTask (fun _ => ?_) (fun _ _ => h.2.same rfl rfl) (fun _ _ => h.2.same rfl rfl)
    by_cases hid : n = id
    · subst hid
      rcases h.2 with hnone | hdone
      · refine .inl (NoneCompleted.save (hnone.files rfl) fun _ => ?_)
        simp [pausedTask]
      · rw [(hdone.loads hload).1] at hpausable
        exact absurd rfl hpausable
    · have hother : (pausedTask env t).id ≠ id := fun heq => hid (hname.symm.trans heq)
      exact h.2.same (files_saveTask hother) rfl

theorem createTask_honest {r : CreateRequest} (h : Honest sha id target w) (hid : r.id ≠ id) :
    wp (createTask env r) (fun _ => Honest sha id target) (fun _ => Honest sha id target) (Honest sha id target) w := by
  unfold createTask ensureTaskTempDir
  rw [wp_bind]
  refine wp_fileOp (fun _ => ?_) (fun _ _ => h.same rfl rfl) (fun _ _ => h.same rfl rfl)
  rw [wp_bind, wp_modify, wp_bind]
  have hother : (newTask env r).id ≠ id := hid
  exact wp_saveTask (fun _ => h.same (files_saveTask hother) rfl) (fun _ _ => h.same rfl rfl) fun _ _ => h.same rfl rfl

/-- The calls of a run: nothing is removed, other tasks are created for other targets, there
is one digest function, and a scan meets no file twice. -/
def Operation.Plays (sha : Bytes → Text) (id : TaskId) (target : Path) : Operation → Prop
  | .create env r => r.id ≠ id ∧ Apart id target (newTask env r)
  | .download env _ => env.sha256 = sha
  | .pause _ _ => True
  | .remove _ _ => False
  | .recover _ scan => scan.Nodup
  | .queue r => (r.scan.Nodup ∧ r.scanAgain.Nodup) ∧ ∀ n, (r.finish n).sha256 = sha

/-- A recovery that finds all parts of the unfinished task finds the merged file, too. -/
def Operation.RecoversMerged (sha : Bytes → Text) (id : TaskId) (w : World) : Operation → Prop
  | .recover _ _ | .queue _ => w.MergedIfFull sha id
  | _ => True

instance (sha : Bytes → Text) (id : TaskId) (w : World) : (op : Operation) → Decidable (op.RecoversMerged sha id w)
  | .recover _ _ | .queue _ => inferInstanceAs (Decidable (w.MergedIfFull sha id))
  | .create _ _ | .download _ _ | .pause _ _ | .remove _ _ => isTrue trivial

theorem Operation.step_truthful {op : Operation} (h : Truthful sha id target w) (hplays : op.Plays sha id target)
    (hmerged : op.RecoversMerged sha id w) : Truthful sha id target (op.step w) := by
  have hcreates : op.Creates (Apart id target) := by
    cases op with
    | create env r => exact hplays.2
    | _ => trivial
  refine ⟨apart_rule.step hcreates h.1, ?_⟩
  cases op with
  | create env r => exact wp_const.1 (createTask_honest h.2 hplays.1)
  | download env n => exact wp_const.1 (downloadStored_honest hplays h)
  | pause env n => exact wp_const.1 (pauseTask_honest h)
  | remove env n => exact hplays.elim
  | recover env scan => exact wp_const.1 (recoverTasks_honest h hmerged hplays)
  | queue r => exact wp_const.1 (runQueuedTasks_honest h hmerged hplays.1 hplays.2)

/-! ## Runs -/

/-- If the task is Completed for the loader, its file is at the target, of the task's size and with its digest. -/
def World.CompletedDelivered (sha : Bytes → Text) (id : TaskId) (w : World) : Prop :=
  ∀ t ∈ w.disk.loadTask id, t.status = .completed →
    ∃ b, w.disk.out t.targetPath = some b ∧ b.length = t.fileSize ∧ ∀ digest, t.expectedSha256 = some digest →
    sha b = lowercaseHex digest

theorem Honest.completedDelivered (h : Honest sha id target w) : w.CompletedDelivered sha id := fun _ hload hst =>
  delivered_iff.1 (h.loads hload hst)

/-- A task starts without a version that is Completed. -/
theorem createTask_truthful (env : Env) (r : CreateRequest) (parts out : Path → Option Bytes) :
    Truthful sha r.id r.targetPath (Operation.step (World.fresh parts out) (.create env r)) := by
  have hown : Apart r.id r.targetPath (newTask env r) := ⟨fun _ => rfl, fun hne => absurd rfl hne⟩
  refine ⟨apart_rule.step hown .fresh, .inl ?_⟩
  have hfresh : NoneCompleted r.id (World.fresh parts out) := fun x t hx => by simp [World.fresh] at hx
  refine wp_const.1 ?_
  unfold createTask ensureTaskTempDir
  rw [wp_bind]
  refine wp_fileOp (fun _ => ?_) (fun _ _ => hfresh.files rfl) (fun _ _ => hfresh.files rfl)
  rw [wp_bind, wp_modify, wp_bind]
  refine wp_saveTask (fun _ => (hfresh.files rfl).save fun _ => ?_) (fun _ _ => hfresh.files rfl) fun _ _ =>
    hfresh.files rfl
  simp only [newTask]
  split <;> decide

/-- However the calls on a task go and wherever they are cut short: while no recovery finds the
parts of the unfinished task complete before they were merged, Completed means delivered. -/
theorem completed_means_delivered (sha : Bytes → Text) (env : Env) (r : CreateRequest) (parts out : Path → Option Bytes)
    (ops : List Operation) (hops : ∀ op ∈ ops, op.Plays sha r.id r.targetPath)
    (hmerged : GuardedRun Operation.step (fun w op => op.RecoversMerged sha r.id w)
      (Operation.step (World.fresh parts out) (.create env r)) ops) (n : Nat) :
    World.CompletedDelivered sha r.id
      (runOperations (Operation.step (World.fresh parts out) (.create env r)) (ops.take n)) := by
  have hguarded := (hmerged.and hops).take n
  exact (GuardedRun.inv (fun _ _ h hop => Operation.step_truthful h hop.2 hop.1)
    (createTask_truthful env r parts out) hguarded).2.completedDelivered

/-- A download that dies in its commit, and the recovery at the next start. -/
def crashAndRecover (f : CommitFaults) : List Operation :=
  [.download { oneByteEnv with commit := f } (text "a"), .recover oneByteEnv [text "a"]]

/-- After the rename nothing but the last save is missing, and recovery makes up for it. -/
theorem completed_means_delivered_renamed :
    World.CompletedDelivered oneByteEnv.sha256 (text "a")
      (runOperations (Operation.step (World.fresh (fun _ => none) fun _ => none) (.create oneByteEnv oneByteRequest))
        ((crashAndRecover { save := .crash 0 }).take 2)) := by
  refine completed_means_delivered oneByteEnv.sha256 oneByteEnv oneByteRequest _ _
    (crashAndRecover { save := .crash 0 }) ?_ (by decide +kernel) 2
  intro op hop
  rcases List.mem_pair.1 hop with rfl | rfl
  · exact rfl
  · exact List.nodup_singleton _

/-- Before the merge recovery makes the task Completed all the same, and no file is there. -/
theorem completed_without_file :
    ¬ World.CompletedDelivered oneByteEnv.sha256 (text "a")
      (runOperations (World.fresh (fun _ => none) fun _ => none)
        (.create oneByteEnv oneByteRequest :: crashAndRecover { directory := .crash 0 })) := by
  have hload : ((runOperations (World.fresh (fun _ => none) fun _ => none)
      (.create oneByteEnv oneByteRequest :: crashAndRecover { directory := .crash 0 })).disk.loadTask (text "a")).map
        (fun t => (t.status, t.targetPath)) =
        some (.completed, text "/out/b") := by decide +kernel
  have hout : (runOperations (World.fresh (fun _ => none) fun _ => none)
      (.create oneByteEnv oneByteRequest :: crashAndRecover { directory := .crash 0 })).disk.out
        (text "/out/b") = none := by decide +kernel
  intro hdelivered
  obtain ⟨t, ht, hfields⟩ := Option.map_eq_some_iff.1 hload
  obtain ⟨hst, htarget⟩ := Prod.mk.inj hfields
  obtain ⟨b, hb, -⟩ := hdelivered t ht hst
  rw [htarget, hout] at hb
  cases hb

end Cget
