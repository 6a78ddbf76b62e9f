import Cget.QueueSettles
/-!
# Failures that reach other tasks

A worker that fails ends the scheduler for all tasks of the queue: no further chunk is started, and
what is still Downloading becomes Failed. Tasks of a queue in which no worker can fail leave each
other alone, and so does every other task what its own preparation has ended.
-/

namespace Cget

open Prog SchedState

variable {r r' : QueueRun} {ts ts' ps us : List DownloadTask} {t u p q : DownloadTask} {w w' w₁ w₁' : World} {d : Disk}
  {env : Env} {sc : SchedState WorkerPc} {cfg : SchedulerConfig}

/-! ## Queues -/

/-- After any operations, and a recovery of the store, `r` has the tasks `ts` to run in `w`: they share
no file, their complete chunks have their bytes, the file operations go through and no chunk is
started twice. -/
structure QueueRun.Takes (r : QueueRun) (ts : List DownloadTask) (w : World) : Prop where
  reached : ∃ parts out ops ts₀,
    (recoverTasks r.recover r.scan).run (runOperations (.fresh parts out) ops) = (.ok ts₀, w)
  scan : r.scanAgain.Nodup
  listed : ts = r.runnable w
  faultless : ∀ id, (r.prepare id).Faultless ∧ (r.finish id).Faultless
  separate : AllSeparate ts
  backed : ∀ t ∈ ts, t.Backed w.disk
  once : r.StartsOnce ts w

/-- No chunk that the scheduler can start ends in an exception. -/
def QueueRun.Unfailing (r : QueueRun) (ts : List DownloadTask) (w : World) : Prop :=
  ∀ t ∈ ts, isSchedulableStatus (preparation (r.prepare t.id) t).1 →
    ¬ Doomed (r.prepare t.id) w.disk (preparation (r.prepare t.id) t).2

/-- The preparation of the task has failed, and leaves no chunk to start. -/
def DownloadTask.OverAtOnce (env : Env) (t : DownloadTask) : Prop :=
  (preparation env t).1 ≠ .downloading ∧
    hasSchedulableChunk { (preparation env t).2 with status := (preparation env t).1 } = false

theorem QueueRun.Takes.faces (h : r.Takes ts w) (hcalm : r.Unfailing ts w) : r.Faces ts w :=
  ⟨h.reached, h.scan, h.listed, ⟨h.faultless, h.separate, h.backed, hcalm, h.once⟩⟩

/-! ## The scheduler -/

/-- A chunk that had no worker has none in a pause. -/
theorem startsNoPaused_of_unstarted {s : SchedState WorkerPc} {c : Choice} (h : startsUnstarted cfg s c) :
    startsNoPaused cfg s c := by
  unfold startsUnstarted at h
  unfold startsNoPaused
  split
  · rename_i i order scheduled hvisiting
    rw [hvisiting] at h
    dsimp only at h ⊢
    cases hti : s.tasks[i]? with
    | none => rfl
    | some t =>
      rw [hti] at h
      dsimp only at h ⊢
      cases hpick : s.pick cfg t with
      | none => rfl
      | some j =>
        rw [hpick] at h
        refine List.all_eq_true.2 fun v hv => ?_
        have hplace : v.place ≠ (t.id, j) := of_decide_eq_true (List.all_eq_true.1 h v hv)
        have hapart : v.taskId = t.id → v.chunk ≠ j := fun hid hchunk => hplace (Prod.ext hid hchunk)
        by_cases hid : v.taskId = t.id <;> simp [hid, hapart]
  · rfl

theorem QueueRun.StartsOnce.unpaused (h : r.StartsOnce ts w) : r.NoPausedStart ts w := by
  unfold QueueRun.StartsOnce at h
  unfold QueueRun.NoPausedStart
  split
  · rename_i prepared w₁ hrun
    rw [hrun] at h
    exact GuardedRun.of_inv (I := fun _ => True) (fun _ _ _ _ => trivial)
      (fun _ _ _ hstarts => startsNoPaused_of_unstarted hstarts) trivial h
  · trivial

theorem Env.Faultless.mergeable (h : env.Faultless) : t.Mergeable env := by
  have hcommit := h.commit
  refine ⟨?_, ?_, ?_, ?_, .inr ?_⟩ <;> rw [hcommit]

/-- Tasks share no file if those they come from share none. -/
theorem AllSeparate.of_origin {qs : List DownloadTask} (hsep : AllSeparate ts)
    (h : ∀ q ∈ qs, ∃ t ∈ ts, t.SameOrigin q) :
    AllSeparate qs := by
  intro q hq v hv hid
  obtain ⟨t, ht, horigin⟩ := h q hq
  obtain ⟨u, hu, horigin'⟩ := h v hv
  refine (hsep t ht u hu ?_).congr horigin horigin'
  rwa [← horigin.1, ← horigin'.1]

namespace Ran

variable (h : Ran r w ts ps d sc)

include h in
theorem prepared (hp : p ∈ ps) : p.Laid ∧ ∃ t ∈ ts, t.SameOrigin p := by
  obtain ⟨i, hi⟩ := List.mem_iff_getElem?.1 hp
  obtain ⟨t, ht⟩ := getElem?_of_length h.prepares.length_eq hi
  obtain ⟨-, hsame, hlaid⟩ := related_at h.prepares ht hi
  exact ⟨hlaid, t, List.mem_of_getElem? ht, hsame⟩

include h in
/-- The loop after the scheduler, one task at a time, also if a worker has failed. -/
theorem rounds (hids : (ts.map (·.id)).Nodup) (hsep : AllSeparate ts) (hf : ∀ id, (r.finish id).Faultless) :
    wp (finishAll r.finish sc.tasks) (fun us w' => List.Forall₂ (Round (finishTask r.finish) sc.world w') sc.tasks us)
      (fun _ _ => False) (fun _ => True) sc.world := by
  have hqids : sc.tasks.map (·.id) = ts.map (·.id) := h.spectated.ids.trans h.ids
  have hqsep : AllSeparate sc.tasks := hsep.of_origin fun q hq => (h.jobs q hq).2
  rw [finishAll_eq]
  refine finishEach_rounds sc.tasks sc.world (hqids ▸ hids) (fun q hq v hv hid w => ?_) fun q hq w' hw' => ?_
  · exact keeps_finishTask (hqsep v hv q hq (Ne.symm hid)) hid (h.jobs v hv).1
  · have hmerge : FinishesMerge (r.finish q.id) w' q := fun hchunks hdue => by
      have hall : allComplete q.chunks := (Bool.and_eq_true _ _ ▸ hdue).2
      exact (hf q.id).mergeable.merges (h.jobs q hq).1 hchunks
        (SameUnder.backed (fun n hn => hw'.parts n hn) (h.backed q hq)) hall
    exact wp_mono (finishTask_finished (hf q.id).savesAll (h.statuses q hq)) (fun _ _ _ => trivial)
      (fun _ _ hno => hno hmerge) (fun _ hs => hs)

/-- What its own preparation has ended, the queue leaves as it is, whatever the workers come to. -/
theorem ends_over (hids : (ts.map (·.id)).Nodup) (hsep : AllSeparate ts)
    (hf : ∀ id, (r.prepare id).Faultless ∧ (r.finish id).Faultless) (h : Ran r w ts ps w₁.disk sc)
    (hbooks : Books w₁.disk ps sc) (hout : sc.world.disk.out = w₁.disk.out)
    (hready : List.Forall₂ (fun t p => Readied (r.prepare t.id) w w₁ t p) ts ps) (ht : t ∈ ts)
    (hover : t.OverAtOnce (r.prepare t.id)) :
    wp (finishAll r.finish sc.tasks) (fun us w' => ∃ u ∈ us, EndedBy r w w' t u) (fun _ _ => False) (fun _ => True)
      sc.world := by
  have hqids : sc.tasks.map (·.id) = ts.map (·.id) := h.spectated.ids.trans h.ids
  have hpids : (ps.map (·.id)).Nodup := h.ids ▸ hids
  have hkept : ∀ q ∈ sc.tasks, ∀ u : DownloadTask, u.id = q.id → sc.world.Keeps u → sc.world.Keeps u :=
    fun _ _ _ _ hu => hu
  have hfinished := finishAll_finished (fun id => (hf id).2.savesAll) _ _ (hqids ▸ hids) h.statuses hkept
  refine wp_mono (wp_and (h.rounds hids hsep fun id => (hf id).2) hfinished) ?_ (fun _ _ hno => hno.1)
    (fun _ _ => trivial)
  rintro us w' ⟨hrounds, -, hends⟩
  -- the task, prepared, scheduled and finished
  obtain ⟨i, hi⟩ := List.mem_iff_getElem?.1 ht
  obtain ⟨p, hp⟩ := getElem?_of_length hready.length_eq.symm hi
  obtain ⟨q, hq⟩ := getElem?_of_length (by simpa using congrArg List.length h.spectated.ids) hp
  obtain ⟨u, hu⟩ := getElem?_of_length hrounds.length_eq.symm hq
  have hreadied := related_at hready hi hp
  have hsmooth := (hf t.id).1.smooth
  have horigin := hreadied.1.origin hsmooth
  obtain ⟨hplan, hst⟩ := hreadied.1.poised hsmooth
  have hidle : hasSchedulableChunk p = false := by
    have hnone := hover.2
    rw [hasSchedulableChunk, ← hplan.chunks, ← hst] at hnone
    exact hnone
  obtain rfl : q = p := by
    rw [h.spectated.swept i p q hp hq hidle]
    split
    · exact if_neg (hst ▸ hover.1)
    · rfl
  have hmem := List.mem_of_getElem? hp
  have hpsep : AllSeparate ps := hsep.of_origin fun p hp => (h.prepared hp).2
  have hspared := hbooks.spares hout hpsep hpids hmem hidle
  have hback : ∀ {v v' : World}, SameFiles q v v' → SameFiles t v v' := fun hv =>
    hv.congr horigin.2.2.1.symm horigin.2.2.2.1.symm
  obtain ⟨w₂, w₃, hw₂, hrun, hw₃⟩ := related_at hrounds hq hu
  have hend := related_at hends hq hu
  refine ⟨u, List.mem_of_getElem? hu, ?_, hend.id.trans horigin.1, ?_⟩
  · refine .idle q w₂ w₃ hreadied.1 hidle ((hreadied.2.trans (hback hspared)).trans (hback hw₂)) ?_ (hback hw₃)
    have hsame : finishTask (fun _ => r.finish t.id) q = finishTask r.finish q := finishTask_congr (by rw [horigin.1])
    rw [hsame, hrun]
  · rw [← horigin.1]
    by_cases hskip : Skipped q
    · -- the record that preparation saved
      obtain ⟨rfl, hkeeps⟩ := hend.skipped hskip
      exact (hkeeps _ rfl (h.spectated.stored _ hmem hidle)).main
    · rw [← hend.id]
      exact (hend.keeps hskip).main

end Ran

namespace QueueRun.Takes

theorem filed (h : r.Takes ts w) : Filed (fun _ => True) w := by
  obtain ⟨_, _, _, _, hrun⟩ := h.reached
  exact recovered_filed hrun

theorem laid (h : r.Takes ts w) : ∀ t ∈ ts, t.Laid := h.listed ▸ runnable_laid h.filed

theorem ids (h : r.Takes ts w) : (ts.map (·.id)).Nodup := h.listed ▸ runnable_nodup h.filed h.scan

theorem ends_over (h : r.Takes ts w) (ht : t ∈ ts) (hover : t.OverAtOnce (r.prepare t.id)) :
    wp (runRunnable r ts) (fun us w' => ∃ u ∈ us, EndedBy r w w' t u) (fun _ _ => False) (fun _ => True) w := by
  have hf : ∀ id, (r.prepare id).Faultless := fun id => (h.faultless id).1
  have hprepare := wp_and (prepareAll_readied hf h.ids h.separate h.laid)
    (wp_and (prepareAll_prepared (fun id => (hf id).savesAll) ts w h.ids fun t _ => (hf t.id).engine)
      (prepareAll_prepares ts w fun t ht => ⟨h.laid t ht, (hf t.id).engine, (hf t.id).savesAll.1⟩))
  have honce := h.once
  unfold QueueRun.StartsOnce at honce
  unfold runRunnable
  rw [wp_bind]
  rcases hrun : (prepareAll r.prepare ts).run w with ⟨ps | e | _, w₁⟩
  · rw [wp_of_ok hrun] at hprepare ⊢
    rw [hrun] at honce
    obtain ⟨hready, ⟨hpids, hkeeps⟩, hprepares, hparts⟩ := hprepare
    rw [wp_bind]
    refine wp_schedulerRun rfl (fun hcrashed hret => ?_) trivial
    have hran :=
      schedule_ran h.ids h.separate.dirs h.backed h.once.unpaused hrun hkeeps hprepares hparts rfl hcrashed hret
    have hsmooth : ∀ p ∈ ps, (r.prepare p.id).Smooth := fun p _ => (hf p.id).smooth
    have hpsep : AllSeparate ps := h.separate.of_origin fun p hp => (hran.prepared hp).2
    have happ : PartsApart ps := hpsep.dirs.apart (hpids ▸ h.ids) fun p hp => (hran.prepared hp).1
    have hbooks := runs_booked (hpids ▸ h.ids) happ hsmooth honce rfl
    have hreturned := hran.returned ⟨fun t _ => (hf t.id).smooth, h.once⟩
    exact Ran.ends_over h.ids h.separate h.faultless hran hbooks hreturned.out hready ht hover
  · rw [wp_of_thrown hrun] at hprepare
    exact hprepare.1.elim
  · rw [wp_of_stopped hrun]
    trivial

/-- What a run that comes to an end leaves of a task. -/
theorem returns {o : Outcome Exn (List DownloadTask)} (h : r.Takes ts w) (ht : t ∈ ts)
    (hsafe : r.Unfailing ts w ∨ t.OverAtOnce (r.prepare t.id)) (hrun : (runRunnable r ts).run w = (o, w₁))
    (ho : o ≠ .stopped) : ∃ us u, o = .ok us ∧ u ∈ us ∧ EndedBy r w w₁ t u := by
  rcases hsafe with hcalm | hover
  · exact (h.faces hcalm).returns ht hrun ho
  · have hends := h.ends_over ht hover
    cases o with
    | stopped => exact absurd rfl ho
    | thrown e => exact ((wp_of_thrown hrun).1 hends).elim
    | ok us =>
      obtain ⟨u, hu, hend⟩ := (wp_of_ok hrun).1 hends
      exact ⟨us, u, rfl, hu, hend⟩

end QueueRun.Takes

/-! ## Two queues -/

end Cget
