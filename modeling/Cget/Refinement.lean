import Cget.Noninterference
/-!
# Queues and the foreground

A queue that nothing disturbs ends each of its tasks as `download` ends it alone: with the same
status and the same file at its target, whatever other tasks are in the queue.
-/

namespace Cget

open Prog SchedState

variable {env env₁ env₂ : Env} {t u p : DownloadTask} {d : Disk} {w w' w₁ : World} {ts : List DownloadTask}

/-! ## A task alone -/

/-- The task was prepared in `w` itself. -/
theorem PreparedFrom.here (hf : env.Smooth) (h : PreparedFrom env t w p) :
    ∃ w', (onTask t (prepareTask env)).run w = (.ok p, w') ∧ SameFiles t w w' ∧
      Poised (preparation env t).2 w.disk { world := w', task := p } ∧ p.status = (preparation env t).1 := by
  obtain ⟨w₁, w₂, hw, hrun⟩ := h
  have hstep := inStep_onTask (u := t) (inStep_prepareTask hf) rfl rfl w₁ w hw.symm
  have hprepares : wp (onTask t (prepareTask env))
      (fun p w' => Poised (preparation env t).2 w.disk { world := w', task := p } ∧ p.status = (preparation env t).1)
      (fun _ _ => False) (fun _ => False) w :=
    wp_onTask.2 (prepareTask_prepares hf .refl)
  rw [hrun] at hstep
  rcases hhere : (onTask t (prepareTask env)).run w with ⟨o, w'⟩
  rw [hhere] at hstep
  obtain rfl : o = .ok p := hstep.1
  rw [wp_of_ok hhere] at hprepares
  exact ⟨w', rfl, .of_disk hprepares.1.out hprepares.1.parts, hprepares⟩

/-- A task with nothing to start comes out of a scheduler as it was. -/
theorem Returned.trivial {envs : TaskId → Env} (happ : PartsApart [p]) (hnone : hasSchedulableChunk p = false) :
    Returned envs w.disk [p] { tasks := [p], world := w } := by
  refine ⟨.initial happ, .inr fun t₀ ht₀ hst j c hc hsched => ?_, List.forall_mem_nil _, (fun h => by cases h), rfl⟩
  obtain rfl := List.mem_singleton.1 ht₀
  have hany : t₀.chunks.any (·.schedulable) := List.any_eq_true.2 ⟨c, List.mem_of_getElem? hc, hsched⟩
  rw [hasSchedulableChunk, hst, hany] at hnone
  cases hnone

/-- The chunks of a task are complete when its workers are through. -/
theorem calmTask_complete (hsorted : ∀ c ∈ p.chunks, c.Sorted) : allComplete (calmTask env p d).chunks := by
  refine List.all_eq_true.2 fun c hc => ?_
  obtain ⟨c₀, hc₀, rfl⟩ := List.mem_map.1 hc
  unfold calmChunk
  split
  · simp [Chunk.size]
  · obtain ⟨hst, hcount⟩ := (hsorted c₀ hc₀).complete (Bool.eq_false_of_not_eq_true ‹_›)
    simp [hst, hcount]

theorem rangedBytes_plan (h : t.SamePlan u) : rangedBytes env u d = rangedBytes env t d := by
  have hparts : referencePart env u d = referencePart env t d := by
    funext c
    rw [referencePart, referencePart, chunkFate_congr h.same rfl, h.partOn rfl]
  rw [rangedBytes, rangedBytes, hparts, h.chunks]

/-- Bytes are accepted or not, whatever the record says but for the digest. -/
theorem committed_digest {b : Bytes} (h : u.expectedSha256 = t.expectedSha256) :
    committed env u b = committed env t b := by
  unfold committed DownloadTask.accepts
  rw [h]

/-- Only a task that is downloaded in ranges has something to start. -/
theorem PathsMeet.scheduled (hmeet : PathsMeet env t d) (hplan : (preparation env t).2.SamePlan p)
    (hst : p.status = (preparation env t).1) (hsched : hasSchedulableChunk p) :
    ∃ info, env.protocol.fetchMetadata t.url = .ok info ∧ metadataChanged t info = false ∧
    ranged env (rememberMetadata t info) info := by
  unfold PathsMeet at hmeet
  unfold preparation at hplan hst
  have hstatus := (Bool.and_eq_true _ _ ▸ hsched).1
  have hany := (Bool.and_eq_true _ _ ▸ hsched).2
  cases hfetch : env.protocol.fetchMetadata t.url with
  | error e =>
    rw [hfetch] at hmeet hplan hst
    dsimp only at hmeet hplan hst
    rcases hmeet with hmismatch | hnothing
    · rw [hst, hmismatch] at hstatus
      cases hstatus
    · rw [hplan.chunks, hnothing] at hany
      cases hany
  | ok info =>
    rw [hfetch] at hmeet hplan hst
    dsimp only at hmeet hplan hst
    cases hnew : metadataChanged t info with
    | true =>
      rw [hnew, if_pos rfl] at hst
      rw [hst] at hstatus
      cases hstatus
    | false =>
      refine ⟨info, rfl, hnew, ?_⟩
      by_contra hranged
      rw [hnew, if_neg Bool.false_ne_true, if_neg hranged] at hplan
      have hnone : t.chunks = [] := by simpa only [hnew, Bool.false_eq_true, false_or, if_neg hranged] using hmeet
      rw [hplan.chunks, show (rememberMetadata t info).chunks = t.chunks from rfl, hnone] at hany
      cases hany

/-- The way of a task in a queue comes to the ending of the task. -/
theorem Way.ends (hf₁ : env₁.Smooth) (hf₂ : env₂.Faultless) (hserver₁ : SameServer env env₁)
    (hserver₂ : SameServer env env₂)
    (hlaid : t.Laid) (hsorted : ∀ c ∈ t.chunks, c.Sorted) (hmeet : PathsMeet env t w.disk)
    (hcalm : isSchedulableStatus (preparation env₁ t).1 → ¬ Doomed env₁ w.disk (preparation env₁ t).2)
    (h : Way env₁ env₂ t w w' u) :
    EndsAs t.targetPath (taskEnding env t w.disk) u w' := by
  rw [hserver₁.preparation, hserver₁.doomed] at hcalm
  cases h with
  | scheduled p hp hsched hu hout =>
    obtain ⟨w₁, -, -, hpoised, hst⟩ := hp.here hf₁
    rw [hserver₁.preparation] at hpoised hst
    obtain ⟨info, hfetch, hchanged, hranged⟩ := hmeet.scheduled hpoised.plan hst hsched
    have hpreparation : preparation env t = (.downloading, plannedTask env t info) := by
      simp only [preparation, hfetch, hchanged, hranged, Bool.false_eq_true, if_false, if_true]
    rw [hpreparation] at hcalm hpoised
    have ht : Downloadable (plannedTask env t info) w.disk :=
      (hmeet.ranges hlaid hsorted hfetch hchanged hranged).downloadable
    have hcomplete : allComplete (calmTask env₁ p w.disk).chunks := calmTask_complete (ht.congr hpoised.plan rfl).sorted
    have hending : taskEnding env t w.disk =
        committed env (plannedTask env t info) (rangedBytes env (plannedTask env t info) w.disk) := by
      simp only [taskEnding, hfetch, hchanged, hranged, Bool.false_eq_true, if_false, if_true, rangedEnding,
        if_neg (hcalm rfl)]
    have hbytes : rangedBytes env₁ p w.disk = rangedBytes env (plannedTask env t info) w.disk := by
      rw [hserver₁.rangedBytes, rangedBytes_plan hpoised.plan]
    have hdigest : (calmTask env₁ p w.disk).expectedSha256 = (plannedTask env t info).expectedSha256 :=
      hpoised.plan.same.2.2.2.2.2
    rw [hending]
    rw [hbytes] at hu hout
    rw [if_pos hcomplete] at hout
    refine ⟨?_, hout⟩
    rw [hu, concluded, if_pos hcomplete, finalized_status, hserver₂.committed, committed_digest hdigest]
  | idle p w₂ w₃ hp hnone hw₂ hrun hw₃ =>
    obtain ⟨w₁, -, hw₁, hpoised, hst⟩ := hp.here hf₁
    have horigin := hp.origin hf₁
    have hfinish : InStep (SameFiles t) (finishTask (fun _ => env₂) p) (finishTask (fun _ => env₂) p) :=
      inStep_finishTask hf₂ horigin.2.2.1 horigin.2.2.2.1
    have hstep := hfinish w₂ w₁ (hw₂.symm.trans hw₁)
    rw [hrun] at hstep
    rw [hserver₁.preparation] at hpoised hst
    have hpid : p.id = t.id := horigin.1
    have happ : PartsApart [p] := hpoised.plan.apart (preparation_laid hlaid).apart
    have halone : Returned (fun _ => env₁) w₁.disk [p] { tasks := [p], world := w₁ } := .trivial happ hnone
    have hends : ∃ q, [p] = [q] ∧ wp (finishTask (fun _ => env₂) q) (EndsAs t.targetPath (taskEnding env t w.disk))
        (fun _ _ => False)
        (fun _ => True) w₁ := finishTask_prepared hlaid hsorted hmeet hf₂ hserver₁ hserver₂ hpoised hst halone
    obtain ⟨q, hq, hends⟩ := hends
    obtain rfl : p = q := List.singleton_inj.1 hq
    rcases hhere : (finishTask (fun _ => env₂) p).run w₁ with ⟨o, w₄⟩
    rw [hhere] at hstep
    obtain rfl : o = .ok u := hstep.1
    rw [wp_of_ok hhere] at hends
    refine ⟨hends.1, ?_⟩
    rw [hw₃.target, ← hends.2]
    exact hstep.2.symm.target

/-! ## Every task of a queue -/

/-- Each task of an undisturbed queue ends as `download` ends it alone, whatever the other tasks
are and in whatever order the steps are, if the answers of the server and its part files let
the two agree. -/
theorem queue_refines_download {r : QueueRun} {o : Outcome Exn (List DownloadTask)} {o' : Outcome Exn Unit}
    {s : Session}
    (h : r.Faces ts w) (ht : t ∈ ts) (hsorted : ∀ c ∈ t.chunks, c.Sorted) (halike : Alike env r t)
    (hmeet : PathsMeet env t w.disk)
    (hrun : (runRunnable r ts).run w = (o, w₁)) (ho : o ≠ .stopped)
    (hdownload : (download env).run { world := w, task := t } = (o', s)) (ho' : o' ≠ .stopped) :
    ∃ us u, o = .ok us ∧ o' = .ok () ∧ u ∈ us ∧ u.id = t.id ∧ (w₁.disk.tasks t.id).main = some (.written u) ∧
      u.status = s.task.status ∧ w₁.disk.out t.targetPath = s.world.disk.out t.targetPath := by
  obtain ⟨us, u, rfl, hmem, hend⟩ := h.returns ht hrun ho
  have hqueued := hend.way.ends halike.prepare.smooth halike.finish halike.server halike.serverAfter
    (h.laid t ht) hsorted hmeet
    (h.undisturbed.calm t ht)
  have hforeground : wp (download env) (fun _ s' => EndsAs t.targetPath (taskEnding env t w.disk) s'.task s'.world)
      (fun _ _ => False) (fun _ => True) { world := w, task := t } :=
    download_ends halike.faultless .refl fun _ hfetch hchanged hranged =>
    hmeet.ranges (h.laid t ht) hsorted hfetch hchanged hranged
  cases o' with
  | stopped => exact absurd rfl ho'
  | thrown e =>
    rw [wp_of_thrown hdownload] at hforeground
    exact hforeground.elim
  | ok =>
    rw [wp_of_ok hdownload] at hforeground
    exact ⟨us, u, rfl, rfl, hmem, hend.id, hend.stored, hqueued.1.trans hforeground.1.symm,
      hqueued.2.trans hforeground.2.symm⟩

/-- The second task gets no answer: the first one ends as `download` ends it. -/
theorem queue_refines_download_beside :
    ((runRunnable (besideRun silentEnv) besideTasks).run besideRecovered.2).2.disk.out
      (newTask halvesEnv halvesRequest).targetPath =
      ((download halvesEnv).run
        { world := besideRecovered.2, task := newTask halvesEnv halvesRequest }).2.world.disk.out
        (newTask halvesEnv halvesRequest).targetPath := by
  have hfaces : (besideRun silentEnv).Faces besideTasks besideRecovered.2 :=
    besideRun_faces silentEnv_faultless (by unfold Doomed; decide +kernel) (by decide +kernel)
  have hprepare : (besideRun silentEnv).prepare (newTask halvesEnv halvesRequest).id = halvesEnv := besideRun_prepare
  have halike : Alike halvesEnv (besideRun silentEnv) (newTask halvesEnv halvesRequest) :=
    ⟨halvesEnv_faultless, hprepare ▸ halvesEnv_faultless, halvesEnv_faultless, hprepare ▸ ⟨rfl, rfl, rfl, rfl, rfl⟩,
      ⟨rfl, rfl, rfl, rfl, rfl⟩⟩
  obtain ⟨_, _, -, -, -, -, -, -, hout⟩ :=
    queue_refines_download hfaces (t := newTask halvesEnv halvesRequest) List.mem_cons_self
    (fun c hc => by cases hc) halike halves_meet Prod.mk.eta.symm (by decide +kernel) Prod.mk.eta.symm
    (by decide +kernel)
  exact hout

end Cget
