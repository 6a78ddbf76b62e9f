import Cget.ChunkRule
/-!
# The pool of a ranged download

`downloadWithRange` starts one thread for each chunk that is not done and joins them all.
Each turn of a thread keeps the rule of its own chunk and leaves the other chunks alone, so
a rule that holds when the threads start holds when they are joined.
-/

namespace Cget

open Prog

variable {env : Env} {R : ChunkRule (fun _ => env)} {pool : Pool} {s s' : Session}

/-- Each thread has its own chunk, and the rule holds of all chunks. -/
structure Pooled (R : ChunkRule (fun _ => env)) (pool : Pool) (s : Session) : Prop where
  apart : R.sees → PartsApart [s.task]
  distinct : (pool.workers.map (·.chunk)).Nodup
  idle : ∀ (j : Nat) (c : Chunk), s.task.chunks[j]? = some c → (∀ w ∈ pool.workers, w.chunk = j → w.pc = none) →
    R.idle s.task j c (s.task.partOn s.world.disk c)
  busy : ∀ w ∈ pool.workers, ∀ pc, w.pc = some pc →
    ∃ c, s.task.chunks[w.chunk]? = some c ∧ R.busy s.task w.chunk c (s.task.partOn s.world.disk c) pc

/-- All threads are joined, or have not started. -/
def ChunkRule.AllIdle (R : ChunkRule (fun _ => env)) (s : Session) : Prop :=
  ∀ (j : Nat) (c : Chunk), s.task.chunks[j]? = some c → R.idle s.task j c (s.task.partOn s.world.disk c)

theorem Pooled.holds (h : Pooled R pool s) : R.Holds s.task s.world.disk := by
  intro j c hc
  by_cases hfree : ∀ w ∈ pool.workers, w.chunk = j → w.pc = none
  · exact .inl (h.idle j c hc hfree)
  · push Not at hfree
    obtain ⟨w, hw, rfl, hpc⟩ := hfree
    obtain ⟨pc, hpc⟩ := Option.ne_none_iff_exists'.1 hpc
    obtain ⟨d, hd, hb⟩ := h.busy w hw pc hpc
    obtain rfl : c = d := by simpa [hc] using hd
    exact .inr ⟨pc, hb⟩

/-- Thread `n` is over. -/
theorem Pooled.stop {pool' : Pool} {n : Nat} {w : PoolWorker} (h : Pooled R pool s) (hn : pool.workers[n]? = some w)
    (hws : pool'.workers = pool.workers.set n { w with pc := none })
    (hidle : ∀ c, s.task.chunks[w.chunk]? = some c → R.idle s.task w.chunk c (s.task.partOn s.world.disk c)) :
    Pooled R pool' s := by
  refine ⟨h.apart, ?_, ?_, ?_⟩
  · rw [hws, map_set_eq (b := { w with pc := none }) hn rfl]
    exact h.distinct
  · intro j c hc hfree
    by_cases hj : w.chunk = j
    · subst hj
      exact hidle c hc
    · refine h.idle j c hc fun v hv hvj => ?_
      obtain ⟨m, hm⟩ := List.getElem?_of_mem hv
      have hne : n ≠ m := by
        rintro rfl
        rw [Option.some.inj (hn.symm.trans hm)] at hj
        exact hj hvj
      exact hfree v (List.mem_of_getElem? (i := m) (by rw [hws, List.getElem?_set_ne hne, hm])) hvj
  · intro v hv pc hpc
    rw [hws] at hv
    rcases List.mem_or_eq_of_mem_set hv with hv | rfl
    · exact h.busy v hv pc hpc
    · cases hpc

/-- Thread `n` makes a step of its worker. -/
theorem Pooled.step {pool' : Pool} {n : Nat} {w : PoolWorker} {pc : WorkerPc} {c : Chunk} (h : Pooled R pool s)
    (hn : pool.workers[n]? = some w) (hpc : w.pc = some pc) (hc : s.task.chunks[w.chunk]? = some c)
    (hran : (s.workerMove env c pc).crashed = false)
    (hws : pool'.workers = pool.workers.set n { w with pc := some (s.workerMove env c pc).next }) :
    Pooled R pool' (s.stepped env w.chunk c pc) := by
  obtain ⟨d, hd, hb⟩ := h.busy w (List.mem_of_getElem? hn) pc hpc
  obtain rfl : c = d := by simpa [hc] using hd
  have hlen := (List.getElem?_eq_some_iff.1 hc).1
  -- the chunks of the other threads, and their part files
  have hother : ∀ (j : Nat) (d : Chunk), j ≠ w.chunk → (s.stepped env w.chunk c pc).task.chunks[j]? = some d →
      s.task.chunks[j]? = some d := by
    intro j d hj hd
    rwa [stepped_chunks, List.getElem?_set_ne (Ne.symm hj)] at hd
  have hframe : ∀ (j : Nat) (d : Chunk), j ≠ w.chunk → s.task.chunks[j]? = some d → R.sees →
      (s.stepped env w.chunk c pc).task.partOn (s.stepped env w.chunk c pc).world.disk d =
      s.task.partOn s.world.disk d := by
    intro j d hj hd hs
    refine partOn_congr stepped_same rfl fun p hp => stepped_parts fun hcp => hj ?_
    exact (h.apart hs s.task (by simp) s.task (by simp) j w.chunk d c p hd hc hp hcp).2
  refine ⟨fun hs => ?_, ?_, ?_, ?_⟩
  · refine (h.apart hs).of_places fun u hu j d hd => ?_
    obtain rfl := List.mem_singleton.1 hu
    refine ⟨s.task, by simp, stepped_same, ?_⟩
    by_cases hj : j = w.chunk
    · subst hj
      rw [stepped_chunks, List.getElem?_set_self hlen] at hd
      obtain rfl := Option.some.inj hd
      exact ⟨c, hc, workerMove_place.2.2.2.symm⟩
    · exact ⟨d, hother j d hj hd, rfl⟩
  · rw [hws, map_set_eq (b := { w with pc := some (s.workerMove env c pc).next }) hn rfl]
    exact h.distinct
  · intro j d hd hfree
    have hj : j ≠ w.chunk := by
      rintro rfl
      have := hfree { w with pc := some (s.workerMove env c pc).next }
        (by rw [hws]; exact List.mem_set (List.getElem?_eq_some_iff.1 hn).1 _) rfl
      cases this
    refine R.idle_frame stepped_same (hframe j d hj (hother j d hj hd))
      (h.idle j d (hother j d hj hd) fun v hv hvj => ?_)
    obtain ⟨m, hm⟩ := List.getElem?_of_mem hv
    have hne : n ≠ m := by
      rintro rfl
      rw [Option.some.inj (hm.symm.trans hn)] at hvj
      exact hj hvj.symm
    exact hfree v (List.mem_of_getElem? (i := m) (by rw [hws, List.getElem?_set_ne hne, hm])) hvj
  · intro v hv pc' hpc'
    obtain ⟨m, hm⟩ := List.getElem?_of_mem hv
    rw [hws] at hm
    rcases getElem?_set_some hm with ⟨-, rfl⟩ | ⟨hmn, hm⟩
    · obtain rfl := Option.some.inj hpc'
      refine ⟨_, by rw [stepped_chunks, List.getElem?_set_self hlen], ?_⟩
      exact R.busy_frame stepped_same (fun _ => stepped_part) (R.move s.world.tick hb hran)
    · have hj : v.chunk ≠ w.chunk := fun hvw => hmn (index_unique h.distinct hm hn hvw)
      obtain ⟨d, hd, hb⟩ := h.busy v (List.mem_of_getElem? hm) pc' hpc'
      refine ⟨d, by rw [stepped_chunks, List.getElem?_set_ne (Ne.symm hj), hd], ?_⟩
      exact R.busy_frame stepped_same (hframe v.chunk d hj hd) hb

/-! ## Turns -/

section Turns

variable {G S : Session → Prop}

/-- `G` is kept by the steps of the threads, and a crash leads from it to `S`. -/
structure PoolInvariant (R : ChunkRule (fun _ => env)) (G S : Session → Prop) : Prop where
  step : ∀ (s : Session) (j : Nat) (c : Chunk) (pc : WorkerPc), s.task.chunks[j]? = some c → G s →
    R.Holds (s.stepped env j c pc).task (s.stepped env j c pc).world.disk → (s.workerMove env c pc).crashed = false →
    G (s.stepped env j c pc)
  crash : ∀ (s : Session) (j : Nat) (c : Chunk) (pc : WorkerPc), s.task.chunks[j]? = some c → R.fails → G s →
    R.Holds s.task s.world.disk → R.busy s.task j c (s.task.partOn s.world.disk c) pc →
    (s.workerMove env c pc).crashed → S (s.stepped env j c pc)
  ends : ∀ s, R.fails → G s → R.Holds s.task s.world.disk → S s
  unseen : ¬ R.fails → ∀ s, S s

/-- The rule and `G` hold, unless a thread has failed and the rule does not cover that. -/
def PoolRuns (R : ChunkRule (fun _ => env)) (G : Session → Prop) (pool : Pool) (s : Session) : Prop :=
  (pool.errors ≠ [] → R.fails) → Pooled R pool s ∧ G s

theorem stepWorker_never_throws {j : Nat} {pc : WorkerPc} :
    wp (stepWorker env j pc) (fun _ _ => True) (fun _ _ => False) (fun _ => True) s := by
  cases hc : s.task.chunks[j]? with
  | none =>
    have hr : (stepWorker env j pc).run s = (.ok (.threw (.other (text "vector::_M_range_check"))), s) := by
      simp only [stepWorker, hc]
    exact (wp_of_ok hr).2 trivial
  | some c =>
    have hr : (stepWorker env j pc).run s = _ := stepWorker_run hc
    split at hr
    exacts [(wp_of_stopped hr).2 trivial, (wp_of_ok hr).2 trivial]

/-- A turn keeps all rules, whichever thread has it. -/
theorem turn_wp (hG : PoolInvariant R G S) (n : Nat) (h : PoolRuns R G pool s) :
    wp (Pool.turn env pool n) (PoolRuns R G) (fun _ _ => False) S s := by
  unfold Pool.turn
  split
  · exact h
  · exact h
  · rename_i j hn
    intro hfails
    obtain ⟨hp, hg⟩ := h hfails
    obtain ⟨c, hc, hb⟩ := hp.busy _ (List.mem_of_getElem? hn) _ rfl
    refine ⟨hp.stop hn rfl fun d hd => ?_, hg⟩
    obtain rfl : c = d := by simpa [hc] using hd
    exact R.finish hb
  · rename_i j e hn
    intro hfails
    have hcov : R.fails := hfails (by simp)
    obtain ⟨hp, hg⟩ := h fun _ => hcov
    obtain ⟨c, hc, hb⟩ := hp.busy _ (List.mem_of_getElem? hn) _ rfl
    refine ⟨hp.stop hn rfl fun d hd => ?_, hg⟩
    obtain rfl : c = d := by simpa [hc] using hd
    exact (R.fail hcov hb).1
  · rename_i j pc hret hthrew hn
    simp only [wp_bind, wp_pure]
    by_cases hfails : pool.errors ≠ [] → R.fails
    · obtain ⟨hp, hg⟩ := h hfails
      obtain ⟨c, hc, hb⟩ := hp.busy _ (List.mem_of_getElem? hn) _ rfl
      cases hcr : (s.workerMove env c pc).crashed with
      | true =>
        have hrun : (stepWorker env j pc).run s = (.stopped, s.stepped env j c pc) := by
          rw [stepWorker_run hc, hcr]; rfl
        rw [wp_of_stopped hrun]
        by_cases hcov : R.fails
        · exact hG.crash s j c pc hc hcov hg hp.holds hb hcr
        · exact hG.unseen hcov _
      | false =>
        have hrun : (stepWorker env j pc).run s = (.ok (s.workerMove env c pc).next, s.stepped env j c pc) := by
          rw [stepWorker_run hc, hcr]; rfl
        rw [wp_of_ok hrun]
        have hp' : Pooled R
            { pool with workers := pool.workers.set n { chunk := j, pc := some (s.workerMove env c pc).next } }
            (s.stepped env j c pc) := hp.step hn rfl hc hcr rfl
        exact fun _ => ⟨hp', hG.step s j c pc hc hg hp'.holds hcr⟩
    · refine wp_mono stepWorker_never_throws (fun _ _ _ hf => absurd hf hfails) (fun _ _ h => h) fun s' _ => ?_
      exact hG.unseen (fun hcov => hfails fun _ => hcov) s'

/-- However the threads take turns, all are joined with their rule kept. -/
theorem wp_runPool {workers : List PoolWorker} (hG : PoolInvariant R G S) (h : Pooled R { workers } s) (hg : G s) :
    wp (runPool env workers) (fun errors s' => (errors ≠ [] → R.fails) → R.AllIdle s' ∧ G s')
      (fun _ _ => False) S s := by
  unfold runPool
  rw [wp_bind]
  refine wp_mono (wp_foldlM _ (PoolRuns R G) (fun pool n s h => turn_wp hG n h) _ _ s (fun _ => ⟨h, hg⟩)) ?_
    (fun _ _ h => h) (fun _ h => h)
  intro pool s' hruns
  split
  · rename_i hall
    intro hfails
    obtain ⟨hp, hg⟩ := hruns hfails
    refine ⟨fun j c hc => hp.idle j c hc fun w hw _ => ?_, hg⟩
    simpa using List.all_eq_true.1 hall w hw
  · by_cases hcov : R.fails
    · exact hG.ends s' hcov (hruns fun _ => hcov).2 (hruns fun _ => hcov).1.holds
    · exact hG.unseen hcov s'

end Turns

/-! ## The start of the threads -/

theorem mem_rangeWorkers {t : DownloadTask} {w : PoolWorker} (h : w ∈ rangeWorkers t) :
    w.pc = some (.attempt 0) ∧ ∃ c, t.chunks[w.chunk]? = some c ∧ c.done = false := by
  obtain ⟨j, hj, rfl⟩ := List.mem_map.1 h
  refine ⟨rfl, ?_⟩
  have hdone := (List.mem_filter.1 hj).2
  cases hc : t.chunks[j]? with
  | none => simp [hc] at hdone
  | some c => exact ⟨c, rfl, by simpa [hc] using hdone⟩

theorem rangeWorkers_distinct (t : DownloadTask) : ((rangeWorkers t).map (·.chunk)).Nodup := by
  rw [rangeWorkers, List.map_map]
  simpa [Function.comp_def] using List.nodup_range.filter _

theorem markDone_chunk {t : DownloadTask} {j : Nat} :
    (markDone t).chunks[j]? = t.chunks[j]?.map (fun c => if c.done then { c with status := .completed } else c) := by
  simp [markDone]

/-- The threads start on the chunks that are not done. -/
theorem pooled_start (happ : R.sees → PartsApart [s.task])
    (h : ∀ (j : Nat) (c : Chunk), (markDone s.task).chunks[j]? = some c →
      R.idle s.task j c (s.task.partOn s.world.disk c)) :
    Pooled R { workers := rangeWorkers s.task } { s with task := markDone s.task } := by
  have hsame : s.task.SameRequest (markDone s.task) := ⟨rfl, rfl, rfl, rfl, rfl, rfl⟩
  have hidle : ∀ (j : Nat) (c : Chunk), (markDone s.task).chunks[j]? = some c →
      R.idle (markDone s.task) j c ((markDone s.task).partOn s.world.disk c) := fun j c hc =>
    R.idle_frame hsame (fun _ => partOn_congr hsame rfl fun _ _ => rfl) (h j c hc)
  refine ⟨fun hs => ?_, rangeWorkers_distinct _, fun j c hc _ => hidle j c hc, fun w hw pc hpc => ?_⟩
  · refine (happ hs).of_places fun u hu j d hd => ?_
    obtain rfl := List.mem_singleton.1 hu
    rw [markDone_chunk, Option.map_eq_some_iff] at hd
    obtain ⟨d', hd', rfl⟩ := hd
    exact ⟨s.task, by simp, hsame, d', hd', by split <;> rfl⟩
  · obtain ⟨hstart, c, hc, hdone⟩ := mem_rangeWorkers hw
    obtain rfl : WorkerPc.attempt 0 = pc := by simpa [hstart] using hpc
    have hc' : (markDone s.task).chunks[w.chunk]? = some c := by simp [markDone_chunk, hc, hdone]
    simp only [Chunk.done, Bool.or_eq_false_iff, decide_eq_false_iff_not, not_le] at hdone
    exact ⟨c, hc', (R.start (hidle _ c hc') hdone.1 hdone.2).1⟩

end Cget
