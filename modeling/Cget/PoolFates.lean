import Cget.Pool
import Cget.ScheduledFates
/-!
# The threads of a download and the fates of their chunks

The threads of `downloadWithRange` each take their own chunk to its fate, whichever of them
moves next. When they are joined, those that returned have completed their chunks, and the
exceptions collected are those of the fates.
-/

namespace Cget

open Prog

variable {env : Env} {s₀ s : Session} {pool : Pool} {t₀ : DownloadTask} {c₀ c : Chunk} {pc : WorkerPc}

/-! ## One step -/

section Stepped

variable {i j : Nat} {d : Chunk}

/-- A step leaves the other chunks and their part files alone. -/
theorem stepped_other (happ : PartsApart [s.task]) (hc : s.task.chunks[i]? = some c) (hj : j ≠ i)
    (hd : (s.stepped env i c pc).task.chunks[j]? = some d) :
    s.task.chunks[j]? = some d ∧
      (s.stepped env i c pc).task.partOn (s.stepped env i c pc).world.disk d = s.task.partOn s.world.disk d := by
  rw [stepped_chunks, List.getElem?_set_ne (Ne.symm hj)] at hd
  refine ⟨hd, partOn_congr stepped_same rfl fun p hp => stepped_parts fun hcp => hj ?_⟩
  exact (happ s.task (by simp) s.task (by simp) j i d c p hd hc hp hcp).2

theorem stepped_apart (happ : PartsApart [s.task]) (hc : s.task.chunks[i]? = some c) :
    PartsApart [(s.stepped env i c pc).task] := by
  refine happ.of_places fun u hu j d hd => ?_
  obtain rfl := List.mem_singleton.1 hu
  refine ⟨s.task, by simp, stepped_same, ?_⟩
  by_cases hj : j = i
  · subst hj
    rw [stepped_chunks, List.getElem?_set_self (List.getElem?_eq_some_iff.1 hc).1] at hd
    obtain rfl := Option.some.inj hd
    exact ⟨c, hc, workerMove_place.2.2.2.symm⟩
  · rw [stepped_chunks, List.getElem?_set_ne (Ne.symm hj)] at hd
    exact ⟨d, hd, rfl⟩

end Stepped

/-! ## Turns -/

/-- Where the chunk of a thread is on its way to `f`. -/
def ThreadAt (env : Env) (t₀ : DownloadTask) (c₀ : Chunk) (f : Fate) (errors : List WorkerError) (c : Chunk)
    (part : Option Bytes) : Option WorkerPc → Prop
  | some pc => OnTrack env t₀.url (chunkPath t₀ c₀) c₀ f c part pc
  | none => f.error = none ∧ part = f.part ∧ Filled c part ∨ ∃ e, f.error = some e ∧ e.toWorkerError ∈ errors

/-- A chunk that was `c₀` when the threads started. -/
structure PoolChunk (env : Env) (s₀ : Session) (pool : Pool) (s : Session) (j : Nat) (c₀ c : Chunk) : Prop where
  place : c₀.SamePlace c
  unstarted : (∀ w ∈ pool.workers, w.chunk ≠ j) → c = c₀ ∧
    s.task.partOn s.world.disk c = s₀.task.partOn s₀.world.disk c₀
  taken : ∀ w ∈ pool.workers, w.chunk = j →
    ThreadAt env s₀.task c₀ (chunkFate env s₀.task s₀.world.disk c₀) pool.errors c (s.task.partOn s.world.disk c) w.pc

/-- The threads of these chunks are on their way, and have thrown what they had to. -/
structure PoolFated (env : Env) (s₀ : Session) (started : List Nat) (pool : Pool) (s : Session) : Prop where
  same : s₀.task.SameRequest s.task
  length : s.task.chunks.length = s₀.task.chunks.length
  apart : PartsApart [s.task]
  workers : pool.workers.map (·.chunk) = started
  distinct : started.Nodup
  chunk : ∀ (j : Nat) (c₀ c : Chunk), s₀.task.chunks[j]? = some c₀ → s.task.chunks[j]? = some c →
    PoolChunk env s₀ pool s j c₀ c
  errors : ∀ x ∈ pool.errors, ∃ j ∈ started, ∃ c₀, s₀.task.chunks[j]? = some c₀ ∧
    ∃ e, (chunkFate env s₀.task s₀.world.disk c₀).error = some e ∧ x = e.toWorkerError

section Turns

variable {started : List Nat} {pool' : Pool} {s' : Session} {n : Nat} {w : PoolWorker} {f : Fate} {part : Option Bytes}

theorem ThreadAt.mono {errors errors' : List WorkerError} {pc : Option WorkerPc}
    (h : ThreadAt env t₀ c₀ f errors c part pc)
    (hsub : errors ⊆ errors') : ThreadAt env t₀ c₀ f errors' c part pc := by
  cases pc with
  | some pc => exact h
  | none => exact h.imp id fun ⟨e, he, hmem⟩ => ⟨e, he, hsub hmem⟩

/-- Thread `n` makes a step, or ends. -/
theorem PoolFated.advance {pc' : Option WorkerPc} (h : PoolFated env s₀ started pool s) (hn : pool.workers[n]? = some w)
    (hws : pool'.workers = pool.workers.set n { w with pc := pc' }) (herrors : pool.errors ⊆ pool'.errors)
    (hsame : s.task.SameRequest s'.task) (hlength : s'.task.chunks.length = s.task.chunks.length)
    (happ : PartsApart [s'.task]) (hother : ∀ (j : Nat) (c : Chunk), j ≠ w.chunk → s'.task.chunks[j]? = some c →
      s.task.chunks[j]? = some c ∧ s'.task.partOn s'.world.disk c = s.task.partOn s.world.disk c)
    (hown : ∀ c₀ c c', s₀.task.chunks[w.chunk]? = some c₀ → s.task.chunks[w.chunk]? = some c →
      s'.task.chunks[w.chunk]? = some c' →
      c₀.SamePlace c → ThreadAt env s₀.task c₀ (chunkFate env s₀.task s₀.world.disk c₀) pool.errors c
        (s.task.partOn s.world.disk c) w.pc →
      c₀.SamePlace c' ∧ ThreadAt env s₀.task c₀ (chunkFate env s₀.task s₀.world.disk c₀) pool'.errors c'
        (s'.task.partOn s'.world.disk c') pc')
    (hthrown : ∀ x ∈ pool'.errors, x ∈ pool.errors ∨ ∃ c₀, s₀.task.chunks[w.chunk]? = some c₀ ∧
      ∃ e, (chunkFate env s₀.task s₀.world.disk c₀).error = some e ∧ x = e.toWorkerError) :
    PoolFated env s₀ started pool' s' := by
  have hchunks : pool'.workers.map (·.chunk) = pool.workers.map (·.chunk) := by
    rw [hws, map_set_eq (b := { w with pc := pc' }) hn rfl]
  have hdistinct : (pool.workers.map (·.chunk)).Nodup := h.workers ▸ h.distinct
  have hback : ∀ v ∈ pool'.workers, v = { w with pc := pc' } ∨ v ∈ pool.workers ∧ v.chunk ≠ w.chunk := by
    intro v hv
    obtain ⟨m, hm⟩ := List.getElem?_of_mem hv
    rw [hws] at hm
    rcases getElem?_set_some hm with ⟨-, rfl⟩ | ⟨hne, hm⟩
    · exact .inl rfl
    · exact .inr ⟨List.mem_of_getElem? hm, fun hc => hne (index_unique hdistinct hm hn hc)⟩
  have hmem' : ({ w with pc := pc' } : PoolWorker) ∈ pool'.workers := by
    rw [hws]
    exact List.mem_set (List.getElem?_eq_some_iff.1 hn).1 _
  refine ⟨h.same.trans hsame, hlength.trans h.length, happ, hchunks.trans h.workers, h.distinct,
    fun j c₀ c hc₀ hc => ?_, fun x hx => ?_⟩
  · by_cases hj : j = w.chunk
    · subst hj
      obtain ⟨d, hd⟩ : ∃ d, s.task.chunks[w.chunk]? = some d :=
        ⟨_, List.getElem?_eq_getElem (hlength ▸ (List.getElem?_eq_some_iff.1 hc).1)⟩
      have hwas := h.chunk _ c₀ d hc₀ hd
      obtain ⟨hplace, hat⟩ := hown c₀ d c hc₀ hd hc hwas.place (hwas.taken w (List.mem_of_getElem? hn) rfl)
      refine ⟨hplace, fun hfree => absurd rfl (hfree { w with pc := pc' } hmem'), fun v hv hvj => ?_⟩
      rcases hback v hv with rfl | ⟨-, hne⟩
      · exact hat
      · exact absurd hvj hne
    · obtain ⟨hd, hpart⟩ := hother j c hj hc
      have hwas := h.chunk j c₀ c hc₀ hd
      refine ⟨hwas.place, fun hfree => ?_, fun v hv hvj => ?_⟩
      · rw [hpart]
        refine hwas.unstarted fun v hv hvj => ?_
        have hin : v.chunk ∈ pool'.workers.map (·.chunk) := hchunks ▸ List.mem_map_of_mem hv
        obtain ⟨u, hu, huv⟩ := List.mem_map.1 hin
        exact hfree u hu (huv.trans hvj)
      · rw [hpart]
        rcases hback v hv with rfl | ⟨hv, -⟩
        · exact absurd hvj.symm hj
        · exact (hwas.taken v hv hvj).mono herrors
  · rcases hthrown x hx with hx | ⟨c₀, hc₀, hfate⟩
    · exact h.errors x hx
    · refine ⟨w.chunk, ?_, c₀, hc₀, hfate⟩
      rw [← h.workers]
      exact List.mem_map_of_mem (List.mem_of_getElem? hn)

/-- A turn, whichever thread has it. -/
theorem turn_fated (hf : env.Smooth) (n : Nat) (h : PoolFated env s₀ started pool s)
    (hstarted : ∀ j ∈ started, j < s₀.task.chunks.length) :
    wp (Pool.turn env pool n) (PoolFated env s₀ started) (fun _ _ => False) (fun _ => False) s := by
  have hin : ∀ w ∈ pool.workers, ∃ c, s.task.chunks[w.chunk]? = some c := by
    intro w hw
    refine ⟨_, List.getElem?_eq_getElem ?_⟩
    rw [h.length]
    exact hstarted _ (h.workers ▸ List.mem_map_of_mem hw)
  unfold Pool.turn
  split
  · exact h
  · exact h
  · rename_i j hn
    refine h.advance hn rfl (List.Subset.refl _) .refl rfl h.apart (fun j c _ hc => ⟨hc, rfl⟩) ?_ fun x hx => .inl hx
    intro c₀ c c' hc₀ hc hc' hplace hat
    obtain rfl := Option.some.inj (hc.symm.trans hc')
    obtain ⟨herror, hpart, -, hfilled⟩ := OnTrack.returned hat
    exact ⟨hplace, .inl ⟨herror, hpart.symm, hfilled⟩⟩
  · rename_i j e hn
    obtain ⟨c, hc⟩ := hin _ (List.mem_of_getElem? hn)
    obtain ⟨c₀, hc₀⟩ : ∃ c₀, s₀.task.chunks[j]? = some c₀ :=
      ⟨_, List.getElem?_eq_getElem (h.length ▸ (List.getElem?_eq_some_iff.1 hc).1)⟩
    have hfate := OnTrack.threw ((h.chunk j c₀ c hc₀ hc).taken _ (List.mem_of_getElem? hn) rfl)
    refine h.advance hn rfl (List.subset_append_left _ _) .refl rfl h.apart (fun j c _ hc => ⟨hc, rfl⟩) ?_
      fun x hx => ?_
    · intro d₀ d d' hd₀ hd hd' hplace hat
      obtain rfl := Option.some.inj (hd.symm.trans hd')
      exact ⟨hplace, .inr ⟨e, OnTrack.threw hat, by simp⟩⟩
    · rcases List.mem_append.1 hx with hx | hx
      · exact .inl hx
      · exact .inr ⟨c₀, hc₀, e, hfate, List.mem_singleton.1 hx⟩
  · rename_i j pc hret hthrew hn
    obtain ⟨c, hc⟩ := hin _ (List.mem_of_getElem? hn)
    obtain ⟨c₀, hc₀⟩ : ∃ c₀, s₀.task.chunks[j]? = some c₀ :=
      ⟨_, List.getElem?_eq_getElem (h.length ▸ (List.getElem?_eq_some_iff.1 hc).1)⟩
    have htrack : OnTrack env s₀.task.url (chunkPath s₀.task c₀) c₀ (chunkFate env s₀.task s₀.world.disk c₀) c
        (s.task.partOn s.world.disk c) pc := (h.chunk j c₀ c hc₀ hc).taken _ (List.mem_of_getElem? hn) rfl
    obtain ⟨hnext, hran⟩ := htrack.step (n := s.world.tick) hf h.same
    have hrun : (stepWorker env j pc).run s = (.ok (s.workerMove env c pc).next, s.stepped env j c pc) := by
      have hcrashed : (s.workerMove env c pc).crashed = false := hran
      rw [stepWorker_run hc, hcrashed]
      rfl
    simp only [wp_bind, wp_pure]
    rw [wp_of_ok hrun]
    refine h.advance hn rfl (List.Subset.refl _) stepped_same (by rw [stepped_chunks, List.length_set])
      (stepped_apart h.apart hc) (fun i d hi hd => stepped_other h.apart hc hi hd) ?_ fun x hx => .inl hx
    intro d₀ d d' hd₀ hd hd' hplace hat
    obtain rfl := Option.some.inj (hc₀.symm.trans hd₀)
    rw [stepped_chunks, List.getElem?_set_self (List.getElem?_eq_some_iff.1 hc).1] at hd'
    obtain rfl := Option.some.inj hd'
    refine ⟨hnext.place, ?_⟩
    exact stepped_part.symm ▸ hnext

end Turns

/-! ## The joined threads -/

theorem PoolFated.initial {workers : List PoolWorker} (happ : PartsApart [s.task])
    (hstart : ∀ w ∈ workers, w.pc = some (.attempt 0))
    (hdistinct : (workers.map (·.chunk)).Nodup) : PoolFated env s (workers.map (·.chunk)) { workers } s := by
  refine ⟨.refl, rfl, happ, rfl, hdistinct, fun j c₀ c hc₀ hc => ?_, List.forall_mem_nil _⟩
  obtain rfl := Option.some.inj (hc₀.symm.trans hc)
  refine ⟨.refl, fun _ => ⟨rfl, rfl⟩, fun w hw _ => ?_⟩
  rw [hstart w hw]
  exact onTrack_start .refl rfl

/-- What is known when the threads of the chunks `started` are joined with `errors`. -/
structure PoolJoined (env : Env) (s₀ : Session) (started : List Nat) (errors : List WorkerError)
    (s : Session) : Prop where
  same : s₀.task.SameRequest s.task
  length : s.task.chunks.length = s₀.task.chunks.length
  place : ∀ (j : Nat) (c₀ c : Chunk), s₀.task.chunks[j]? = some c₀ → s.task.chunks[j]? = some c → c₀.SamePlace c
  left : ∀ (j : Nat) (c₀ c : Chunk), s₀.task.chunks[j]? = some c₀ → s.task.chunks[j]? = some c → j ∉ started →
    c = c₀ ∧ s.task.partOn s.world.disk c = s₀.task.partOn s₀.world.disk c₀
  ended : ∀ (j : Nat) (c₀ c : Chunk), s₀.task.chunks[j]? = some c₀ → s.task.chunks[j]? = some c → j ∈ started →
    (chunkFate env s₀.task s₀.world.disk c₀).error = none ∧
        s.task.partOn s.world.disk c = (chunkFate env s₀.task s₀.world.disk c₀).part ∧
        Filled c (s.task.partOn s.world.disk c) ∨
      ∃ e, (chunkFate env s₀.task s₀.world.disk c₀).error = some e ∧ e.toWorkerError ∈ errors
  errors : ∀ x ∈ errors, ∃ j ∈ started, ∃ c₀, s₀.task.chunks[j]? = some c₀ ∧
    ∃ e, (chunkFate env s₀.task s₀.world.disk c₀).error = some e ∧ x = e.toWorkerError

theorem PoolFated.joined {started : List Nat} (h : PoolFated env s₀ started pool s)
    (hall : ∀ w ∈ pool.workers, w.pc = none) :
    PoolJoined env s₀ started pool.errors s := by
  refine ⟨h.same, h.length, fun j c₀ c hc₀ hc => (h.chunk j c₀ c hc₀ hc).place, fun j c₀ c hc₀ hc hj => ?_,
    fun j c₀ c hc₀ hc hj => ?_, h.errors⟩
  · refine (h.chunk j c₀ c hc₀ hc).unstarted fun w hw hwj => hj ?_
    rw [← h.workers]
    exact hwj ▸ List.mem_map_of_mem hw
  · rw [← h.workers] at hj
    obtain ⟨w, hw, rfl⟩ := List.mem_map.1 hj
    have hat := (h.chunk _ c₀ c hc₀ hc).taken w hw rfl
    rw [hall w hw] at hat
    exact hat

/-- However the threads take turns, if no operation fails. -/
theorem runPool_joined {workers : List PoolWorker} (hf : env.Smooth) (happ : PartsApart [s.task])
    (hstart : ∀ w ∈ workers, w.pc = some (.attempt 0) ∧ w.chunk < s.task.chunks.length)
    (hdistinct : (workers.map (·.chunk)).Nodup) :
    wp (runPool env workers) (fun errors s' => PoolJoined env s (workers.map (·.chunk)) errors s') (fun _ _ => False)
      (fun _ => True) s := by
  have hin : ∀ j ∈ workers.map (·.chunk), j < s.task.chunks.length := by
    intro j hj
    obtain ⟨w, hw, rfl⟩ := List.mem_map.1 hj
    exact (hstart w hw).2
  have hturns := wp_foldlM (Pool.turn env) (PoolFated env s (workers.map (·.chunk))) (E := fun _ _ => False)
    (S := fun _ => False) (fun pool n s' h => turn_fated hf n h hin) env.turns { workers } s
    (PoolFated.initial happ (fun w hw => (hstart w hw).1) hdistinct)
  unfold runPool
  rw [wp_bind]
  refine wp_mono hturns (fun pool s' h => ?_) (fun _ _ h => h) (fun _ h => h.elim)
  split
  · rename_i hall
    exact h.joined fun w hw => by simpa using List.all_eq_true.1 hall w hw
  · trivial

end Cget
