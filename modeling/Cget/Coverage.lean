import Cget.Quotas
/-!
# The scheduler misses no chunk

If every executor that is called downloads its chunk, `Scheduler::run` has started exactly
the chunks that were schedulable when it began, each once, whatever the order of the steps:
a chunk is either as it was or has had its worker, and the loop ends only when no task has
a chunk to start and no worker is left.
-/

namespace Cget

open SchedState

variable {L : Type} {ex : Executor L} {cfg : SchedulerConfig} {s s' : SchedState L} {tasks₀ : List DownloadTask}

/-- The chunks that can be started, with their task and place. -/
def startable (tasks : List DownloadTask) : List (TaskId × Nat × Chunk) :=
  (tasks.filter (fun t => isSchedulableStatus t.status)).flatMap
    (fun t => (t.chunks.zipIdx.filter (·.1.schedulable)).map (fun p => (t.id, p.2, p.1)))

/-- The chunk a worker was started on. -/
def Worker.place (v : Worker L) : TaskId × Nat := (v.taskId, v.chunk)

/-- The promise of an executor for a step on chunk `j` of task `t`: it touches no other chunk and no
status of a task, never leaves its chunk Pending, Paused or Failed, and returns when it is complete. -/
def Promises (j : Nat) (t : DownloadTask) : Outcome Exn (Option L) × Session → Prop
  | (.ok l, e) =>
    e.task.id = t.id ∧ e.task.status = t.status ∧
      ∃ c, e.task.chunks = t.chunks.set j c ∧ (c.status = .downloading ∨ c.status = .completed) ∧
        (l.isNone → c.status = .completed ∧ c.downloaded = c.size)
  | _ => False

/-- If an executor makes the step, it keeps its promise. -/
def ExecutorPromises (ex : Executor L) (s : SchedState L) (choice : Choice) : Prop :=
  ∀ (k : Nat) (w : Worker L) (l : L) (i : Nat) (t : DownloadTask), choice = .worker k → s.workers[k]? = some w →
  w.phase = .executing l → s.tasks[i]? = some t →
    t.id = w.taskId → Promises w.chunk t ((ex.step w.taskId w.chunk l).run { world := s.world, task := t })

/-! ## Chunks that can be started -/

theorem mem_startable {tasks : List DownloadTask} {id : TaskId} {j : Nat} {c : Chunk} :
    (id, j, c) ∈ startable tasks ↔
      ∃ t ∈ tasks, isSchedulableStatus t.status ∧ t.id = id ∧ t.chunks[j]? = some c ∧ c.schedulable := by
  simp only [startable, List.mem_flatMap, List.mem_filter, List.mem_map, Prod.mk.injEq, Prod.exists,
    List.mem_zipIdx_iff_getElem?]
  constructor
  · rintro ⟨t, ⟨ht, hs⟩, c', j', ⟨hc, hsched⟩, hid, rfl, rfl⟩
    exact ⟨t, ht, hs, hid, hc, hsched⟩
  · rintro ⟨t, ht, hs, hid, hc, hsched⟩
    exact ⟨t, ⟨ht, hs⟩, c, j, ⟨hc, hsched⟩, hid, rfl, rfl⟩

theorem startable_places_nodup {tasks : List DownloadTask} (hids : (tasks.map (·.id)).Nodup) :
    ((startable tasks).map (fun x => (x.1, x.2.1))).Nodup := by
  unfold startable
  rw [List.map_flatMap, List.nodup_flatMap]
  constructor
  · intro t _
    rw [List.map_map]
    have hplaces : (t.chunks.zipIdx.map (·.2)).Nodup := by
      rw [List.zipIdx_map_snd]
      exact List.nodup_range'
    have hsub := ((List.filter_sublist (p := fun p : Chunk × Nat => p.1.schedulable)).map
      (fun p : Chunk × Nat => p.2)).nodup hplaces
    have hpair := hsub.map (f := fun j => (t.id, j)) (fun a b h => (Prod.mk.inj h).2)
    rwa [List.map_map] at hpair
  · have hne := (List.pairwise_map.1 hids).filter (fun t => isSchedulableStatus t.status)
    refine hne.imp fun {t u} htu => ?_
    change List.Disjoint _ _
    intro x hx hy
    simp only [List.map_map, List.mem_map, Function.comp] at hx hy
    obtain ⟨p, _, rfl⟩ := hx
    obtain ⟨q, _, hq⟩ := hy
    exact htu (Prod.mk.inj hq).1.symm

/-! ## Chunks are as they were, or have had their worker -/

/-- Chunk `c` at `place`, that was `c₀`. -/
inductive ChunkCovered (workers : List (Worker L)) (place : TaskId × Nat) (c₀ c : Chunk) : Prop
  | untouched : c = c₀ → (∀ v ∈ workers, v.place ≠ place) → ChunkCovered workers place c₀ c
  | taken (v : Worker L) : v ∈ workers → v.place = place → c.status = .downloading ∨ c.status = .completed →
      ((∀ l, v.phase ≠ .executing l) → c.status = .completed ∧ c.downloaded = c.size) → ChunkCovered workers place c₀ c

/-- Task `t`, that was `t₀`. -/
structure TaskCovered (workers : List (Worker L)) (t₀ t : DownloadTask) : Prop where
  id : t.id = t₀.id
  status : t.status = t₀.status ∨ t.status = .downloading ∧ isSchedulableStatus t₀.status
  length : t.chunks.length = t₀.chunks.length
  chunk : ∀ (j : Nat) (c₀ c : Chunk), t₀.chunks[j]? = some c₀ → t.chunks[j]? = some c →
    ChunkCovered workers (t.id, j) c₀ c

/-- What holds as long as the executors keep their promise. -/
structure Covered (tasks₀ : List DownloadTask) (s : SchedState L) : Prop where
  length : s.tasks.length = tasks₀.length
  task : ∀ (i : Nat) (t₀ t : DownloadTask), tasks₀[i]? = some t₀ → s.tasks[i]? = some t → TaskCovered s.workers t₀ t
  once : (s.workers.map (·.place)).Nodup
  home : ∀ v ∈ s.workers, ∃ t ∈ s.tasks, t.id = v.taskId ∧ ∃ c, t.chunks[v.chunk]? = some c
  quiet : ∀ v ∈ s.workers, v.phase ≠ .recording
  calm : s.workerFailed = false

namespace Covered

theorem was (h : Covered tasks₀ s) {i : Nat} {t : DownloadTask} (hi : s.tasks[i]? = some t) :
    ∃ t₀, tasks₀[i]? = some t₀ ∧ TaskCovered s.workers t₀ t := by
  have hlt : i < tasks₀.length := by
    rw [← h.length]
    exact (List.getElem?_eq_some_iff.1 hi).1
  exact ⟨tasks₀[i], List.getElem?_eq_getElem hlt, h.task i _ t (List.getElem?_eq_getElem hlt) hi⟩

theorem ids (h : Covered tasks₀ s) (hids : (tasks₀.map (·.id)).Nodup) : (s.tasks.map (·.id)).Nodup := by
  have hsame : s.tasks.map (·.id) = tasks₀.map (·.id) := by
    apply List.ext_getElem?
    intro i
    rw [List.getElem?_map, List.getElem?_map]
    rcases hi : s.tasks[i]? with _ | t
    · have : tasks₀[i]? = none := by
        rw [List.getElem?_eq_none_iff] at hi ⊢
        exact h.length ▸ hi
      rw [this]
    · obtain ⟨t₀, hi₀, ht⟩ := h.was hi
      rw [hi₀]
      exact congrArg some ht.id
  exact hsame ▸ hids

/-- The worker of a chunk that has had one. -/
theorem taker (h : Covered tasks₀ s) {i j : Nat} {t₀ t : DownloadTask} {c₀ c : Chunk} {v : Worker L}
    (hi₀ : tasks₀[i]? = some t₀)
    (hi : s.tasks[i]? = some t) (hj₀ : t₀.chunks[j]? = some c₀) (hj : t.chunks[j]? = some c) (hv : v ∈ s.workers)
    (hplace : v.place = (t.id, j)) :
    (c.status = .downloading ∨ c.status = .completed) ∧
      ((∀ l, v.phase ≠ .executing l) → c.status = .completed ∧ c.downloaded = c.size) := by
  cases (h.task i t₀ t hi₀ hi).chunk j c₀ c hj₀ hj with
  | untouched _ hnone => exact absurd hplace (hnone v hv)
  | taken u hu hup hst hdone =>
    have : u = v := List.inj_on_of_nodup_map h.once hu hv (hup.trans hplace.symm)
    subst this
    exact ⟨hst, hdone⟩

theorem initial (tasks : List DownloadTask) (w : World) : Covered tasks ({ tasks, world := w } : SchedState L) := by
  constructor
  · rfl
  · intro i t₀ t hi₀ hi
    obtain rfl := Option.some.inj (hi₀.symm.trans hi)
    refine ⟨rfl, .inl rfl, rfl, fun j c₀ c hj₀ hj => ?_⟩
    exact .untouched (Option.some.inj (hj.symm.trans hj₀)) (fun v hv => absurd hv List.not_mem_nil)
  · exact List.nodup_nil
  · exact fun v hv => absurd hv List.not_mem_nil
  · exact fun v hv => absurd hv List.not_mem_nil
  · rfl

/-- A worker goes on, and writes its own chunk only. -/
theorem move (h : Covered tasks₀ s) (hids : (tasks₀.map (·.id)).Nodup) {k i : Nat} {w : Worker L} {p : Phase L}
    {t t' : DownloadTask}
    {c' : Chunk} (hk : s.workers[k]? = some w) (hi : s.tasks[i]? = some t) (hid : t.id = w.taskId) (hid' : t'.id = t.id)
    (hst : t'.status = t.status) (hchunks : t'.chunks = t.chunks.set w.chunk c')
    (hc : c'.status = .downloading ∨ c'.status = .completed)
    (hdone : (∀ l, p ≠ .executing l) → c'.status = .completed ∧ c'.downloaded = c'.size) (hp : p ≠ .recording)
    (ht : s'.tasks = s.tasks.set i t') (hw : s'.workers = s.workers.set k { w with phase := p })
    (hfailed : s'.workerFailed = s.workerFailed) : Covered tasks₀ s' := by
  have hlt := (List.getElem?_eq_some_iff.1 hi).1
  have hmem : w ∈ s.workers := List.mem_of_getElem? hk
  have hplaces : s'.workers.map (·.place) = s.workers.map (·.place) := by
    rw [hw]
    exact map_set_eq hk rfl
  have hold : ∀ v ∈ s'.workers, v ∈ s.workers ∨ v = { w with phase := p } := by
    intro v hv
    rw [hw] at hv
    exact List.mem_or_eq_of_mem_set hv
  -- chunks of other workers
  have hother : ∀ (place : TaskId × Nat) (c₀ c : Chunk), place ≠ w.place → ChunkCovered s.workers place c₀ c →
      ChunkCovered s'.workers place c₀ c := by
    intro place c₀ c hne hcov
    cases hcov with
    | untouched he hnone =>
      refine .untouched he fun v hv => ?_
      rcases hold v hv with hv | rfl
      · exact hnone v hv
      · exact Ne.symm hne
    | taken v hv hvp hstv hdonev =>
      have hv' : v ∈ s'.workers := by
        obtain ⟨n, hn⟩ := List.getElem?_of_mem hv
        have hnk : k ≠ n := by
          rintro rfl
          rw [Option.some.inj (hn.symm.trans hk)] at hvp
          exact hne hvp.symm
        exact List.mem_of_getElem? (by rw [hw, List.getElem?_set_ne hnk, hn])
      exact .taken v hv' hvp hstv hdonev
  have hmine : ({ w with phase := p } : Worker L) ∈ s'.workers := by
    rw [hw]
    exact List.mem_set (List.getElem?_eq_some_iff.1 hk).1 _
  constructor
  · rw [ht, List.length_set, h.length]
  · intro n t₀ u hn₀ hn
    rw [ht] at hn
    rcases getElem?_set_some hn with ⟨rfl, rfl⟩ | ⟨hne, hn⟩
    · have hcov := h.task n t₀ t hn₀ hi
      refine ⟨hid'.trans hcov.id, hst ▸ hcov.status, ?_, ?_⟩
      · rw [hchunks, List.length_set, hcov.length]
      · intro j c₀ c hj₀ hj
        rw [hchunks] at hj
        rw [hid']
        rcases getElem?_set_some hj with ⟨rfl, rfl⟩ | ⟨hjne, hj⟩
        · exact .taken _ hmine (by rw [hid]; rfl) hc hdone
        · exact hother _ _ _ (fun he => hjne (Prod.mk.inj he).2) (hcov.chunk j c₀ c hj₀ hj)
    · have hcov := h.task n t₀ u hn₀ hn
      refine ⟨hcov.id, hcov.status, hcov.length, fun j c₀ c hj₀ hj => ?_⟩
      apply hother _ _ _ _ (hcov.chunk j c₀ c hj₀ hj)
      intro he
      exact hne (index_unique (h.ids hids) hn hi ((Prod.mk.inj he).1.trans hid.symm))
  · exact hplaces ▸ h.once
  · intro v hv
    have hfrom : ∃ u ∈ s.workers, u.taskId = v.taskId ∧ u.chunk = v.chunk := by
      rcases hold v hv with hv | rfl
      · exact ⟨v, hv, rfl, rfl⟩
      · exact ⟨w, hmem, rfl, rfl⟩
    obtain ⟨u, hu, hut, huc⟩ := hfrom
    obtain ⟨t₁, ht₁, hid₁, c, hcu⟩ := h.home u hu
    obtain ⟨n, hn⟩ := List.getElem?_of_mem ht₁
    by_cases hni : n = i
    · subst hni
      obtain rfl := Option.some.inj (hn.symm.trans hi)
      have hlen : v.chunk < t'.chunks.length := by
        rw [hchunks, List.length_set, ← huc]
        exact (List.getElem?_eq_some_iff.1 hcu).1
      refine ⟨t', by rw [ht]; exact List.mem_set hlt _, hid'.trans (hid₁.trans hut), t'.chunks[v.chunk], ?_⟩
      exact List.getElem?_eq_getElem hlen
    · refine ⟨t₁, List.mem_of_getElem? (by rw [ht, List.getElem?_set_ne (Ne.symm hni), hn]), hid₁.trans hut, c, ?_⟩
      exact huc ▸ hcu
  · intro v hv
    rcases hold v hv with hv | rfl
    · exact h.quiet v hv
    · exact hp
  · exact hfailed.trans h.calm

/-- A chunk a pass starts is as it was. -/
theorem fresh (h : Covered tasks₀ s) {i j : Nat} {t : DownloadTask} {c : Chunk} (hi : s.tasks[i]? = some t)
    (hj : t.chunks[j]? = some c) (hpick : s.pick cfg t = some j) :
    (∀ v ∈ s.workers, v.place ≠ (t.id, j)) ∧
      ∃ t₀, tasks₀[i]? = some t₀ ∧ t₀.id = t.id ∧ isSchedulableStatus t₀.status ∧ t₀.chunks[j]? = some c ∧
        c.schedulable := by
  obtain ⟨hst, c', hj', hsched⟩ := pick_spec hpick
  obtain rfl := Option.some.inj (hj.symm.trans hj')
  obtain ⟨t₀, hi₀, hcov⟩ := h.was hi
  have hst₀ : isSchedulableStatus t₀.status := by
    rcases hcov.status with he | ⟨_, hs⟩
    · exact he ▸ hst
    · exact hs
  have hlt : j < t₀.chunks.length := hcov.length ▸ (List.getElem?_eq_some_iff.1 hj).1
  cases hcov.chunk j _ c (List.getElem?_eq_getElem hlt) hj with
  | untouched he hnone =>
    subst he
    exact ⟨hnone, t₀, hi₀, hcov.id.symm, hst₀, List.getElem?_eq_getElem hlt, hsched⟩
  | taken v hv hvp hstv =>
    rcases hstv with hd | hd <;> simp [Chunk.schedulable, hd] at hsched

/-- A pass starts a worker. -/
theorem start (h : Covered tasks₀ s) (hids : (tasks₀.map (·.id)).Nodup) {i j : Nat} {t : DownloadTask}
    {c : Chunk} {l : L} (hi : s.tasks[i]? = some t) (hj : t.chunks[j]? = some c) (hpick : s.pick cfg t = some j)
    (ht : s'.tasks = s.tasks.set i (startedTask t j c))
    (hw : s'.workers = s.workers ++ [{ taskId := t.id, chunk := j, phase := .executing l }])
    (hfailed : s'.workerFailed = s.workerFailed) : Covered tasks₀ s' := by
  obtain ⟨hfree, t₀, hi₀, hid₀, hst₀, _, _⟩ := h.fresh hi hj hpick
  have hlt := (List.getElem?_eq_some_iff.1 hi).1
  have hkept : ∀ v ∈ s.workers, v ∈ s'.workers := by
    intro v hv
    rw [hw]
    exact List.mem_append_left _ hv
  have hold : ∀ v ∈ s'.workers, v ∈ s.workers ∨ v = { taskId := t.id, chunk := j, phase := .executing l } := by
    intro v hv
    rw [hw] at hv
    exact (List.mem_append.1 hv).imp_right List.mem_singleton.1
  have hmine : ({ taskId := t.id, chunk := j, phase := .executing l } : Worker L) ∈ s'.workers := by
    rw [hw]
    exact List.mem_append_right _ (List.mem_singleton_self _)
  have hother : ∀ (place : TaskId × Nat) (c₀ d : Chunk), place ≠ (t.id, j) → ChunkCovered s.workers place c₀ d →
      ChunkCovered s'.workers place c₀ d := by
    intro place c₀ d hne hcov
    cases hcov with
    | untouched he hnone =>
      refine .untouched he fun v hv => ?_
      rcases hold v hv with hv | rfl
      · exact hnone v hv
      · exact Ne.symm hne
    | taken v hv hvp hstv hdonev => exact .taken v (hkept v hv) hvp hstv hdonev
  constructor
  · rw [ht, List.length_set, h.length]
  · intro n u₀ u hn₀ hn
    rw [ht] at hn
    rcases getElem?_set_some hn with ⟨rfl, rfl⟩ | ⟨hne, hn⟩
    · have hcov := h.task n u₀ t hn₀ hi
      obtain rfl := Option.some.inj (hi₀.symm.trans hn₀)
      refine ⟨hcov.id, .inr ⟨rfl, hst₀⟩, ?_, ?_⟩
      · exact List.length_set.trans hcov.length
      · intro m c₀ d hm₀ hm
        rcases getElem?_set_some hm with ⟨rfl, rfl⟩ | ⟨hmj, hm⟩
        · exact .taken _ hmine rfl (.inl rfl) fun hl => absurd rfl (hl l)
        · exact hother _ _ _ (fun he => hmj (Prod.mk.inj he).2) (hcov.chunk m c₀ d hm₀ hm)
    · have hcov := h.task n u₀ u hn₀ hn
      refine ⟨hcov.id, hcov.status, hcov.length, fun m c₀ d hm₀ hm => ?_⟩
      apply hother _ _ _ _ (hcov.chunk m c₀ d hm₀ hm)
      intro he
      exact hne (index_unique (h.ids hids) hn hi (Prod.mk.inj he).1)
  · rw [hw, List.map_append, List.nodup_append]
    refine ⟨h.once, List.nodup_singleton _, ?_⟩
    intro a ha b hb
    obtain ⟨v, hv, rfl⟩ := List.mem_map.1 ha
    rw [List.map_singleton, List.mem_singleton] at hb
    subst hb
    exact hfree v hv
  · intro v hv
    rcases hold v hv with hv | rfl
    · obtain ⟨u, hu, hid, d, hd⟩ := h.home v hv
      obtain ⟨n, hn⟩ := List.getElem?_of_mem hu
      by_cases hni : n = i
      · subst hni
        obtain rfl := Option.some.inj (hn.symm.trans hi)
        have hlen : v.chunk < (startedTask u j c).chunks.length := by
          rw [startedTask, List.length_set]
          exact (List.getElem?_eq_some_iff.1 hd).1
        exact ⟨startedTask u j c, by rw [ht]; exact List.mem_set hlt _, hid, _, List.getElem?_eq_getElem hlen⟩
      · exact ⟨u, List.mem_of_getElem? (by rw [ht, List.getElem?_set_ne (Ne.symm hni), hn]), hid, d, hd⟩
    · have hlen : j < (startedTask t j c).chunks.length := by
        rw [startedTask, List.length_set]
        exact (List.getElem?_eq_some_iff.1 hj).1
      exact ⟨startedTask t j c, by rw [ht]; exact List.mem_set hlt _, rfl, _, List.getElem?_eq_getElem hlen⟩
  · intro v hv
    rcases hold v hv with hv | rfl
    · exact h.quiet v hv
    · exact fun he => nomatch he
  · exact hfailed.trans h.calm

/-- A worker that has nothing left to write goes on. -/
theorem retire (h : Covered tasks₀ s) (hids : (tasks₀.map (·.id)).Nodup) {k : Nat} {w : Worker L} {p : Phase L}
    (hk : s.workers[k]? = some w) (hwhy : w.phase = .leaving ∨ ∀ t ∈ s.tasks, t.id ≠ w.taskId)
    (hp : p = .leaving ∨ p = .exited)
    (ht : s'.tasks = s.tasks) (hw : s'.workers = s.workers.set k { w with phase := p })
    (hfailed : s'.workerFailed = s.workerFailed) : Covered tasks₀ s' := by
  have hmem := List.mem_of_getElem? hk
  obtain ⟨t, htm, hid, c, hc⟩ := h.home w hmem
  have hleaving : w.phase = .leaving := hwhy.resolve_right fun hno => hno t htm hid
  obtain ⟨i, hi⟩ := List.getElem?_of_mem htm
  obtain ⟨t₀, hi₀, hcov⟩ := h.was hi
  have hlt : w.chunk < t₀.chunks.length := hcov.length ▸ (List.getElem?_eq_some_iff.1 hc).1
  obtain ⟨hst, hdone⟩ := h.taker hi₀ hi (List.getElem?_eq_getElem hlt) hc hmem (by rw [hid]; rfl)
  refine h.move hids hk hi hid rfl rfl (set_self hc).symm hst (fun _ => ?_) ?_ (by rw [ht, set_self hi]) hw hfailed
  · exact hdone fun l he => nomatch he.symm.trans hleaving
  · rcases hp with rfl | rfl <;> exact fun he => nomatch he

/-- An executor that keeps its promise makes a step. -/
theorem execute (h : Covered tasks₀ s) (hids : (tasks₀.map (·.id)).Nodup) {k i : Nat} {w : Worker L} {l : L}
    {t : DownloadTask} (hk : s.workers[k]? = some w) (hi : s.tasks[i]? = some t) (hid : t.id = w.taskId)
    (hpromise : Promises w.chunk t ((ex.step w.taskId w.chunk l).run { world := s.world, task := t })) :
    Covered tasks₀ (s.execute ex k w l i t) := by
  unfold SchedState.execute
  revert hpromise
  rcases (ex.step w.taskId w.chunk l).run { world := s.world, task := t } with ⟨out, e⟩
  intro hpromise
  cases out with
  | thrown x => exact hpromise.elim
  | stopped => exact hpromise.elim
  | ok next =>
    obtain ⟨hid', hst, c, hchunks, hc, hdone⟩ := hpromise
    cases next with
    | none =>
      exact h.move (p := .leaving) hids hk hi hid hid' hst hchunks hc (fun _ => hdone rfl)
        (fun he => nomatch he) rfl rfl rfl
    | some l' =>
      exact h.move (p := .executing l') hids hk hi hid hid' hst hchunks hc (fun hl => absurd rfl (hl l'))
        (fun he => nomatch he) rfl rfl rfl

theorem step (h : Covered tasks₀ s) (hids : (tasks₀.map (·.id)).Nodup) {choice : Choice}
    (heff : StepEffect ex cfg s choice s') (hpromise : ExecutorPromises ex s choice) : Covered tasks₀ s' := by
  cases heff with
  | idle ht _ hw hfailed =>
    constructor
    · rw [ht, h.length]
    · intro i t₀ t hi₀ hi
      rw [ht] at hi
      exact hw ▸ h.task i t₀ t hi₀ hi
    · exact hw ▸ h.once
    · rw [ht, hw]
      exact h.home
    · exact hw ▸ h.quiet
    · exact hfailed.trans h.calm
  | retire k w p hk hwhy hp ht _ hw hfailed => exact h.retire hids hk hwhy hp ht hw hfailed
  | start i j _ _ t c _ _ hi hpick hj ht _ hw hfailed => exact h.start hids hi hj hpick ht hw hfailed
  | execute k w l i t hchoice hk hp hi hid => exact h.execute hids hk hi hid (hpromise k w l i t hchoice hk hp hi hid)
  | record k w i t hk hp => exact absurd hp (h.quiet w (List.mem_of_getElem? hk))
  | sweep _ _ ht _ hw hfailed =>
    have hsame : s.sweep.tasks = s.tasks := by
      rcases sweep_tasks (s := s) with hsame | ⟨hf, _⟩
      · exact hsame
      · exact absurd hf (by simp [h.calm])
    constructor
    · rw [ht, hsame, h.length]
    · intro i t₀ t hi₀ hi
      rw [ht, hsame] at hi
      exact hw ▸ h.task i t₀ t hi₀ hi
    · exact hw ▸ h.once
    · rw [ht, hsame, hw]
      exact h.home
    · exact hw ▸ h.quiet
    · exact hfailed.trans h.calm

end Covered

/-! ## Jobs -/

/-- What a step adds to the jobs and the workers. -/
inductive JobEffect (cfg : SchedulerConfig) (s : SchedState L) : SchedState L → Prop
  | same {s' : SchedState L} : s'.scheduledJobs = s.scheduledJobs → s'.workers.map (·.place) = s.workers.map (·.place) →
      JobEffect cfg s s'
  | start {s' : SchedState L} (i j : Nat) (t : DownloadTask) (c : Chunk) :
      s.tasks[i]? = some t → t.chunks[j]? = some c →
      s.pick cfg t = some j → s'.scheduledJobs = s.scheduledJobs ++ [⟨t.id, c.index, t.schedulerPriority⟩] →
      s'.workers.map (·.place) = s.workers.map (·.place) ++ [(t.id, j)] → JobEffect cfg s s'

namespace SchedState

theorem coordinate_jobs : JobEffect cfg s (s.coordinate ex cfg) := by
  unfold coordinate
  split
  · split <;> exact .same rfl rfl
  · exact .same rfl rfl
  · rename_i i order scheduled _
    unfold visit
    split
    · exact .same rfl rfl
    · split
      · exact .same rfl rfl
      · rename_i t hti
        split
        · exact .same rfl rfl
        · rename_i j hpick
          split
          · exact .same rfl rfl
          · rename_i c hcj
            exact .start i j t c hti hcj hpick rfl (by simp [startWorker, Worker.place])
  · exact .same rfl rfl
  · split
    · unfold sweep
      split <;> exact .same rfl rfl
    · exact .same rfl rfl
  · exact .same rfl rfl

theorem work_jobs (k : Nat) : JobEffect cfg s (s.work ex k) := by
  unfold work
  split
  · exact .same rfl rfl
  · rename_i w hk
    split
    · split
      · exact .same rfl (map_set_eq hk rfl)
      · split
        · exact .same rfl (map_set_eq hk rfl)
        · unfold execute
          dsimp only
          split
          · exact .same rfl (map_set_eq hk rfl)
          · exact .same rfl (map_set_eq hk rfl)
          · exact .same rfl (map_set_eq hk rfl)
          · exact .same rfl rfl
    · unfold recordFailure
      split
      · exact .same rfl (map_set_eq hk rfl)
      · split
        · exact .same rfl (map_set_eq hk rfl)
        · exact .same rfl (map_set_eq hk rfl)
    · split
      · exact .same rfl rfl
      · exact .same rfl (map_set_eq hk rfl)
    · exact .same rfl rfl

theorem step_jobs (c : Choice) : JobEffect cfg s (step ex cfg s c) := by
  unfold step
  split
  · exact .same rfl rfl
  · cases c with
    | coordinator => exact coordinate_jobs
    | worker k => exact work_jobs k

end SchedState

/-- The chunks started so far. -/
def Started (tasks₀ : List DownloadTask) (s : SchedState L) (xs : List (TaskId × Nat × Chunk)) : Prop :=
  s.workers.map (·.place) = xs.map (fun x => (x.1, x.2.1)) ∧
    s.scheduledJobs.map (fun job => (job.taskId, job.chunkIndex)) = xs.map (fun x => (x.1, x.2.2.index)) ∧
    ∀ x ∈ xs, x ∈ startable tasks₀

theorem Covered.started (h : Covered tasks₀ s) {xs : List (TaskId × Nat × Chunk)} (hxs : Started tasks₀ s xs)
    (heff : JobEffect cfg s s') : ∃ ys, Started tasks₀ s' ys := by
  obtain ⟨hworkers, hjobs, hmem⟩ := hxs
  cases heff with
  | same hj hw => exact ⟨xs, hw.trans hworkers, hj ▸ hjobs, hmem⟩
  | start i j t c hi hj hpick hjob hw =>
    obtain ⟨_, t₀, hi₀, hid₀, hst₀, hj₀, hsched⟩ := h.fresh hi hj hpick
    refine ⟨xs ++ [(t.id, j, c)], ?_, ?_, ?_⟩
    · rw [hw, hworkers, List.map_append]
      rfl
    · rw [hjob, List.map_append, List.map_append, hjobs]
      rfl
    · intro x hx
      rcases List.mem_append.1 hx with hx | hx
      · exact hmem x hx
      · rw [List.mem_singleton.1 hx]
        exact mem_startable.2 ⟨t₀, List.mem_of_getElem? hi₀, hst₀, hid₀, hj₀, hsched⟩

/-! ## The end of the loop -/

theorem SchedState.work_coordinator (k : Nat) : (s.work ex k).coordinator = s.coordinator := by
  unfold work
  split
  · rfl
  · split
    · split
      · rfl
      · split
        · rfl
        · unfold execute
          dsimp only
          split <;> rfl
    · unfold recordFailure
      split
      · rfl
      · split <;> rfl
    · split <;> rfl
    · rfl

/-- A worker that is gone makes no step. -/
theorem SchedState.work_exited (h : ∀ v ∈ s.workers, v.phase = .exited) (k : Nat) : s.work ex k = s := by
  unfold work
  split
  · rfl
  · rename_i w hk
    simp only [h w (List.mem_of_getElem? hk)]

/-- Out of the loop, no task has a chunk to start and no worker is left. -/
def Settled (s : SchedState L) : Prop :=
  s.coordinator = .joining ∨ s.coordinator = .returned →
    (∀ t ∈ s.tasks, hasSchedulableChunk t = false) ∧ ∀ v ∈ s.workers, v.phase = .exited

theorem Worker.exited_of_not_live {v : Worker L} (h : v.live = false) : v.phase = .exited := by
  unfold Worker.live at h
  split at h
  · assumption
  · cases h

/-- The loop ends only when there is nothing left to do. -/
theorem Covered.finished (h : Covered tasks₀ s) (hcount : Tallied cfg s) (hend : s.unfinished = false) :
    (∀ t ∈ s.tasks, hasSchedulableChunk t = false) ∧ ∀ v ∈ s.workers, v.phase = .exited := by
  simp only [SchedState.unfinished, List.any_eq_false, Bool.or_eq_true, decide_eq_true_eq, not_or, Bool.not_eq_true,
    Nat.not_lt, Nat.le_zero] at hend
  refine ⟨fun t ht => (hend t ht).1, fun v hv => ?_⟩
  obtain ⟨t, ht, hid, _⟩ := h.home v hv
  have hzero : s.liveOf v.taskId = 0 := by
    rw [← hcount.running, ← hid]
    exact (hend t ht).2
  apply Worker.exited_of_not_live
  have := List.countP_eq_zero.1 hzero v hv
  simpa using this

theorem Settled.step (hset : Settled s) (h : Covered tasks₀ s) (hcount : Tallied cfg s) (choice : Choice) :
    Settled (SchedState.step ex cfg s choice) := by
  unfold SchedState.step
  split
  · exact hset
  · cases choice with
    | worker k =>
      -- no worker steps once the loop is left
      intro hout
      dsimp only at hout ⊢
      rw [work_coordinator] at hout
      rw [work_exited (hset hout).2]
      exact hset hout
    | coordinator =>
      dsimp only
      unfold SchedState.coordinate
      split
      · split
        · rename_i hdone
          simp only [h.calm, Bool.false_or, Bool.not_eq_true'] at hdone
          exact fun _ => h.finished hcount hdone
        · exact fun hout => by simp at hout
      · exact fun hout => by rcases hout with hout | hout <;> split at hout <;> cases hout
      · intro hout
        exfalso
        revert hout
        unfold SchedState.visit
        repeat' split
        all_goals simp
      · exact fun hout => by simp at hout
      · rename_i hjoin
        split
        · intro _
          have hsweep : s.sweep = s := by
            unfold SchedState.sweep
            rw [if_neg (by simp [h.calm])]
          rw [hsweep]
          exact hset (.inl hjoin)
        · exact hset
      · exact hset

/-- Out of the loop, every chunk that could be started has been. -/
theorem Covered.all_started (h : Covered tasks₀ s) (hids : (tasks₀.map (·.id)).Nodup) {xs : List (TaskId × Nat × Chunk)}
    (hxs : Started tasks₀ s xs)
    (hnone : ∀ t ∈ s.tasks, hasSchedulableChunk t = false) : startable tasks₀ ⊆ xs := by
  rintro ⟨id, j, c₀⟩ hx
  obtain ⟨t₀, ht₀, hst₀, rfl, hj₀, hsched⟩ := mem_startable.1 hx
  obtain ⟨i, hi₀⟩ := List.getElem?_of_mem ht₀
  have hlt : i < s.tasks.length := h.length ▸ (List.getElem?_eq_some_iff.1 hi₀).1
  have hi : s.tasks[i]? = some s.tasks[i] := List.getElem?_eq_getElem hlt
  have hcov := h.task i t₀ _ hi₀ hi
  have hjlt : j < s.tasks[i].chunks.length := hcov.length ▸ (List.getElem?_eq_some_iff.1 hj₀).1
  have hj := List.getElem?_eq_getElem hjlt
  cases hcov.chunk j c₀ _ hj₀ hj with
  | untouched he =>
    have hst : isSchedulableStatus s.tasks[i].status := by
      rcases hcov.status with hs | ⟨hs, _⟩
      · exact hs ▸ hst₀
      · rw [hs]
        rfl
    have hmem : s.tasks[i].chunks[j] ∈ s.tasks[i].chunks := List.getElem_mem hjlt
    have hany := hnone _ (List.getElem_mem hlt)
    rw [hasSchedulableChunk, hst, Bool.true_and, List.any_eq_false] at hany
    exact absurd (he ▸ hsched) (hany _ hmem)
  | taken v hv hplace =>
    have hin : (t₀.id, j) ∈ s.workers.map (·.place) := List.mem_map.2 ⟨v, hv, hplace.trans (by rw [hcov.id])⟩
    rw [hxs.1] at hin
    obtain ⟨⟨id', j', c'⟩, hx', he⟩ := List.mem_map.1 hin
    obtain ⟨rfl, rfl⟩ := Prod.mk.inj he
    obtain ⟨u₀, hu₀, _, hid, hc', _⟩ := mem_startable.1 (hxs.2.2 _ hx')
    obtain rfl := List.inj_on_of_nodup_map hids hu₀ ht₀ hid
    obtain rfl := Option.some.inj (hc'.symm.trans hj₀)
    exact hx'

/-- A chunk whose worker is through is complete. -/
theorem Covered.complete (h : Covered tasks₀ s) {id : TaskId} {j : Nat} (hplace : (id, j) ∈ s.workers.map (·.place))
    (hexited : ∀ v ∈ s.workers, v.phase = .exited) :
    ∃ t ∈ s.tasks, t.id = id ∧ ∃ c, t.chunks[j]? = some c ∧ c.status = .completed ∧ c.downloaded = c.size := by
  obtain ⟨v, hv, he⟩ := List.mem_map.1 hplace
  obtain ⟨rfl, rfl⟩ := Prod.mk.inj he
  obtain ⟨t, ht, hid, c, hc⟩ := h.home v hv
  obtain ⟨i, hi⟩ := List.getElem?_of_mem ht
  obtain ⟨t₀, hi₀, hcov⟩ := h.was hi
  have hlt : v.chunk < t₀.chunks.length := hcov.length ▸ (List.getElem?_eq_some_iff.1 hc).1
  have hdone := (h.taker hi₀ hi (List.getElem?_eq_getElem hlt) hc hv (by rw [hid]; rfl)).2
  exact ⟨t, ht, hid, c, hc, hdone fun l hl => nomatch hl.symm.trans (hexited v hv)⟩

/-- `Scheduler::run` starts a worker on every chunk that was schedulable, once, and on no
other, and when it returns all of them are complete. -/
theorem scheduler_complete (ex : Executor L) (config : SchedulerConfig) (tasks : List DownloadTask) (w : World)
    (schedule : List Choice) (hids : (tasks.map (·.id)).Nodup)
    (hpromise : GuardedRun (step ex config.normalized) (ExecutorPromises ex) { tasks, world := w } schedule) :
    let s := SchedState.runs ex config.normalized { tasks, world := w } schedule
    s.coordinator = .returned →
      (s.workers.map (·.place)).Perm ((startable tasks).map (fun x => (x.1, x.2.1))) ∧
        (s.scheduledJobs.map (fun job => (job.taskId, job.chunkIndex))).Perm
          ((startable tasks).map (fun x => (x.1, x.2.2.index))) ∧
        ((startable tasks).map (fun x => (x.1, x.2.1))).Nodup ∧ (∀ v ∈ s.workers, v.phase = .exited) ∧
        ∀ x ∈ startable tasks, ∃ t ∈ s.tasks, t.id = x.1 ∧
          ∃ c, t.chunks[x.2.1]? = some c ∧ c.status = .completed ∧ c.downloaded = c.size := by
  intro s hret
  have hrun : Tallied config.normalized s ∧ Covered tasks s ∧ (∃ xs, Started tasks s xs) ∧ Settled s := by
    refine GuardedRun.inv (I := fun s => Tallied config.normalized s ∧ Covered tasks s ∧
      (∃ xs, Started tasks s xs) ∧ Settled s) ?_ ?_ hpromise
    · rintro s c ⟨hcount, hcov, ⟨xs, hxs⟩, hset⟩ hok
      refine ⟨hcount.step (step_counters c), hcov.step hids (step_effect c) hok, ?_, hset.step hcov hcount c⟩
      exact hcov.started hxs (step_jobs c)
    · refine ⟨Tallied.initial _ _ _, Covered.initial _ _, ⟨[], rfl, rfl, fun x hx => absurd hx List.not_mem_nil⟩, ?_⟩
      exact fun hout => by simp at hout
  obtain ⟨_, hcov, ⟨xs, hxs⟩, hset⟩ := hrun
  obtain ⟨hnone, hexited⟩ := hset (.inr hret)
  have hnodup := startable_places_nodup hids
  have hperm : xs.Perm (startable tasks) := by
    apply (List.perm_ext_iff_of_nodup _ hnodup.of_map).2
    · intro x
      exact ⟨hxs.2.2 x, fun hx => hcov.all_started hids hxs hnone hx⟩
    · have hplaces := hcov.once
      rw [hxs.1] at hplaces
      exact hplaces.of_map
  have hworkers : (s.workers.map (·.place)).Perm ((startable tasks).map (fun x => (x.1, x.2.1))) := by
    rw [hxs.1]
    exact hperm.map _
  refine ⟨hworkers, ?_, hnodup, hexited, ?_⟩
  · rw [hxs.2.1]
    exact hperm.map _
  · intro x hx
    exact hcov.complete (hworkers.mem_iff.2 (List.mem_map_of_mem hx)) hexited

/-- An executor that is done at once. -/
def completing : Executor Unit where
  start := ()
  step _ j _ := do
    updateTask (fun t =>
      { t with chunks := t.chunks.modify j (fun c => { c with status := .completed, downloaded := c.size }) })
    pure none

theorem completing_promises (s : SchedState Unit) (choice : Choice) : ExecutorPromises completing s choice := by
  intro k w l i t _ _ _ _ _
  refine ⟨rfl, rfl, ?_⟩
  change ∃ c, t.chunks.modify w.chunk _ = t.chunks.set w.chunk c ∧ _
  rcases hc : t.chunks[w.chunk]? with _ | c
  · have hle := List.getElem?_eq_none_iff.1 hc
    refine ⟨{ status := .completed, downloaded := 1 }, ?_, .inr rfl, fun _ => ⟨rfl, rfl⟩⟩
    rw [List.modify_eq_self hle, List.set_eq_of_length_le hle]
  · refine ⟨{ c with status := .completed, downloaded := c.size }, ?_, .inr rfl, fun _ => ⟨rfl, rfl⟩⟩
    rw [List.modify_eq_set_getElem? _, hc]
    rfl

/-- Two chunks to download and one that is complete. -/
def threeChunks : List DownloadTask :=
  [{ id := text "a", status := .queued, fileSize := 30,
     chunks := [{ index := 0, stop := 9 },
       { index := 1, start := 10, stop := 19, downloaded := 10, status := .completed },
       { index := 2, start := 20, stop := 29, status := .failed }] }]

theorem scheduler_complete_threeChunks :
    let s := SchedState.runs completing ({ maxGlobalWorkers := 1 } : SchedulerConfig).normalized
      { tasks := threeChunks, world := {} }
      [.coordinator, .coordinator, .coordinator, .worker 0, .worker 0, .coordinator, .coordinator, .coordinator,
        .worker 1, .worker 1, .coordinator, .coordinator, .coordinator]
    s.coordinator = .returned ∧ (s.workers.map (·.place)).Perm [(text "a", 0), (text "a", 2)] := by
  have hret : (SchedState.runs completing ({ maxGlobalWorkers := 1 } : SchedulerConfig).normalized
    { tasks := threeChunks, world := {} }
      [.coordinator, .coordinator, .coordinator, .worker 0, .worker 0, .coordinator, .coordinator, .coordinator,
        .worker 1, .worker 1, .coordinator, .coordinator, .coordinator]).coordinator = .returned := by
    decide +kernel
  refine ⟨hret, ?_⟩
  exact (scheduler_complete completing { maxGlobalWorkers := 1 } threeChunks {} _ (by decide +kernel)
    (.always completing_promises) hret).1

end Cget
