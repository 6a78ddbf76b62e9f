import Cget.Types
/-!
# Planning chunks

`chunk_planner.cpp`. A plan tiles the file: its chunks follow each other from byte 0 to
the last byte.
-/

namespace Cget

namespace ChunkPlanner

/-- The number of chunks; `hardware` is what `std::thread::hardware_concurrency` reports. -/
def threadCount (hardware fileSize requestedThreads : Nat) : Nat :=
  let threads :=
    if requestedThreads = 0 then if hardware = 0 then 4 else min (hardware * 2 % 2 ^ 32) 32
    else requestedThreads
  min (max 1 (min threads 32)) fileSize

def chunkName (index : Nat) : Path := text "chunk_" ++ decimal index ++ text ".part"

/-- The loop of `plan`, with `remaining` rounds to go. -/
def planLoop (fileSize threads : Nat) : (remaining index start : Nat) → List Chunk
  | 0, _, _ => []
  | remaining + 1, index, start =>
    let stop := if index = threads - 1 then fileSize - 1 else start + fileSize / threads - 1
    { index := index, start := start, stop := stop, tempPath := chunkName index } ::
      planLoop fileSize threads remaining (index + 1) (stop + 1)

def plan (hardware fileSize requestedThreads : Nat) : List Chunk :=
  if fileSize = 0 then []
  else
    let threads := threadCount hardware fileSize requestedThreads
    planLoop fileSize threads threads 0 0

end ChunkPlanner

/-- The chunks follow each other from byte `start` up to, but not including, `stop`. -/
def Tiles : (start : Nat) → List Chunk → (stop : Nat) → Prop
  | start, [], stop => start = stop
  | start, c :: cs, stop => c.start = start ∧ c.start ≤ c.stop ∧ Tiles (c.stop + 1) cs stop

def Tiles.decide : ∀ (start : Nat) (cs : List Chunk) (stop : Nat), Decidable (Tiles start cs stop)
  | start, [], stop => inferInstanceAs (Decidable (start = stop))
  | start, c :: cs, stop =>
    have : Decidable (Tiles (c.stop + 1) cs stop) := Tiles.decide _ cs stop
    inferInstanceAs (Decidable (c.start = start ∧ c.start ≤ c.stop ∧ Tiles (c.stop + 1) cs stop))

instance {start stop : Nat} {cs : List Chunk} : Decidable (Tiles start cs stop) := Tiles.decide start cs stop

/-- The sizes of the chunks add up to the range they tile. -/
theorem Tiles.sum_size :
    ∀ {start : Nat} {cs : List Chunk} {stop : Nat}, Tiles start cs stop → start + (cs.map (·.size)).sum = stop
  | _, [], _, h => h
  | start, c :: cs, stop, ⟨hstart, hle, hrest⟩ => by
    have := hrest.sum_size
    rw [List.map_cons, List.sum_cons, Chunk.size, if_neg (not_lt.2 hle)]
    omega

namespace ChunkPlanner

theorem planLoop_tiles {fileSize threads : Nat} (hsize : threads ≤ fileSize) :
    ∀ remaining index start, index + remaining = threads → start = index * (fileSize / threads) →
      0 < remaining → Tiles start (planLoop fileSize threads remaining index start) fileSize
  | 0, _, _, _, _, h => absurd h (by omega)
  | remaining + 1, index, start, hindex, hstart, _ => by
    have hpos : 0 < threads := by omega
    have hchunk : 0 < fileSize / threads := Nat.div_pos hsize hpos
    have hfit : threads * (fileSize / threads) ≤ fileSize := Nat.mul_div_le fileSize threads
    have hnext : (index + 1) * (fileSize / threads) = start + fileSize / threads := by
      rw [Nat.succ_mul, hstart]
    by_cases hlast : index = threads - 1
    · obtain rfl : remaining = 0 := by omega
      have hend : start + fileSize / threads ≤ fileSize := by
        rwa [← hnext, show index + 1 = threads by omega]
      simp only [planLoop, Tiles, if_pos hlast, true_and]
      omega
    · simp only [planLoop, Tiles, if_neg hlast, true_and]
      exact ⟨by omega, planLoop_tiles hsize remaining (index + 1) _ (by omega) (by omega) (by omega)⟩

theorem threadCount_le (hardware fileSize requestedThreads : Nat) :
    threadCount hardware fileSize requestedThreads ≤ fileSize := by
  simp only [threadCount]
  omega

theorem threadCount_pos (hardware : Nat) {fileSize : Nat} (requestedThreads : Nat) (h : 0 < fileSize) :
    0 < threadCount hardware fileSize requestedThreads := by
  simp only [threadCount]
  omega

theorem plan_tiles (hardware fileSize requestedThreads : Nat) :
    Tiles 0 (plan hardware fileSize requestedThreads) fileSize := by
  by_cases h : fileSize = 0
  · simp [plan, h, Tiles]
  · simp only [plan, if_neg h]
    exact planLoop_tiles (threadCount_le ..) _ 0 0 (by omega) (by omega)
      (threadCount_pos hardware requestedThreads (by omega))

theorem planLoop_fresh {fileSize threads : Nat} : ∀ remaining index start,
    ∀ c ∈ planLoop fileSize threads remaining index start,
      c.downloaded = 0 ∧ c.status = .pending ∧ c.tempPath = chunkName c.index ∧ index ≤ c.index
  | 0, _, _ => by simp [planLoop]
  | remaining + 1, index, start => by
    simp only [planLoop, List.forall_mem_cons, le_refl, and_self, true_and]
    intro c hc
    obtain ⟨h1, h2, h3, h4⟩ := planLoop_fresh remaining (index + 1) _ c hc
    exact ⟨h1, h2, h3, by omega⟩

/-- Planned chunks are pending, with nothing downloaded. -/
theorem plan_fresh (hardware fileSize requestedThreads : Nat) :
    ∀ c ∈ plan hardware fileSize requestedThreads,
      c.downloaded = 0 ∧ c.status = .pending ∧ c.tempPath = chunkName c.index := by
  intro c hc
  by_cases h : fileSize = 0
  · simp [plan, h] at hc
  · simp only [plan, if_neg h] at hc
    obtain ⟨h1, h2, h3, -⟩ := planLoop_fresh _ _ _ c hc
    exact ⟨h1, h2, h3⟩

theorem planLoop_counts {fileSize threads : Nat} : ∀ remaining index start,
    ∀ c ∈ planLoop fileSize threads remaining index start, c.index < index + remaining ∧ c.retryCount = 0
  | 0, _, _ => by simp [planLoop]
  | remaining + 1, index, start => by
    simp only [planLoop, List.forall_mem_cons, and_true]
    refine ⟨by omega, fun c hc => ?_⟩
    obtain ⟨hindex, hretries⟩ := planLoop_counts remaining (index + 1) _ c hc
    exact ⟨by omega, hretries⟩

/-- There are no more chunks than bytes, and none was tried. -/
theorem plan_counts (hardware fileSize requestedThreads : Nat) :
    ∀ c ∈ plan hardware fileSize requestedThreads, c.index < fileSize ∧ c.retryCount = 0 := by
  intro c hc
  by_cases h : fileSize = 0
  · simp [plan, h] at hc
  · simp only [plan, if_neg h] at hc
    have hle := threadCount_le hardware fileSize requestedThreads
    obtain ⟨hindex, hretries⟩ := planLoop_counts _ _ _ c hc
    exact ⟨by omega, hretries⟩

theorem chunkName_injective : Function.Injective chunkName := by
  intro i j h
  simp only [chunkName, List.append_assoc, List.append_cancel_left_eq, List.append_cancel_right_eq] at h
  exact decimal_injective h

theorem planLoop_names {fileSize threads : Nat} : ∀ remaining index start,
    ((planLoop fileSize threads remaining index start).map (·.tempPath)).Nodup
  | 0, _, _ => by simp [planLoop]
  | remaining + 1, index, start => by
    simp only [planLoop, List.map_cons, List.nodup_cons, List.mem_map, not_exists, not_and]
    refine ⟨fun c hc hname => ?_, planLoop_names remaining (index + 1) _⟩
    obtain ⟨-, -, h3, h4⟩ := planLoop_fresh remaining (index + 1) _ c hc
    have := chunkName_injective (h3.symm.trans hname)
    omega

/-- No two planned chunks share a part file. -/
theorem plan_names (hardware fileSize requestedThreads : Nat) :
    ((plan hardware fileSize requestedThreads).map (·.tempPath)).Nodup := by
  by_cases h : fileSize = 0
  · simp [plan, h]
  · simp only [plan, if_neg h]
    exact planLoop_names _ _ _

theorem planLoop_indices {fileSize threads : Nat} : ∀ remaining index start,
    (planLoop fileSize threads remaining index start).map (·.index) = List.range' index remaining
  | 0, _, _ => rfl
  | remaining + 1, index, start => by
    rw [planLoop, List.map_cons, planLoop_indices remaining, List.range'_succ]

theorem plan_indices (hardware fileSize requestedThreads : Nat) :
    (plan hardware fileSize requestedThreads).map (·.index) =
      List.range (plan hardware fileSize requestedThreads).length := by
  by_cases h : fileSize = 0
  · simp [plan, h]
  · simp only [plan, if_neg h]
    have hindices : (planLoop fileSize (threadCount hardware fileSize requestedThreads)
        (threadCount hardware fileSize requestedThreads) 0 0).map (·.index) = _ := planLoop_indices _ 0 0
    have hlen := congrArg List.length hindices
    rw [List.length_map, List.length_range'] at hlen
    rw [hindices, hlen, List.range_eq_range']

end ChunkPlanner

/-! ## Tilings -/

/-- The chunks of a tiling are not empty and lie inside it. -/
theorem Tiles.mem {start stop : Nat} {cs : List Chunk} (h : Tiles start cs stop) :
    start ≤ stop ∧ ∀ c ∈ cs, start ≤ c.start ∧ c.start ≤ c.stop ∧ c.stop < stop := by
  induction cs generalizing start with
  | nil => exact ⟨le_of_eq h, by simp⟩
  | cons c cs ih =>
    obtain ⟨h1, h2, h3⟩ := h
    obtain ⟨hle, hmem⟩ := ih h3
    refine ⟨by omega, ?_⟩
    rw [List.forall_mem_cons]
    exact ⟨by omega, fun d hd => by have := hmem d hd; omega⟩

/-- Every chunk has a byte at least. -/
theorem Tiles.length_le {start stop : Nat} {cs : List Chunk} (h : Tiles start cs stop) : start + cs.length ≤ stop := by
  induction cs generalizing start with
  | nil => exact le_of_eq h
  | cons c cs ih =>
    obtain ⟨h1, h2, h3⟩ := h
    have hrest := ih h3
    rw [List.length_cons]
    omega

/-- A tiling depends on the ranges of its chunks only. -/
theorem tiles_congr {cs ds : List Chunk} (h : cs.map (fun c => (c.start, c.stop)) = ds.map (fun c => (c.start, c.stop)))
    {start stop : Nat} : Tiles start cs stop ↔ Tiles start ds stop := by
  induction cs generalizing ds start with
  | nil =>
    cases ds with
    | nil => rfl
    | cons d ds => simp at h
  | cons c cs ih =>
    cases ds with
    | nil => simp at h
    | cons d ds =>
      simp only [List.map_cons, List.cons.injEq, Prod.mk.injEq] at h
      obtain ⟨⟨h1, h2⟩, h3⟩ := h
      simp only [Tiles, h1, h2, ih h3]

theorem Tiles.next {start stop : Nat} {chunks : List Chunk} (h : Tiles start chunks stop) :
    ∀ (i : Nat) (c d : Chunk), chunks[i]? = some c → chunks[i + 1]? = some d → d.start = c.stop + 1 := by
  induction chunks generalizing start with
  | nil => simp
  | cons a cs ih =>
    obtain ⟨-, -, hrest⟩ := h
    intro i c d hc hd
    cases i with
    | zero =>
      obtain rfl : a = c := by simpa using hc
      cases cs with
      | nil => simp at hd
      | cons b cs =>
        obtain rfl : b = d := by simpa using hd
        exact hrest.1
    | succ i => exact ih hrest i c d (by simpa using hc) (by simpa using hd)

theorem Tiles.last {start stop : Nat} {chunks : List Chunk} (h : Tiles start chunks stop) (hne : chunks ≠ []) :
    chunks.getLast?.map (·.stop + 1) = some stop := by
  induction chunks generalizing start with
  | nil => exact absurd rfl hne
  | cons a cs ih =>
    obtain ⟨-, -, hrest⟩ := h
    cases cs with
    | nil => simpa [Tiles] using hrest
    | cons b cs =>
      rw [List.getLast?_cons_cons]
      exact ih hrest (by simp)

end Cget
