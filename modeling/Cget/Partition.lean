import Cget.Lib.Words
import Cget.Planner
/-!
# The plan of a file

`ChunkPlanner::plan` on the words of the source. All its operations are exact, except
`hardware * 2` on a machine with 2^31 processors or more, and the chunks it gives cut the
file into ranges of nearly one size.
-/

namespace Cget

open Words

namespace ChunkPlanner

/-! ## On words -/

def threadsOnWords (hardware fileSize requestedThreads : Nat) : Arith Nat := do
  let threads ←
    if requestedThreads = 0 then
      if hardware = 0 then pure 4
      else do
        let twice ← mul 32 hardware 2
        pure (min twice 32)
    else pure requestedThreads
  pure (min (max 1 (min threads 32)) fileSize)

/-- The loop of `plan`, with `remaining` rounds to go. -/
def planLoopOnWords (fileSize threads chunkSize : Nat) : (remaining index start : Nat) → Arith (List Chunk)
  | 0, _, _ => pure []
  | remaining + 1, index, start => do
    let last ← sub 32 threads 1
    let stop ←
      if index = last then sub 64 fileSize 1
      else do
        let next ← add 64 start chunkSize
        sub 64 next 1
    let start' ← add 64 stop 1
    let index' ← add 32 index 1
    let rest ← planLoopOnWords fileSize threads chunkSize remaining index' start'
    pure ({ index := index, start := start, stop := stop, tempPath := chunkName index } :: rest)

def planOnWords (hardware fileSize requestedThreads : Nat) : Arith (List Chunk) := do
  if fileSize = 0 then pure []
  else do
    let threads ← threadsOnWords hardware fileSize requestedThreads
    let chunkSize ← div fileSize threads
    planLoopOnWords fileSize threads chunkSize threads 0 0

end ChunkPlanner

/-- `Chunk::size`. -/
def Chunk.sizeOnWords (c : Chunk) : Arith Nat := do
  if c.stop < c.start then pure 0
  else do
    let length ← sub 64 c.stop c.start
    add 64 length 1

variable {hardware fileSize requestedThreads threads : Nat}

theorem Chunk.sizeOnWords_exact {c : Chunk} (h : c.start ≤ c.stop) (hstop : c.stop < 2 ^ 64 - 1) :
    c.sizeOnWords = pure c.size := by
  rw [Chunk.sizeOnWords, Chunk.size, if_neg (by omega), if_neg (by omega), sub_exact h (by omega), pure_bind,
    add_exact (by omega)]

namespace ChunkPlanner

/-- Fewer than 2^31 processors are counted, or the number of threads was given. -/
def CountsProcessors (hardware requestedThreads : Nat) : Prop := requestedThreads = 0 → hardware < 2 ^ 31

instance : Decidable (CountsProcessors hardware requestedThreads) := inferInstanceAs (Decidable (_ → _))

theorem threadsOnWords_exact (h : CountsProcessors hardware requestedThreads) :
    threadsOnWords hardware fileSize requestedThreads = pure (threadCount hardware fileSize requestedThreads) := by
  unfold threadsOnWords threadCount
  by_cases hrequested : requestedThreads = 0
  · have hfew := h hrequested
    by_cases hunknown : hardware = 0
    · simp only [if_pos hrequested, if_pos hunknown, pure_bind]
    · simp only [if_pos hrequested, if_neg hunknown]
      rw [mul_exact (by omega), pure_bind, pure_bind, Nat.mod_eq_of_lt (by omega)]
  · simp only [if_neg hrequested, pure_bind]

/-- From 2^31 processors on, the number of threads is what is left of the product. -/
theorem threadsOnWords_wrapped (h : ¬ CountsProcessors hardware requestedThreads) :
    threadsOnWords hardware fileSize requestedThreads =
      (do set true; pure (threadCount hardware fileSize requestedThreads)) := by
  simp only [CountsProcessors, Classical.not_imp, Nat.not_lt] at h
  unfold threadsOnWords threadCount
  simp only [if_pos h.1, if_neg (by omega : hardware ≠ 0)]
  rw [mul_wrapped (by omega)]
  rfl

/-- No operation of the loop wraps. -/
theorem planLoopOnWords_exact (hsize : fileSize < 2 ^ 64) (hle : threads ≤ fileSize) (hthreads : threads ≤ 32) :
    ∀ remaining index start, index + remaining = threads → start = index * (fileSize / threads) →
      planLoopOnWords fileSize threads (fileSize / threads) remaining index start =
        pure (planLoop fileSize threads remaining index start)
  | 0, _, _, _, _ => rfl
  | remaining + 1, index, start, hindex, hstart => by
    have hchunk : 0 < fileSize / threads := Nat.div_pos hle (by omega)
    have hnext : (index + 1) * (fileSize / threads) = start + fileSize / threads := by
      rw [Nat.succ_mul, hstart]
    -- the chunks so far end within the file
    have hfit : start + fileSize / threads ≤ fileSize := by
      rw [← hnext]
      exact (Nat.mul_le_mul_right _ (by omega)).trans (Nat.mul_div_le fileSize threads)
    rw [planLoopOnWords, sub_exact (by omega) (by omega), pure_bind, planLoop]
    by_cases hlast : index = threads - 1
    · obtain rfl : remaining = 0 := by omega
      simp only [if_pos hlast]
      rw [sub_exact (by omega) hsize, pure_bind, add_exact (by omega), pure_bind, add_exact (by omega), pure_bind]
      rfl
    · simp only [if_neg hlast]
      rw [add_exact (by omega), pure_bind, sub_exact (by omega) (by omega), pure_bind, add_exact (by omega), pure_bind,
        add_exact (by omega), pure_bind, planLoopOnWords_exact hsize hle hthreads remaining (index + 1) _
          (by omega) (by omega),
        pure_bind]

theorem threadCount_max : threadCount hardware fileSize requestedThreads ≤ 32 := by
  simp only [threadCount]
  omega

/-- What the source computes is the plan, and the one operation that can wrap is the doubling. -/
theorem planOnWords_run (hpos : 0 < fileSize) (hsize : fileSize < 2 ^ 64) :
    (planOnWords hardware fileSize requestedThreads).run false =
      (plan hardware fileSize requestedThreads, !decide (CountsProcessors hardware requestedThreads)) := by
  have hplan : plan hardware fileSize requestedThreads =
      planLoop fileSize (threadCount hardware fileSize requestedThreads)
      (threadCount hardware fileSize requestedThreads) 0 0 := by
    rw [plan, if_neg (by omega)]
  have hloop : planLoopOnWords fileSize (threadCount hardware fileSize requestedThreads)
      (fileSize / threadCount hardware fileSize requestedThreads) (threadCount hardware fileSize requestedThreads) 0 0 =
      pure (plan hardware fileSize requestedThreads) := by
    rw [hplan]
    exact planLoopOnWords_exact hsize (threadCount_le ..) threadCount_max _ 0 0 (by omega) (by omega)
  have hdiv := div_exact (a := fileSize) (threadCount_pos hardware requestedThreads hpos)
  rw [planOnWords, if_neg (by omega)]
  by_cases h : CountsProcessors hardware requestedThreads
  · rw [threadsOnWords_exact h, pure_bind, hdiv, pure_bind, hloop]
    simp [h]
    rfl
  · rw [threadsOnWords_wrapped h, bind_assoc, pure_bind, hdiv, pure_bind, hloop]
    simp [h]
    rfl

/-! ## The partition -/

/-- The number of threads the request comes to: the one given, or two for each processor, within 1 and 32. -/
def clampedThreads (hardware requestedThreads : Nat) : Nat :=
  max 1 (min (if requestedThreads = 0 then if hardware = 0 then 4 else hardware * 2 else requestedThreads) 32)

theorem threadCount_eq (h : CountsProcessors hardware requestedThreads) :
    threadCount hardware fileSize requestedThreads = min (clampedThreads hardware requestedThreads) fileSize := by
  unfold threadCount clampedThreads
  by_cases hrequested : requestedThreads = 0
  · have hfew := h hrequested
    simp only [if_pos hrequested]
    split <;> omega
  · simp only [if_neg hrequested]

/-- The chunks cut a file of `fileSize` bytes for `threads` threads. -/
structure Partitions (threads fileSize : Nat) (chunks : List Chunk) : Prop where
  count : chunks.length = min threads fileSize
  indices : chunks.map (·.index) = List.range chunks.length
  names : (chunks.map (·.tempPath)).Nodup
  first : chunks.head?.map (·.start) = some 0
  next : ∀ (i : Nat) (c d : Chunk), chunks[i]? = some c → chunks[i + 1]? = some d → d.start = c.stop + 1
  last : chunks.getLast?.map (·.stop) = some (fileSize - 1)
  fresh : ∀ c ∈ chunks, 1 ≤ c.size ∧ c.downloaded = 0
  sum : (chunks.map (·.size)).sum = fileSize
  even : ∃ size extra, extra < chunks.length ∧
    chunks.map (·.size) = List.replicate (chunks.length - 1) size ++ [size + extra]

theorem planLoop_length : ∀ remaining index start, (planLoop fileSize threads remaining index start).length = remaining
  | 0, _, _ => rfl
  | remaining + 1, index, start => by rw [planLoop, List.length_cons, planLoop_length remaining]

/-- All chunks but the last have one size, and the last takes what is left over. -/
theorem planLoop_sizes (hle : threads ≤ fileSize) : ∀ remaining index start, index + remaining + 1 = threads →
    start = index * (fileSize / threads) →
    (planLoop fileSize threads (remaining + 1) index start).map (·.size) =
      List.replicate remaining (fileSize / threads) ++ [fileSize / threads + fileSize % threads]
  | 0, index, start, hindex, hstart => by
    have hall : threads * (fileSize / threads) + fileSize % threads = fileSize := Nat.div_add_mod fileSize threads
    have hlast : threads * (fileSize / threads) = start + fileSize / threads := by
      rw [hstart, ← Nat.succ_mul, show index.succ = threads by omega]
    have hchunk : 0 < fileSize / threads := Nat.div_pos hle (by omega)
    simp only [planLoop, if_pos (by omega : index = threads - 1), List.map_cons, List.map_nil, Chunk.size,
      List.replicate_zero, List.nil_append, List.cons.injEq, and_true]
    rw [if_neg (by omega)]
    omega
  | remaining + 1, index, start, hindex, hstart => by
    have hchunk : 0 < fileSize / threads := Nat.div_pos hle (by omega)
    have hnext : (index + 1) * (fileSize / threads) = start + fileSize / threads := by
      rw [Nat.succ_mul, hstart]
    rw [planLoop, if_neg (by omega), List.map_cons, planLoop_sizes hle remaining (index + 1) _ (by omega) (by omega),
      List.replicate_succ, List.cons_append, Chunk.size]
    dsimp only
    rw [if_neg (by omega)]
    congr 1
    omega

theorem plan_partitions (hpos : 0 < fileSize) (h : CountsProcessors hardware requestedThreads) :
    Partitions (clampedThreads hardware requestedThreads) fileSize (plan hardware fileSize requestedThreads) := by
  have htiles := plan_tiles hardware fileSize requestedThreads
  have hcount : (plan hardware fileSize requestedThreads).length = threadCount hardware fileSize requestedThreads := by
    rw [plan, if_neg (by omega)]
    exact planLoop_length _ 0 0
  have hthreads := threadCount_pos hardware requestedThreads hpos
  have hne : plan hardware fileSize requestedThreads ≠ [] := fun hnil => by simp [hnil] at hcount; omega
  refine ⟨hcount.trans (threadCount_eq h), plan_indices .., plan_names .., ?_, htiles.next, ?_,
    fun c hc => ⟨?_, ?_⟩, ?_, ?_⟩
  · obtain ⟨c, cs, hcs⟩ := List.exists_cons_of_ne_nil hne
    rw [hcs] at htiles ⊢
    exact congrArg some htiles.1
  · have hlast := htiles.last hne
    rw [Option.map_eq_some_iff] at hlast ⊢
    obtain ⟨c, hc, hstop⟩ := hlast
    exact ⟨c, hc, by omega⟩
  · have hrange := htiles.mem.2 c hc
    rw [Chunk.size, if_neg (by omega)]
    omega
  · exact (plan_fresh _ _ _ c hc).1
  · simpa using htiles.sum_size
  · obtain ⟨n, hn⟩ : ∃ n, threadCount hardware fileSize requestedThreads = n + 1 :=
      ⟨_, (Nat.succ_pred_eq_of_pos hthreads).symm⟩
    refine ⟨fileSize / (n + 1), fileSize % (n + 1), ?_, ?_⟩
    · rw [hcount, hn]
      exact Nat.mod_lt _ (Nat.succ_pos n)
    · rw [hcount, plan, if_neg (by omega), hn]
      exact planLoop_sizes (hn ▸ threadCount_le ..) n 0 0 (by omega) (by omega)

/-- `plan` cuts every file into the chunks it should, without an operation that wraps or divides by
zero, unless the processors it has to double are 2^31 or more. -/
theorem plan_partitions_iff (hpos : 0 < fileSize) (hsize : fileSize < 2 ^ 64) :
    (∃ chunks, (planOnWords hardware fileSize requestedThreads).run false = (chunks, false) ∧
      (∀ c ∈ chunks, (c.sizeOnWords).run false = (c.size, false)) ∧
      Partitions (clampedThreads hardware requestedThreads) fileSize chunks) ↔
      (requestedThreads = 0 → hardware < 2 ^ 31) := by
  rw [planOnWords_run hpos hsize]
  constructor
  · rintro ⟨chunks, hrun, -⟩
    have hfew : CountsProcessors hardware requestedThreads := by simpa using congrArg Prod.snd hrun
    exact hfew
  · intro h
    have hfew : decide (CountsProcessors hardware requestedThreads) = true := decide_eq_true h
    refine ⟨_, by rw [hfew]; rfl, fun c hc => ?_, plan_partitions hpos h⟩
    have hrange := (plan_tiles hardware fileSize requestedThreads).mem.2 c hc
    rw [Chunk.sizeOnWords_exact hrange.2.1 (by omega)]
    rfl

theorem plan_partitions_iff_ten :
    ∃ chunks, (planOnWords 8 10 0).run false = (chunks, false) ∧
    (∀ c ∈ chunks, (c.sizeOnWords).run false = (c.size, false)) ∧
      Partitions (clampedThreads 8 0) 10 chunks :=
  (plan_partitions_iff (by decide) (by decide)).2 fun _ => by decide

/-- With 2^31 processors and no number of threads given, the doubling wraps to 0. -/
theorem doubled_processors_wrap :
    ∃ hardware fileSize requestedThreads : Nat, hardware < 2 ^ 32 ∧ 0 < fileSize ∧ fileSize < 2 ^ 64 ∧
      requestedThreads < 2 ^ 32 ∧
      ¬ ∃ chunks, (planOnWords hardware fileSize requestedThreads).run false = (chunks, false) ∧
        (∀ c ∈ chunks, (c.sizeOnWords).run false = (c.size, false)) ∧
        Partitions (clampedThreads hardware requestedThreads) fileSize chunks := by
  refine ⟨2 ^ 31, 10, 0, by decide, by decide, by decide, by decide, ?_⟩
  rintro ⟨chunks, hrun, -⟩
  have hflag : ((planOnWords (2 ^ 31) 10 0).run false).2 = true := by decide
  rw [hrun] at hflag
  cases hflag

end ChunkPlanner

end Cget
