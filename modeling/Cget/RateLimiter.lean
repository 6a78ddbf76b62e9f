import Cget.Lib.Meter
import Cget.Lib.Runs
import Cget.Types
/-!
# The rate limiter

Every task with a limit has a token bucket, and all tasks share a global one. A thread in
`acquire` goes through the two, and cuts what it asks for into pieces of at most the
capacity. Buckets are shared, so a bucket is named by its place in the list of those made.
`steady_clock` reads rational seconds, and tokens are exact.
-/

namespace Cget

structure TokenBucket where
  rateBytesPerSec : Nat
  capacityBytes : Nat
  tokens : Rat
  lastRefill : Rat
  deriving DecidableEq, Repr

/-- The constructor. -/
def TokenBucket.new (rateBytesPerSec capacityBytes : Nat) (now : Rat) : TokenBucket where
  rateBytesPerSec := rateBytesPerSec
  capacityBytes := max 1 capacityBytes
  tokens := max 1 capacityBytes
  lastRefill := now

def TokenBucket.refillLocked (now : Rat) (b : TokenBucket) : TokenBucket :=
  { b with
    tokens := min b.capacityBytes (b.tokens + (now - b.lastRefill) * b.rateBytesPerSec)
    lastRefill := now }

def TokenBucket.setRate (now : Rat) (rateBytesPerSec : Nat) (b : TokenBucket) : TokenBucket :=
  let b := b.refillLocked now
  { b with
    rateBytesPerSec := rateBytesPerSec
    capacityBytes := max 1 rateBytesPerSec
    tokens := min b.tokens (max 1 rateBytesPerSec) }

/-- The body of the inner loop of `acquire`: refill, test and subtract. -/
def TokenBucket.attempt (now : Rat) (request : Nat) (b : TokenBucket) : Bool × TokenBucket :=
  let b := b.refillLocked now
  if (request : Rat) ≤ b.tokens then (true, { b with tokens := b.tokens - request }) else (false, b)

structure RateLimiter where
  buckets : List TokenBucket
  globalBucket : Option Nat
  taskBuckets : TaskId → Option Nat

/-- `makeBucket`: a new bucket, or none without a limit. -/
def RateLimiter.makeBucket (now : Rat) (bytesPerSec : Option Nat) (l : RateLimiter) : Option Nat × RateLimiter :=
  match bytesPerSec with
  | none => (none, l)
  | some 0 => (none, l)
  | some n => (some l.buckets.length, { l with buckets := l.buckets ++ [TokenBucket.new n n now] })

/-- The constructor. -/
def RateLimiter.new (now : Rat) (globalLimit : Option Nat) : RateLimiter :=
  let (bucket, l) := RateLimiter.makeBucket now globalLimit ⟨[], none, fun _ => none⟩
  { l with globalBucket := bucket }

/-- The rate of a bucket. -/
def RateLimiter.rate (l : RateLimiter) (r : Nat) : Option Nat := (l.buckets[r]?).map (·.rateBytesPerSec)

def RateLimiter.setGlobalLimit (now : Rat) (bytesPerSec : Option Nat) (l : RateLimiter) : RateLimiter :=
  if bytesPerSec.isSome ∧ l.globalBucket.bind l.rate = bytesPerSec then l
  else
    let (bucket, l) := l.makeBucket now bytesPerSec
    { l with globalBucket := bucket }

def RateLimiter.setTaskLimit (now : Rat) (id : TaskId) (bytesPerSec : Option Nat) (l : RateLimiter) : RateLimiter :=
  match bytesPerSec with
  | none => { l with taskBuckets := Function.update l.taskBuckets id none }
  | some 0 => { l with taskBuckets := Function.update l.taskBuckets id none }
  | some n =>
    match l.taskBuckets id with
    | some r =>
      match l.buckets[r]? with
      | none => l
      | some b => if b.rateBytesPerSec = n then l else { l with buckets := l.buckets.set r (b.setRate now n) }
    | none =>
      let (bucket, l) := l.makeBucket now (some n)
      { l with taskBuckets := Function.update l.taskBuckets id bucket }

/-! ## Threads in acquire -/

/-- A thread that asks for `bytes`: about to enter the first bucket of a list, or in the
loop of a bucket, where it still needs `remaining` and asks for `request`. -/
inductive Acquire where
  | entering (bytes : Nat) (buckets : List Nat)
  | waiting (bytes bucket remaining request : Nat) (buckets : List Nat)
  deriving DecidableEq, Repr

/-- `RateLimiter::acquire`: the buckets are looked up once. -/
def RateLimiter.acquire (id : TaskId) (bytes : Nat) (l : RateLimiter) : Acquire :=
  .entering bytes (if bytes = 0 then [] else (l.taskBuckets id).toList ++ l.globalBucket.toList)

/-- What a bucket gave, and when. -/
structure Grant where
  bucket : Nat
  time : Rat
  bytes : Nat
  deriving DecidableEq, Repr

/-- The limiter, the threads in it, the clock, and all that was given, newest first. -/
structure Throttle where
  limiter : RateLimiter
  threads : List Acquire
  now : Rat
  grants : List Grant

def Throttle.new (now : Rat) (globalLimit : Option Nat) : Throttle where
  limiter := RateLimiter.new now globalLimit
  threads := []
  now := now
  grants := []

/-- Another bucket in place of `r`, with what it gave. -/
def Throttle.exchange (s : Throttle) (r : Nat) (b : TokenBucket) (threads : List Acquire) (given : List Grant) :
    Throttle where
  limiter := { s.limiter with buckets := s.limiter.buckets.set r b }
  threads := threads
  now := s.now
  grants := given ++ s.grants

/-- The next step of thread `k`. -/
def Throttle.advance (k : Nat) (s : Throttle) : Throttle :=
  match s.threads[k]? with
  | some (.entering bytes (r :: rest)) =>
    match s.limiter.buckets[r]? with
    | none => s
    | some b =>
      if bytes = 0 ∨ b.rateBytesPerSec = 0 then { s with threads := s.threads.set k (.entering bytes rest) }
      else { s with threads := s.threads.set k (.waiting bytes r bytes (min bytes b.capacityBytes) rest) }
  | some (.waiting bytes r remaining request rest) =>
    match s.limiter.buckets[r]? with
    | none => s
    | some b =>
      match b.attempt s.now request with
      | (true, b') =>
        s.exchange r b'
          (s.threads.set k
            (if remaining - request = 0 then .entering bytes rest
             else .waiting bytes r (remaining - request) (min (remaining - request) b'.capacityBytes) rest))
          [⟨r, s.now, request⟩]
      | (false, b') => s.exchange r b' s.threads []
  | _ => s

/-- What happens next: a call, or a step of a thread in `acquire`. -/
inductive ThrottleEvent where
  | setGlobalLimit (bytesPerSec : Option Nat)
  | setTaskLimit (id : TaskId) (bytesPerSec : Option Nat)
  | acquire (id : TaskId) (bytes : Nat)
  | advance (thread : Nat)
  deriving DecidableEq, Repr

def Throttle.happen (s : Throttle) : ThrottleEvent → Throttle
  | .setGlobalLimit n => { s with limiter := s.limiter.setGlobalLimit s.now n }
  | .setTaskLimit id n => { s with limiter := s.limiter.setTaskLimit s.now id n }
  | .acquire id n => { s with threads := s.threads ++ [s.limiter.acquire id n] }
  | .advance k => s.advance k

/-- An event, some time after the last one. -/
def Throttle.step (s : Throttle) (c : Rat × ThrottleEvent) : Throttle := { s with now := s.now + c.1 }.happen c.2

/-- The clock never goes back, and the limits of task `id` and of all tasks stay `l` and `g`. -/
def KeepsLimits (id : TaskId) (l g : Nat) (c : Rat × ThrottleEvent) : Prop :=
  0 ≤ c.1 ∧
    match c.2 with
    | .setGlobalLimit n => n = some g
    | .setTaskLimit i n => i = id → n = some l
    | _ => True

/-- What bucket `r` gave, newest first. -/
def Throttle.history (s : Throttle) (r : Nat) : List (Rat × Rat) :=
  (s.grants.filter (·.bucket = r)).map (fun g => (g.time, (g.bytes : Rat)))

/-- The bytes bucket `r` granted in the window from `t₁` to `t₂`. -/
def Throttle.granted (s : Throttle) (r : Nat) (t₁ t₂ : Rat) : Rat :=
  ((s.grants.filter (fun g => g.bucket = r ∧ t₁ ≤ g.time ∧ g.time ≤ t₂)).map (fun g => (g.bytes : Rat))).sum

theorem Throttle.granted_eq (s : Throttle) (r : Nat) (t₁ t₂ : Rat) : s.granted r t₁ t₂ = given (s.history r) t₁ t₂ := by
  simp only [Throttle.granted, given, Throttle.history, List.filter_map, List.map_map, List.filter_filter]
  congr 2
  apply List.filter_congr
  intro g _
  simp [Bool.and_comm]

/-! ## Buckets -/

/-- The bucket as a meter. -/
def TokenBucket.meter (b : TokenBucket) : Meter Rat := ⟨b.tokens, b.lastRefill⟩

theorem TokenBucket.refillLocked_meter (b : TokenBucket) (now : Rat) :
    (b.refillLocked now).meter = b.meter.refill (b.capacityBytes : Rat) b.rateBytesPerSec now := rfl

/-- A bucket never holds a debt or more than its capacity. -/
structure TokenBucket.Sane (now : Rat) (b : TokenBucket) : Prop where
  nonneg : 0 ≤ b.tokens
  le_capacity : b.tokens ≤ b.capacityBytes
  past : b.lastRefill ≤ now

namespace TokenBucket

variable {now t : Rat} {b : TokenBucket}

theorem sane_new (n : Nat) : (new n n now).Sane now := by
  constructor
  · simp [new]
  · simp [new]
  · exact le_refl now

theorem Sane.later (h : b.Sane now) (hle : now ≤ t) : b.Sane t :=
  { h with past := h.past.trans hle }

theorem Sane.refillLocked (h : b.Sane now) : (b.refillLocked now).Sane now := by
  constructor
  · have hgain : 0 ≤ (now - b.lastRefill) * (b.rateBytesPerSec : Rat) :=
      mul_nonneg (sub_nonneg.2 h.past) (Nat.cast_nonneg _)
    exact le_min (Nat.cast_nonneg _) (add_nonneg h.nonneg hgain)
  · exact min_le_left _ _
  · exact le_refl now

theorem Sane.setRate (h : b.Sane now) (n : Nat) : (b.setRate now n).Sane now := by
  constructor
  · exact le_min h.refillLocked.nonneg (le_max_of_le_left zero_le_one)
  · exact (min_le_right _ _).trans (by simp [TokenBucket.setRate])
  · exact le_refl now

theorem Sane.attempt (h : b.Sane now) (request : Nat) : (b.attempt now request).2.Sane now := by
  have hr := h.refillLocked
  unfold TokenBucket.attempt
  dsimp only
  split
  · rename_i hle
    constructor
    · exact sub_nonneg.2 hle
    · exact (sub_le_self _ (Nat.cast_nonneg _)).trans hr.le_capacity
    · exact hr.past
  · exact hr

/-- What an attempt does to the meter. -/
theorem attempt_metered {n request : Nat} {h : List (Rat × Rat)} (hrate : b.rateBytesPerSec = n)
    (hcap : b.capacityBytes = n) (hm : Metered (n : Rat) n h b.meter) (hpast : b.lastRefill ≤ now) :
    (b.attempt now request).2.rateBytesPerSec = n ∧ (b.attempt now request).2.capacityBytes = n ∧
      Metered (n : Rat) n ((if (b.attempt now request).1 then [(now, (request : Rat))] else []) ++ h)
        (b.attempt now request).2.meter := by
  subst hrate
  have hfull : Metered (b.rateBytesPerSec : Rat) b.rateBytesPerSec h (b.refillLocked now).meter := by
    rw [refillLocked_meter, hcap]
    exact hm.refill now hpast
  unfold TokenBucket.attempt
  dsimp only
  split
  · rename_i hle
    exact ⟨rfl, hcap, hfull.take _ (Nat.cast_nonneg _) hle⟩
  · exact ⟨rfl, hcap, hfull⟩

end TokenBucket

/-! ## The limits hold -/

/-- Bucket `r` has limit `n`, and behaves as a meter. -/
def Throttle.Limits (s : Throttle) (r n : Nat) : Prop :=
  ∃ b, s.limiter.buckets[r]? = some b ∧ b.rateBytesPerSec = n ∧ b.capacityBytes = n ∧
    Metered (n : Rat) n (s.history r) b.meter

/-- What holds as long as the limits of task `id` and of all tasks stay `l` and `g`. -/
structure Throttled (id : TaskId) (l g : Nat) (s : Throttle) : Prop where
  sane : ∀ b ∈ s.limiter.buckets, b.Sane s.now
  made : ∀ i r, s.limiter.taskBuckets i = some r → r < s.limiter.buckets.length
  own : ∀ i j r, s.limiter.taskBuckets i = some r → s.limiter.taskBuckets j = some r → i = j
  shared : ∀ i r, s.limiter.taskBuckets i = some r → s.limiter.globalBucket ≠ some r
  past : ∀ x ∈ s.grants, x.bucket < s.limiter.buckets.length
  all : ∃ r, s.limiter.globalBucket = some r ∧ s.Limits r g
  task : ∀ r, s.limiter.taskBuckets id = some r → s.Limits r l

section Steps

variable {id i : TaskId} {l g r n : Nat} {s : Throttle}

theorem Throttle.Limits.lt (h : s.Limits r n) : r < s.limiter.buckets.length := by
  obtain ⟨b, hb, _⟩ := h
  exact (List.getElem?_eq_some_iff.1 hb).1

/-- A bucket that is not touched keeps its limit. -/
theorem Throttle.Limits.frame {s' : Throttle} (h : s.Limits r n) (hb : s'.limiter.buckets[r]? = s.limiter.buckets[r]?)
    (hg : s'.history r = s.history r) : s'.Limits r n := by
  obtain ⟨b, hbr, hrate, hcap, hm⟩ := h
  exact ⟨b, hb.trans hbr, hrate, hcap, hg ▸ hm⟩

/-- A new bucket gave nothing yet. -/
theorem Throttled.history_new (h : Throttled id l g s) : s.history s.limiter.buckets.length = [] := by
  simp only [Throttle.history, List.map_eq_nil_iff, List.filter_eq_nil_iff, decide_eq_true_eq]
  intro x hx
  exact (h.past x hx).ne

theorem metered_new (hn : 0 < n) (t : Rat) : Metered (n : Rat) n [] (TokenBucket.new n n t).meter := by
  have hmax : max 1 n = n := max_eq_right hn
  have hnew : (TokenBucket.new n n t).meter = ⟨(n : Rat), t⟩ := by
    simp only [TokenBucket.meter, TokenBucket.new]
    rw [← Nat.cast_one, ← Nat.cast_max, hmax]
  rw [hnew]
  exact .full t

theorem Throttle.exchange_history (r' : Nat) (b : TokenBucket) (threads : List Acquire) (given : List Grant) :
    (s.exchange r b threads given).history r' =
      ((given.filter (·.bucket = r')).map fun x => (x.time, (x.bytes : Rat))) ++ s.history r' := by
  simp [Throttle.exchange, Throttle.history]

/-- Exchanging a bucket keeps the limits, if it keeps that of the bucket. -/
theorem Throttled.exchange (h : Throttled id l g s) {b' : TokenBucket} {threads : List Acquire} {given : List Grant}
    (hr : r < s.limiter.buckets.length) (hb : b'.Sane s.now) (hgiven : ∀ x ∈ given, x.bucket = r)
    (hmine : s.limiter.globalBucket = some r ∨ s.limiter.taskBuckets id = some r → ∀ n, s.Limits r n →
      (s.exchange r b' threads given).Limits r n) :
    Throttled id l g (s.exchange r b' threads given) := by
  have hother : ∀ r' n, r' ≠ r → s.Limits r' n → (s.exchange r b' threads given).Limits r' n := by
    intro r' n hne hl
    apply hl.frame
    · exact List.getElem?_set_ne hne.symm
    · rw [Throttle.exchange_history, List.filter_eq_nil_iff.2 (fun x hx => by simpa [hgiven x hx] using hne.symm)]
      rfl
  have hlen : (s.limiter.buckets.set r b').length = s.limiter.buckets.length := List.length_set
  constructor
  · intro b hmem
    rcases List.mem_or_eq_of_mem_set hmem with hold | rfl
    · exact h.sane b hold
    · exact hb
  · intro i r' hi
    exact (h.made i r' hi).trans_eq hlen.symm
  · exact h.own
  · exact h.shared
  · intro x hx
    refine lt_of_lt_of_eq ?_ hlen.symm
    rcases List.mem_append.1 hx with hnew | hold
    · exact (hgiven x hnew).symm ▸ hr
    · exact h.past x hold
  · obtain ⟨r', hr', hl⟩ := h.all
    refine ⟨r', hr', ?_⟩
    by_cases he : r' = r
    · subst he
      exact hmine (.inl hr') g hl
    · exact hother r' g he hl
  · intro r' hr'
    by_cases he : r' = r
    · subst he
      exact hmine (.inr hr') l (h.task _ hr')
    · exact hother r' l he (h.task _ hr')

/-- A thread's step keeps the limits. -/
theorem Throttled.advance (h : Throttled id l g s) (k : Nat) : Throttled id l g (s.advance k) := by
  unfold Throttle.advance
  split
  · -- entering a bucket
    split
    · exact h
    · split
      · exact ⟨h.sane, h.made, h.own, h.shared, h.past, h.all, h.task⟩
      · exact ⟨h.sane, h.made, h.own, h.shared, h.past, h.all, h.task⟩
  · -- an attempt
    rename_i bytes r remaining request rest hk
    split
    · exact h
    · rename_i b hb
      have hr : r < s.limiter.buckets.length := (List.getElem?_eq_some_iff.1 hb).1
      have hsane : b.Sane s.now := h.sane b (List.mem_of_getElem? hb)
      have hmeter : ∀ threads given n, s.Limits r n →
          given = (if (b.attempt s.now request).1 then [⟨r, s.now, request⟩] else []) →
          (s.exchange r (b.attempt s.now request).2 threads given).Limits r n := by
        rintro threads given n ⟨b₀, hb₀, hrate, hcap, hm⟩ hgiven
        obtain rfl : b = b₀ := Option.some.inj (hb.symm.trans hb₀)
        obtain ⟨hrate', hcap', hm'⟩ := TokenBucket.attempt_metered hrate hcap hm hsane.past
        refine ⟨_, List.getElem?_set_self hr, hrate', hcap', ?_⟩
        rw [Throttle.exchange_history]
        convert hm' using 2
        rw [hgiven]
        split <;> simp
      have hsane' := hsane.attempt request
      rcases hatt : b.attempt s.now request with ⟨ok, b'⟩
      rw [hatt] at hmeter hsane'
      cases ok with
      | true => exact h.exchange hr hsane' (by simp) (fun _ n hl => hmeter _ _ n hl rfl)
      | false => exact h.exchange hr hsane' (by simp) (fun _ n hl => hmeter _ _ n hl rfl)
  · exact h

/-- Setting the global limit again changes nothing. -/
theorem Throttled.setGlobalLimit_eq (h : Throttled id l g s) : s.limiter.setGlobalLimit s.now (some g) = s.limiter := by
  obtain ⟨r, hr, b, hb, hrate, _⟩ := h.all
  have hsame : s.limiter.globalBucket.bind s.limiter.rate = some g := by simp [hr, RateLimiter.rate, hb, hrate]
  rw [RateLimiter.setGlobalLimit, if_pos ⟨rfl, hsame⟩]

/-- A task without a limit has no bucket, but the others keep theirs. -/
theorem Throttled.erase (h : Throttled id l g s) (i : TaskId) :
    Throttled id l g
      { s with limiter := { s.limiter with taskBuckets := Function.update s.limiter.taskBuckets i none } } := by
  have hold : ∀ j r, Function.update s.limiter.taskBuckets i none j = some r → s.limiter.taskBuckets j = some r := by
    intro j r hj
    by_cases he : j = i
    · subst he; simp at hj
    · rwa [Function.update_of_ne he] at hj
  constructor
  · exact h.sane
  · intro j r hj
    exact h.made j r (hold j r hj)
  · intro j k r hj hk
    exact h.own j k r (hold j r hj) (hold k r hk)
  · intro j r hj
    exact h.shared j r (hold j r hj)
  · exact h.past
  · exact h.all
  · intro r hr
    exact h.task r (hold id r hr)

/-- A new bucket for a task without one. -/
theorem Throttled.addBucket (h : Throttled id l g s) (hn : 0 < n) (hlimit : i = id → n = l)
    (hnone : s.limiter.taskBuckets i = none) :
    Throttled id l g
      { s with
        limiter :=
          { buckets := s.limiter.buckets ++ [TokenBucket.new n n s.now]
            globalBucket := s.limiter.globalBucket
            taskBuckets := Function.update s.limiter.taskBuckets i (some s.limiter.buckets.length) } } := by
  have hcases : ∀ j r, Function.update s.limiter.taskBuckets i (some s.limiter.buckets.length) j = some r →
      (j = i ∧ r = s.limiter.buckets.length) ∨ (j ≠ i ∧ s.limiter.taskBuckets j = some r) := by
    intro j r hj
    by_cases he : j = i
    · subst he
      rw [Function.update_self, Option.some.injEq] at hj
      exact .inl ⟨rfl, hj.symm⟩
    · rw [Function.update_of_ne he] at hj
      exact .inr ⟨he, hj⟩
  have hkeep : ∀ r n', s.Limits r n' → Throttle.Limits
      { s with
        limiter :=
          { buckets := s.limiter.buckets ++ [TokenBucket.new n n s.now]
            globalBucket := s.limiter.globalBucket
            taskBuckets := Function.update s.limiter.taskBuckets i (some s.limiter.buckets.length) } } r n' := by
    intro r n' hl
    exact hl.frame (List.getElem?_append_left hl.lt) rfl
  constructor
  · intro b hb
    rcases List.mem_append.1 hb with hold | hnew
    · exact h.sane b hold
    · rw [List.mem_singleton.1 hnew]
      exact TokenBucket.sane_new n
  · intro j r hj
    rcases hcases j r hj with ⟨_, rfl⟩ | ⟨_, hj⟩
    · simp
    · have := h.made j r hj
      simp only [List.length_append, List.length_singleton]
      omega
  · intro j k r hj hk
    rcases hcases j r hj with ⟨hji, hrj⟩ | ⟨_, hj'⟩ <;> rcases hcases k r hk with ⟨hki, hrk⟩ | ⟨_, hk'⟩
    · exact hji.trans hki.symm
    · exact absurd (h.made k r hk') (hrj ▸ lt_irrefl _)
    · exact absurd (h.made j r hj') (hrk ▸ lt_irrefl _)
    · exact h.own j k r hj' hk'
  · intro j r hj hglobal
    rcases hcases j r hj with ⟨_, rfl⟩ | ⟨_, hj⟩
    · obtain ⟨r', hr', hl⟩ := h.all
      rw [Option.some.inj (hr'.symm.trans hglobal)] at hl
      exact lt_irrefl _ hl.lt
    · exact h.shared j r hj hglobal
  · intro x hx
    have := h.past x hx
    simp only [List.length_append, List.length_singleton]
    omega
  · obtain ⟨r, hr, hl⟩ := h.all
    exact ⟨r, hr, hkeep r g hl⟩
  · intro r hr
    rcases hcases id r hr with ⟨he, rfl⟩ | ⟨_, hj⟩
    · obtain rfl := hlimit he.symm
      refine ⟨TokenBucket.new n n s.now, by simp, rfl, max_eq_right hn, ?_⟩
      change Metered _ _ (s.history _) _
      rw [h.history_new]
      exact metered_new hn s.now
    · exact hkeep r l (h.task r hj)

/-- Setting a task's limit keeps the limits. -/
theorem Throttled.setTaskLimit (h : Throttled id l g s) {limit : Option Nat} (hlimit : i = id → limit = some l) :
    Throttled id l g { s with limiter := s.limiter.setTaskLimit s.now i limit } := by
  unfold RateLimiter.setTaskLimit
  split
  · exact h.erase i
  · exact h.erase i
  · rename_i n hn
    have hpos : 0 < n := Nat.pos_of_ne_zero (by simpa using hn)
    have hid : i = id → n = l := fun he => Option.some.inj (hlimit he)
    split
    · rename_i r hr
      split
      · exact h
      · rename_i b hb
        split
        · exact h
        · -- another rate: the bucket is of another task
          rename_i hrate
          have hsane := (h.sane b (List.mem_of_getElem? hb)).setRate n
          change Throttled id l g (s.exchange r (b.setRate s.now n) s.threads [])
          apply h.exchange (h.made i r hr) hsane (by simp)
          intro hmine
          exfalso
          rcases hmine with hglobal | htask
          · exact h.shared i r hr hglobal
          · obtain ⟨b', hb', hrate', _⟩ := h.task r htask
            rw [Option.some.inj (hb.symm.trans hb')] at hrate
            exact hrate (hrate'.trans (hid (h.own i id r hr htask)).symm)
    · rename_i hnone
      have hmake : RateLimiter.makeBucket s.now (some n) s.limiter =
          (some s.limiter.buckets.length,
            { s.limiter with buckets := s.limiter.buckets ++ [TokenBucket.new n n s.now] }) := by
        obtain ⟨m, rfl⟩ := Nat.exists_eq_succ_of_ne_zero hpos.ne'
        rfl
      rw [hmake]
      exact h.addBucket hpos hid hnone

theorem Throttled.step (h : Throttled id l g s) {c : Rat × ThrottleEvent} (hc : KeepsLimits id l g c) :
    Throttled id l g (s.step c) := by
  obtain ⟨dt, e⟩ := c
  obtain ⟨hdt, he⟩ := hc
  have hlater : Throttled id l g { s with now := s.now + dt } :=
    { h with sane := fun b hb => (h.sane b hb).later (le_add_of_nonneg_right hdt) }
  unfold Throttle.step Throttle.happen
  cases e with
  | setGlobalLimit n =>
    dsimp only at he ⊢
    rw [he, hlater.setGlobalLimit_eq]
    exact hlater
  | setTaskLimit i n => exact hlater.setTaskLimit he
  | acquire i n => exact ⟨hlater.sane, hlater.made, hlater.own, hlater.shared, hlater.past, hlater.all, hlater.task⟩
  | advance k => exact hlater.advance k

theorem Throttled.new (hg : 0 < g) (t : Rat) : Throttled id l g (Throttle.new t (some g)) := by
  obtain ⟨n, rfl⟩ := Nat.exists_eq_succ_of_ne_zero hg.ne'
  constructor
  · intro b hb
    rw [List.mem_singleton.1 hb]
    exact TokenBucket.sane_new _
  · intro i r hr
    cases hr
  · intro i j r hr
    cases hr
  · intro i r hr
    cases hr
  · intro x hx
    cases hx
  · exact ⟨0, rfl, _, rfl, rfl, max_eq_right hg, metered_new hg t⟩
  · intro r hr
    cases hr

/-- A bucket with a limit grants no more than the limit allows in any window. -/
theorem Throttle.Limits.granted_le (h : s.Limits r n) {t₁ t₂ : Rat} (ht : t₁ ≤ t₂) :
    s.granted r t₁ t₂ ≤ n + n * (t₂ - t₁) := by
  obtain ⟨b, _, _, _, hm⟩ := h
  rw [s.granted_eq]
  exact hm.given_le (Nat.cast_nonneg n) (Nat.cast_nonneg n) ht

end Steps

/-- Limits bound what is granted: as long as the limits of all tasks and of a task stay `g` and
`l`, whatever the calls and the order of their steps, their buckets grant at most one second's
worth more than the limit in any window, and no bucket is overdrawn or overfull. -/
theorem rate_limits_bound_grants (id : TaskId) (l g : Nat) (hg : 0 < g) (t : Rat) (cs : List (Rat × ThrottleEvent))
    (hcs : ∀ c ∈ cs, KeepsLimits id l g c) :
    let s := cs.foldl Throttle.step (Throttle.new t (some g))
    (∃ r, s.limiter.globalBucket = some r ∧ ∀ t₁ t₂, t₁ ≤ t₂ → s.granted r t₁ t₂ ≤ g + g * (t₂ - t₁)) ∧
      (∀ r, s.limiter.taskBuckets id = some r → ∀ t₁ t₂, t₁ ≤ t₂ → s.granted r t₁ t₂ ≤ l + l * (t₂ - t₁)) ∧
      ∀ b ∈ s.limiter.buckets, 0 ≤ b.tokens ∧ b.tokens ≤ b.capacityBytes := by
  have hrun : GuardedRun Throttle.step (fun _ c => KeepsLimits id l g c) (Throttle.new t (some g)) cs := .of_all hcs
  have h : Throttled id l g (cs.foldl Throttle.step (Throttle.new t (some g))) :=
    GuardedRun.inv (fun s c h hc => h.step hc) (Throttled.new hg t) hrun
  refine ⟨?_, ?_, ?_⟩
  · obtain ⟨r, hr, hlim⟩ := h.all
    exact ⟨r, hr, fun t₁ t₂ ht => hlim.granted_le ht⟩
  · intro r hr t₁ t₂ ht
    exact (h.task r hr).granted_le ht
  · intro b hb
    exact ⟨(h.sane b hb).nonneg, (h.sane b hb).le_capacity⟩

/-- Two threads of one task ask for more than the capacity, and the limit is set again between their steps. -/
def sharedBucket : List (Rat × ThrottleEvent) :=
  [(0, .setTaskLimit (text "a") (some 10)), (0, .acquire (text "a") 15), (0, .acquire (text "a") 5), (0, .advance 0),
    (0, .advance 0), (0, .advance 1), (1, .setTaskLimit (text "a") (some 10)), (0, .advance 1), (0, .advance 0)]

theorem rate_limits_bound_grants_sharedBucket :
    (∀ c ∈ sharedBucket, KeepsLimits (text "a") 10 20 c) ∧
      (sharedBucket.foldl Throttle.step (Throttle.new 0 (some 20))).granted 1 0 1 ≤ 10 + 10 * (1 - 0) := by
  have hkeeps : ∀ c ∈ sharedBucket, KeepsLimits (text "a") 10 20 c := by
    simp [sharedBucket, KeepsLimits]
  have hbounds := rate_limits_bound_grants (text "a") 10 20 (by decide) 0 sharedBucket hkeeps
  have hbucket : (sharedBucket.foldl Throttle.step (Throttle.new 0 (some 20))).limiter.taskBuckets (text "a") =
      some 1 := by
    decide +kernel
  exact ⟨hkeeps, by simpa using hbounds.2.1 1 hbucket 0 1 zero_le_one⟩

end Cget
