import Cget.RateLimiter
/-!
# Waiting for tokens

The calls on one bucket, lock by lock. A thread in `acquire` fixes its request from the capacity
and keeps it through every wait, while `setRate` may change capacity and rate meanwhile; the test
of the rate at the start of `acquire` is made without the lock. `setTaskLimit` reads the rate of
the bucket and sets it in two steps, both under the limiter's own lock.
-/

namespace Cget

/-! ## One bucket and its callers -/

/-- Where a thread stands in `TokenBucket::acquire` or in `tryAcquire`. -/
inductive Acquiring where
  /-- In `acquire`: the rate was not 0, and the lock is still to be taken. -/
  | tested (bytes : Nat)
  /-- The same in `tryAcquire`. -/
  | trying (bytes : Nat)
  /-- In the loops, with the lock. -/
  | inside
  /-- In `wait_for`, without the lock. -/
  | waiting (remaining request : Nat)
  | returned
  deriving DecidableEq, Repr

/-- The thread with the lock, at the start of the inner loop. -/
structure Holding where
  thread : Nat
  remaining : Nat
  request : Nat
  deriving DecidableEq, Repr

structure SharedBucket where
  bucket : TokenBucket
  threads : List Acquiring := []
  holder : Option Holding := none
  /-- The limiter has the bucket in `taskBuckets_`. -/
  listed : Bool
  /-- A `setTaskLimit` that saw another rate, and is about to call `setRate`. -/
  limiting : Option Nat := none
  now : Rat
  deriving DecidableEq, Repr

/-- `TokenBucket::tryAcquire`, under the lock. -/
def TokenBucket.tryAcquire (now : Rat) (bytes : Nat) (b : TokenBucket) : Bool × TokenBucket := b.attempt now bytes

inductive BucketEvent where
  /-- A thread calls `acquire`, and makes the test without the lock. -/
  | acquire (bytes : Nat)
  | tryAcquire (bytes : Nat)
  /-- A thread enters the loops, wakes up, or makes its only try. -/
  | lock (thread : Nat)
  /-- The body of the inner loop. -/
  | attempt
  | setRate (rateBytesPerSec : Nat)
  /-- `setTaskLimit` up to its test of the rate. -/
  | setTaskLimit (bytesPerSec : Option Nat)
  /-- The rest of `setTaskLimit`. -/
  | applyLimit
  deriving DecidableEq, Repr

namespace SharedBucket

def start (rateBytesPerSec capacityBytes : Nat) (listed : Bool) (now : Rat) : SharedBucket where
  bucket := .new rateBytesPerSec capacityBytes now
  listed := listed
  now := now

def setRate (n : Nat) (s : SharedBucket) : SharedBucket := { s with bucket := s.bucket.setRate s.now n }

def lock (k : Nat) (s : SharedBucket) : SharedBucket :=
  match s.threads[k]? with
  | some (.tested bytes) =>
    { s with threads := s.threads.set k .inside, holder := some ⟨k, bytes, min bytes s.bucket.capacityBytes⟩ }
  | some (.waiting remaining request) =>
    { s with threads := s.threads.set k .inside, holder := some ⟨k, remaining, request⟩ }
  | some (.trying bytes) =>
    { s with bucket := (s.bucket.tryAcquire s.now bytes).2, threads := s.threads.set k .returned }
  | _ => s

def attempt (h : Holding) (s : SharedBucket) : SharedBucket :=
  match s.bucket.attempt s.now h.request with
  | (true, b) =>
    let remaining := h.remaining - h.request
    if remaining = 0 then { s with bucket := b, threads := s.threads.set h.thread .returned, holder := none }
    else { s with bucket := b, holder := some ⟨h.thread, remaining, min remaining b.capacityBytes⟩ }
  | (false, b) =>
    { s with bucket := b, threads := s.threads.set h.thread (.waiting h.remaining h.request), holder := none }

def setTaskLimit (bytesPerSec : Option Nat) (s : SharedBucket) : SharedBucket :=
  match bytesPerSec with
  | none => { s with listed := false }
  | some 0 => { s with listed := false }
  | some n => if s.listed ∧ s.holder = none ∧ s.bucket.rateBytesPerSec ≠ n then { s with limiting := some n } else s

/-- A call that needs a lock another thread has stays where it is. -/
def happen (s : SharedBucket) : BucketEvent → SharedBucket
  | .acquire bytes =>
    { s with threads := s.threads ++ [if bytes = 0 ∨ s.bucket.rateBytesPerSec = 0 then .returned else .tested bytes] }
  | .tryAcquire bytes =>
    { s with threads := s.threads ++ [if bytes = 0 ∨ s.bucket.rateBytesPerSec = 0 then .returned else .trying bytes] }
  | .lock k => if s.holder = none then s.lock k else s
  | .attempt =>
    match s.holder with
    | some h => s.attempt h
    | none => s
  | .setRate n => if s.holder = none then s.setRate n else s
  | .setTaskLimit n => if s.limiting = none then s.setTaskLimit n else s
  | .applyLimit =>
    match s.limiting with
    | some n => if s.holder = none then { s.setRate n with limiting := none } else s
    | none => s

/-- An event, some time after the last one. -/
def step (s : SharedBucket) (c : Rat × BucketEvent) : SharedBucket := { s with now := s.now + c.1 }.happen c.2

/-! ## Which waits end -/

/-- Every thread that waits asks for no more than the capacity, at a rate above 0. -/
def Satisfiable (s : SharedBucket) : Prop :=
  ∀ remaining request, .waiting remaining request ∈ s.threads →
    request ≤ s.bucket.capacityBytes ∧ 0 < s.bucket.rateBytesPerSec

/-- The rate `n` is above 0 and leaves room for the request of every waiting thread. -/
def Accepts (s : SharedBucket) (n : Nat) : Prop :=
  ∀ remaining request, .waiting remaining request ∈ s.threads → request ≤ max 1 n ∧ 0 < n

/-- Rates are set that the waiting threads accept, and a thread that comes to the lock after the rate was
set to 0 finds enough tokens. -/
def Considerate (s : SharedBucket) (c : Rat × BucketEvent) : Prop :=
  match c.2 with
  | .setRate n => s.holder = none → s.Accepts n
  | .applyLimit => ∀ n ∈ s.limiting, s.holder = none → s.Accepts n
  | .attempt => ∀ h ∈ s.holder, 0 < s.bucket.rateBytesPerSec ∨ (h.request : Rat) ≤ s.bucket.tokens
  | _ => True

/-- What the thread with the lock asks for was cut to the capacity. -/
structure Cut (s : SharedBucket) : Prop where
  fits : ∀ h ∈ s.holder, h.request ≤ s.bucket.capacityBytes
  placed : ∀ h ∈ s.holder, h.thread < s.threads.length

section Steps

variable {s s' : SharedBucket} {b : TokenBucket} {h : Holding} {k n q : Nat} {t t' : Rat}

theorem attempt_rate :
    (b.attempt t q).2.rateBytesPerSec = b.rateBytesPerSec ∧ (b.attempt t q).2.capacityBytes = b.capacityBytes := by
  unfold TokenBucket.attempt
  dsimp only
  split <;> exact ⟨rfl, rfl⟩

theorem attempt_granted_iff : (b.attempt t q).1 = true ↔ (q : Rat) ≤ (b.refillLocked t).tokens := by
  unfold TokenBucket.attempt
  dsimp only
  split
  · exact iff_of_true rfl ‹_›
  · exact iff_of_false Bool.false_ne_true ‹_›

/-- What leaves capacity and rate alone and makes no thread wait keeps every wait satisfiable. -/
theorem Satisfiable.mono (hs : s.Satisfiable) (hcapacity : s'.bucket.capacityBytes = s.bucket.capacityBytes)
    (hrate : s'.bucket.rateBytesPerSec = s.bucket.rateBytesPerSec)
    (hthreads : ∀ remaining request, .waiting remaining request ∈ s'.threads → .waiting remaining request ∈ s.threads) :
    s'.Satisfiable := by
  intro remaining request hwait
  rw [hcapacity, hrate]
  exact hs remaining request (hthreads remaining request hwait)

theorem waiting_of_set {x : Acquiring} (hx : ∀ remaining request, x ≠ .waiting remaining request)
    (remaining request : Nat)
    (hmem : .waiting remaining request ∈ s.threads.set k x) : .waiting remaining request ∈ s.threads := by
  rcases List.mem_or_eq_of_mem_set hmem with hold | heq
  · exact hold
  · exact absurd heq.symm (hx remaining request)

theorem lock_satisfiable (hs : s.Satisfiable) : (s.lock k).Satisfiable := by
  unfold lock
  split
  · exact hs.mono rfl rfl (waiting_of_set fun _ _ => Acquiring.noConfusion)
  · exact hs.mono rfl rfl (waiting_of_set fun _ _ => Acquiring.noConfusion)
  · exact hs.mono attempt_rate.2 attempt_rate.1 (waiting_of_set fun _ _ => Acquiring.noConfusion)
  · exact hs

/-- At rate 0 nothing is refilled. -/
theorem refilled_of_rate_zero (hrate : b.rateBytesPerSec = 0) (hfits : q ≤ b.capacityBytes) :
    (q : Rat) ≤ (b.refillLocked t).tokens ↔ (q : Rat) ≤ b.tokens := by
  have hq : (q : Rat) ≤ b.capacityBytes := Nat.cast_le.2 hfits
  simp only [TokenBucket.refillLocked, hrate, Nat.cast_zero, mul_zero, add_zero, le_min_iff]
  exact and_iff_right hq

/-- An attempt leaves its thread waiting at rate 0 only if the tokens do not suffice. -/
theorem attempt_satisfiable_iff (hs : s.Satisfiable) (hfits : h.request ≤ s.bucket.capacityBytes)
    (hplaced : h.thread < s.threads.length) :
    (s.attempt h).Satisfiable ↔ 0 < s.bucket.rateBytesPerSec ∨ (h.request : Rat) ≤ s.bucket.tokens := by
  obtain ⟨hrate, hcapacity⟩ := attempt_rate (b := s.bucket) (t := s.now) (q := h.request)
  have hgranted := attempt_granted_iff (b := s.bucket) (t := s.now) (q := h.request)
  unfold attempt
  rcases hb : s.bucket.attempt s.now h.request with ⟨_ | _, b⟩
  · rw [hb] at hrate hcapacity hgranted
    have hshort : ¬ (h.request : Rat) ≤ (s.bucket.refillLocked s.now).tokens :=
      fun hle => Bool.false_ne_true (hgranted.2 hle)
    have hwaits : .waiting h.remaining h.request ∈ s.threads.set h.thread (.waiting h.remaining h.request) :=
      List.mem_set hplaced _
    rcases Nat.eq_zero_or_pos s.bucket.rateBytesPerSec with hzero | hpos
    · rw [refilled_of_rate_zero hzero hfits] at hshort
      refine iff_of_false (fun hall => ?_) fun hor => hor.elim hzero.not_gt hshort
      exact absurd (hall _ _ hwaits).2 (by rw [hrate]; omega)
    · refine iff_of_true (fun remaining request hmem => ?_) (.inl hpos)
      rw [hcapacity, hrate]
      rcases List.mem_or_eq_of_mem_set hmem with hold | heq
      · exact hs remaining request hold
      · cases heq
        exact ⟨hfits, hpos⟩
  · rw [hb] at hrate hcapacity hgranted
    have henough := hgranted.1 rfl
    have htokens : 0 < s.bucket.rateBytesPerSec ∨ (h.request : Rat) ≤ s.bucket.tokens := by
      rcases Nat.eq_zero_or_pos s.bucket.rateBytesPerSec with hzero | hpos
      · exact .inr ((refilled_of_rate_zero hzero hfits).1 henough)
      · exact .inl hpos
    refine iff_of_true ?_ htokens
    dsimp only
    split
    · exact hs.mono hcapacity hrate (waiting_of_set fun _ _ => Acquiring.noConfusion)
    · exact hs.mono hcapacity hrate fun _ _ hmem => hmem

/-- A call makes no thread wait yet. -/
theorem called_satisfiable (hs : s.Satisfiable) {x y : Acquiring} {called : Prop} [Decidable called]
    (hx : ∀ remaining request, x ≠ .waiting remaining request)
    (hy : ∀ remaining request, y ≠ .waiting remaining request) :
    ({ s with threads := s.threads ++ [if called then x else y] }).Satisfiable := by
  refine hs.mono rfl rfl fun remaining request hmem => ?_
  rcases List.mem_append.1 hmem with hold | hnew
  · exact hold
  · rw [List.mem_singleton] at hnew
    split at hnew
    · exact absurd hnew.symm (hx remaining request)
    · exact absurd hnew.symm (hy remaining request)

theorem happen_satisfiable_iff (hs : s.Satisfiable) (hcut : s.Cut) (gap : Rat) (e : BucketEvent) :
    (s.happen e).Satisfiable ↔ s.Considerate (gap, e) := by
  cases e with
  | acquire bytes =>
    exact iff_of_true (called_satisfiable hs (fun _ _ => Acquiring.noConfusion) fun _ _ =>
      Acquiring.noConfusion) trivial
  | tryAcquire bytes =>
    exact iff_of_true (called_satisfiable hs (fun _ _ => Acquiring.noConfusion) fun _ _ =>
      Acquiring.noConfusion) trivial
  | lock k =>
    refine iff_of_true ?_ trivial
    simp only [happen]
    split
    · exact lock_satisfiable hs
    · exact hs
  | attempt =>
    simp only [happen, Considerate]
    cases hholder : s.holder with
    | none => exact iff_of_true hs fun h hh => by cases hh
    | some h =>
      simp only [Option.mem_def, Option.some.injEq, forall_eq']
      exact attempt_satisfiable_iff hs (hcut.fits h hholder) (hcut.placed h hholder)
  | setRate n =>
    simp only [happen, Considerate]
    split
    · exact ⟨fun hall _ => hall, fun hok => hok ‹_›⟩
    · exact iff_of_true hs fun hfree => absurd hfree ‹_›
  | setTaskLimit limit =>
    refine iff_of_true ?_ trivial
    simp only [happen]
    split
    · unfold setTaskLimit
      split
      · exact hs
      · exact hs
      · split <;> exact hs
    · exact hs
  | applyLimit =>
    simp only [happen, Considerate]
    cases hlimit : s.limiting with
    | none => exact iff_of_true hs fun n hn => by cases hn
    | some n =>
      simp only [Option.mem_def, Option.some.injEq, forall_eq']
      split
      · exact ⟨fun hall _ => hall, fun hok => hok ‹_›⟩
      · exact iff_of_true hs fun hfree => absurd hfree ‹_›

theorem Cut.mono (hcut : s.Cut) (hcapacity : s'.bucket.capacityBytes = s.bucket.capacityBytes)
    (hholder : s'.holder = s.holder) (hthreads : s.threads.length ≤ s'.threads.length) : s'.Cut := by
  constructor
  · rw [hholder, hcapacity]
    exact hcut.fits
  · rw [hholder]
    exact fun h hh => (hcut.placed h hh).trans_le hthreads

theorem cut_of_free (hfree : s.holder = none) : s.Cut := by
  constructor <;> rw [hfree] <;> exact fun h hh => by cases hh

theorem lock_cut (hs : s.Satisfiable) (hcut : s.Cut) : (s.lock k).Cut := by
  unfold lock
  split
  · rename_i hk
    have hplaced := (List.getElem?_eq_some_iff.1 hk).1
    constructor
    · rintro h ⟨⟩
      exact min_le_right _ _
    · rintro h ⟨⟩
      simpa using hplaced
  · rename_i hk
    have hplaced := (List.getElem?_eq_some_iff.1 hk).1
    constructor
    · rintro h ⟨⟩
      exact (hs _ _ (List.mem_of_getElem? hk)).1
    · rintro h ⟨⟩
      simpa using hplaced
  · exact hcut.mono attempt_rate.2 rfl (by simp)
  · exact hcut

theorem attempt_cut (hplaced : h.thread < s.threads.length) : (s.attempt h).Cut := by
  unfold attempt
  split
  · dsimp only
    split
    · exact cut_of_free rfl
    · constructor
      · rintro h' ⟨⟩
        exact min_le_right _ _
      · rintro h' ⟨⟩
        exact hplaced
  · exact cut_of_free rfl

/-- The lock is taken with a request cut to the capacity, and nobody changes that meanwhile. -/
theorem happen_cut (hs : s.Satisfiable) (hcut : s.Cut) (e : BucketEvent) : (s.happen e).Cut := by
  cases e with
  | acquire bytes => exact hcut.mono rfl rfl (by simp [happen])
  | tryAcquire bytes => exact hcut.mono rfl rfl (by simp [happen])
  | lock k =>
    simp only [happen]
    split
    · exact lock_cut hs hcut
    · exact hcut
  | attempt =>
    simp only [happen]
    split
    · rename_i h hholder
      exact attempt_cut (hcut.placed h hholder)
    · exact hcut
  | setRate n =>
    simp only [happen]
    split
    · exact cut_of_free ‹_›
    · exact hcut
  | setTaskLimit limit =>
    simp only [happen]
    split
    · unfold setTaskLimit
      split
      · exact hcut.mono rfl rfl le_rfl
      · exact hcut.mono rfl rfl le_rfl
      · split
        · exact hcut.mono rfl rfl le_rfl
        · exact hcut
    · exact hcut
  | applyLimit =>
    simp only [happen]
    split
    · split
      · exact cut_of_free ‹_›
      · exact hcut
    · exact hcut

/-! ## What a satisfiable wait comes to -/

/-- From the wait that `acquire` computes on, refilling alone has reached the request. -/
theorem refilling_suffices (hfits : q ≤ b.capacityBytes) (hrate : 0 < b.rateBytesPerSec)
    (hlater : b.lastRefill + (q - b.tokens) / b.rateBytesPerSec ≤ t) : (b.attempt t q).1 = true := by
  rw [attempt_granted_iff]
  have hpos : (0 : Rat) < b.rateBytesPerSec := Nat.cast_pos.2 hrate
  refine le_min (Nat.cast_le.2 hfits) ?_
  have hgain : q - b.tokens ≤ (t - b.lastRefill) * b.rateBytesPerSec := (div_le_iff₀ hpos).1 (by linarith)
  linarith

/-- No wait is long enough for a request above the capacity. -/
theorem refilling_never_suffices (hlarge : b.capacityBytes < q) (t : Rat) : (b.attempt t q).1 = false := by
  rw [Bool.eq_false_iff, ne_eq, attempt_granted_iff]
  intro hle
  have hq : (b.capacityBytes : Rat) < q := Nat.cast_lt.2 hlarge
  exact absurd (hle.trans (min_le_left _ _)) (not_le.2 hq)

end Steps

end SharedBucket

/-- In all states of a run every waiting thread can be served by refilling alone, exactly if the
rates set in it leave room for who waits, and who comes to the lock at rate 0 need not wait. -/
theorem waits_satisfiable_iff (rate capacity : Nat) (listed : Bool) (now : Rat) (events : List (Rat × BucketEvent)) :
    (∀ n, ((events.take n).foldl SharedBucket.step (.start rate capacity listed now)).Satisfiable) ↔
      GuardedRun SharedBucket.step SharedBucket.Considerate (.start rate capacity listed now) events := by
  refine GuardedRun.iff_states_with (J := SharedBucket.Cut) (fun s c hs hcut => ?_) (fun s c hs hcut => ?_) ?_ ?_
  · exact SharedBucket.happen_satisfiable_iff (s := { s with now := s.now + c.1 }) hs (hcut.mono rfl rfl le_rfl) c.1 c.2
  · exact SharedBucket.happen_cut (s := { s with now := s.now + c.1 }) hs (hcut.mono rfl rfl le_rfl) c.2
  · intro remaining request hmem
    cases hmem
  · exact SharedBucket.cut_of_free rfl

/-- A second thread waits for 100 bytes when the limit of the task goes down to 10. -/
theorem lowered_limit_strands :
    let s := [(0, BucketEvent.acquire 100), (0, .lock 0), (0, .attempt), (0, .acquire 100), (0, .lock 1), (0, .attempt),
      (1, .setTaskLimit (some 10)), (0, .applyLimit)].foldl SharedBucket.step (.start 100 100 true 0)
    .waiting 100 100 ∈ s.threads ∧ s.bucket.capacityBytes = 10 ∧ ¬ s.Satisfiable := by
  intro s
  have hwaits : .waiting 100 100 ∈ s.threads := by decide +kernel
  have hcapacity : s.bucket.capacityBytes = 10 := by decide +kernel
  refine ⟨hwaits, hcapacity, fun hs => ?_⟩
  have hfits := (hs 100 100 hwaits).1
  omega

end Cget
