import Mathlib.Data.Fin.Tuple.Basic
import Mathlib.Algebra.Order.Field.Basic
import Mathlib.Algebra.Order.Field.Rat
import Mathlib.Tactic.Linarith
import Sglang.Support.Reachable

/-!
# The concurrency limiter

`concurrency_limit_middleware` takes a token of the bucket for every request it lets through; the
response body gives it back when it is dropped. A request that finds no token waits in a queue for
the queue processor, or for a task spawned by it, to take a token and to send it a permit.
-/

namespace Sglang.Gateway

open Sglang.Support List

structure TokenBucket (K : Type*) where
  capacity : ℕ
  refillRate : ℕ
  tokens : K
  lastRefill : K

inductive Stage where
  /-- In the channel of the queue processor. -/
  | queued
  /-- In the hands of a spawned task. -/
  | waiting
  /-- The permit is sent and not yet received. -/
  | granted
  | refused
  /-- In `next.run`. -/
  | handling
  /-- The response is out and its `TokenGuardBody` is open. -/
  | streaming
  | closed
  deriving DecidableEq

structure Request (K : Type*) where
  stage : Stage
  queuedAt : K
  /-- The middleware future still waits at the other end of the permit channel. -/
  listening : Bool := true

/-- A call of the middleware runs up to its first await point. What happens to the request after
that is an event. -/
inductive RequestEvent where
  | recv
  | retry
  | giveUp
  | resume
  | respond
  | dropBody
  | disconnect
  deriving DecidableEq

inductive LimiterAct (K : Type*) where
  | wait (duration : K)
  | arrive
  | on (i : ℕ) (event : RequestEvent)

/-- The bucket, the clock and every request so far, in order of arrival. -/
structure Limiter (K : Type*) where
  bucket : TokenBucket K
  queueSize : ℕ
  queueTimeout : K
  now : K
  requests : List (Request K) := []

variable {K : Type*} [Field K] [LinearOrder K]

namespace TokenBucket

def new (capacity refillRate : ℕ) (now : K) : TokenBucket K :=
  { capacity, refillRate, tokens := capacity, lastRefill := now }

variable (b : TokenBucket K)

def refill (now : K) : TokenBucket K :=
  { b with
    tokens := min (b.tokens + (now - b.lastRefill) * b.refillRate) b.capacity
    lastRefill := now }

def tryAcquire (tokens now : K) : Bool × TokenBucket K :=
  let b := b.refill now
  if tokens ≤ b.tokens then (true, { b with tokens := b.tokens - tokens }) else (false, b)

def returnTokens (tokens : K) : TokenBucket K :=
  { b with tokens := min (b.tokens + tokens) b.capacity }

end TokenBucket

def maybeRateLimiter (maxConcurrentRequests : ℤ) (rateLimitTokensPerSecond : Option ℤ) (now : K) :
    Option (TokenBucket K) :=
  if maxConcurrentRequests ≤ 0 then none
  else
    let rate := (rateLimitTokensPerSecond.filter (0 < ·)).getD maxConcurrentRequests
    some (.new maxConcurrentRequests.toNat rate.toNat now)

/-- Past the middleware, with a body that is not dropped yet. -/
def Stage.passed : Stage → Bool
  | .handling | .streaming => true
  | _ => false

def Stage.holds : Stage → Bool
  | .granted | .handling | .streaming => true
  | _ => false

/-- `permit_tx.send`; what is sent to a dropped receiver is lost. -/
def Request.send (r : Request K) (permit : Stage) : Request K :=
  { r with stage := if r.listening then permit else .closed }

namespace Limiter

variable (s : Limiter K)

/-- `concurrency_limit_middleware` up to its first await point. -/
def arrive : TokenBucket K × Stage :=
  match s.bucket.tryAcquire 1 s.now with
  | (true, bucket) => (bucket, .handling)
  | (false, bucket) =>
    -- `try_send`; a limiter without a queue refuses in the same way as one with a full queue
    (bucket, if s.requests.countP (·.stage = .queued) < s.queueSize then .queued else .closed)

/-- One attempt of the queue processor, or of a spawned task, to get a token for the request. -/
def serve (r : Request K) : TokenBucket K × Request K :=
  match s.bucket.tryAcquire 1 s.now with
  | (true, bucket) => (bucket, r.send .granted)
  | (false, bucket) => (bucket, { r with stage := .waiting })

/-- `elapsed >= self.queue_timeout` -/
def TimedOut (r : Request K) : Prop := s.queueTimeout ≤ s.now - r.queuedAt

instance (r : Request K) : Decidable (s.TimedOut r) := inferInstanceAs (Decidable (_ ≤ _))

def step (i : ℕ) (r : Request K) : RequestEvent → Stage → Option (TokenBucket K × Request K)
  | .recv, .queued =>
    -- the channel is first in, first out
    if s.requests.findIdx? (·.stage = .queued) = some i then
      some (if s.TimedOut r then (s.bucket, r.send .refused) else s.serve r)
    else none
  | .retry, .waiting => some (s.serve r)
  | .giveUp, .waiting => some (s.bucket, r.send .refused)
  | .resume, .granted => some (s.bucket, { r with stage := .handling })
  | .resume, .refused => some (s.bucket, { r with stage := .closed })
  | .respond, .handling => some (s.bucket, { r with stage := .streaming })
  | .dropBody, .streaming => some (s.bucket.returnTokens 1, { r with stage := .closed })
  | .disconnect, .queued | .disconnect, .waiting => some (s.bucket, { r with listening := false })
  | .disconnect, .granted | .disconnect, .refused | .disconnect, .handling =>
    some (s.bucket, { r with stage := .closed })
  | _, _ => none

def run : LimiterAct K → Option (Limiter K)
  | .wait duration => if 0 ≤ duration then some { s with now := s.now + duration } else none
  | .arrive =>
    let (bucket, stage) := s.arrive
    some { s with bucket, requests := s.requests ++ [{ stage, queuedAt := s.now }] }
  | .on i event => do
    let r ← s.requests[i]?
    let (bucket, r) ← s.step i r event r.stage
    some { s with bucket, requests := s.requests.set i r }

def held : ℕ := s.requests.countP (·.stage.holds)

def passed : ℕ := s.requests.countP (·.stage.passed)

/-- The step asks the bucket for a token. -/
def Asks : LimiterAct K → Prop
  | .wait _ => False
  | .arrive => True
  | .on i event => ∃ r ∈ s.requests[i]?, event = .retry ∨ event = .recv ∧ ¬s.TimedOut r

/-- The step loses a token: it drops the future that owns it, or sends it to one that is gone. -/
def Drops : LimiterAct K → Prop
  | .on i event => ∃ r ∈ s.requests[i]?,
    event = .disconnect ∧ (r.stage = .granted ∨ r.stage = .handling) ∨
      s.Asks (.on i event) ∧ 1 ≤ (s.bucket.refill s.now).tokens ∧ r.listening = false
  | _ => False

instance (a : LimiterAct K) : Decidable (s.Asks a) :=
  match a with
  | .wait _ => isFalse id
  | .arrive => isTrue trivial
  | .on i event => inferInstanceAs (Decidable (∃ r ∈ s.requests[i]?, event = .retry ∨ _ ∧ _))

instance (a : LimiterAct K) : Decidable (s.Drops a) :=
  match a with
  | .wait _ | .arrive => isFalse id
  | .on i _ => inferInstanceAs (Decidable (∃ r ∈ s.requests[i]?, _ ∧ _ ∨ _ ∧ _ ∧ _))

/-- What a step can do: the bucket after it, and whether the request it is about held a token
before and holds one after. -/
inductive Move (a : LimiterAct K) : TokenBucket K → Bool → Bool → Prop
  | keep (h : Bool) : Move a s.bucket h h
  | lose (h : s.Drops a) : Move a s.bucket true false
  | giveBack : Move a (s.bucket.returnTokens 1) true false
  | ask (h : s.Asks a) : Move a (s.bucket.refill s.now) false false
  | take (h : s.Asks a) (hle : 1 ≤ (s.bucket.refill s.now).tokens) {holds : Bool}
      (hdrop : holds = false → s.Drops a) :
      Move a { s.bucket.refill s.now with tokens := (s.bucket.refill s.now).tokens - 1 } false holds

variable {s} {s' : Limiter K} {a : LimiterAct K} {i : ℕ} {r : Request K}

theorem move_serve {event : RequestEvent} (hr : s.requests[i]? = some r)
    (hasks : s.Asks (.on i event)) :
    s.Move (.on i event) (s.serve r).1 false (s.serve r).2.stage.holds := by
  rw [serve, TokenBucket.tryAcquire]
  by_cases hle : 1 ≤ (s.bucket.refill s.now).tokens
  · rw [if_pos hle]
    refine .take hasks hle fun hfalse => ⟨r, hr, Or.inr ⟨hasks, hle, ?_⟩⟩
    by_contra hl
    rw [Request.send, if_pos (Bool.eq_true_of_not_eq_false hl)] at hfalse
    cases hfalse
  · rw [if_neg hle]
    exact .ask hasks

theorem move_refuse (r : Request K) :
    s.Move a s.bucket false (r.send .refused).stage.holds := by
  rw [Request.send]
  dsimp only
  split <;> exact .keep false

theorem move_arrive : s.Move .arrive s.arrive.1 false s.arrive.2.holds := by
  have hasks : s.Asks .arrive := trivial
  rw [arrive, TokenBucket.tryAcquire]
  by_cases hle : 1 ≤ (s.bucket.refill s.now).tokens
  · rw [if_pos hle]
    exact .take hasks hle nofun
  · rw [if_neg hle]
    dsimp only
    split <;> exact .ask hasks

theorem move_step {event : RequestEvent} {stage : Stage} {p : TokenBucket K × Request K}
    (hr : s.requests[i]? = some r) (hstage : r.stage = stage)
    (h : s.step i r event stage = some p) :
    s.Move (.on i event) p.1 stage.holds p.2.stage.holds := by
  unfold step at h
  split at h
  case h_1 =>
    split at h
    · obtain rfl := Option.some.inj h
      split
      next => exact move_refuse r
      next htime => exact move_serve hr ⟨r, hr, Or.inr ⟨rfl, htime⟩⟩
    · cases h
  case h_2 =>
    obtain rfl := Option.some.inj h
    exact move_serve hr ⟨r, hr, Or.inl rfl⟩
  case h_3 =>
    cases h
    exact move_refuse r
  all_goals cases h
  case h_7 => exact .giveBack
  case h_8 | h_9 => rw [hstage]; exact .keep _
  case h_10 => exact .lose ⟨r, hr, Or.inl ⟨rfl, Or.inl hstage⟩⟩
  case h_12 => exact .lose ⟨r, hr, Or.inl ⟨rfl, Or.inr hstage⟩⟩
  all_goals exact .keep _

omit [Field K] [LinearOrder K] in
theorem held_set (hr : s.requests[i]? = some r) (r' : Request K) :
    (s.requests.set i r').countP (·.stage.holds) + r.stage.holds.toNat =
      s.held + r'.stage.holds.toNat := by
  obtain ⟨hi, rfl⟩ := List.getElem?_eq_some_iff.mp hr
  -- the request is one of those that its own count runs over
  have hle : (if s.requests[i].stage.holds then 1 else 0) ≤ s.held := by
    split
    next h => exact countP_pos_iff.mpr ⟨_, getElem_mem hi, h⟩
    next => exact Nat.zero_le _
  rw [held, countP_set hi, Bool.toNat, Bool.toNat, Bool.cond_eq_ite, Bool.cond_eq_ite]
  rw [held] at hle
  omega

theorem run_spec [IsStrictOrderedRing K] (h : s.run a = some s') : s.now ≤ s'.now ∧
    ∃ old new, s.Move a s'.bucket old new ∧ (s'.held + old.toNat : K) = s.held + new.toNat := by
  cases a with
  | wait duration =>
    rw [run] at h
    split at h
    next hle =>
      cases h
      exact ⟨le_add_of_nonneg_right hle, false, false, .keep false, rfl⟩
    next => cases h
  | arrive =>
    cases h
    refine ⟨le_rfl, false, _, move_arrive, ?_⟩
    norm_cast
    simp only [held, countP_append, countP_singleton, Bool.toNat, Bool.cond_eq_ite]
    rfl
  | on i event =>
    obtain ⟨r, hr, h⟩ := Option.bind_eq_some_iff.mp h
    obtain ⟨⟨b, r'⟩, hstep, h⟩ := Option.bind_eq_some_iff.mp h
    cases h
    exact ⟨le_rfl, _, _, move_step hr rfl hstep, mod_cast held_set hr r'⟩

/-! ## The limit -/

/-- The step asks for no token, or no token is held, or no time has passed since the bucket was
last asked. -/
def Batched (s : Limiter K) (a : LimiterAct K) : Prop :=
  s.Asks a → s.held = 0 ∨ s.now = s.bucket.lastRefill

instance (a : LimiterAct K) : Decidable (s.Batched a) := inferInstanceAs (Decidable (_ → _ ∨ _))

/-- The limiter of a configuration, before the first request. -/
def Configured (maxConcurrentRequests : ℤ) (rateLimitTokensPerSecond : Option ℤ)
    (s : Limiter K) : Prop :=
  maybeRateLimiter maxConcurrentRequests rateLimitTokensPerSecond s.now = some s.bucket ∧
    s.requests = []

structure Inv (n : ℤ) (s : Limiter K) : Prop where
  capacity : (s.bucket.capacity : ℤ) = n
  lastRefill_le : s.bucket.lastRefill ≤ s.now
  tokens_nonneg : 0 ≤ s.bucket.tokens
  fits : s.bucket.tokens + s.held ≤ s.bucket.capacity

section Bound

variable [IsStrictOrderedRing K] {n : ℤ} {rate : Option ℤ}

theorem refill_tokens_nonneg (I : Inv n s) : 0 ≤ (s.bucket.refill s.now).tokens :=
  le_min (add_nonneg I.tokens_nonneg
    (mul_nonneg (sub_nonneg.mpr I.lastRefill_le) (Nat.cast_nonneg _))) (Nat.cast_nonneg _)

/-- A refill leaves room for the tokens that are held. -/
theorem Inv.refill_fits (I : Inv n s) (hbatch : s.Batched a) (hasks : s.Asks a) :
    (s.bucket.refill s.now).tokens + s.held ≤ s.bucket.capacity := by
  rcases hbatch hasks with hnone | hnow
  · rw [hnone, Nat.cast_zero, add_zero]
    exact min_le_right _ _
  · refine (add_le_add_left (min_le_left _ _) _).trans ?_
    rw [hnow, sub_self, zero_mul, add_zero]
    exact I.fits

theorem Inv.run (I : Inv n s) (hbatch : s.Batched a) (h : s.run a = some s') : Inv n s' := by
  obtain ⟨hnow, old, new, hmove, hheld⟩ := run_spec h
  have hfits := I.fits
  have hrefill := refill_tokens_nonneg I
  generalize hb : s'.bucket = b at hmove
  suffices hgoal : b.capacity = s.bucket.capacity ∧ b.lastRefill ≤ s.now ∧ 0 ≤ b.tokens ∧
      b.tokens + s'.held ≤ b.capacity by
    subst hb
    obtain ⟨hcap, hlast, htokens, hfits⟩ := hgoal
    exact ⟨hcap ▸ I.capacity, hlast.trans hnow, htokens, hfits⟩
  cases hmove with
  | keep => exact ⟨rfl, I.lastRefill_le, I.tokens_nonneg, add_right_cancel hheld ▸ hfits⟩
  | lose =>
    refine ⟨rfl, I.lastRefill_le, I.tokens_nonneg, ?_⟩
    simp at hheld
    linarith
  | giveBack =>
    have hle : min (s.bucket.tokens + 1) s.bucket.capacity ≤ s.bucket.tokens + 1 := min_le_left _ _
    refine ⟨rfl, I.lastRefill_le, ?_, ?_⟩
    · exact le_min (by linarith [I.tokens_nonneg]) (Nat.cast_nonneg _)
    · simp at hheld
      simp only [TokenBucket.returnTokens]
      linarith
  | ask hasks => exact ⟨rfl, le_rfl, hrefill, add_right_cancel hheld ▸ I.refill_fits hbatch hasks⟩
  | take hasks hle _ =>
    refine ⟨rfl, le_rfl, sub_nonneg.mpr hle, ?_⟩
    have hroom := I.refill_fits hbatch hasks
    have hone : ((new.toNat : ℕ) : K) ≤ 1 := mod_cast Bool.toNat_le new
    simp at hheld
    dsimp only [TokenBucket.refill] at hroom ⊢
    linarith

/-- No more requests than configured are past the middleware, in every run that asks for tokens
in batches: between one batch and the next every token has come back. -/
theorem passed_le_of_batched (h : Reachable (Configured n rate) Batched run s) :
    (s.passed : ℤ) ≤ n := by
  have I : Inv n s := by
    refine Reachable.invariant ?_ (fun a I hbatch h => I.run hbatch h) h
    rintro s ⟨hbucket, hnil⟩
    rw [maybeRateLimiter] at hbucket
    split at hbucket
    next => cases hbucket
    next hpos =>
      have hnew := Option.some.inj hbucket
      refine ⟨?_, ?_, ?_, ?_⟩ <;> rw [← hnew]
      · exact Int.toNat_of_nonneg (le_of_not_ge hpos)
      · exact le_rfl
      · exact Nat.cast_nonneg _
      · simp [TokenBucket.new, held, hnil]
  have hle : s.passed ≤ s.held := countP_mono_left fun r _ h => by
    cases hr : r.stage <;> simp_all [Stage.passed, Stage.holds]
  have hheld : (s.held : K) ≤ s.bucket.capacity := by linarith [I.fits, I.tokens_nonneg]
  rw [← I.capacity]
  exact_mod_cast hle.trans (Nat.cast_le.mp hheld)

/-- At most `n` requests at a time, with the refill rate that this limit implies, and one place in
the queue. -/
def limited (n : ℕ) : Limiter ℚ :=
  { bucket := .new n n 0, queueSize := 1, queueTimeout := 5, now := 0 }

/-- After a second the refill lets a second request through beside the first. -/
theorem lt_passed_refilled : ∃ s : Limiter ℚ,
    Reachable (Configured 1 none) (fun _ _ => True) run s ∧ 1 < s.passed := by
  obtain ⟨s, hrun, hpassed⟩ : ∃ s,
      Reachable.runAll run (limited 1) [.arrive, .wait 1, .arrive] = some s ∧ s.passed = 2 :=
    Option.map_eq_some_iff.mp (by decide +kernel)
  exact ⟨s, Reachable.of_runAll _ (fun _ _ _ => trivial) (.start ⟨rfl, rfl⟩) hrun, by omega⟩

/-- Two requests are let through, and a third one takes the token of the first from the queue. -/
def queuedGrant : List (LimiterAct ℚ) :=
  [.arrive, .arrive, .arrive, .on 0 .respond, .on 0 .dropBody, .on 2 .recv, .on 2 .resume, .wait 1]

theorem passed_le_of_batched_queued : ∃ s : Limiter ℚ,
    Reachable (Configured 2 none) Batched run s ∧ s.passed = 2 ∧ (s.passed : ℤ) ≤ 2 := by
  obtain ⟨s, hrun, hpassed⟩ : ∃ s,
      Reachable.runAll run (limited 2) queuedGrant = some s ∧ s.passed = 2 :=
    Option.map_eq_some_iff.mp (by decide +kernel)
  have hreach : Reachable (Configured 2 none) Batched run s :=
    .of_permitted (s := limited 2) _ (by decide +kernel) (.start ⟨rfl, rfl⟩) hrun
  exact ⟨s, hreach, hpassed, passed_le_of_batched hreach⟩

end Bound

/-! ## A bucket without refill -/

/-- Every token is in the bucket or held. -/
structure Conserved (n : ℕ) (s : Limiter K) : Prop where
  sum_eq : s.bucket.tokens + s.held = n
  tokens_le : s.bucket.tokens ≤ n
  full : (∀ r ∈ s.requests, r.stage = .closed) → s.bucket.tokens = n

/-- A limiter around `TokenBucket::new(n, 0)`, before the first request. -/
def Pure (n : ℕ) (s : Limiter K) : Prop := s.bucket = .new n 0 s.now ∧ s.requests = []

section Tokens

variable [IsStrictOrderedRing K] {n : ℕ}

structure Balanced (n : ℕ) (s : Limiter K) : Prop where
  capacity : s.bucket.capacity = n
  refillRate : s.bucket.refillRate = 0
  sum_eq : s.bucket.tokens + s.held = n

theorem Balanced.tokens_le (B : Balanced n s) : s.bucket.tokens ≤ n := by
  have := Nat.cast_nonneg (α := K) s.held
  linarith [B.sum_eq]

theorem Balanced.refill_tokens (B : Balanced n s) :
    (s.bucket.refill s.now).tokens = s.bucket.tokens := by
  simp only [TokenBucket.refill, B.refillRate, B.capacity, Nat.cast_zero, mul_zero, add_zero]
  exact min_eq_left B.tokens_le

theorem Balanced.run (B : Balanced n s) (hkept : ¬s.Drops a) (h : s.run a = some s') :
    Balanced n s' := by
  obtain ⟨-, old, new, hmove, hheld⟩ := run_spec h
  have hsum := B.sum_eq
  have hrefill := B.refill_tokens
  generalize hb : s'.bucket = b at hmove
  suffices hgoal : b.capacity = s.bucket.capacity ∧ b.refillRate = s.bucket.refillRate ∧
      b.tokens + s'.held = n by
    subst hb
    exact ⟨hgoal.1.trans B.capacity, hgoal.2.1.trans B.refillRate, hgoal.2.2⟩
  cases hmove with
  | keep => exact ⟨rfl, rfl, add_right_cancel hheld ▸ hsum⟩
  | lose hdrop => exact absurd hdrop hkept
  | giveBack =>
    simp at hheld
    have hle : s.bucket.tokens + 1 ≤ s.bucket.capacity := by
      have := Nat.cast_nonneg (α := K) s'.held
      rw [B.capacity]
      linarith
    refine ⟨rfl, rfl, ?_⟩
    rw [TokenBucket.returnTokens, min_eq_left hle]
    linarith
  | ask =>
    refine ⟨rfl, rfl, ?_⟩
    rw [hrefill]
    exact add_right_cancel hheld ▸ hsum
  | take hasks hle hdrop =>
    cases new
    · exact absurd (hdrop rfl) hkept
    refine ⟨rfl, rfl, ?_⟩
    simp at hheld
    dsimp only
    rw [hrefill]
    linarith

/-- No token is lost in a run that never drops one. -/
theorem conserved_of_kept (h : Reachable (Pure n) (fun s a => ¬s.Drops a) run s) :
    Conserved n s := by
  have B : Balanced n s := by
    refine Reachable.invariant ?_ (fun a B hkept h => B.run hkept h) h
    rintro s ⟨hnew, hnil⟩
    refine ⟨?_, ?_, ?_⟩ <;> rw [hnew]
    · rfl
    · rfl
    · simp [TokenBucket.new, held, hnil]
  refine ⟨B.sum_eq, B.tokens_le, fun hclosed => ?_⟩
  have hzero : s.held = 0 := countP_eq_zero.mpr fun r hr => by simp [hclosed r hr, Stage.holds]
  simpa [hzero] using B.sum_eq

/-- At most `n` requests at a time, and no refill. -/
def semaphore (n : ℕ) : Limiter ℚ := { limited n with bucket := .new n 0 0 }

/-- A client that disconnects while its request is handled takes the token along. -/
theorem not_conserved_disconnected : ∃ s : Limiter ℚ,
    Reachable (Pure 1) (fun _ _ => True) run s ∧ ¬Conserved 1 s := by
  obtain ⟨s, hrun, hsum⟩ : ∃ s,
      Reachable.runAll run (semaphore 1) [.arrive, .on 0 .disconnect] = some s ∧
      s.bucket.tokens + s.held = 0 := Option.map_eq_some_iff.mp (by decide +kernel)
  refine ⟨s, .of_runAll _ (fun _ _ _ => trivial) (.start ⟨rfl, rfl⟩) hrun, fun C => ?_⟩
  exact absurd (hsum.symm.trans C.sum_eq) (by decide)

theorem conserved_of_kept_queued : ∃ s : Limiter ℚ,
    Reachable (Pure 2) (fun s a => ¬s.Drops a) run s ∧ s.held = 2 ∧ Conserved 2 s := by
  obtain ⟨s, hrun, hheld⟩ : ∃ s,
      Reachable.runAll run (semaphore 2) queuedGrant = some s ∧ s.held = 2 :=
    Option.map_eq_some_iff.mp (by decide +kernel)
  have hreach : Reachable (Pure 2) (fun s a => ¬s.Drops a) run s :=
    .of_permitted (s := semaphore 2) _ (by decide +kernel) (.start ⟨rfl, rfl⟩) hrun
  exact ⟨s, hreach, hheld, conserved_of_kept hreach⟩

end Tokens

end Limiter

end Sglang.Gateway
