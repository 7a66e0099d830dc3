import Kaluta.Lib.Execution
import Kaluta.Provider.Http
import Mathlib.Algebra.Order.Ring.Rat
import Mathlib.Data.Nat.Cast.Order.Ring

-- The budget of a provider's requests: a token bucket that the provider can pause and slow down.
namespace Kaluta.Provider

-- In seconds.
abbrev Instant  := ℚ
abbrev Duration := ℚ

-- The first instant, and the shortest duration, that cannot be represented.
def INSTANT_END : Instant := 2 ^ 63

def DURATION_END : Duration := 2 ^ 64

inductive Priority
  | interactive -- The user is waiting.
  | background
  deriving DecidableEq

-- The refill after the provider said stop, as a share of the current rate, and its floor as a share of the nominal one.
def DECREASE : ℚ := 7 / 10

def FLOOR : ℚ := 1 / 5

-- The refill after a clean minute, as a share of the current rate.
def INCREASE : ℚ := 11 / 10

def RECOVERY : Duration := 60

-- The pause when the provider names none.
def DEFAULT_COOLDOWN : Duration := 5

structure Bucket where
  tokens        : ℚ
  last          : Instant
  refillPerSec  : ℚ
  -- No request is sent before this.
  cooldownUntil : Option Instant := none
  -- When the rate was last lowered or raised.
  lastAdjusted  : Option Instant := none
  deriving DecidableEq

-- A cooldown holds up every caller.
def Bucket.cools (s : Bucket) (now : Instant) : Bool :=
  s.cooldownUntil.any (now < ·)

structure RateLimiter where
  capacity            : ℚ
  nominalRefillPerSec : ℚ
  reserve             : ℚ
  capacity_nonneg     : 0 ≤ capacity
  nominal_eq          : nominalRefillPerSec = capacity / 60
  reserve_nonneg      : 0 ≤ reserve
  reserve_le          : reserve ≤ capacity

-- What becomes of one turn of a caller.
inductive Attempt
  | granted (units : ℚ)
  | sleeps (wait : Duration)
  | panics
  deriving DecidableEq

namespace RateLimiter

def new (unitsPerMinute interactiveReserve : Nat) : RateLimiter where
  capacity            := unitsPerMinute
  nominalRefillPerSec := unitsPerMinute / 60
  reserve             := min interactiveReserve unitsPerMinute
  capacity_nonneg     := Nat.cast_nonneg _
  nominal_eq          := rfl
  reserve_nonneg      := le_min (Nat.cast_nonneg _) (Nat.cast_nonneg _)
  reserve_le          := min_le_right ..

def GMAIL_UNITS_PER_MINUTE : Nat := 5000

def gmailDefault : RateLimiter :=
  new GMAIL_UNITS_PER_MINUTE 1000

variable (l : RateLimiter) (s : Bucket) (now : Instant)

def full : Bucket where
  tokens       := l.capacity
  last         := now
  refillPerSec := l.nominalRefillPerSec

-- Drains, pauses everyone and slows down. What is done before the end of the pause cannot be represented stays done.
def reportRateLimited (retryAfter : Option Duration) : Bucket × Bool :=
  let s     := { s with tokens := 0, last := now }
  let until' := now + retryAfter.getD DEFAULT_COOLDOWN
  if INSTANT_END ≤ until' then (s, true)
  else
    -- Requests that were refused together are one signal.
    let alreadyCooling := s.cools now
    let s := { s with cooldownUntil := some (s.cooldownUntil.elim until' (max · until')) }
    if alreadyCooling then (s, false)
    else
      ({ s with
        refillPerSec := max (s.refillPerSec * DECREASE) (l.nominalRefillPerSec * FLOOR)
        lastAdjusted := some now
      }, false)

-- A clean minute since the rate was adjusted speeds it back up.
def recover : Bucket :=
  if s.refillPerSec < l.nominalRefillPerSec ∧ s.lastAdjusted.any (RECOVERY ≤ now - ·) then
    { s with refillPerSec := min (s.refillPerSec * INCREASE) l.nominalRefillPerSec, lastAdjusted := some now }
  else s

def refill : Bucket :=
  { s with tokens := min (s.tokens + max 0 (now - s.last) * s.refillPerSec) l.capacity, last := now }

-- What a caller finds that no cooldown holds up.
def settled : Bucket :=
  l.refill (l.recover { s with cooldownUntil := none } now) now

-- What a caller must leave.
def floor : Priority → ℚ
  | .background  => l.reserve
  | .interactive => 0

-- One turn of a caller: it takes its units, or sleeps and takes another turn.
def attempt (cost : Nat) (priority : Priority) : Bucket × Attempt :=
  let cost := min (cost : ℚ) l.capacity
  if s.cools now then (s, .sleeps (s.cooldownUntil.getD now - now))
  else
    let s := l.settled s now
    if l.floor priority ≤ s.tokens - cost then ({ s with tokens := s.tokens - cost }, .granted cost)
    else
      let deficit := cost + l.floor priority - s.tokens
      let wait    := deficit / s.refillPerSec
      if s.refillPerSec ≠ 0 ∧ 0 ≤ wait ∧ wait < DURATION_END then (s, .sleeps wait) else (s, .panics)

end RateLimiter

structure Caller where
  cost     : Nat
  priority : Priority
  wakes    : Instant

-- What is seen of a limiter.
inductive Entry
  | granted (at' : Instant) (units : ℚ) (priority : Priority) (left : ℚ)
  | paused (at' : Instant) (pause : Duration)
  | slowed (at' : Instant)

-- A limiter's state, the callers that sleep, and what has been seen, the latest first.
structure Limiting where
  bucket  : Bucket
  clock   : Instant
  waiting : List Caller := []
  log     : List Entry := []
  panics  : Nat := 0

namespace Limiting

variable (s : Limiting) (l : RateLimiter) (now : Instant)

def turns (bucket : Bucket) : Limiting := { s with
  bucket
  clock := now
  log   := if bucket.refillPerSec < s.bucket.refillPerSec then .slowed now :: s.log else s.log
}

def attempt (cost : Nat) (priority : Priority) : Limiting :=
  let (bucket, outcome) := l.attempt s.bucket now cost priority
  let s := s.turns now bucket
  match outcome with
  | .granted units => { s with log := .granted now units priority bucket.tokens :: s.log }
  | .sleeps wait   => { s with waiting := ⟨cost, priority, now + wait⟩ :: s.waiting }
  | .panics        => { s with panics := s.panics + 1 }

def report (retryAfter : Option Duration) : Limiting :=
  let (bucket, overflows) := l.reportRateLimited s.bucket now retryAfter
  let s := s.turns now bucket
  { s with
    log    := .paused now (retryAfter.getD DEFAULT_COOLDOWN) :: s.log
    panics := if overflows then s.panics + 1 else s.panics
  }

end Limiting

inductive Limiter.Action
  | acquire (cost : Nat) (priority : Priority) (now : Instant)
  | wake (i : Nat) (now : Instant)
  | answered (hook : ErrorHook) (status : Nat) (retryAfter : Option UInt64) (body : Body) (now : Instant)

def Limiter.Action.now : Limiter.Action → Instant
  | acquire _ _ now | wake _ now | answered _ _ _ _ now => now

-- Times do not go back, and a caller sleeps as long as it was told.
def Limiting.step (l : RateLimiter) (s : Limiting) (a : Limiter.Action) : Option Limiting :=
  if s.clock ≤ a.now then
    match a with
    | .acquire cost priority now => some (s.attempt l now cost priority)
    | .wake i now                =>
      match s.waiting[i]? with
      | some c =>
        if c.wakes ≤ now then some ({ s with waiting := s.waiting.eraseIdx i }.attempt l now c.cost c.priority) else none
      | none   => none
    | .answered hook status retryAfter body now =>
      match classify hook status (retryAfter.map UInt64.toNat) body with
      | .rateLimited retryAfter => some (s.report l now (retryAfter.map fun secs => (secs : ℚ)))
      | _                       => some { s with clock := now }
  else none

def limiting (l : RateLimiter) : System Limiting Limiter.Action where
  Start s := ∃ now, s = { bucket := l.full now, clock := now }
  step    := Limiting.step l

end Kaluta.Provider
