import Kaluta.Lib.Execution
import Kaluta.Lib.Table
import Kaluta.Store.Basic

-- The consent form: connect codes that are tried, counted, and locked out. Posts are handled side by side, and each in
-- parts: it takes its page, reads the lock, has its code tested by the database, and counts a code that was wrong.
namespace Kaluta.Consent

abbrev RequestId := String
abbrev ClientId  := String
abbrev Address   := String

-- A client and the address that it comes from.
abbrev Pair := ClientId × Address

-- Wrong connect codes on one consent page before it closes.
def TRIES_PER_CONSENT : Nat := 5

-- Wrong connect codes for one client from one address before that client is locked out there.
def TRIES_PER_CLIENT : Nat := 5

-- How long it is locked out.
def CLIENT_LOCK_MS : Millis := 3600000

-- How long a consent page may stay open.
def CONSENT_TTL_MS : Millis := 600000

def MAX_PENDING : Nat := 10000

-- A consent page that waits for its connect code.
structure Pending where
  request   : RequestId
  clientId  : ClientId
  createdAt : Millis
  tries     : Nat := 0

structure ClientFailures where
  key         : Pair
  count       : Nat := 0
  since       : Millis := 0
  lockedUntil : Option Millis := none

abbrev Failures := Table ClientFailures (·.key)

namespace Failures

-- Whether a client is locked out for requests from an address.
def locked (failures : Failures) (key : Pair) (now : Millis) : Bool :=
  ((failures.find? key).bind (·.lockedUntil)).any (now < ·)

def isOver (now : Millis) (f : ClientFailures) : Bool :=
  !(f.lockedUntil.any (now < ·) || now - f.since < CLIENT_LOCK_MS)

-- When there are many, those that are over go.
def retained (failures : Failures) (now : Millis) : Failures :=
  if MAX_PENDING < failures.rows.length then failures.delete (isOver now) else failures

-- What is counted of a client from an address, with one more wrong connect code.
def counted (failures : Failures) (key : Pair) (now : Millis) : ClientFailures :=
  let f := (failures.find? key).getD { key }
  let f := if CLIENT_LOCK_MS ≤ now - f.since then { f with count := 0, since := now, lockedUntil := none } else f
  let f := { f with count := f.count + 1 }
  if TRIES_PER_CLIENT ≤ f.count then { f with lockedUntil := some (now + CLIENT_LOCK_MS) } else f

def countFailure (failures : Failures) (key : Pair) (now : Millis) : Failures × ClientFailures :=
  let failures := failures.retained now
  let f := failures.counted key now
  (failures.replace f, f)

end Failures

-- How far a post has come.
inductive Phase
  | taken   -- It has its page, and the time.
  | testing -- Its client was not locked out.
  | wrong   -- Its code was wrong.
  deriving DecidableEq

structure Post where
  page    : Pending
  address : Address
  now     : Millis
  phase   : Phase := .taken

def Post.key (p : Post) : Pair :=
  (p.page.clientId, p.address)

-- What has happened to the codes of a client from an address, and when.
inductive Event
  | tested (key : Pair) (now : Millis) (right : Bool)
  | counted (key : Pair) (came : Millis) (number : Nat) (now : Millis) -- `came`: when the post of the wrong code did.
  deriving DecidableEq

structure State where
  clock    : Millis
  pending  : Table Pending (·.request) := ∅
  failures : Failures := ∅
  posts    : Table Post (·.page.request) := ∅
  log      : List Event := [] -- The last first.

inductive Action
  | pass (ms : Nat)
  | authorize (request : RequestId) (client : ClientId)
  | post (request : RequestId) (address : Address) (fromPage deny : Bool)
  | check (request : RequestId) (busy : Bool) -- `busy`: a limit for the address or the server is reached.
  | test (request : RequestId) (right : Option Bool) -- None: the database failed.
  | count (request : RequestId)

namespace State

def putPending (s : State) (p : Pending) : State :=
  let pending := s.pending.delete fun p => CONSENT_TTL_MS ≤ s.clock - p.createdAt
  if MAX_PENDING ≤ pending.rows.length then { s with pending } else { s with pending := pending.replace p }

-- A post that is answered.
def answered (s : State) (request : RequestId) : State :=
  { s with posts := s.posts.delete (·.page.request = request) }

def advance (s : State) (p : Post) (phase : Phase) : State :=
  { s with posts := s.posts.replace { p with phase } }

def postIn (s : State) (request : RequestId) (phase : Phase) : Option Post :=
  (s.posts.find? request).filter (·.phase = phase)

def step (s : State) : Action → Option State
  | .pass ms                           => some { s with clock := s.clock + ms }
  | .authorize request clientId        => some (s.putPending { request, clientId, createdAt := s.clock })
  | .post request address fromPage deny =>
    match s.pending.find? request with
    | none      => some s
    | some page =>
      let s := { s with pending := s.pending.delete (·.request = request) }
      if !fromPage ∨ CONSENT_TTL_MS ≤ s.clock - page.createdAt ∨ deny then
        some s
      else
        -- A page is taken by one post at a time.
        (s.posts.insert? { page, address, now := s.clock }).map ({ s with posts := · })
  | .check request busy                => do
    let p ← s.postIn request .taken
    if s.failures.locked p.key p.now then
      pure (s.answered request)
    else if busy then
      pure ((s.answered request).putPending p.page)
    else
      pure (s.advance p .testing)
  | .test request right                => do
    let p ← s.postIn request .testing
    match right with
    | none       => pure (s.answered request)
    | some right =>
      let s := { s with log := .tested p.key s.clock right :: s.log }
      pure (if right then s.answered request else s.advance p .wrong)
  | .count request                     => do
    let p ← s.postIn request .wrong
    let page := { p.page with tries := p.page.tries + 1 }
    let (failures, f) := s.failures.countFailure p.key p.now
    let s := { s.answered request with failures, log := .counted p.key p.now f.count s.clock :: s.log }
    pure (if TRIES_PER_CLIENT ≤ f.count ∨ TRIES_PER_CONSENT ≤ page.tries then s else s.putPending page)

end State

-- The server since it was started, at some time after the first hour of 1970.
def server : System State Action where
  Start s := CLIENT_LOCK_MS ≤ s.clock ∧ s.pending.rows = [] ∧ s.failures.rows = [] ∧ s.posts.rows = [] ∧ s.log = []
  step    := State.step

-- A post comes when none of its client and address is being handled.
def Apart (s : State) : Action → Prop
  | .post request address _ _ => ∀ page ∈ s.pending.find? request, ∀ p ∈ s.posts, p.key ≠ (page.clientId, address)
  | _                         => True

end Kaluta.Consent
