import Kaluta.Lib.Execution
import Kaluta.Publish.Host

-- The app that publishes a mailbox's guide: `rules_push`, one call at a time, and what it keeps of it.
namespace Kaluta.Publish

-- Pushes of one version before giving up.
def ATTEMPTS : Nat := 4

inductive Failure
  | transient         -- Not reached, or busy.
  | alreadyRegistered
  | tokenRefused
  | refused           -- Something else that the server, or the Mac, says no to.
  | keptRefusing
  deriving DecidableEq

-- `rules-server.json` in the account's directory.
structure Record where
  enabled     : Bool := true
  salt        : Salt := 0
  lastVersion : Int := 0
  error       : Option Failure := none
  content     : Option String := none -- A digest of what the last push sent.
  encrypt     : Option Bool := none
  keyId       : Option Server.KeyId := none
  deriving DecidableEq

def Record.encrypts (r : Record) : Bool :=
  r.encrypt.getD true

-- What would be sent did not change, as far as the record says.
def Record.skips (r : Record) (digest : String) : Bool :=
  let migrating := r.encrypts && r.keyId.isNone
  !migrating && r.error.isNone && r.content = some digest

structure Sealing where
  key    : Server.Key
  keyId  : Server.KeyId
  appKey : String
  wraps  : List (Server.AgentId × Server.SnapshotWrap)

-- A call of `rules_push` that has something to send.
structure Call where
  plain           : Guide
  salt            : Salt
  encrypt         : Bool
  expected        : Option Int
  version         : Int
  sealing         : Option Sealing := none
  attempts        : Nat := ATTEMPTS -- How many are left.
  registeredAgain : Bool := false

def Call.push (cfg : Config) (c : Call) (publishedAt : Millis) : Server.Push :=
  let json := cfg.hashed c.plain c.salt
  match if c.encrypt then c.sealing else none with
  | none   => { address := cfg.address, version := c.version, publishedAt, json }
  | some s => {
    address := cfg.address, version := c.version, publishedAt
    sealed := some {
      encryption := Server.ENCRYPTION_VERSION, keyId := s.keyId, schemaVersion := Server.SCHEMA_VERSION
      appKey := s.appKey, wraps := s.wraps
      ciphertext := {
        key := s.key, keyId := s.keyId, address := cfg.address, version := c.version
        schemaVersion := Server.SCHEMA_VERSION, json } } }

-- Where a call is.
inductive Phase
  | idle
  | registering (call : Call) (id : Nat) (after401 : Bool)
  | registered (call : Call) (token : Token) -- The token is not in the Keychain yet.
  | kept (call : Call) (token : Token)       -- The new salt is not in the record yet.
  | ready (call : Call) (token : Token)
  | sending (call : Call) (token : Token) (id : Nat)
  | stored (call : Call)                     -- The server took the push, which is not in the record yet.
  | failed (call : Call) (why : Failure)     -- The error is not in the record yet.

def Phase.call : Phase → Option Call
  | .idle                                                                        => none
  | .registering call _ _ | .registered call _ | .kept call _ | .ready call _
  | .sending call _ _ | .stored call | .failed call _                            => some call

-- A push of the call was sent.
def Phase.sent (p : Phase) : Bool :=
  p.call.any (·.attempts < ATTEMPTS)

inductive Outcome
  | pushed
  | unchanged -- Nothing to push.
  | failed (why : Failure)
  deriving DecidableEq

structure State where
  guide         : Guide := ""
  record        : Record := {}
  keychain      : Option Token := none
  phase         : Phase := .idle
  host          : Host := {}
  registrations : List Nat := []              -- Requests on their way to the server, by their ids.
  puts          : List Put := []
  answers       : List (Nat × Answer) := []   -- Answers on their way to the app.
  next          : Nat := 0                    -- Ids, tokens and salts from here on were never drawn.
  outcome       : Option Outcome := none      -- What `rules_push` answered just now.
  versions      : List (Token × Int) := []    -- Every version stored so far and for which registration, newest first.
  recorded      : Option Guide := none        -- What the record's digest is of.
  doubtful      : Bool := false               -- The app stopped during a push, or the mailbox was forgotten, since.

inductive Action
  | change (guide : Guide)
  | begin (force : Bool)
  | seal (sealing : Sealing)
  | send (publishedAt : Millis)
  | register (id : Nat) -- The server gets a request.
  | serve (id : Nat)
  | receive             -- The app gets its answer.
  | giveUp              -- It waits no longer, or cannot send.
  | advance             -- It writes to the Keychain or the record.
  | crash
  | restart
  | forget

variable (cfg : Config)

-- The start of `rules_push`.
def State.begin (s : State) (force : Bool) : Option State :=
  match s.phase with
  | .idle =>
    if ¬s.record.enabled then
      some { s with outcome := some .unchanged }
    else if ¬force ∧ s.record.skips (cfg.digest s.guide) then
      some { s with outcome := some .unchanged }
    else
      let call : Call := {
        plain := s.guide, salt := s.record.salt, encrypt := s.record.encrypts
        expected := if 0 < s.record.lastVersion then some s.record.lastVersion else none
        version := s.record.lastVersion + 1 }
      match s.keychain with
      | some token => some { s with phase := .ready call token }
      | none       => some { s with
          phase := .registering call s.next false, registrations := s.next :: s.registrations, next := s.next + 1 }
  | _     => none

-- The key, and its wraps for the agents that the server lists.
def State.seal (s : State) (sealing : Sealing) : Option State :=
  match s.phase with
  | .ready call token =>
    if call.encrypt ∧ call.sealing.isNone ∧ call.attempts ≠ 0 then
      some { s with phase := .ready { call with sealing := some sealing } token }
    else
      none
  | _                 => none

def State.send (s : State) (publishedAt : Millis) : Option State :=
  match s.phase with
  | .ready call token =>
    if call.attempts = 0 then
      some { s with phase := .failed call .keptRefusing }
    else if call.encrypt ∧ call.sealing.isNone then
      none
    else
      let put := { id := s.next, token, push := call.push cfg publishedAt, ifMatch := call.expected }
      some { s with
        phase := .sending { call with attempts := call.attempts - 1 } token s.next
        puts := put :: s.puts, next := s.next + 1 }
  | _                 => none

-- The server adds the mailbox, with a token of its own choice.
def State.register (s : State) (id : Nat) : Option State := do
  if id ∉ s.registrations then none
  let (host, answer) := s.host.register cfg s.next
  some { s with host, registrations := s.registrations.erase id, answers := (id, answer) :: s.answers, next := s.next + 1 }

def State.serve (s : State) (id : Nat) : Option State := do
  let put ← s.puts.find? (·.id = id)
  let (host, answer) := s.host.put cfg put
  some { s with
    host, puts := s.puts.filter (·.id ≠ id), answers := (id, answer) :: s.answers
    versions := if answer = .stored then (put.token, put.push.version) :: s.versions else s.versions }

-- What is made of the answer to a push.
def State.answered (s : State) (call : Call) (token : Token) : Answer → State
  | .stored             => { s with phase := .stored call }
  | .notCurrent current => { s with
      phase := .ready { call with expected := current, version := max call.version (current.getD 0 + 1) } token }
  | .unauthorized       =>
    if call.registeredAgain then
      { s with phase := .failed call .tokenRefused }
    else
      { s with
        phase := .registering { call with registeredAgain := true, expected := none, sealing := none } s.next true
        registrations := s.next :: s.registrations, next := s.next + 1 }
  | .encryptionRequired =>
    if call.encrypt then
      { s with phase := .failed call .refused }
    else
      { s with phase := .ready { call with encrypt := true } token, record := { s.record with encrypt := some true } }
  | .failed             => { s with phase := .failed call .transient }
  | _                   => { s with phase := .failed call .refused }

def State.receive (s : State) : Option State :=
  match s.phase with
  | .registering call id after401 => do
    let (_, answer) ← s.answers.find? (·.1 = id)
    match answer with
    | .registered token => some { s with phase := .registered call token }
    | _                 => some { s with phase := .failed call (if after401 then .tokenRefused else .alreadyRegistered) }
  | .sending call token id        => do
    let (_, answer) ← s.answers.find? (·.1 = id)
    some (s.answered call token answer)
  | _                             => none

def State.giveUp (s : State) : Option State :=
  match s.phase with
  | .registering call _ _ => some { s with phase := .failed call .transient }
  | .ready call _         => some { s with phase := .failed call .refused }
  | .sending call _ _     => some { s with phase := .failed call .transient }
  | _                     => none

def State.advance (s : State) : Option State :=
  match s.phase with
  | .registered call token => some { s with phase := .kept call token, keychain := some token }
  | .kept call token       => some { s with
      phase := .ready { call with salt := s.next } token, record := { s.record with salt := s.next, content := none }
      next := s.next + 1 }
  | .stored call           => some { s with
      phase := .idle, outcome := some .pushed, recorded := some call.plain, doubtful := false
      record := { s.record with
        lastVersion := call.version, error := none, content := some (cfg.digest call.plain), salt := call.salt
        encrypt := some call.encrypt, keyId := call.sealing.map (·.keyId) } }
  | .failed _ why          => some { s with
      phase := .idle, outcome := some (.failed why), record := { s.record with error := some why } }
  | _                      => none

def State.act (s : State) : Action → Option State
  | .change guide     => some { s with guide }
  | .begin force      => s.begin cfg force
  | .seal sealing     => s.seal sealing
  | .send publishedAt => s.send cfg publishedAt
  | .register id      => s.register cfg id
  | .serve id         => s.serve cfg id
  | .receive          => s.receive
  | .giveUp           => s.giveUp
  | .advance          => s.advance cfg
  | .crash            => some { s with phase := .idle, doubtful := s.doubtful || s.phase.sent }
  | .restart          => some { s with registrations := [], puts := [] }
  | .forget           => some { s with host := s.host.forget, doubtful := true }

def State.step (s : State) (a : Action) : Option State :=
  { s with outcome := none }.act cfg a

-- A publication that was just set up.
def publication : System State Action where
  Start s := s = {}
  step    := State.step cfg

variable {cfg} {s s' : State}

theorem State.serve_eq_some {id : Nat} (h : s.serve cfg id = some s') : ∃ put host answer,
    put ∈ s.puts ∧ put.id = id ∧ put.Served s.host host answer ∧ s' = { s with
      host, puts := s.puts.filter (·.id ≠ id), answers := (id, answer) :: s.answers
      versions := if answer = .stored then (put.token, put.push.version) :: s.versions else s.versions } := by
  obtain ⟨put, hf, h⟩ := Option.bind_eq_some_iff.mp h
  cases h
  exact ⟨put, _, _, List.mem_of_find?_eq_some hf, by simpa using List.find?_some hf, Host.put_served rfl, rfl⟩

theorem State.register_eq_some {id : Nat} (h : s.register cfg id = some s') : id ∈ s.registrations ∧ ∃ host answer,
    ((host = s.host ∧ answer = .alreadyRegistered ∧ s.host.mailbox ≠ none) ∨
      (s.host.mailbox = none ∧ host.token = some s.next ∧ answer = .registered s.next)) ∧ s' = { s with
        host, registrations := s.registrations.erase id, answers := (id, answer) :: s.answers, next := s.next + 1 } := by
  by_cases hr : id ∈ s.registrations
  case neg => simp [register, hr] at h
  case pos =>
    simp only [register, hr, not_true, if_false] at h
    cases h
    refine ⟨hr, _, _, ?_, rfl⟩
    rw [Host.register]
    cases hm : s.host.mailbox
    case some => exact .inl ⟨rfl, rfl, nofun⟩
    case none => exact .inr ⟨rfl, rfl, rfl⟩

end Kaluta.Publish
