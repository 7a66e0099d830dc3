import Kaluta.Agents.Meta
import Kaluta.Lib.Execution
import Kaluta.Lib.Table
import Mathlib.Logic.Function.Basic

-- Making a mailbox for an agent in a new service account.
namespace Kaluta.Agents

open Guide (Unicode toLowercase eqIgnoreAsciiCase trim cleanText)

namespace Creation

-- What the agents of a service account share: `service.json`.
structure ServiceMeta where
  service    : AgentService
  humanEmail : Option String := none
  verified   : Bool := false
  deriving DecidableEq

structure PendingSignUp where
  address  : String
  inboxId  : Option String
  -- The plan's email, and whether it is verified.
  email    : Option String
  verified : Bool
  deriving DecidableEq

-- A key as a service gave it: AgentMail's, of the n-th sign-up of an address, or Primitive's.
inductive Key
  | agentMail (email : String) (n : Nat)
  | primitive
  deriving DecidableEq

-- What a service answers to a sign-up.
structure SignedUp where
  address  : String
  inboxId  : Option String := none
  email    : Option String := none
  verified : Bool := false

inductive Answer
  -- The request did not reach the service.
  | unsent
  -- It did, and its answer was lost.
  | lost
  | signedUp (answer : SignedUp)

inductive Phase
  | tested
  | signing
  | signedUp (pending : PendingSignUp) (key : Key)
  | pendingWritten (pending : PendingSignUp) (key : Key)
  -- The key is in the Keychain, of this call or of one before it.
  | keyed (pending : PendingSignUp)
  | recorded (pending : PendingSignUp)
  | stored (agent : AgentMeta)
  | finished

structure Call where
  id        : Nat
  service   : AgentService
  name      : String
  email     : Option String
  requestId : String
  phase     : Phase

structure State where
  metas    : Table (String × AgentMeta) Prod.fst := ∅
  keys     : Table (String × Key) Prod.fst := ∅
  services : String → Option ServiceMeta := fun _ => none
  pending  : String → Option PendingSignUp := fun _ => none
  calls    : Table Call Call.id := ∅
  next     : Nat := 0
  -- How often AgentMail has signed up an address.
  signUps  : String → Nat := fun _ => 0
  -- Whether a sign-up was sent for an address with a working key.
  repeated : Bool := false

inductive Action
  | call (service : AgentService) (name : String) (humanEmail : Option String) (requestId : String)
  | look (id : Nat) (ok : Bool)
  | signUp (id : Nat) (answer : Answer)
  | writePending (id : Nat) (ok : Bool)
  | setKey (id : Nat) (ok : Bool)
  | writeService (id : Nat) (ok : Bool)
  | writeMeta (id : Nat) (ok : Bool)
  -- `wrote` is whether the record is written, and `ok` whether the store and the index are too.
  | finish (id : Nat) (wrote ok : Bool)
  | forget (id : Nat) (ok : Bool)
  | crash

def DEMO_ACCOUNT_ID : String := "demo"

def validAccountId (id : String) : Bool :=
  id ≠ "" ∧ id.utf8ByteSize ≤ 64 ∧ id.toList.all fun c => c.isAlphanum || c = '-'

section Steps

variable [Unicode]

def State.readMeta (s : State) (id : String) : Option AgentMeta :=
  (s.metas.find? id).map fun m => Agents.readMeta id m.2

-- Every agent mailbox on disk.
def State.agentsOnDisk (s : State) : List (String × AgentMeta) :=
  (s.metas.rows.filter fun m => m.1 ≠ DEMO_ACCOUNT_ID ∧ validAccountId m.1).map fun m => (m.1, Agents.readMeta m.1 m.2)

-- A service account's record, or the one that a mailbox from before service accounts stands for.
def State.readService (s : State) (id : String) : Option ServiceMeta :=
  if validAccountId id then
    (s.services id).or
      (((s.readMeta id).filter (·.serviceAccount = id)).map fun agent => { service := agent.service })
  else none

-- Whether the record names an address, in any case of ASCII's letters.
def ServiceMeta.names (r : ServiceMeta) (email : String) : Bool :=
  r.service = .agentMail ∧ r.humanEmail.any fun h => eqIgnoreAsciiCase (trim h) (trim email)

-- An address with a service account here, or a request that already got a key.
def State.refuses (s : State) (email requestId : String) : Bool :=
  (s.agentsOnDisk.any fun a => (s.readService a.2.serviceAccount).any (·.names email)) ∨
    ((s.keys.find? requestId).isSome ∧ (s.pending requestId).isNone)

def State.put (s : State) (c : Call) (phase : Phase) : State :=
  { s with calls := s.calls.replace { c with phase } }

def State.drop (s : State) (c : Call) : State :=
  { s with calls := s.calls.delete (·.id = c.id) }

-- An address as AgentMail tells addresses apart: in any case of their letters.
def Key.signs : Key → Option String
  | .agentMail email _ => some (toLowercase email)
  | .primitive         => none

def Call.signs (c : Call) : Option String :=
  match c.service, c.email with
  | .agentMail, some email => some (toLowercase email)
  | _, _                   => none

-- Whether a key is the last one given for its address.
def State.works (s : State) : Key → Bool
  | .agentMail email n => n = s.signUps (toLowercase email)
  | .primitive         => true

-- The key that the service gives a call. One to AgentMail always has an address.
def State.given (s : State) (c : Call) : Key :=
  match c.service, c.email with
  | .agentMail, some email => .agentMail email (s.signUps (toLowercase email))
  | _, _                   => .primitive

-- A sign-up reaches the service.
def State.sent (s : State) (c : Call) : State :=
  { s with
    signUps  := match c.signs with
      | some a => Function.update s.signUps a (s.signUps a + 1)
      | none   => s.signUps
    repeated := s.repeated ∨ (c.signs.isSome ∧ s.keys.rows.any fun k => k.2.signs = c.signs ∧ s.works k.2) }

def PendingSignUp.of (c : Call) (answer : SignedUp) : PendingSignUp where
  address  := mailboxAddress answer.address c.name
  inboxId  := answer.inboxId
  email    := if c.service = .agentMail then answer.email.or c.email else answer.email
  verified := answer.verified

def Call.metaOf (c : Call) (pending : PendingSignUp) : AgentMeta where
  service        := c.service
  address        := pending.address
  name           := c.name
  managedAddress := some pending.address
  serviceAccount := c.requestId
  inboxId        := pending.inboxId

def State.call (s : State) (service : AgentService) (name : String) (humanEmail : Option String) (requestId : String) :
    State :=
  let name := cleanText name
  let email := (humanEmail.map trim).filter (· ≠ "")
  let begin_ (phase : Phase) : State :=
    { s with calls := s.calls.replace ⟨s.next, service, name, email, requestId, phase⟩, next := s.next + 1 }
  if name = "" ∨ name.length > 100 ∨ ¬validAccountId requestId then s
  else match service with
    | .primitive => begin_ .tested
    | .agentMail =>
      if ¬email.any (·.toList.contains '@') then s
      else match s.readMeta requestId with
        -- A retry of a creation that got as far as its agent.
        | some existing => begin_ (.stored existing)
        | none => if s.refuses (email.getD "") requestId then s else begin_ .tested

def State.act (s : State) (c : Call) : Phase → Action → Option State
  | .tested, .look _ ok =>
    match s.pending c.requestId with
    -- A sign-up whose key was stored before a failure is finished with it.
    | some pending =>
      if ¬ok then some (s.drop c)
      else if c.service = .agentMail ∧ (s.keys.find? c.requestId).isSome then some (s.put c (.keyed pending))
      else some (s.put c .signing)
    | none => if ok then some (s.put c .signing) else some (s.drop c)
  | .signing, .signUp _ .unsent => some (s.drop c)
  | .signing, .signUp _ .lost   => some ((s.sent c).drop c)
  | .signing, .signUp _ (.signedUp answer) =>
    let key := (s.sent c).given c
    let pending := .of c answer
    some ((s.sent c).put c (if c.service = .agentMail then .signedUp pending key else .pendingWritten pending key))
  | .signedUp pending key, .writePending _ ok =>
    if ok then some ({ s with pending := Function.update s.pending c.requestId (some pending) }.put c
      (.pendingWritten pending key))
    else some (s.drop c)
  | .pendingWritten pending key, .setKey _ ok =>
    if ok then some ({ s with keys := s.keys.replace (c.requestId, key) }.put c (.keyed pending)) else some (s.drop c)
  | .keyed pending, .writeService _ ok =>
    let r := (s.readService c.requestId).getD { service := c.service }
    let r := { r with verified := pending.verified, humanEmail := (pending.email.or r.humanEmail).or c.email }
    if ok then some ({ s with services := Function.update s.services c.requestId (some r) }.put c (.recorded pending))
    else some (s.drop c)
  | .recorded pending, .writeMeta _ ok =>
    if ok then some ({ s with metas := s.metas.replace (c.requestId, c.metaOf pending) }.put c
      (.stored (c.metaOf pending)))
    else some (s.drop c)
  | .stored agent, .finish _ wrote ok =>
    let id := agent.serviceAccount
    -- The record of a mailbox from before service accounts is written.
    let s := if wrote ∧ (s.services id).isNone then { s with services := Function.update s.services id (s.readService id) }
      else s
    if ok ∧ (s.services id).isSome then some (s.put c .finished) else some (s.drop c)
  | .finished, .forget _ ok =>
    some { s.drop c with pending := if ok then Function.update s.pending c.requestId none else s.pending }
  | _, _ => none

def Action.id? : Action → Option Nat
  | .call ..           => none
  | .crash             => none
  | .look id _         => some id
  | .signUp id _       => some id
  | .writePending id _ => some id
  | .setKey id _       => some id
  | .writeService id _ => some id
  | .writeMeta id _    => some id
  | .finish id _ _     => some id
  | .forget id _       => some id

def State.step (s : State) : Action → Option State
  | .call service name humanEmail requestId => some (s.call service name humanEmail requestId)
  | .crash => some { s with calls := ∅ }
  | a => do
    let c ← a.id?.bind s.calls.find?
    s.act c c.phase a

def creations : System State Action where
  Start s := s = {}
  step    := State.step

end Steps

end Creation

end Kaluta.Agents
