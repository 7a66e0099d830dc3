import Kaluta.Agents.Meta
import Kaluta.Outside.Compose
import Kaluta.Permissions.Guard

-- One-call sending by agents outside the app, while everything else goes on.
namespace Kaluta.Outside

open Agents (AgentMeta AgentSendMode)
open Guide (Unicode trim eqIgnoreAsciiCase)
open Permissions (Tool ProposedAction SessionGuard DenyReason MAX_THREADS_PER_CALL MAX_THREADS_PER_SESSION
  MAX_CALLS_PER_MINUTE)

def CANNOT_SEND : String :=
  "This account is an imported mailbox: it cannot draft, reply, forward or send mail."

def ASK_WHILE_CLOSED : String :=
  "This mailbox is set to ask before each send, and Kaluta is closed, so no one can approve it. Nothing was sent or " ++
  "queued. Ask the user to open Kaluta and try again, or to set When Agents Send to Send freely in the mailbox's settings."

def ONE_RECIPIENT_ONLY : String :=
  "Primitive sends to one recipient per message; remove the others"

def unknownSession : Failure := ⟨"unknown_session", "this agent session has ended"⟩
def needsKaluta : Failure    := ⟨"needs_kaluta", ASK_WHILE_CLOSED⟩

def denied : DenyReason → Failure
  | .tooManyThreadsInCall => ⟨"denied", s!"a single call may change at most {MAX_THREADS_PER_CALL} threads"⟩
  | .sessionBulkCap       =>
    ⟨"denied", s!"this session has changed {MAX_THREADS_PER_SESSION} threads; ask the user before changing more"⟩
  | .rateLimited          => ⟨"denied", s!"too many tool calls; at most {MAX_CALLS_PER_MINUTE} per minute"⟩
  | .outOfScope           => ⟨"denied", "this thread is outside what the user asked about"⟩
  | .draftNotFromSession  => ⟨"denied", "only drafts created in this session can be sent"⟩
  | .missingDraft         => ⟨"denied", "a draft id is required"⟩

-- The reversible tools that the user wants to approve one by one.
structure Policy where
  approveReversible : List Tool := []

inductive Decision
  | allow
  | requireApproval
  | deny (reason : DenyReason)

def Policy.decide (policy : Policy) (action : ProposedAction) : Decision :=
  if action.tool.risk ≠ .readOnly ∧ MAX_THREADS_PER_CALL < action.threadIds.length then .deny .tooManyThreadsInCall
  else
    match action.tool.risk with
    | .readOnly   => .allow
    | .reversible => if action.tool ∈ policy.approveReversible then .requireApproval else .allow
    | .external   => .requireApproval

structure ToolSession where
  guard    : SessionGuard
  readOnly : Bool := false

-- A mailbox service's account, as far as it limits whom an agent writes to.
structure ServiceMeta where
  verified   : Bool
  humanEmail : Option String

-- What a call finds besides the mailbox's drafts and outbox. All of it may change at any moment.
structure Env where
  sessions : Nat → Option ToolSession := fun _ => none
  policy   : Policy := {}
  -- The mailbox's settings, unless it was removed, and those of its service account.
  agent    : Option AgentMeta := none
  service  : Option ServiceMeta := none
  -- Its store is open, it is an imported mailbox, it is being synced.
  opened   : Bool := true
  archive  : Bool := false
  syncs    : Bool := true
  own      : List String := []
  delay    : Millis := 0
  messages : Table Parent Parent.id := ∅

def Env.sendsFreely (env : Env) : Bool :=
  env.agent.any (·.sendMode = .freely)

-- Refuses a send that the service cannot make.
def Env.checkAgentRecipients (env : Env) (recipients : List String) : Except CoreError Unit :=
  match env.agent with
  | none      => .ok ()
  | some agent =>
    match agent.service, env.service with
    | .primitive, _            => if 1 < recipients.length then .error ⟨.invalidInput, ONE_RECIPIENT_ONLY⟩ else .ok ()
    | .agentMail, none         => .ok ()
    | .agentMail, some service =>
      let human := service.humanEmail.getD ""
      if service.verified || recipients.all fun r => eqIgnoreAsciiCase (trim r) (trim human) then .ok ()
      else
        let written := if human = "" then "the email it was created with" else human
        let alone := if human = "" then "that email" else human
        .error ⟨.invalidInput, s!"Until this AgentMail service account is verified, it can write only to {written}. " ++
          s!"Verify it in Settings › Accounts, or write to {alone} alone."⟩

-- How a tool call goes on after its checks.
inductive Gate
  | refused (failure : Failure)
  | allowed
  | freely
  | ask

section Gate

variable (env : Env) (headless : Bool) (session : Nat) (action : ProposedAction) (now : Millis)

def Env.withSession (f : ToolSession → ToolSession) : Env := { env with
  sessions := Function.update env.sessions session ((env.sessions session).map f)
}

-- The check of the session's hard limits counts the call.
def Env.counted : Env :=
  env.withSession session fun t => { t with guard := (t.guard.check action now).1 }

def Env.gate : Gate :=
  let session := env.sessions session
  let drafts := action.tool = .createDraft ∨ action.tool = .updateDraft ∨ action.tool = .send ∨ action.tool = .forward
  if session.any (·.readOnly) ∧ action.tool.risk ≠ .readOnly then
    .refused ⟨"denied", "this is a preview: nothing may be changed"⟩
  else if drafts ∧ env.archive then .refused ⟨"cannot_send", CANNOT_SEND⟩
  else
    match session with
    | none   => .refused unknownSession
    | some t =>
      match (t.guard.check action now).2 with
      | .error reason => .refused (denied reason)
      | .ok ()        =>
        match env.policy.decide action with
        | .deny reason     => .refused (denied reason)
        | .allow           => .allowed
        | .requireApproval =>
          if (action.tool = .send ∨ action.tool = .forward) ∧ env.sendsFreely then .freely
          else if headless then .refused needsKaluta
          else .ask

end Gate

-- What the user answers, or that the proposal could not be recorded.
inductive Approval
  | approved
  | rejected
  | timedOut
  | unrecorded

def Approval.declined : Approval → Option Failure
  | approved   => none
  | rejected   => some ⟨"rejected_by_user", "The user declined this action."⟩
  | timedOut   => some ⟨"approval_timeout", "The user did not answer within 10 minutes."⟩
  | unrecorded => some ⟨"failed", "could not record the proposal"⟩

-- `mail_send` and `mail_reply`.
inductive Arguments
  | send («to» cc : List String) (subject bodyMarkdown : String)
  | reply (messageId : MessageId) (bodyMarkdown : String) (replyAll : Bool)

def Arguments.draft : Arguments → CreateDraftArgs
  | send to_ cc subject bodyMarkdown => { «to» := some to_, cc := some cc, subject := some subject, bodyMarkdown }
  | reply id bodyMarkdown replyAll   => { replyToMessageId := some id, replyAll, bodyMarkdown }

-- Where a call is. What it holds in its variables goes along.
inductive Phase
  | begun
  | creating (a : CreateDraftArgs)
  | approvingDraft (a : CreateDraftArgs)
  | composing (a : CreateDraftArgs)
  | saving (draft : DraftRecord)
  | sending (draftId : Rowid)
  | preparing (draftId : Rowid) (asks : Bool)
  | approving (draftId : Rowid)
  | routing (draftId : Rowid)
  | freezing (draftId : Rowid) (route : Route)
  | pushing (draftId : Rowid) (frozen : Frozen)
  | pushed (draftId : Rowid)
  -- A send that was refused or failed: its draft is to be deleted.
  | cleaning (draftId : Rowid) (failure : Failure)
  -- With the sends of the call that were queued by then.
  | answered (outcome : Outcome) (sends : List OutboxOp)

-- The draft of a call that is not answered yet.
def Phase.draftId : Phase → Option Rowid
  | sending d | preparing d _ | approving d | routing d | freezing d _ | pushing d _ | pushed d | cleaning d _ => some d
  | _ => none

structure Call where
  id        : Nat
  session   : Nat
  headless  : Bool
  arguments : Except String Arguments
  phase     : Phase := .begun

-- A send that the app is about to write, with the call whose draft it read.
structure Opened where
  frozen : Frozen
  author : Option Nat

structure State where
  env     : Env
  db      : Db := {}
  calls   : Table Call Call.id := ∅
  opened  : List Opened := []
  -- The call that saved a draft under a row id, and each send ever queued, with the call whose draft it is of.
  authors : Rowid → Option Nat := fun _ => none
  queued  : List (Option Nat × OutboxOp) := []

-- What an await of a call comes back with.
structure Given where
  fault    : Option CoreError := none
  approval : Approval := .approved
  now      : Millis := 0
  drawn    : Drawn := {}

inductive Action
  | env (env : Env)
  | change (change : Change)
  -- The app sends a draft: it reads, and then writes.
  | open_ (draftId : Rowid) (route : Route) (drawn : Drawn)
  | push (n : Nat)
  | call (id session : Nat) (headless : Bool) (arguments : Except String Arguments)
  | go (id : Nat) (given : Given)

namespace State

section Calls

variable (s : State) (c : Call)

def sendsOf (call : Nat) : List OutboxOp :=
  (s.queued.filter (·.1 = some call)).map (·.2)

def put (phase : Phase) : State := { s with calls := s.calls.replace { c with phase } }

def answer (outcome : Outcome) : State :=
  s.put c (.answered outcome (s.sendsOf c.id))

def fail (failure : Failure) : State :=
  s.answer c (.error failure)

end Calls

variable [Unicode] [Mime] (s : State) (c : Call)

def noMessage : Failure := ⟨"not_found", "no such message"⟩

-- The draft is composed: a reply goes by the message it answers, as it is stored now.
def compose (a : CreateDraftArgs) (fault : Option CoreError) : Except Failure DraftRecord :=
  match a.replyToMessageId, fault with
  | none   , _      => fill a {}
  | some _ , some e => .error (failed e)
  | some id, none   =>
    match s.env.messages.find? id with
    | none        => .error noMessage
    | some parent =>
      if !(s.env.sessions c.session).any (·.guard.scope.allows parent.threadId) then .error noMessage
      else if s.env.archive then .error (failed ⟨.invalidInput, CANNOT_SEND⟩)
      else do
        let draft ← (replyDraft parent a.replyAll s.env.own).mapError failed
        fill a draft

-- The draft's row is written, and the session may send it.
def save (draft : DraftRecord) (given : Given) : State :=
  if s.env.archive then s.fail c (failed ⟨.invalidInput, CANNOT_SEND⟩)
  else if !s.env.opened then s.fail c (failed ⟨.notFound, "that account is not open"⟩)
  else
    match given.fault, s.db.saveDraft draft given.now with
    | some e, _           => s.fail c (failed e)
    | none  , .error _    => s.fail c (failed ⟨.other, "the draft was not saved"⟩)
    | none  , .ok (db, d) =>
      { s with
        db
        env     := s.env.withSession c.session fun t => { t with guard := t.guard.allowDraft d }
        calls   := s.calls.replace { c with phase := .sending d }
        authors := Function.update s.authors d (some c.id) }

-- What the user approves is prepared before asking.
def prepare (draftId : Rowid) (asks : Bool) (fault : Option CoreError) : State :=
  match fault, s.db.draft? draftId with
  | some e, _      => s.put c (.cleaning draftId (failed e))
  | none  , none   => s.put c (.cleaning draftId ⟨"not_found", "that draft no longer exists"⟩)
  | none  , some d =>
    if d.to.isEmpty && d.cc.isEmpty && d.bcc.isEmpty then
      s.put c (.cleaning draftId ⟨"invalid_arguments", "the draft has no recipients"⟩)
    else s.put c (if asks then .approving draftId else .routing draftId)

def recipientsOf (draftId : Rowid) : List String :=
  ((s.db.draft? draftId).map fun d => (d.to ++ d.cc ++ d.bcc).map (·.email)).getD []

-- How a saved draft is to be sent.
def route (draftId : Rowid) (fault : Option CoreError) : Except CoreError Route :=
  if s.env.archive then .error ⟨.invalidInput, CANNOT_SEND⟩
  else if !s.env.opened then .error ⟨.notFound, "that account is not open"⟩
  else
    match fault, s.env.checkAgentRecipients (s.recipientsOf draftId) with
    | some e, _        => .error e
    | none  , .error e => .error e
    | none  , .ok ()   => .ok {
      sender := ⟨s.env.agent.map (·.name), s.env.own.headD ""⟩
      queue  := s.env.syncs || c.headless || s.env.agent.isSome
      hold   := if c.headless then 0 else s.env.delay }

def pushFrozen (draftId : Rowid) (frozen : Frozen) (fault : Option CoreError) : State :=
  match fault, push s.db frozen with
  | some e, _        => s.put c (.cleaning draftId (failed e))
  | none  , .error _ => s.put c (.cleaning draftId (failed ⟨.other, "database error"⟩))
  | none  , .ok db   =>
    { s with db, queued := if frozen.queue then s.queued ++ [(some c.id, frozen.op)] else s.queued }.put c (.pushed draftId)

-- The draft is deleted, whatever comes of it.
def clean (draftId : Rowid) (given : Given) : State :=
  if given.fault.isSome || !s.env.opened then s else { s with db := s.db.discardDraft draftId given.now }

def go (given : Given) : Option State :=
  match c.phase with
  | .begun =>
    if (s.env.sessions c.session).isNone then some (s.fail c unknownSession)
    else
      match c.arguments with
      | .error e => some (s.fail c ⟨"invalid_arguments", e⟩)
      | .ok a    =>
        if c.headless && !s.env.sendsFreely then some (s.fail c needsKaluta)
        else
          match given.fault with
          | some e => if c.headless then some (s.fail c ⟨"failed", e.message⟩) else none
          | none   => some (s.put c (.creating a.draft))
  | .creating a =>
    let action : ProposedAction := { tool := .createDraft }
    let s' := { s with env := s.env.counted c.session action given.now }
    match s.env.gate c.headless c.session action given.now with
    | .refused failure => some (s'.fail c failure)
    | .ask             => some (s'.put c (.approvingDraft a))
    | _                => some (s'.put c (.composing a))
  | .approvingDraft a =>
    match given.approval.declined with
    | some failure => some (s.fail c failure)
    | none         => some (s.put c (.composing a))
  | .composing a =>
    match s.compose c a given.fault with
    | .error failure => some (s.fail c failure)
    | .ok draft      => some (s.put c (.saving draft))
  | .saving draft => some (s.save c draft given)
  | .sending d =>
    let action : ProposedAction := { tool := .send, draftId := some d }
    let s' := { s with env := s.env.counted c.session action given.now }
    match s.env.gate c.headless c.session action given.now with
    | .refused failure => some (s'.put c (.cleaning d failure))
    | .ask             => some (s'.put c (.preparing d true))
    | .freely          => some (s'.put c (.preparing d false))
    | .allowed         => some (s'.put c (.cleaning d ⟨"failed", "external actions run only after approval"⟩))
  | .preparing d asks => some (s.prepare c d asks given.fault)
  | .approving d =>
    match given.approval.declined with
    | some failure => some (s.put c (.cleaning d failure))
    | none         => some (s.put c (.routing d))
  | .routing d =>
    match s.route c d given.fault with
    | .error e  => some (s.put c (.cleaning d (failed e)))
    | .ok route => some (s.put c (.freezing d route))
  | .freezing d route =>
    match given.fault, freeze s.db d route given.drawn with
    | some e, _         => some (s.put c (.cleaning d (failed e)))
    | none  , .error e  => some (s.put c (.cleaning d (failed e)))
    | none  , .ok frozen => some (s.put c (.pushing d frozen))
  | .pushing d frozen => some (s.pushFrozen c d frozen given.fault)
  | .pushed d => some (s.answer c (.sent d c.headless))
  | .cleaning d failure => some ((s.clean d given).fail c failure)
  | .answered .. => none

def step : Action → Option State
  | .env env => some { s with env }
  | .change change =>
    match change.apply s.db with
    | .error _ => none
    | .ok db   => some { s with
      db
      authors := match change with
        | .save d _ => if d.id = 0 then Function.update s.authors s.db.drafts.nextRowid none else s.authors
        | _         => s.authors }
  | .open_ draftId route drawn =>
    match freeze s.db draftId route drawn with
    | .error _   => none
    | .ok frozen => some { s with opened := s.opened ++ [⟨frozen, s.authors draftId⟩] }
  | .push n => do
    let o ← s.opened[n]?
    let db ← (push s.db o.frozen).toOption
    return { s with
      db
      opened := s.opened.eraseIdx n
      queued := if o.frozen.queue then s.queued ++ [(o.author, o.frozen.op)] else s.queued }
  | .call id session headless arguments => do
    let calls ← s.calls.insert? { id, session, headless, arguments }
    return { s with calls }
  | .go id given => (s.calls.find? id).bind (s.go · given)

end State

def outside [Unicode] [Mime] : System State Action where
  Start s := s.calls = ∅ ∧ s.opened = [] ∧ s.queued = [] ∧ s.authors = fun _ => none
  step    := State.step

end Kaluta.Outside
