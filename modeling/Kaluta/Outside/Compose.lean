import Kaluta.Guide.Entry
import Kaluta.Store.Outbox

-- What an agent's draft holds, and sending a draft through the outbox.
namespace Kaluta.Outside

open Guide (Unicode toLowercase trim eqIgnoreAsciiCase)

inductive ErrorKind
  | notFound
  | invalidInput
  | other
  deriving DecidableEq

structure CoreError where
  kind    : ErrorKind
  message : String
  deriving DecidableEq

-- An error that a tool call answers.
structure Failure where
  code    : String
  message : String
  deriving DecidableEq

inductive Outcome
  | sent (draftId : Rowid) (queued : Bool)
  | error (failure : Failure)
  deriving DecidableEq

def failed (e : CoreError) : Failure :=
  match e.kind with
  | .notFound     => ⟨"not_found", e.message⟩
  | .invalidInput => ⟨"invalid_arguments", e.message⟩
  | .other        => ⟨"failed", e.message⟩

-- What making messages takes from the crates for HTML and MIME.
class Mime where
  markdownToHtml   : String → String
  textToHtml       : String → String
  htmlToQuotedText : String → String
  sanitizeHtml     : String → String
  -- Whether a message can be built into RFC 5322 bytes.
  builds           : OutgoingMessage → Bool

export Mime (markdownToHtml textToHtml htmlToQuotedText sanitizeHtml)

-- A stored message that is replied to, with its body.
structure Parent where
  id       : MessageId
  threadId : ThreadId
  sender   : Option EmailAddress := none
  replyTo  : List EmailAddress := []
  «to»     : List EmailAddress := []
  cc       : List EmailAddress := []
  subject  : String := ""
  -- The line above the quote, which names the date and the sender.
  header   : String := ""
  body     : Option Body := none

structure CreateDraftArgs where
  replyToMessageId : Option MessageId := none
  replyAll         : Bool := false
  «to»             : Option (List String) := none
  cc               : Option (List String) := none
  subject          : Option String := none
  bodyMarkdown     : String

-- The last place of a character.
def rfind (c : Char) (cs : List Char) : Option Nat :=
  (cs.reverse.idxOf? c).map (cs.length - 1 - ·)

def unquote (cs : List Char) : List Char :=
  ((cs.dropWhile (· = '"')).reverse.dropWhile (· = '"')).reverse

def isEmail (email : String) : Bool :=
  let cs := email.toList
  cs.count '@' = 1 && cs.head? ≠ some '@' && cs.getLast? ≠ some '@' &&
    !cs.any fun c => isWhitespace c || c ∈ ['<', '>', ',', ';', '"']

def parseAddress (text : String) : Except Failure EmailAddress :=
  let t := (trim text).toList
  let address : EmailAddress :=
    match rfind '<' t, rfind '>' t with
    | some opening, some closing =>
      if opening < closing then
        let name := trim (.ofList (unquote (trim (.ofList (t.take opening))).toList))
        ⟨if name = "" then none else some name, trim (.ofList ((t.take closing).drop (opening + 1)))⟩
      else ⟨none, .ofList t⟩
    | _, _ => ⟨none, .ofList t⟩
  if isEmail address.email then .ok address
  else .error ⟨"invalid_arguments", text.quote ++ " is not an email address"⟩

def addresses (list : Option (List String)) : Except Failure (Option (List EmailAddress)) :=
  match list with
  | none   => .ok none
  | some l => (l.mapM parseAddress).map some

section Reply

variable [Unicode]

-- Keeps the first of each address, without those of the user.
def keepFirst (me : List String) : List String → List EmailAddress → List EmailAddress
  | _   , []      => []
  | seen, a :: as =>
    if me.any (eqIgnoreAsciiCase · a.email) || toLowercase a.email ∈ seen then keepFirst me seen as
    else a :: keepFirst me (toLowercase a.email :: seen) as

def replyRecipients (parent : Parent) (me : List String) (all : Bool) : List EmailAddress × List EmailAddress :=
  let mine := fun a : EmailAddress => me.any (eqIgnoreAsciiCase · a.email)
  let primary := if parent.replyTo.isEmpty then parent.sender.toList else parent.replyTo
  -- Replying to one's own message: back to its recipients.
  let primary := if !primary.isEmpty && primary.all mine then parent.to else primary
  let to_ := keepFirst me [] primary
  let seen := to_.map (toLowercase ·.email)
  (to_, if all then keepFirst me seen (parent.to ++ parent.cc) else [])

-- Whether a string can be cut after so many bytes.
def isCharBoundary : Nat → List Char → Bool
  | 0    , _       => true
  | _ + 1, []      => false
  | n + 1, c :: cs => c.utf8Size ≤ n + 1 && isCharBoundary (n + 1 - c.utf8Size) cs

-- Cuts off three bytes to compare them, which panics inside a character.
def replySubject (subject : String) : Except CoreError String :=
  let s := trim subject
  if 3 ≤ s.utf8ByteSize && !isCharBoundary 3 s.toList then .error ⟨.other, "task panicked"⟩
  else if (s.toList.take 3).map Char.toLower = "re:".toList then .ok s
  else .ok ("Re: " ++ s)

variable [Mime]

def parentHtml (body : Option Body) : String :=
  match body with
  | some ⟨_, some html⟩      => html
  | some ⟨some text, none⟩ => textToHtml text
  | _                        => ""

-- A reply to a message, not yet saved.
def replyDraft (parent : Parent) (all : Bool) (me : List String) : Except CoreError DraftRecord := do
  let subject ← replySubject parent.subject
  return {
    subject
    threadId   := some parent.threadId
    inReplyTo  := some parent.id
    «to»       := (replyRecipients parent me all).1
    cc         := (replyRecipients parent me all).2
    quotedHtml := "<div>" ++ parent.header ++ "</div><blockquote>" ++ parentHtml parent.body ++ "</blockquote>" }

-- What a draft's arguments make of a new or reply draft.
def fill (a : CreateDraftArgs) (draft : DraftRecord) : Except Failure DraftRecord := do
  let to_ ← addresses a.to
  let cc ← addresses a.cc
  return { draft with
    «to»     := to_.getD draft.to
    cc       := cc.getD draft.cc
    subject  := a.subject.getD draft.subject
    bodyHtml := markdownToHtml a.bodyMarkdown }

end Reply

-- What is drawn and read when a draft is frozen into a message: the tokens of its ids, the time and the attached files.
structure Drawn where
  rfc822Id : String := ""
  token    : String := ""
  now      : Millis := 0
  file     : String → Option String := fun _ => none

-- How a send goes out: as whom, by the outbox or only locally, and how long it is held.
structure Route where
  sender : EmailAddress
  queue  : Bool := true
  hold   : Millis := 0

-- The id of the optimistic copy: of a queued one a placeholder's.
def Route.localId (route : Route) (token : String) : MessageId :=
  if route.queue then LOCAL_PREFIX ++ token else "sent-" ++ token

-- A draft frozen into a message, with its optimistic copy.
structure Frozen where
  draftId   : Rowid
  copy      : IncomingMessage
  op        : OutboxOp
  queue     : Bool
  now       : Millis
  notBefore : Option Millis

section Send

variable [Mime] (db : Db)

def attach (file : String → Option String) (a : DraftAttachment) : Except CoreError OutgoingAttachment :=
  match file a.path with
  | some data => .ok ⟨a.filename, a.mimeType, data⟩
  | none      => .error ⟨.other, "i/o error: " ++ a.filename⟩

-- The message for a draft, the quote merged into the body.
def outgoingMessage (draft : DraftRecord) (sender : EmailAddress) (drawn : Drawn) : Except CoreError OutgoingMessage := do
  let parent := draft.inReplyTo.bind db.mail.message?
  let attachments ← draft.attachments.mapM (attach drawn.file)
  return {
    sender, attachments
    «to»      := draft.to
    cc        := draft.cc
    bcc       := draft.bcc
    subject   := draft.subject
    html      := draft.bodyHtml ++ draft.quotedHtml
    messageId := drawn.rfc822Id
    inReplyTo := parent.bind (·.rfc822MessageId)
    date      := drawn.now }

-- What sending a draft reads, before it writes.
def freeze (draftId : Rowid) (route : Route) (drawn : Drawn) : Except CoreError Frozen :=
  match db.draft? draftId with
  | none       => .error ⟨.notFound, s!"not found: draft {draftId}"⟩
  | some draft =>
    if draft.state = .sending then .error ⟨.invalidInput, "this draft is already being sent"⟩
    else do
      let outgoing ← outgoingMessage db draft route.sender drawn
      let text := htmlToQuotedText outgoing.html
      if Mime.builds outgoing then
        return {
          draftId
          copy := {
            id              := route.localId drawn.token
            threadId        := draft.threadId.getD (LOCAL_PREFIX ++ "thread-" ++ drawn.token)
            rfc822MessageId := some drawn.rfc822Id
            sender          := some route.sender
            «to»            := outgoing.to
            cc              := outgoing.cc
            bcc             := outgoing.bcc
            subject         := outgoing.subject
            internalDate    := drawn.now
            snippet         := .ofList (text.toList.take 120)
            labelIds        := [SystemLabels.SENT]
            body            := some ⟨some text, some (sanitizeHtml outgoing.html)⟩ }
          op        := .send draftId outgoing draft.threadId (route.localId drawn.token)
          queue     := route.queue
          now       := drawn.now
          notBefore := if 0 < route.hold then some (drawn.now + route.hold) else none }
      else throw ⟨.invalidInput, "the message cannot be built"⟩

-- What sending a draft writes, in one transaction.
def push (f : Frozen) : StoreResult Db := do
  let w ← ({ tx := db.mail } : MailWriter).upsertMessage f.copy
  let (mail, _) ← w.finish
  let db := { db with mail }.setDraftState f.draftId .sending none
  if f.queue then return db.enqueueHeld f.op f.now f.notBefore
  else return db.discardDraft f.draftId f.now

end Send

-- A transaction of the app on the store, besides those of a send.
inductive Change
  | save (d : DraftRecord) (now : Millis)
  | discard (id : Rowid) (now : Millis)
  | cancelSend (draftId : Rowid) (now : Millis)
  | enqueue (op : OutboxOp) (now : Millis)
  | claimNext (claimant : String) (now leaseUntil : Millis)
  | recoverInFlight (me : Claimant) (now : Millis)
  | releaseHeldSends (now : Millis)
  | complete (id : Rowid)
  | retryLater (id : Rowid) (nextAttemptAt : Millis) (error : String)
  | fail (id : Rowid) (error : String)
  | takeDirty
  | setGmailDraftId (id : Rowid) (gmailDraftId : Option String)
  -- What sync and the user's actions do to stored mail.
  | mail (stored : Store)

def Change.apply (db : Db) : Change → StoreResult Db
  | save d now              => (db.saveDraft d now).map Prod.fst
  | discard id now          => .ok (db.discardDraft id now)
  | cancelSend draftId now  => (db.cancelSend draftId now).map Prod.fst
  | enqueue op now          => if op.isSend then .error (.invalid "a send is queued by its draft") else .ok (db.enqueue op now)
  | claimNext me now lease  => .ok (db.claimNext me now lease).1
  | recoverInFlight me now  => .ok (db.recoverInFlight me now)
  | releaseHeldSends now    => .ok (db.releaseHeldSends now)
  | complete id             => .ok (db.complete id)
  | retryLater id at_ error => .ok (db.retryLater id at_ error)
  | fail id error           => (db.fail id error).map Prod.fst
  | takeDirty               => .ok db.takeDirty.1
  | setGmailDraftId id g    => db.setGmailDraftId id g
  | mail stored             => .ok { db with mail := stored }

-- The draft that a change saves: a new one takes the next row id.
def Change.saves (db : Db) : Change → Option Rowid
  | save d _ => some (if d.id = 0 then db.drafts.nextRowid else d.id)
  | _        => none

end Kaluta.Outside
