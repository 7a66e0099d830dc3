import Kaluta.Store.Recompute

namespace Kaluta

open SystemLabels

inductive DraftState
  | editing
  | sending
  | failed
  deriving DecidableEq, Repr

structure DraftAttachment where
  path     : String
  filename : String
  mimeType : String
  size     : Nat
  deriving DecidableEq, Repr

structure DraftRecord where
  id           : Rowid := 0 -- 0 for a draft not saved yet.
  gmailDraftId : Option String := none
  threadId     : Option String := none
  inReplyTo    : Option String := none
  «to»         : List EmailAddress := []
  cc           : List EmailAddress := []
  bcc          : List EmailAddress := []
  subject      : String := ""
  bodyHtml     : String := ""
  quotedHtml   : String := "" -- Not persisted: saved drafts carry it inside `bodyHtml`.
  attachments  : List DraftAttachment := []
  updatedAt    : Millis := 0
  state        : DraftState := .editing
  lastError    : Option String := none
  deriving DecidableEq, Repr

structure DraftRow where
  record : DraftRecord
  dirty  : Bool := true
  deriving DecidableEq, Repr

abbrev DraftRow.id (row : DraftRow) : Rowid :=
  row.record.id

structure OutgoingAttachment where
  filename : String
  mimeType : String
  data     : String
  deriving DecidableEq, Repr

-- What the RFC 5322 bytes of a message are built from.
structure OutgoingMessage where
  sender      : EmailAddress
  «to»        : List EmailAddress
  cc          : List EmailAddress
  bcc         : List EmailAddress
  subject     : String
  html        : String
  messageId   : String
  inReplyTo   : Option String
  attachments : List OutgoingAttachment
  date        : Millis
  deriving DecidableEq, Repr

inductive OutboxOp
  | modifyLabels (messageIds : List MessageId) (add remove : List LabelId)
  | trash (messageIds : List MessageId) (previous : List (MessageId × List LabelId))
  | untrash (messageIds : List MessageId)
  | send (draftId : Rowid) (raw : OutgoingMessage) (threadId : Option ThreadId)
    (localMessageId : MessageId)
  | syncDraft (draftId : Rowid) (sender : EmailAddress)
  | deleteDraft (gmailDraftId : String)
  deriving DecidableEq, Repr

def OutboxOp.isSend : OutboxOp → Bool
  | send .. => true
  | _       => false

inductive OpState
  | pending
  | inFlight
  | failed
  deriving DecidableEq, Repr

structure OutboxRow where
  id            : Rowid
  op            : OutboxOp
  createdAt     : Millis
  attempts      : Nat := 0
  nextAttemptAt : Option Millis := none
  state         : OpState := .pending
  lastError     : Option String := none
  claimedBy     : Option String := none
  leaseUntil    : Option Millis := none
  deriving DecidableEq, Repr

-- What one action changed on one message.
structure MessageDiff where
  message : MessageId
  added   : List LabelId
  removed : List LabelId
  deriving DecidableEq, Repr

structure UndoAction where
  id    : Rowid
  kind  : String
  diffs : List MessageDiff
  deriving DecidableEq, Repr

-- An account's database. Every function on it below is one write transaction, or part of one: a
-- transaction that fails is rolled back.
structure Db where
  mail        : Store := .init
  drafts      : Table DraftRow DraftRow.id := ∅
  outbox      : Table OutboxRow OutboxRow.id := ∅
  undoActions : Table UndoAction UndoAction.id := ∅

namespace Db

def setDraft (db : Db) (id : Rowid) (f : DraftRow → DraftRow) (hf : ∀ row, (f row).id = row.id) : Db := { db with
  drafts := db.drafts.update (·.id = id) f hf
}

def setOp (db : Db) (id : Rowid) (f : OutboxRow → OutboxRow) (hf : ∀ row, (f row).id = row.id) : Db := { db with
  outbox := db.outbox.update (·.id = id) f hf
}

def deleteOp (db : Db) (id : Rowid) : Db := { db with
  outbox := db.outbox.delete (·.id = id)
}

-- Queues an op that must not run before `notBefore`.
def enqueueHeld (db : Db) (op : OutboxOp) (now : Millis) (notBefore : Option Millis) : Db := { db with
  outbox := db.outbox.insertRow ({ id := ·, op, createdAt := now, nextAttemptAt := notBefore })
    (fun _ => rfl)
}

def enqueue (db : Db) (op : OutboxOp) (now : Millis) : Db :=
  db.enqueueHeld op now none

end Db
end Kaluta

namespace Kaluta
namespace Db

variable (db : Db)

def draft? (id : Rowid) : Option DraftRecord :=
  (db.drafts.find? id).map (·.record)

-- Inserts (id 0) or updates a draft that is still being edited, and returns its id.
def saveDraft (d : DraftRecord) (now : Millis) : StoreResult (Db × Rowid) :=
  if d.id = 0 then
    let record := fun id => { d with
      id, gmailDraftId := none, bodyHtml := d.bodyHtml ++ d.quotedHtml, quotedHtml := ""
      updatedAt := now, state := .editing, lastError := none : DraftRecord }
    .ok ({ db with drafts := db.drafts.insertRow ({ record := record · }) (fun _ => rfl) },
      db.drafts.nextRowid)
  else
    match db.drafts.find? d.id with
    | none     => .error (.notFound s!"draft {d.id}")
    | some row =>
      if row.record.state = .sending then
        .error (.invalid "this draft is being sent")
      else
        .ok (db.setDraft d.id
          (fun row => {
            record := { row.record with
              «to» := d.to, cc := d.cc, bcc := d.bcc, subject := d.subject
              bodyHtml := d.bodyHtml ++ d.quotedHtml, attachments := d.attachments
              updatedAt := now, state := .editing, lastError := none }
            dirty := true })
          (fun _ => rfl), d.id)

def deleteDraft (id : Rowid) : Db := { db with
  drafts := db.drafts.delete (·.id = id)
}

-- Deletes a draft, queueing deletion of its server copy if it has one.
def discardDraft (id : Rowid) (now : Millis) : Db :=
  match db.drafts.find? id with
  | none     => db
  | some row =>
    let db := db.deleteDraft id
    match row.record.gmailDraftId with
    | some gmailDraftId => db.enqueue (.deleteDraft gmailDraftId) now
    | none              => db

-- Drafts edited since they were last mirrored, marked clean. Drafts being sent are left alone: the
-- send replaces the server copy.
def takeDirty : Db × List Rowid :=
  let takes := fun row : DraftRow => row.dirty && row.record.state ≠ .sending
  ({ db with drafts := db.drafts.update takes ({ · with dirty := false }) (fun _ => rfl) },
    ((db.drafts.rows.filter takes).map (·.id)).insertionSort (· ≤ ·))

-- A server draft's id is a `UNIQUE` column.
def setGmailDraftId (id : Rowid) (gmailDraftId : Option String) : StoreResult Db :=
  if db.drafts.rows.any fun row => row.id ≠ id && gmailDraftId.isSome &&
      row.record.gmailDraftId = gmailDraftId && (db.drafts.find? id).isSome then
    .error (.sqlite "UNIQUE constraint failed: drafts.gmail_draft_id")
  else
    .ok (db.setDraft id
      (fun row => { row with record := { row.record with gmailDraftId } }) (fun _ => rfl))

def setDraftState (id : Rowid) (state : DraftState) (error : Option String) : Db :=
  db.setDraft id
    (fun row => { row with record := { row.record with state, lastError := error } }) (fun _ => rfl)

end Db
end Kaluta
