import Kaluta.Store.Basic

namespace Kaluta

open SystemLabels

-- Id prefix of optimistic copies of sent mail.
def LOCAL_PREFIX : String := "local-"

inductive LabelKind
  | system
  | user
  deriving DecidableEq, Repr

def LabelKind.row : LabelKind → LabelRowKind
  | system => .system
  | user   => .user

structure Label where
  id   : LabelId
  kind : LabelKind
  deriving DecidableEq, Repr

structure EmailAddress where
  name  : Option String
  email : String
  deriving DecidableEq, Repr

structure Body where
  textPlain     : Option String
  htmlSanitized : Option String
  deriving DecidableEq, Repr

structure IncomingAttachment where
  filename : String
  isInline : Bool
  deriving DecidableEq, Repr

-- A message as a provider delivers it.
structure IncomingMessage where
  id              : MessageId
  threadId        : ThreadId
  rfc822MessageId : Option String := none
  sender          : Option EmailAddress := none
  «to»            : List EmailAddress := []
  cc              : List EmailAddress := []
  bcc             : List EmailAddress := []
  replyTo         : List EmailAddress := []
  subject         : String := ""
  internalDate    : Millis := 0
  snippet         : String := ""
  labelIds        : List LabelId := []
  body            : Option Body := none
  attachments     : List IncomingAttachment := []
  deriving DecidableEq, Repr

def IncomingMessage.participants (m : IncomingMessage) : List EmailAddress :=
  m.sender.toList ++ m.«to» ++ m.cc ++ m.bcc ++ m.replyTo

-- What a stored message's labels become when it is upserted again.
inductive StoredLabels
  | replace
  | keep
  | merge (merge : List LabelId → List LabelId → List LabelId)

-- The SQL pattern `'local-%'`: unlike `starts_with`, `LIKE` ignores the case of ASCII letters.
def likeLocal (id : MessageId) : Bool :=
  LOCAL_PREFIX.toList.isPrefixOf (id.toList.map Char.toLower)

def isLocal (id : MessageId) : Bool :=
  LOCAL_PREFIX.toList.isPrefixOf id.toList

-- The flags a message's labels set.
def MessageRow.withFlags (row : MessageRow) (labels : List LabelId) : MessageRow := { row with
  isRead     := UNREAD ∉ labels
  isStarred  := STARRED ∈ labels
  isDraft    := DRAFT ∈ labels
  isSentByMe := SENT ∈ labels
}

@[simp]
theorem MessageRow.withFlags_id {row : MessageRow} : (row.withFlags labels).id = row.id :=
  rfl

@[simp]
theorem MessageRow.withFlags_threadId {row : MessageRow} :
    (row.withFlags labels).threadId = row.threadId :=
  rfl

@[simp]
theorem MessageRow.withFlags_gmailId {row : MessageRow} :
    (row.withFlags labels).gmailId = row.gmailId :=
  rfl

namespace Store

def insertLabel (s : Store) (id : LabelId) (kind : LabelKind) : Store := { s with
  labels := s.labels.insertRow ({ id := ·, gmailId := id, kind := kind.row }) (fun _ => rfl)
}

-- Label row for a provider id, with a placeholder for a label not listed yet.
def labelRowid (s : Store) (id : LabelId) : Store × Rowid :=
  match s.label? id with
  | some row => (s, row.id)
  | none =>
    let kind := if id.toList.all (fun c => c.isUpper || c = '_') then .system else .user
    (s.insertLabel id kind, s.labels.nextRowid)

-- `INSERT OR IGNORE INTO message_labels`, which a missing message fails.
def insertMessageLabel (s : Store) (message label : Rowid) : StoreResult Store :=
  if (s.messages.find? message).isSome then
    .ok { s with messageLabels := s.messageLabels.insertOrIgnore ⟨message, label⟩ }
  else
    .error .foreignKey

def applyLabel (s : Store) (message : Rowid) (l : LabelId) : StoreResult Store :=
  if l = ARCHIVE_LABEL then
    .error (.invalid "@archive is virtual and cannot be applied")
  else
    let (s, label) := s.labelRowid l
    s.insertMessageLabel message label

def clearMessageLabels (s : Store) (message : Rowid) : Store := { s with
  messageLabels := s.messageLabels.delete (·.messageId = message)
}

def replaceMessageLabels (s : Store) (message : Rowid) (labels : List LabelId) :
    StoreResult Store :=
  labels.foldlM (·.applyLabel message) (s.clearMessageLabels message)

-- Rows of a table that hangs off a message: all that is kept of them is that their parent is there.
def insertChildren (s : Store) (message : Rowid) (rows : List α) : StoreResult Store :=
  if rows.isEmpty || (s.messages.find? message).isSome then .ok s else .error .foreignKey

def replaceParticipants (s : Store) (message : Rowid) (m : IncomingMessage) : StoreResult Store :=
  s.insertChildren message m.participants

def replaceAttachments (s : Store) (message : Rowid) (attachments : List IncomingAttachment) :
    StoreResult Store :=
  s.insertChildren message attachments

def replaceBody (s : Store) (message : Rowid) (m : IncomingMessage) : StoreResult Store :=
  match m.body with
  | none      => .ok s
  | some body => do
    let s ← s.insertChildren message [body]
    s.replaceAttachments message m.attachments

def unindexMessage (s : Store) (message : Rowid) : Store := { s with
  messagesFts := s.messagesFts.delete (· = message)
}

-- (Re)indexes a message in `messages_fts` from the current rows.
def indexMessage (s : Store) (message : Rowid) : Store :=
  let s := s.unindexMessage message
  if (s.messages.find? message).isSome then
    { s with messagesFts := s.messagesFts.insertOrIgnore message }
  else
    s

def insertMessage (s : Store) (thread : Rowid) (m : IncomingMessage) (labels : List LabelId) :
    Store := { s with
  messages := s.messages.insertRow
    (fun id => MessageRow.withFlags {
      id, threadId := thread, gmailId := m.id, rfc822MessageId := m.rfc822MessageId
      subject := m.subject, snippet := m.snippet, internalDate := m.internalDate
      bodyState := if m.body.isSome then .full else .metadata
      isRead := true, isStarred := false, isDraft := false, isSentByMe := false
      hasAttachments := m.attachments.any (!·.isInline)
    } labels)
    (fun _ => MessageRow.withFlags_id)
}

def updateMessage (s : Store) (message thread : Rowid) (m : IncomingMessage)
    (labels : List LabelId) : Store := { s with
  messages := s.messages.update (·.id = message)
    (fun row => MessageRow.withFlags { row with
      threadId := thread, rfc822MessageId := m.rfc822MessageId, subject := m.subject
      snippet := if m.body.isSome || m.snippet ≠ "" then m.snippet else row.snippet
      internalDate := m.internalDate
      bodyState := if m.body.isSome then .full else row.bodyState
      hasAttachments := if m.body.isSome then m.attachments.any (!·.isInline) else row.hasAttachments
    } labels)
    (fun _ => MessageRow.withFlags_id)
}

def setFlags (s : Store) (message : Rowid) (labels : List LabelId) : Store := { s with
  messages := s.messages.update (·.id = message) (·.withFlags labels) (fun _ => MessageRow.withFlags_id)
}

def renameMessage (s : Store) (localId sent : MessageId) : Store := { s with
  messages := s.messages.update (·.gmailId = localId) ({ · with gmailId := sent }) (fun _ => rfl)
}

def insertThread (s : Store) (id : ThreadId) : Store := { s with
  threads := s.threads.insertRow ({ id := ·, gmailId := id }) (fun _ => rfl)
}

def retypeLabel (s : Store) (label : Rowid) (kind : LabelKind) : Store := { s with
  labels := s.labels.update (·.id = label) ({ · with kind := kind.row }) (fun _ => rfl)
}

def upsertLabel (s : Store) (l : Label) : Store :=
  match s.label? l.id with
  | none     => s.insertLabel l.id l.kind
  | some row => s.retypeLabel row.id l.kind

end Store

-- A write transaction's mail writes: the store as it is inside the transaction, and the threads
-- touched so far (rowid and provider id, in rowid order).
structure MailWriter where
  tx           : Store
  dirty        : List (Rowid × ThreadId) := []
  storedLabels : StoredLabels := .replace

namespace MailWriter

variable (w : MailWriter)

def insertDirty (thread : Rowid) (gmailId : ThreadId) : MailWriter := { w with
  dirty := (w.dirty.filter (·.1 ≠ thread)).orderedInsert (·.1 ≤ ·.1) (thread, gmailId)
}

def markThreadRowid (thread : Rowid) : MailWriter :=
  if w.dirty.any (·.1 = thread) then
    w
  else
    match w.tx.threads.find? thread with
    | some row => w.insertDirty thread row.gmailId
    | none     => w

def markThreadsWithLabel (label : Rowid) : MailWriter :=
  ((w.tx.threadLabels.rows.filter (·.labelId = label)).map (·.threadId)).foldl
    (·.markThreadRowid ·) w

-- Deletes a message; its thread is recomputed or, if now empty, removed.
def deleteMessage (id : MessageId) : MailWriter × Bool :=
  match w.tx.message? id with
  | none     => (w, false)
  | some row =>
    let tx := (w.tx.unindexMessage row.id).deleteMessage row.id
    (markThreadRowid { w with tx } row.threadId, true)

def ensureThread (id : ThreadId) : MailWriter × Rowid :=
  match w.tx.thread? id with
  | some row => (w, row.id)
  | none     => ({ w with tx := w.tx.insertThread id }, w.tx.threads.nextRowid)

-- A sent message arriving from the provider replaces the optimistic local copy made when it was
-- sent (same Message-ID).
def replaceLocalCopies (m : IncomingMessage) : MailWriter :=
  match m.rfc822MessageId with
  | none     => w
  | some rfc =>
    if isLocal m.id then
      w
    else
      let stale := w.tx.messages.rows.filter fun row =>
        row.rfc822MessageId = some rfc && likeLocal row.gmailId
      (stale.map (·.gmailId)).foldl (fun w id => (w.deleteMessage id).1) w

def incomingLabels (m : IncomingMessage) : List LabelId :=
  match w.tx.message? m.id, w.storedLabels with
  | some row, .keep        => w.tx.messageLabelIds row.id
  | some row, .merge merge => merge (w.tx.messageLabelIds row.id) m.labelIds
  | _, _                   => m.labelIds

-- Writes the message's own row, and returns its rowid.
def storeMessage (thread : Rowid) (m : IncomingMessage) (labels : List LabelId) :
    MailWriter × Rowid :=
  match w.tx.message? m.id with
  | some old =>
    let w := if old.threadId = thread then w else w.markThreadRowid old.threadId
    ({ w with tx := w.tx.updateMessage old.id thread m labels }, old.id)
  | none =>
    let message := w.tx.messages.nextRowid
    (replaceLocalCopies { w with tx := w.tx.insertMessage thread m labels } m, message)

-- Inserts or replaces a message and everything hanging off it.
def upsertMessage (m : IncomingMessage) : StoreResult MailWriter := do
  let (w, thread) := w.ensureThread m.threadId
  let labels := w.incomingLabels m
  let (w, message) := w.storeMessage thread m labels
  let tx ← w.tx.replaceParticipants message m
  let tx ← tx.replaceMessageLabels message labels
  let tx ← tx.replaceBody message m
  return insertDirty { w with tx := tx.indexMessage message } thread m.threadId

-- Applies label additions and removals to a message. Unknown messages are ignored and reported as
-- `false`.
def modifyMessageLabels (id : MessageId) (add remove : List LabelId) :
    StoreResult (MailWriter × Bool) :=
  match w.tx.message? id with
  | none     => .ok (w, false)
  | some row => do
    let kept   := (w.tx.messageLabelIds row.id).filter (· ∉ remove)
    let labels := btreeSet (kept ++ add)
    let tx ← w.tx.replaceMessageLabels row.id labels
    return (markThreadRowid { w with tx := tx.setFlags row.id labels } row.threadId, true)

-- The optimistic copy of a sent message takes the id the provider gave it, or goes if that message
-- is already here.
def adoptLocalCopy (localId sent : MessageId) : MailWriter :=
  if (w.tx.message? sent).isSome then
    (w.deleteMessage localId).1
  else
    match w.tx.message? localId with
    | none     => w
    | some row => markThreadRowid { w with tx := w.tx.renameMessage localId sent } row.threadId

-- Inserts or updates labels by provider id. Does not delete missing ones.
def upsertLabels (labels : List Label) : MailWriter := { w with
  tx := labels.foldl Store.upsertLabel w.tx
}

-- Deletes provider labels not in `keep`. Threads that carried them are recomputed.
def retainLabels (keep : List LabelId) : MailWriter :=
  let existing := w.tx.labels.rows.filter (·.kind ≠ .virtual)
  (existing.filter (·.gmailId ∉ keep)).foldl
    (fun w l =>
      let w := w.markThreadsWithLabel l.id
      { w with tx := w.tx.deleteLabel l.id })
    w

end MailWriter
end Kaluta
