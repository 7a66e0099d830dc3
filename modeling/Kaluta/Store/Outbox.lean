import Mathlib.Data.List.MinMax
import Kaluta.Store.Db

namespace Kaluta

open SystemLabels

-- How long a claim on an in-flight op lasts unless renewed.
def LEASE_MS : Millis := 60000

-- An outbox drainer, which can tell of others that they are gone for certain.
structure Claimant where
  id     : String
  isGone : String → Bool

structure QueuedOp where
  id       : Rowid
  op       : OutboxOp
  attempts : Nat
  deriving DecidableEq, Repr

inductive Claim
  | ready (queued : QueuedOp)
  | idle
  | busy
  deriving DecidableEq, Repr

-- A send never tried and still within its hold.
def OutboxRow.isHeld (row : OutboxRow) (now : Millis) : Bool :=
  row.op.isSend && row.state = .pending && row.attempts = 0 && row.nextAttemptAt.any (now < ·)

def OutboxRow.draftId (row : OutboxRow) : Option Rowid :=
  match row.op with
  | .send draftId ..   => some draftId
  | .syncDraft draftId _ => some draftId
  | _                  => none

namespace Store

def currentLabels (s : Store) (m : MessageId) : List LabelId :=
  match s.message? m with
  | some row => s.messageLabelIds row.id
  | none     => []

def messagesInThread (s : Store) (t : ThreadId) : List MessageId :=
  ((s.messages.rows.filter fun m => s.threadIdOf m.threadId = some t).insertionSort (·.id ≤ ·.id)).map
    (·.gmailId)

-- What a thread-level label change actually touches: the messages of these threads on which it would
-- alter labels, with their current labels.
def affectedMessages (s : Store) (threadIds : List ThreadId) (add remove : List LabelId) :
    List (MessageId × List LabelId) :=
  ((threadIds.flatMap s.messagesInThread).map fun m => (m, s.currentLabels m)).filter
    fun (_, labels) => add.any (· ∉ labels) || remove.any (· ∈ labels)

end Store

namespace MailWriter

-- Applies label changes to messages, one after another.
def modifyEach (w : MailWriter) (diffs : List MessageDiff) : StoreResult MailWriter :=
  diffs.foldlM (fun w d => (w.modifyMessageLabels d.message d.added d.removed).map Prod.fst) w

-- Gives messages back the labels that were recorded for them.
def restoreEach (w : MailWriter) (previous : List (MessageId × List LabelId)) : StoreResult MailWriter :=
  previous.foldlM
    (fun w (m, labels) => (w.modifyMessageLabels m labels (w.tx.currentLabels m)).map Prod.fst) w

-- Undoes the local effect of an op on the mail.
def undoOp (w : MailWriter) : OutboxOp → StoreResult MailWriter
  | .modifyLabels messageIds add remove => w.modifyEach (messageIds.map (⟨·, remove, add⟩))
  | .trash _ previous                   => w.restoreEach previous
  | .untrash messageIds                 => w.modifyEach (messageIds.map (⟨·, [TRASH], []⟩))
  | .send _ _ _ localMessageId          => .ok (w.deleteMessage localMessageId).1
  | .syncDraft ..                       => .ok w
  | .deleteDraft _                      => .ok w

end MailWriter

namespace Db

variable (db : Db)

-- The oldest pending op, strictly in order: if it is waiting on a retry, nothing runs yet. Sends
-- still held are the exception: they step aside until their time.
def nextReady (now : Millis) : Option QueuedOp :=
  match (db.outbox.rows.filter fun row => row.state = .pending && !row.isHeld now).argmin (·.id) with
  | none     => none
  | some row => if row.nextAttemptAt.any (now < ·) then none else some ⟨row.id, row.op, row.attempts⟩

-- Takes the next op for sending, only when no op is in flight.
def claimNext (claimant : String) (now leaseUntil : Millis) : Db × Claim :=
  if db.outbox.rows.any (·.state = .inFlight) then
    (db, .busy)
  else
    match db.nextReady now with
    | none    => (db, .idle)
    | some op =>
      (db.setOp op.id
        ({ · with state := .inFlight, claimedBy := some claimant, leaseUntil := some leaseUntil })
        (fun _ => rfl), .ready op)

-- Whether `claimant` still holds op `id` in flight.
def holds (id : Rowid) (claimant : String) : Bool :=
  match db.outbox.find? id with
  | some row => row.state = .inFlight && row.claimedBy = some claimant
  | none     => false

-- Extends the claimant's claim on an op: `false` if it no longer holds it.
def renew (id : Rowid) (claimant : String) (leaseUntil : Millis) : Db × Bool :=
  if db.holds id claimant then
    (db.setOp id ({ · with leaseUntil := some leaseUntil }) (fun _ => rfl), true)
  else
    (db, false)

-- Whether an op in flight may be taken back from its claimant.
def releases (me : Claimant) (now : Millis) (row : OutboxRow) : Bool :=
  row.state = .inFlight && match row.claimedBy with
  | none    => true
  | some by_ => by_ = me.id || row.leaseUntil.all (· ≤ now) || me.isGone by_

-- Ops left in flight by an interrupted drain are pending again. A send so returned may have reached
-- the provider: its attempt is counted.
def recoverInFlight (me : Claimant) (now : Millis) : Db := { db with
  outbox := db.outbox.update (releases me now)
    (fun row => { row with
      state := .pending, claimedBy := none, leaseUntil := none
      attempts := row.attempts + if row.op.isSend then 1 else 0 })
    (fun _ => rfl)
}

-- Undo Send: takes a held send back before it goes. `none` if it has already started (or finished).
def cancelSend (draftId : Rowid) (now : Millis) : StoreResult (Db × Option ThreadChanges) :=
  match db.outbox.rows.find? fun row => row.isHeld now && row.draftId = some draftId with
  | none     => .ok (db, none)
  | some row =>
    match row.op with
    | .send _ _ _ localMessageId => do
      let (mail, changes) ← ({ tx := db.mail : MailWriter }.deleteMessage localMessageId).1.finish
      let db := { db.deleteOp row.id with mail }
      return (db.setDraftState draftId .editing none, some changes)
    | _ => .ok (db, none)

-- Lets every held send go now.
def releaseHeldSends (now : Millis) : Db := { db with
  outbox := db.outbox.update (·.isHeld now) ({ · with nextAttemptAt := none }) (fun _ => rfl)
}

-- The provider accepted the op. A sent draft is deleted now, along with its server copy.
def complete (id : Rowid) : Db :=
  match db.outbox.find? id with
  | none     => db
  | some row =>
    let db :=
      match row.op with
      | .send draftId .. => db.discardDraft draftId row.createdAt
      | _                => db
    db.deleteOp id

def retryLater (id : Rowid) (nextAttemptAt : Millis) (error : String) : Db :=
  db.setOp id
    (fun row => { row with
      state := .pending, attempts := row.attempts + 1, nextAttemptAt := some nextAttemptAt
      lastError := some error, claimedBy := none, leaseUntil := none })
    (fun _ => rfl)

-- Gives up on an op: undoes its local effect and keeps it as failed.
def fail (id : Rowid) (error : String) : StoreResult (Db × ThreadChanges) :=
  match db.outbox.find? id with
  | none     => .error (.sqlite "Query returned no rows")
  | some row => do
    let w ← { tx := db.mail : MailWriter }.undoOp row.op
    let db :=
      match row.op with
      | .send draftId .. => db.setDraftState draftId .failed (some error)
      | _                => db
    let (mail, changes) ← w.finish
    let db := { db with mail }
    return (db.setOp id
      ({ · with state := .failed, lastError := some error, claimedBy := none, leaseUntil := none })
      (fun _ => rfl), changes)

end Db
end Kaluta
