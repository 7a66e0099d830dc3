import Kaluta.Store.Write

namespace Kaluta

open SystemLabels

structure MailboxChange where
  inserted : List ThreadId := []
  updated  : List ThreadId := []
  removed  : List ThreadId := []
  deriving DecidableEq, Repr

-- Per mailbox (label id, including `@archive`): threads that entered, changed within, or left it.
structure ThreadChanges where
  mailboxes : Table (LabelId × MailboxChange) Prod.fst := ∅

namespace ThreadChanges

def modify (c : ThreadChanges) (mailbox : LabelId) (f : MailboxChange → MailboxChange) :
    ThreadChanges where
  mailboxes := c.mailboxes.upsert (mailbox, f {}) (fun (l, change) => (l, f change)) (fun _ => rfl)

def inserted (c : ThreadChanges) (thread : ThreadId) (mailbox : LabelId) : ThreadChanges :=
  c.modify mailbox fun change => { change with inserted := btreeSet (thread :: change.inserted) }

def updated (c : ThreadChanges) (thread : ThreadId) (mailbox : LabelId) : ThreadChanges :=
  c.modify mailbox fun change => { change with updated := btreeSet (thread :: change.updated) }

def removed (c : ThreadChanges) (thread : ThreadId) (mailbox : LabelId) : ThreadChanges :=
  c.modify mailbox fun change => { change with removed := btreeSet (thread :: change.removed) }

end ThreadChanges

-- The Inbox category tab a thread with these labels counts in, or `none` outside the Inbox.
def inboxCategory (labels : List LabelId) : Option LabelId :=
  if INBOX ∈ labels then some ((CATEGORIES.find? (· ∈ labels)).getD PRIMARY) else none

-- Drafts only count when the thread has nothing else.
def countedMessages (messages : List MessageRow) : List MessageRow :=
  let nonDraft := messages.filter (!·.isDraft)
  if nonDraft.isEmpty then messages else nonDraft

def lastCounted (messages : List MessageRow) (h : messages ≠ []) : MessageRow :=
  (countedMessages messages).getLast?.getD (messages.getLast h)

def ThreadRow.aggregate (row : ThreadRow) (messages : List MessageRow) (h : messages ≠ [])
    (labelIds : List LabelId) : ThreadRow :=
  let counted := countedMessages messages
  let first   := counted.head?.getD (messages.head h)
  let last    := lastCounted messages h
  { row with
    subject        := first.subject
    snippet        := last.snippet
    firstMessageAt := first.internalDate
    lastMessageAt  := last.internalDate
    messageCount   := counted.length
    unreadCount    := messages.countP (!·.isRead)
    hasAttachments := messages.any (·.hasAttachments)
    isStarred      := messages.any (·.isStarred)
    labelIds
  }

@[simp]
theorem ThreadRow.aggregate_id {row : ThreadRow} {h : messages ≠ []} :
    (row.aggregate messages h ids).id = row.id :=
  rfl

@[simp]
theorem ThreadRow.aggregate_gmailId {row : ThreadRow} {h : messages ≠ []} :
    (row.aggregate messages h ids).gmailId = row.gmailId :=
  rfl

def ThreadRow.unread (row : ThreadRow) : Bool :=
  row.unreadCount > 0

namespace Store

variable (s : Store)

-- The mailboxes a thread is in.
def mailboxesOf (thread : Rowid) : List LabelRow :=
  s.labels.rows.filter fun l =>
    s.threadLabels.rows.any fun tl => tl.labelId = l.id && tl.threadId = thread

-- Labels on any message, excluding virtual ones, by their provider id.
def labelsOn (thread : Rowid) : List LabelRow :=
  let carried := s.labels.rows.filter fun l =>
    l.kind ≠ .virtual && (s.messagesOf thread).any fun m => s.carries m.id l.id
  carried.insertionSort (·.gmailId ≤ ·.gmailId)

-- A thread's messages by date.
def threadMessages (thread : Rowid) : List MessageRow :=
  (s.messagesOf thread).insertionSort fun a b =>
    a.internalDate < b.internalDate ∨ (a.internalDate = b.internalDate ∧ a.id ≤ b.id)

def isSpamOrTrash (message : Rowid) : Bool :=
  s.labels.rows.any fun l => s.carries message l.id && (l.gmailId = SPAM || l.gmailId = TRASH)

def whollySpamOrTrash (thread : Rowid) : Bool :=
  (s.messagesOf thread).all fun m => s.isSpamOrTrash m.id

def countInboxCategory (category : LabelId) (threads unread : Int) : Store := { s with
  inboxCategoryStats := s.inboxCategoryStats.upsert
    { category, threadCount := threads, unreadThreadCount := unread }
    (fun stat => { stat with
      threadCount       := stat.threadCount + threads
      unreadThreadCount := stat.unreadThreadCount + unread })
    (fun _ => rfl)
}

def addThreadLabel (label : Rowid) (lastMessageAt : Millis) (thread : Rowid) (unread : Bool) :
    StoreResult Store :=
  if h : ∀ tl ∈ s.threadLabels, tl ≠ ⟨label, lastMessageAt, thread⟩ then
    if (s.labels.find? label).isSome && (s.threads.find? thread).isSome then
      .ok { s with
        threadLabels := s.threadLabels.insert ⟨label, lastMessageAt, thread⟩ h
        labelStats   := s.labelStats.upsert
          { labelId := label, threadCount := 1, unreadThreadCount := unread.toNat }
          (fun stat => { stat with
            threadCount       := stat.threadCount + 1
            unreadThreadCount := stat.unreadThreadCount + unread.toNat })
          (fun _ => rfl)
      }
    else
      .error .foreignKey
  else
    .error (.sqlite "UNIQUE constraint failed: thread_labels")

def removeThreadLabel (label thread : Rowid) (unread : Bool) : Store := { s with
  threadLabels := s.threadLabels.delete fun tl => tl.labelId = label && tl.threadId = thread
  labelStats   := s.labelStats.update (·.labelId = label)
    (fun stat => { stat with
      threadCount       := stat.threadCount - 1
      unreadThreadCount := stat.unreadThreadCount - unread.toNat })
    (fun _ => rfl)
}

def labelIdsOn (thread : Rowid) : List LabelId :=
  (s.labelsOn thread).map (·.gmailId)

def updateThread (thread : Rowid) (messages : List MessageRow) (h : messages ≠ []) : Store := { s with
  threads := s.threads.update (·.id = thread) (·.aggregate messages h (s.labelIdsOn thread))
    (fun _ => ThreadRow.aggregate_id)
}

-- Takes a thread out of the mailboxes and the category it was counted in. The category is that of
-- the labels as last recomputed, not of the thread's mailboxes: a deleted label's rows are already
-- gone from those, but the thread still counts in the category the label gave it.
def uncountThread (thread : Rowid) : Store :=
  let (oldUnread, oldLabelIds) :=
    match s.threads.find? thread with
    | some row => (row.unread, row.labelIds)
    | none     => (false, [])
  let tx := (s.mailboxesOf thread).foldl (·.removeThreadLabel ·.id thread oldUnread) s
  match inboxCategory oldLabelIds with
  | some category => tx.countInboxCategory category (-1) (-oldUnread.toNat)
  | none          => tx

-- The mailboxes a thread belongs in: every label, plus Archive when not in the Inbox and not wholly
-- spam or trash.
def newMailboxes (thread : Rowid) : StoreResult (List LabelRow) :=
  let labels := s.labelsOn thread
  if INBOX ∉ s.labelIdsOn thread && !s.whollySpamOrTrash thread then
    match s.label? ARCHIVE_LABEL with
    | some archive => .ok (s.labels.rows.filter fun l => l ∈ labels || l.id = archive.id)
    | none         => .error (.sqlite "Query returned no rows")
  else
    .ok (s.labels.rows.filter (· ∈ labels))

-- Sets a thread's aggregates and puts it into its mailboxes and its category by its messages.
def countThread (thread : Rowid) (messages : List MessageRow) (h : messages ≠ []) :
    StoreResult (Store × List LabelRow) := do
  let last := lastCounted messages h
  let tx := s.updateThread thread messages h
  let new ← tx.newMailboxes thread
  let newUnread : Bool := messages.countP (!·.isRead) > 0
  let tx ← new.foldlM (·.addThreadLabel ·.id last.internalDate thread newUnread) tx
  match inboxCategory (s.labelIdsOn thread) with
  | some category => return (tx.countInboxCategory category 1 newUnread.toNat, new)
  | none          => return (tx, new)

-- Recomputes one thread's aggregates, mailboxes and counts, and adds its transitions to `changes`.
def recomputeThread (thread : Rowid) (gmailId : ThreadId) (changes : ThreadChanges) :
    StoreResult (Store × ThreadChanges) :=
  let old := s.mailboxesOf thread
  let messages := s.threadMessages thread
  let tx := s.uncountThread thread
  if h : messages = [] then
    .ok (tx.deleteThread thread, old.foldl (·.removed gmailId ·.gmailId) changes)
  else do
    let (tx, new) ← tx.countThread thread messages h
    let changes := old.foldl
      (fun c l => if l ∈ new then c.updated gmailId l.gmailId else c.removed gmailId l.gmailId) changes
    let changes := (new.filter (· ∉ old)).foldl (·.inserted gmailId ·.gmailId) changes
    return (tx, changes)

end Store

-- Recomputes everything for the touched threads and reports the changes.
def MailWriter.finish (w : MailWriter) : StoreResult (Store × ThreadChanges) :=
  w.dirty.foldlM (fun (tx, changes) (thread, gmailId) => tx.recomputeThread thread gmailId changes)
    (w.tx, {})

end Kaluta

namespace Kaluta

open SystemLabels

-- Every way the denormalized data can disagree with the base tables.
inductive Problem
  | emptyThread (thread : ThreadId)
  | unreadCount (thread : ThreadId) (stored actual : Nat)
  | isStarred (thread : ThreadId)
  | threadLabelsMissing (thread : ThreadId) (label : LabelId)
  | threadLabelsExtra (thread : ThreadId) (label : LabelId)
  | threadLabelsSortKey (thread : ThreadId)
  | archiveMembership (thread : ThreadId)
  | labelStats (label : LabelId) (stored actual : Int × Int)
  | inboxCategoryStats (category : LabelId) (stored actual : Nat × Nat)
  | unknownCategory (category : LabelId)
  | messagesFts (indexed messages : Nat)
  deriving DecidableEq, Repr

structure CategoryCount where
  id     : LabelId
  total  : Nat
  unread : Nat
  deriving DecidableEq, Repr

def lookupCategory (rows : List (Option LabelId × Int × Int)) (category : LabelId) : Int × Int :=
  match rows.find? (fun (c, _, _) => c.getD PRIMARY = category) with
  | some (_, t, u) => (t, u)
  | none           => (0, 0)

-- Every tab, Primary first, from `(category, threads, unread)` rows where no category means Primary.
def categoryCounts (rows : List (Option LabelId × Int × Int)) : List CategoryCount :=
  (PRIMARY :: CATEGORIES).map fun id =>
    let (total, unread) := lookupCategory rows id
    { id, total := total.toNat % 2 ^ 32, unread := unread.toNat % 2 ^ 32 }

namespace Store

variable (s : Store)

def labelStat (label : Rowid) : Int × Int :=
  match s.labelStats.find? label with
  | some stat => (stat.threadCount, stat.unreadThreadCount)
  | none      => (0, 0)

def isUnread (thread : Rowid) : Bool :=
  (s.threads.find? thread).any (·.unread)

-- A label's threads and unread threads, counted over the mailboxes themselves.
def countLabel (label : Rowid) : Int × Int :=
  (s.threadLabels.count fun tl => tl.labelId = label && (s.threads.find? tl.threadId).isSome,
    s.threadLabels.count fun tl => tl.labelId = label && s.isUnread tl.threadId)

def inMailbox (thread : Rowid) (id : LabelId) : Bool :=
  s.threadLabels.rows.any fun tl => tl.threadId = thread &&
    s.labels.rows.any fun l => l.id = tl.labelId && l.gmailId = id

def storedInboxCategories : List CategoryCount :=
  categoryCounts <| s.inboxCategoryStats.rows.map fun stat =>
    (some stat.category, stat.threadCount, stat.unreadThreadCount)

-- The rows of the Inbox, and the category its thread's mailboxes put each of them in.
def inboxThreads : List (ThreadLabel × Option LabelId) :=
  match s.label? INBOX with
  | some inbox =>
    (s.threadLabels.rows.filter fun tl =>
      tl.labelId = inbox.id && (s.threads.find? tl.threadId).isSome).map
      fun tl => (tl, CATEGORIES.find? (s.inMailbox tl.threadId))
  | none => []

-- `inbox_categories` counted over the Inbox's threads.
def countInboxCategories : List CategoryCount :=
  let threads := s.inboxThreads
  categoryCounts <| (threads.map Prod.snd).dedup.map fun category =>
    (category, threads.countP (fun (_, c) => c = category),
      threads.countP (fun (tl, c) => c = category && s.isUnread tl.threadId))

-- A thread that is neither in the Inbox nor wholly spam or trash, by its messages.
def belongsInArchive (thread : Rowid) : Bool :=
  let messages := s.messagesOf thread
  !messages.any (fun m => s.labels.rows.any fun l => l.gmailId = INBOX && s.carries m.id l.id) &&
    messages.any fun m => !s.isSpamOrTrash m.id

def checkThread (t : ThreadRow) : List Problem :=
  let messages := s.messagesOf t.id
  let actual   := messages.countP (!·.isRead)
  (if messages.isEmpty then [.emptyThread t.gmailId] else []) ++
  (if !messages.isEmpty && t.unreadCount ≠ actual then
    [.unreadCount t.gmailId t.unreadCount actual] else []) ++
  (if !messages.isEmpty && t.isStarred ≠ messages.any (·.isStarred) then
    [.isStarred t.gmailId] else []) ++
  ((s.labels.rows.filter fun l =>
    messages.any (fun m => s.carries m.id l.id) &&
      !s.threadLabels.rows.any fun tl => tl.threadId = t.id && tl.labelId = l.id).map
    (.threadLabelsMissing t.gmailId ·.gmailId)) ++
  ((s.labels.rows.filter fun l =>
    l.gmailId ≠ ARCHIVE_LABEL &&
      s.threadLabels.rows.any (fun tl => tl.threadId = t.id && tl.labelId = l.id) &&
      !messages.any fun m => s.carries m.id l.id).map
    (.threadLabelsExtra t.gmailId ·.gmailId)) ++
  ((s.threadLabels.rows.filter fun tl =>
    tl.threadId = t.id && tl.lastMessageAt ≠ t.lastMessageAt).map
    fun _ => .threadLabelsSortKey t.gmailId) ++
  (if s.inMailbox t.id ARCHIVE_LABEL ≠ s.belongsInArchive t.id then
    [.archiveMembership t.gmailId] else [])

def checkLabel (l : LabelRow) : List Problem :=
  if s.labelStat l.id ≠ s.countLabel l.id then
    [.labelStats l.gmailId (s.labelStat l.id) (s.countLabel l.id)]
  else
    []

def checkCategories : List Problem :=
  ((s.storedInboxCategories.zip s.countInboxCategories).filter fun (stored, counted) =>
    (stored.total, stored.unread) ≠ (counted.total, counted.unread)).map fun (stored, counted) =>
      .inboxCategoryStats stored.id (stored.total, stored.unread) (counted.total, counted.unread)

def checkStrayCategories : List Problem :=
  (s.inboxCategoryStats.rows.filter fun stat =>
    (stat.threadCount ≠ 0 || stat.unreadThreadCount ≠ 0) &&
      stat.category ∉ PRIMARY :: CATEGORIES).map (.unknownCategory ·.category)

-- Empty means consistent.
def check : List Problem :=
  s.threads.rows.flatMap s.checkThread ++
  s.labels.rows.flatMap s.checkLabel ++
  s.checkCategories ++
  s.checkStrayCategories ++
  if s.messagesFts.rows.length ≠ s.messages.rows.length then
    [.messagesFts s.messagesFts.rows.length s.messages.rows.length] else []

end Store
end Kaluta
