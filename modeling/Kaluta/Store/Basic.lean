import Mathlib.Data.List.Sort
import Mathlib.Data.List.Dedup
import Mathlib.Order.Basic
import Mathlib.Data.String.Basic
import Kaluta.Lib.Table

namespace Kaluta

abbrev Rowid     := Nat
abbrev LabelId   := String
abbrev MessageId := String
abbrev ThreadId  := String
abbrev Millis    := Int

namespace SystemLabels

def INBOX : LabelId := "INBOX"
def SENT : LabelId := "SENT"
def DRAFT : LabelId := "DRAFT"
def SPAM : LabelId := "SPAM"
def TRASH : LabelId := "TRASH"
def STARRED : LabelId := "STARRED"
def UNREAD : LabelId := "UNREAD"

end SystemLabels

-- Local id of the virtual Archive label.
def ARCHIVE_LABEL : LabelId := "@archive"

-- The category tabs of the Inbox in order, besides Primary.
def CATEGORIES : List LabelId :=
  ["CATEGORY_PROMOTIONS", "CATEGORY_SOCIAL", "CATEGORY_UPDATES", "CATEGORY_FORUMS"]

def PRIMARY : LabelId := "CATEGORY_PERSONAL"

inductive StoreError
  | sqlite (message : String)
  | notFound (what : String)
  | invalid (what : String)
  deriving DecidableEq, Repr

abbrev StoreResult := Except StoreError

-- The error of every statement that would leave a row whose parent is missing.
def StoreError.foreignKey : StoreError :=
  .sqlite "FOREIGN KEY constraint failed"

-- 'virtual' labels are local (as `@archive`) and never sent to the provider.
inductive LabelRowKind
  | system
  | user
  | virtual
  deriving DecidableEq, Repr

inductive BodyState
  | metadata
  | full
  deriving DecidableEq, Repr

structure LabelRow where
  id      : Rowid
  gmailId : LabelId
  kind    : LabelRowKind
  deriving DecidableEq, Repr

structure ThreadRow where
  id             : Rowid
  gmailId        : ThreadId
  subject        : String := ""
  snippet        : String := ""
  firstMessageAt : Millis := 0
  lastMessageAt  : Millis := 0
  messageCount   : Nat := 0
  unreadCount    : Nat := 0
  hasAttachments : Bool := false
  isStarred      : Bool := false
  labelIds       : List LabelId := []
  deriving DecidableEq, Repr

structure MessageRow where
  id              : Rowid
  threadId        : Rowid
  gmailId         : MessageId
  rfc822MessageId : Option String
  subject         : String
  snippet         : String
  internalDate    : Millis
  bodyState       : BodyState
  isRead          : Bool
  isStarred       : Bool
  isDraft         : Bool
  isSentByMe      : Bool
  hasAttachments  : Bool
  deriving DecidableEq, Repr

structure MessageLabel where
  messageId : Rowid
  labelId   : Rowid
  deriving DecidableEq, Repr

structure ThreadLabel where
  labelId       : Rowid
  lastMessageAt : Millis
  threadId      : Rowid
  deriving DecidableEq, Repr

structure LabelStat where
  labelId           : Rowid
  threadCount       : Int
  unreadThreadCount : Int
  deriving DecidableEq, Repr

structure CategoryStat where
  category          : LabelId
  threadCount       : Int
  unreadThreadCount : Int
  deriving DecidableEq, Repr

-- The mail tables of an account's database. The tables that only hang off a message (participants,
-- bodies, attachments) are not kept: of them only the foreign key to the message matters here.
structure Store where
  labels             : Table LabelRow LabelRow.id
  threads            : Table ThreadRow ThreadRow.id
  messages           : Table MessageRow MessageRow.id
  messageLabels      : Table MessageLabel id
  threadLabels       : Table ThreadLabel id
  labelStats         : Table LabelStat LabelStat.labelId
  inboxCategoryStats : Table CategoryStat CategoryStat.category
  messagesFts        : Table Rowid id

-- What a `BTreeSet` of these strings iterates over.
def btreeSet (l : List String) : List String :=
  l.dedup.insertionSort (· ≤ ·)

@[simp]
theorem mem_btreeSet : a ∈ btreeSet l ↔ a ∈ l := by
  simp [btreeSet]

namespace Store

-- A new account's store, after the migrations.
def init : Store where
  labels             := (∅ : Table LabelRow LabelRow.id).insertRow
                          (fun id => { id, gmailId := ARCHIVE_LABEL, kind := .virtual })
                          (fun _ => rfl)
  threads            := ∅
  messages           := ∅
  messageLabels      := ∅
  threadLabels       := ∅
  labelStats         := ∅
  inboxCategoryStats := ∅
  messagesFts        := ∅

variable (s : Store)

def label? (id : LabelId) : Option LabelRow :=
  s.labels.rows.find? (·.gmailId = id)

def thread? (id : ThreadId) : Option ThreadRow :=
  s.threads.rows.find? (·.gmailId = id)

def message? (id : MessageId) : Option MessageRow :=
  s.messages.rows.find? (·.gmailId = id)

def carries (message label : Rowid) : Bool :=
  ⟨message, label⟩ ∈ s.messageLabels.rows

def messageLabelIds (message : Rowid) : List LabelId :=
  (s.labels.rows.filter fun l => s.carries message l.id).map (·.gmailId)

-- The provider's id of a thread.
def threadIdOf (thread : Rowid) : Option ThreadId :=
  (s.threads.find? thread).map (·.gmailId)

def messagesOf (thread : Rowid) : List MessageRow :=
  s.messages.rows.filter (·.threadId = thread)

-- `DELETE FROM labels`, with what the foreign keys cascade to.
def deleteLabel (label : Rowid) : Store := { s with
  labels        := s.labels.delete (·.id = label)
  messageLabels := s.messageLabels.delete (·.labelId = label)
  threadLabels  := s.threadLabels.delete (·.labelId = label)
  labelStats    := s.labelStats.delete (·.labelId = label)
}

-- `DELETE FROM messages`, with what the foreign keys cascade to. The search index has none.
def deleteMessage (message : Rowid) : Store := { s with
  messages      := s.messages.delete (·.id = message)
  messageLabels := s.messageLabels.delete (·.messageId = message)
}

-- `DELETE FROM threads`, with what the foreign keys cascade to.
def deleteThread (thread : Rowid) : Store := { s with
  threads       := s.threads.delete (·.id = thread)
  messages      := s.messages.delete (·.threadId = thread)
  messageLabels := s.messageLabels.delete fun ml =>
    s.messages.rows.any fun m => m.threadId = thread && m.id = ml.messageId
  threadLabels  := s.threadLabels.delete (·.threadId = thread)
}

end Store
end Kaluta
