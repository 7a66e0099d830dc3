import Mathlib.Algebra.Group.Int.Defs
import Kaluta.Lib.Keyset
import Kaluta.Search.Parse

-- The threads of a mailbox, a page at a time.
namespace Kaluta

def FILTER_UNREAD : String := "@unread"
def FILTER_STARRED : String := "@starred"
def FILTER_ATTACHMENTS : String := "@attachments"

def MAX_PAGE_SIZE : Nat := 500

-- At most this many narrowings after the mailbox.
def MAX_NARROWINGS : Nat := 7

def I64_MAX : Int := 2 ^ 63 - 1

structure ThreadSummary where
  id             : ThreadId
  subject        : String
  snippet        : String
  lastMessageAt  : Millis
  messageCount   : Nat
  unreadCount    : Nat
  hasAttachments : Bool
  isStarred      : Bool
  labelIds       : List LabelId
  replied        : Bool
  deriving DecidableEq

structure ThreadPage where
  rows       : List ThreadSummary
  nextCursor : Option String
  deriving DecidableEq

def encodeCursor (date id : Int) : String :=
  s!"{date}:{id}"

def decodeCursor (c : String) : StoreResult (Int × Int) := do
  let bad := StoreError.invalid s!"bad cursor {c.quote}"
  let (a, b) ← (splitOnce ':' c.toList).elim (throw bad) pure
  let parse (s : List Char) : StoreResult Int := (parseI64 s).elim (throw bad) pure
  pure (← parse a, ← parse b)

-- A value that a statement is given.
inductive SqlValue
  | text (s : String)
  | integer (i : Int)
  deriving DecidableEq

-- What narrows a statement: the numbers are those of its parameters, from 1.
inductive Clause
  | unread
  | starred
  | attachments
  | without (param : Nat)
  | withoutAny (params : List Nat)
  | carrying (param : Nat)

def stripPrefix (c : Char) (s : String) : Option String :=
  if s.toList.head? = some c then some (.ofList s.toList.tail) else none

def narrowingClause (label : LabelId) (values : List SqlValue) : Clause × List SqlValue :=
  if label = FILTER_UNREAD then (.unread, values)
  else if label = FILTER_STARRED then (.starred, values)
  else if label = FILTER_ATTACHMENTS then (.attachments, values)
  else
    match stripPrefix '!' label with
    | some excluded =>
      let values := values ++ [.text excluded]
      (.without values.length, values)
    | none =>
      if label = PRIMARY then
        let first := values.length + 1
        (.withoutAny (List.range' first CATEGORIES.length), values ++ CATEGORIES.map .text)
      else
        let values := values ++ [.text label]
        (.carrying values.length, values)

def bound (values : List SqlValue) (param : Nat) : Option SqlValue :=
  values[param - 1]?

namespace Store

-- A thread's entry in a mailbox, with the thread.
abbrev Listed := ThreadLabel × ThreadRow

def position (r : Listed) : Int ×ₗ Int :=
  toLex (r.1.lastMessageAt, (r.1.threadId : Int))

section Select

variable (s : Store)

-- `SELECT id FROM labels WHERE gmail_id = ?`
def labelOf : Option SqlValue → Option Rowid
  | some (.text id) => (s.label? id).map (·.id)
  | _               => none

def holds (values : List SqlValue) (r : Listed) : Clause → Bool
  | .unread            => 0 < r.2.unreadCount
  | .starred           => r.2.isStarred
  | .attachments       => r.2.hasAttachments
  | .without param     =>
    !s.threadLabels.rows.any fun n => n.threadId = r.1.threadId && some n.labelId = s.labelOf (bound values param)
  | .carrying param    =>
    s.threadLabels.rows.any fun n => n.threadId = r.1.threadId && some n.labelId = s.labelOf (bound values param)
  | .withoutAny params =>
    !s.threadLabels.rows.any fun n => n.threadId = r.1.threadId &&
      s.labels.rows.any fun l => l.id = n.labelId && params.any fun param => some (.text l.gmailId) = bound values param

-- Whether `(tl.last_message_at, tl.thread_id)` is below two parameters.
def isBelow (r : Listed) : Option SqlValue → Option SqlValue → Bool
  | some (.integer date), some (.integer id) => position r < toLex (date, id)
  | _, _                                     => false

def joined : List Listed :=
  s.threadLabels.rows.filterMap fun tl => (s.threads.find? tl.threadId).map (tl, ·)

def limited (rows : List Listed) : Option SqlValue → List Listed
  | some (.integer n) => rows.take n.toNat
  | _                 => rows

def select (clauses : List Clause) (values : List SqlValue) : List Listed :=
  let found := s.joined.filter fun r =>
    some r.1.labelId = s.labelOf (bound values 1) && isBelow r (bound values 2) (bound values 3) &&
      clauses.all (s.holds values r)
  limited (Keyset.order position found) (bound values 4)

-- Whether you replied in a thread: a message you sent after its first.
def replied (t : ThreadRow) : Bool :=
  (s.messagesOf t.id).any fun m => m.isSentByMe && (s.messagesOf t.id).any (·.internalDate < m.internalDate)

def threadSummary (t : ThreadRow) : ThreadSummary where
  id             := t.gmailId
  subject        := t.subject
  snippet        := t.snippet
  lastMessageAt  := t.lastMessageAt
  messageCount   := t.messageCount % 2 ^ 32
  unreadCount    := t.unreadCount % 2 ^ 32
  hasAttachments := t.hasAttachments
  isStarred      := t.isStarred
  labelIds       := t.labelIds
  replied        := s.replied t

-- The label of a mailbox, and what it is narrowed to.
def parts (mailbox : String) : LabelId × List String :=
  let parts := (mailbox.toList.splitOn '+').map String.ofList
  (parts.head?.getD "", parts.tail)

def addNarrowing (q : List Clause × List SqlValue) (narrowing : String) : List Clause × List SqlValue :=
  let (clause, values) := narrowingClause narrowing q.2
  (q.1 ++ [clause], values)

def clausesOf (narrowings : List String) (values : List SqlValue) : List Clause × List SqlValue :=
  narrowings.foldl addNarrowing ([], values)

-- Threads in a mailbox, newest first, a page at a time.
def listThreads (mailbox : String) (cursor : Option String) (limit : Nat) : StoreResult ThreadPage := do
  let limit := min (max limit 1) MAX_PAGE_SIZE
  let (date, id) ← cursor.elim (pure (I64_MAX, I64_MAX)) decodeCursor
  let (label, narrowings) := parts mailbox
  if MAX_NARROWINGS < narrowings.length then throw (.invalid s!"mailbox {mailbox.quote} narrows too many times")
  let (clauses, values) := clausesOf narrowings [.text label, .integer date, .integer id, .integer (limit + 1)]
  let rows := s.select clauses values
  let out := rows.take limit
  let last := out.getLast?.map fun r => encodeCursor r.1.lastMessageAt r.1.threadId
  pure { rows := out.map fun r => s.threadSummary r.2, nextCursor := if limit < rows.length then last else none }

end Select

end Store

end Kaluta
