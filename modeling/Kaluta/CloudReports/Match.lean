import Kaluta.Guide.Entry
import Kaluta.Lib.Execution
import Kaluta.Lib.Table
import Kaluta.Search.Checked
import Mathlib.Data.List.MinMax
import Mathlib.Data.List.Sort

-- Reports of what cloud agents sent, and their matching to the sent messages in the mailbox.
namespace Kaluta.CloudReports

open Guide (Unicode toLowercase splitWhitespace trim)

-- By recipient and subject a report matches a message sent this close to when it says it was sent.
def MATCH_WINDOW_MS : Millis := 10 * 60 * 1000

-- Reports are looked for in the mailbox this long.
def MATCH_FOR_MS : Millis := 14 * 24 * 60 * 60 * 1000

-- Of the local copies of sent mail, which are no messages of the mailbox.
def LOCAL_PREFIX : String := "local-"

-- Each time that can be written down as RFC 3339 is closer to the epoch.
def RFC3339_END : Nat := 10 ^ 16

def MAX_LINE : Nat := 998

inductive Method
  | messageId        -- The message has the Message-ID that the report names.
  | recipientSubject
  deriving DecidableEq

structure Report where
  id               : Nat
  receivedAt       : Millis
  messageId        : Option String
  to_              : List String
  subject          : String
  sentAt           : Option Millis
  compositionId    : Option Nat       := none
  matchedMessageId : Option MessageId := none
  matchMethod      : Option Method    := none
  matchedAt        : Option Millis    := none
  deriving DecidableEq

-- A report as it is pulled, with times that can be written down.
structure NewReport where
  receivedAt    : Millis
  messageId     : Option String
  to_           : List String
  subject       : String
  sentAt        : Option Millis
  compositionId : Option Nat := none
  received      : receivedAt.natAbs < RFC3339_END
  sent          : ∀ t ∈ sentAt, t.natAbs < RFC3339_END

inductive Role
  | from
  | to_
  | cc
  | bcc
  | replyTo
  deriving DecidableEq

structure Message where
  gmailId         : MessageId
  rfc822MessageId : Option String
  internalDate    : Millis
  subject         : String
  isSentByMe      : Bool
  isDraft         : Bool
  participants    : List (Role × String)
  deriving DecidableEq

inductive Status
  | waiting
  | decided
  deriving DecidableEq

structure Composition where
  id              : Nat
  status          : Status
  rfc822MessageId : Option String
  updatedAt       : Millis
  deriving DecidableEq

-- A report matched now, to which sent message and how.
structure Matched where
  reportId  : Nat
  messageId : MessageId
  method    : Method
  deriving DecidableEq

def isControl (c : Char) : Bool :=
  c.toNat < 0x20 ∨ (0x7F ≤ c.toNat ∧ c.toNat < 0xA0)

def line (s : String) (max : Nat) : String :=
  trim (.ofList ((s.toList.filter (!isControl ·)).take max))

-- A Message-ID as stored.
def normalizeMessageId (id : String) : String :=
  let inner := ((trim id).toList.dropWhile (· = '<')).reverse.dropWhile (· = '>')
  trim (.ofList inner.reverse)

-- The place of the last of these characters.
def rfind (c : Char) (cs : List Char) : Option Nat :=
  (cs.reverse.findIdx? (· = c)).map (cs.length - 1 - ·)

section Keys

variable [Unicode]

def address (s : String) : String :=
  let s := trim s
  let inner := match rfind '<' s.toList, rfind '>' s.toList with
    | some opened, some closed =>
      if opened < closed then .ofList ((s.toList.take closed).drop (opened + 1)) else s
    | _, _ => s
  toLowercase (trim inner)

def subjectKey (s : String) : String :=
  toLowercase (" ".intercalate (splitWhitespace s))

end Keys

namespace Report

-- When the agent says it sent the message, or when the server heard.
def at' (r : Report) : Millis :=
  r.sentAt.getD r.receivedAt

def named (r : Report) : Option String :=
  r.messageId.filter (· ≠ "")

-- The order in which reports are looked at.
def Le (r r' : Report) : Prop :=
  r.at' < r'.at' ∨ (r.at' = r'.at' ∧ r.id ≤ r'.id)

instance : DecidableRel Le :=
  fun _ _ => inferInstanceAs (Decidable (_ ∨ _))

def linked (r : Report) (m : Message) (method : Method) (now : Millis) : Report :=
  { r with matchedMessageId := some m.gmailId, matchMethod := some method, matchedAt := some now }

end Report

namespace Message

-- Kept as sent mail, and not a local copy of it.
def isSent (m : Message) : Bool :=
  m.isSentByMe && !m.isDraft && !LOCAL_PREFIX.toList.isPrefixOf m.gmailId.toList

variable [Unicode]

def people (m : Message) : List String :=
  (m.participants.filter (·.1 ∈ [Role.to_, .cc, .bcc])).map fun p => toLowercase (trim p.2)

end Message

structure Store where
  reports      : Table Report (·.id)
  messages     : Table Message (·.gmailId)
  compositions : Table Composition (·.id)

-- What the loop over the waiting reports carries.
structure Matching where
  store : Store
  used  : List MessageId
  out   : List Matched := []

namespace Store

-- The sent messages that a query asks for, by date.
def sentRows (s : Store) (asked : Message → Bool) : List Message :=
  (s.messages.rows.filter fun m => m.isSent && asked m).insertionSort (·.internalDate ≤ ·.internalDate)

def waiting (s : Store) (now : Millis) : Option (List Report) := do
  let since ← i64 (now - MATCH_FOR_MS)
  return (s.reports.rows.filter fun r => r.matchedMessageId = none ∧ since ≤ r.receivedAt).insertionSort Report.Le

def matchedIds (s : Store) : List MessageId :=
  s.reports.rows.filterMap (·.matchedMessageId)

def link (s : Store) (report : Report) (sent : Message) (method : Method) (now : Millis) : Store where
  reports      := s.reports.update (·.id = report.id) (·.linked sent method now) fun _ => rfl
  messages     := s.messages
  compositions := match report.compositionId, sent.rfc822MessageId with
    | some composition, some rfc822 =>
      s.compositions.update (fun c => c.id = composition ∧ c.status = .waiting)
        (fun c => { c with rfc822MessageId := some rfc822, updatedAt := now }) fun _ => rfl
    | _, _ => s.compositions

def record (s : Store) (r : NewReport) : Store :=
  let messageId := (r.messageId.map fun m => line (normalizeMessageId m) MAX_LINE).filter fun m =>
    m ≠ "" ∧ !m.toList.any isWhitespace
  { s with
    reports := s.reports.insertRow (fun id =>
      { id, messageId, receivedAt := r.receivedAt, to_ := r.to_, subject := r.subject, sentAt := r.sentAt,
        compositionId := r.compositionId }) fun _ => rfl }

def receive (s : Store) (m : Message) : Store :=
  { s with messages := s.messages.upsert m (fun old => { m with gmailId := old.gmailId }) fun _ => rfl }

def compose (s : Store) (c : Composition) : Store :=
  { s with compositions := s.compositions.upsert c (fun old => { c with id := old.id }) fun _ => rfl }

end Store

namespace Matching

def byId (k : Matching) (report : Report) : Option Message :=
  report.named.bind fun mid =>
    (k.store.sentRows (·.rfc822MessageId = some mid)).find? (·.gmailId ∉ k.used)

variable [Unicode]

def bySubject (k : Matching) (report : Report) : Option (Option Message) := do
  let to_ := report.to_.map address
  let subject := subjectKey report.subject
  let first ← i64 (report.at' - MATCH_WINDOW_MS)
  let last  ← i64 (report.at' + MATCH_WINDOW_MS)
  let rows := k.store.sentRows fun m => first ≤ m.internalDate ∧ m.internalDate ≤ last
  let fitting := rows.filter fun m =>
    m.gmailId ∉ k.used ∧ subjectKey m.subject = subject ∧ m.people.any (· ∈ to_)
  let gaps ← fitting.mapM fun m => do
    let gap ← i64 (m.internalDate - report.at')
    return (m, (← i64 gap.natAbs).toNat)
  return (gaps.argmin (·.2)).map (·.1)

-- Nothing is where a time overflows.
def found (k : Matching) (report : Report) : Option (Option (Message × Method)) :=
  match k.byId report with
  | some m => some (some (m, .messageId))
  | none   => (k.bySubject report).map (·.map (·, .recipientSubject))

def next (now : Millis) (k : Matching) (report : Report) : Option Matching := do
  match ← k.found report with
  | none                => return k
  | some (sent, method) =>
    return {
      store := k.store.link report sent method now
      used  := sent.gmailId :: k.used
      out   := k.out ++ [{ reportId := report.id, messageId := sent.gmailId, method }]
    }

end Matching

def Store.start (s : Store) : Matching :=
  { store := s, used := s.matchedIds }

variable [Unicode]

def matchReports (s : Store) (now : Millis) : Option (Store × List Matched) := do
  let k ← (← s.waiting now).foldlM (Matching.next now) s.start
  return (k.store, k.out)

-- A run at work in its transaction.
structure Run where
  now      : Millis
  waiting  : List Report -- Those not looked at yet.
  matching : Matching

-- A run that is over: the store that it found and the one that it left.
structure Done where
  now    : Millis
  before : Store
  after  : Store
  out    : List Matched

structure State where
  store  : Store
  run    : Option Run := none
  done   : List Done  := []
  panics : Nat        := 0

inductive Action
  | reported (r : NewReport)
  | received (m : Message)
  | composed (c : Composition)
  | start (now : Millis)
  | turn -- The next of the reports of a run.
  | commit

-- No other transaction writes while a run is at work.
def State.step (s : State) : Action → Option State
  | .reported r => if s.run.isNone then some { s with store := s.store.record r } else none
  | .received m => if s.run.isNone then some { s with store := s.store.receive m } else none
  | .composed c => if s.run.isNone then some { s with store := s.store.compose c } else none
  | .start now  =>
    if s.run.isNone ∧ 0 ≤ now ∧ now < 2 ^ 63 then
      match s.store.waiting now with
      | none         => some { s with panics := s.panics + 1 }
      | some waiting => some { s with run := some { now, waiting, matching := s.store.start } }
    else
      none
  | .turn =>
    match s.run with
    | some ⟨now, report :: waiting, matching⟩ =>
      match matching.next now report with
      | none          => some { s with run := none, panics := s.panics + 1 }
      | some matching => some { s with run := some { now, waiting, matching } }
    | _ => none
  | .commit =>
    match s.run with
    | some ⟨now, [], k⟩ =>
      some { s with
        store := k.store
        run   := none
        done  := { now, before := s.store, after := k.store, out := k.out } :: s.done }
    | _ => none

def system : System State Action where
  Start s := s = { store := { reports := ∅, messages := ∅, compositions := ∅ } }
  step    := State.step

end Kaluta.CloudReports
