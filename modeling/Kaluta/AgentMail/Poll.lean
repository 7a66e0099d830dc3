import Mathlib.Data.Finset.Lattice.Fold
import Mathlib.Data.List.Dedup
import Mathlib.Data.Int.ConditionallyCompleteOrder
import Mathlib.Order.ConditionallyCompleteLattice.Basic
import Kaluta.Guide.Entry
import Kaluta.AgentMail.Found
import Kaluta.Lib.Execution

-- AgentMail's string labels, and the store's Gmail-shaped ones.
namespace Kaluta.AgentMail

open Guide (trim)

abbrev LabelId := String

def INBOX   : LabelId := "INBOX"
def UNREAD  : LabelId := "UNREAD"
def SENT    : LabelId := "SENT"
def SPAM    : LabelId := "SPAM"
def TRASH   : LabelId := "TRASH"
def STARRED : LabelId := "STARRED"

-- The label the app puts on mail archived in it.
def ARCHIVED : String := "archived"

-- AgentMail's own labels, and the ones this mapping uses: never user labels.
def RESERVED : List String :=
  ["received", "sent", "read", "unread", "trash", "spam", "blocked", "unauthenticated", "draft", "drafts", "opened",
   "delivered", "bounced", "complained", "rejected", "scheduled", "inbox", "starred", ARCHIVED]

-- What a label is compared as.
def word (label : String) : String :=
  asciiLower (trim label)

def isReserved (label : String) : Bool :=
  word label ∈ RESERVED

-- A store label that is Gmail's or the store's own, not a user label.
def isSystemId (id : LabelId) : Bool :=
  id ≠ "" ∧ id.toList.all fun c => c.isUpper || c = '_'

def has (labels : List String) (l : String) : Bool :=
  labels.any (word · = l)

-- The store's labels for a message carrying AgentMail's.
def toLocal (labels : List String) : Finset LabelId :=
  (if has labels "unread" then {UNREAD} else ∅) ∪
  (if has labels "sent" then {SENT}
   else if ¬has labels ARCHIVED ∧ ¬has labels "spam" ∧ ¬has labels "trash" then {INBOX} else ∅) ∪
  (if has labels "spam" then {SPAM} else ∅) ∪
  (if has labels "trash" then {TRASH} else ∅) ∪
  (if has labels "starred" then {STARRED} else ∅) ∪
  ((labels.map trim).filter fun l => l ≠ "" ∧ ¬isReserved l).toFinset

-- Whether a label takes mail out of the Inbox.
def leavesTheInbox (label : String) : Bool :=
  word label = "spam" ∨ word label = "trash"

-- What one label event means for the store: labels added and labels removed.
def eventChange (label : String) (added : Bool) : Option (Finset LabelId × Finset LabelId) :=
  let change (id : LabelId) (inverted : Bool) : Finset LabelId × Finset LabelId :=
    if added != inverted then ({id}, ∅) else (∅, {id})
  if word label = "unread" then some (change UNREAD false)
  else if word label = ARCHIVED then some (change INBOX true)
  else if word label = "starred" then some (change STARRED false)
  else if word label = "spam" ∨ word label = "trash" then
    let id := if word label = "spam" then SPAM else TRASH
    some (if added then ({id}, {INBOX}) else (∅, {id}))
  else if trim label = "" ∨ isReserved label then none
  else some (change (trim label) false)

-- An event as a poll applies it; out of Spam or Trash, the message is read again: `now` are its labels at AgentMail.
def applyEvent (label : String) (added : Bool) (now : List String) (local_ : Finset LabelId) : Finset LabelId :=
  match eventChange label added with
  | none              => local_
  | some (plus, minus) =>
    let changed := (local_ ∪ plus) \ minus
    if added = false ∧ leavesTheInbox label ∧ INBOX ∈ toLocal now then changed ∪ {INBOX} else changed

-- What having an id in the app is at AgentMail: labels put on, and labels taken off.
def onOff (localOnly : Bool) (id : LabelId) : List String × List String :=
  if id = INBOX then if localOnly then ([], []) else ([], [ARCHIVED])
  else if id = UNREAD then (["unread"], ["read"])
  else if id = STARRED then (["starred"], [])
  else if isSystemId id ∨ isReserved id then ([], [])
  else ([id], [])

-- The AgentMail labels to add and to remove for a change made in the app.
-- Mail that goes to Trash or Spam leaves the Inbox here only.
def toServer (add remove : List LabelId) : List String × List String :=
  let localOnly : Bool := TRASH ∈ add ∨ SPAM ∈ add
  let on (id : LabelId) := (onOff localOnly id).1
  let off (id : LabelId) := (onOff localOnly id).2
  let plus := add.flatMap on ++ remove.flatMap off
  let minus := add.flatMap off ++ remove.flatMap on
  -- A label both added and removed in one change is left alone.
  (plus.filter (· ∉ minus), minus.filter (· ∉ plus))

-- The name of a user label that can be made.
def createLabel (name : String) : Option LabelId :=
  if trim name = "" ∨ isReserved (trim name) then none else some (trim name)

end Kaluta.AgentMail

-- Polling AgentMail for new mail and for label changes made elsewhere.
namespace Kaluta.AgentMail.Polling

def MAX_PAGES : Nat := 20

-- A message as it comes to an inbox: its timestamp, when listings begin to give it, and its labels over time.
structure Arrival where
  messageId : String
  threadId  : String := ""
  time      : Int
  visible   : Int
  labels    : Int → List String := fun _ => []

-- An entry of the inbox's event list. `eventAt` is 0 when it cannot be read.
structure Event where
  eventId   : String
  eventType : String
  messageId : Option String
  label     : Option String
  eventAt   : Int

-- An inbox at AgentMail: a message is listed no later than the overlap after its timestamp; the event list is in the
-- order of time, and only grows.
structure Service where
  arrivals : List Arrival
  log      : List Event
  logged   : Int → Nat
  pageSize : Nat
  ids      : (arrivals.map Arrival.messageId).Nodup
  listed   : ∀ m ∈ arrivals, m.visible ≤ m.time + OVERLAP_MS
  eventIds : (log.map Event.eventId).Nodup
  inTime   : log.Pairwise fun e e' => 0 < e.eventAt → 0 < e'.eventAt → e.eventAt ≤ e'.eventAt
  grows    : Monotone logged

inductive Request
  | list (page : Nat)
  | events (page : Nat)
  | message (messageId : String)

inductive PollError
  | network
  | cursorExpired
  deriving DecidableEq

-- Where change polling resumes.
structure Cursor where
  at_     : Int
  seen    : List String
  event   : Option String
  eventAt : Int

inductive Change
  | messageAdded (messageId threadId : String) (labelIds : Finset LabelId)
  | labelsAdded (messageId : String) (labelIds : Finset LabelId)
  | labelsRemoved (messageId : String) (labelIds : Finset LabelId)

section Requests

variable (service : Service) (fails : Request → Bool)

-- The mail listed at a time, newest first.
def Service.mail (now : Int) : List Arrival :=
  (service.arrivals.filter (·.visible ≤ now)).reverse

def Service.since (after now : Int) : List Arrival :=
  (service.mail now).filter (after ≤ ·.time)

-- The event list at a time, newest first.
def Service.events (now : Int) : List Event :=
  (service.log.take (service.logged now)).reverse

-- Some page of a list, and whether another follows.
def Service.page (all : List α) (n : Nat) : List α × Bool :=
  ((all.drop (n * service.pageSize)).take service.pageSize, service.pageSize < (all.drop (n * service.pageSize)).length)

def listPages (all : List Arrival) : Nat → Nat → List Arrival → Except PollError (List Arrival)
  | 0    , _, _   => .error .cursorExpired
  | k + 1, n, out =>
    if fails (.list n) then .error .network
    else if (service.page all n).2 then listPages all k (n + 1) (out ++ (service.page all n).1)
    else .ok (out ++ (service.page all n).1)

def listSince (after now : Int) : Except PollError (List Arrival) :=
  listPages service fails (service.since after now) MAX_PAGES 0 []

-- The last event seen, or one before it.
def Cursor.reached (cursor : Cursor) (e : Event) : Bool :=
  cursor.event = some e.eventId ∨ (0 < cursor.eventAt ∧ 0 < e.eventAt ∧ e.eventAt < cursor.eventAt)

def newestOf (newest : Option (String × Int)) (es : List Event) : Option (String × Int) :=
  newest.or (es.head?.map fun e => (e.eventId, e.eventAt))

def eventPages (cursor : Cursor) (all : List Event) :
    Nat → Nat → List Event → Option (String × Int) → Except PollError (List Event × Option (String × Int))
  | 0    , _, _    , _      => .error .cursorExpired
  | k + 1, n, newer, newest =>
    if fails (.events n) then .error .network
    else
      let (es, more) := service.page all n
      let newer' := newer ++ es.takeWhile (!cursor.reached ·)
      let newest' := newestOf newest es
      if es.any cursor.reached ∨ ¬more then .ok (newer'.reverse, newest')
      else eventPages cursor all k (n + 1) newer' newest'

-- Label events newer than the cursor's, oldest first, and the newest event seen.
def eventsSince (cursor : Cursor) (now : Int) : Except PollError (List Event × Option (String × Int)) :=
  eventPages service fails cursor (service.events now) MAX_PAGES 0 [] none

-- Whether a message is in the Inbox at AgentMail at a time.
def Service.inInbox (now : Int) (messageId : String) : Bool :=
  service.arrivals.any fun m => m.messageId = messageId ∧ m.visible ≤ now ∧ INBOX ∈ toLocal (m.labels now)

end Requests

def Event.added (e : Event) : Bool :=
  e.eventType = "label.added" ∨ e.eventType = "label_added"

def Event.removed (e : Event) : Bool :=
  e.eventType = "label.removed" ∨ e.eventType = "label_removed"

-- The message that an event has read again: out of Spam or Trash, it may be back in the Inbox.
def Event.asks (e : Event) : Option String :=
  match e.messageId, e.label with
  | some message, some label => if e.removed ∧ leavesTheInbox label then some message else none
  | _           , _          => none

-- What a label event changes.
def Event.changes (inInbox : String → Bool) (e : Event) : List Change :=
  match e.messageId, e.label with
  | some message, some label =>
    if ¬e.added ∧ ¬e.removed then []
    else match eventChange label e.added with
      | none               => []
      | some (plus, minus) =>
        (if plus = ∅ then [] else [.labelsAdded message plus]) ++
        (if minus = ∅ then [] else [.labelsRemoved message minus]) ++
        (if e.asks.isSome ∧ inInbox message then [.labelsAdded message {INBOX}] else [])
  | _, _ => []

-- The messages near the newest one, already reported.
def seenNear (messages : List Arrival) (at_ : Int) : List String :=
  ((messages.filter fun m => at_ - OVERLAP_MS ≤ m.time).map Arrival.messageId).dedup

-- The newest of the mail listed at a time.
def Service.newest (service : Service) (now : Int) : List Arrival :=
  (service.page (service.mail now) 0).1

-- The positions before the first listing. With no mail, the newest time is the present by this Mac's clock.
def profile (service : Service) (fails : Request → Bool) (clock listedAt eventsAt : Int) : Except PollError Cursor :=
  let messages := service.newest listedAt
  let at_ := ((messages.map Arrival.time).max?).getD clock
  let newest := (service.events eventsAt).head?
  if fails (.list 0) ∨ fails (.events 0) then .error .network
  else .ok {
    at_, seen := seenNear messages at_
    event := newest.map Event.eventId, eventAt := (newest.map Event.eventAt).getD 0 }

-- One poll, whose listing, event list and lookups are made at the given times.
def changesSince (service : Service) (fails : Request → Bool) (listedAt eventsAt lookedAt : Int) (cursor : Cursor) :
    Except PollError (List Change × Cursor) := do
  let listed ← listSince service fails (cursor.at_ - OVERLAP_MS) listedAt
  let added := (listed.reverse.filter fun m => m.messageId ∉ cursor.seen).map fun m =>
    Change.messageAdded m.messageId m.threadId (toLocal (m.labels listedAt))
  let at_ := max (((listed.map Arrival.time).max?).getD 0) cursor.at_
  let near := seenNear listed at_
  let seen := if at_ = cursor.at_ then (near ++ cursor.seen).dedup else near
  let (events, newest) ← eventsSince service fails cursor eventsAt
  if events.any fun e => e.asks.any fun id => fails (.message id) then .error .network
  else
    .ok (added ++ events.flatMap (Event.changes (service.inInbox lookedAt)), {
      at_, seen
      event   := (newest.map Prod.fst).or cursor.event
      eventAt := (newest.map Prod.snd).getD cursor.eventAt })

-- A cursor, and what the polls since the profile that began it have returned.
structure State where
  now      : Int := 0
  cursor   : Option Cursor := none
  -- When mail was first and last listed, and how many events there were then.
  first    : Int := 0
  listedAt : Int := 0
  start    : Nat := 0
  counted  : Nat := 0
  changes  : List Change := []
  -- The events applied, with the time of their lookups.
  applied  : List (Event × Int) := []

inductive Call
  | profile (fails : Request → Bool) (clock listedAt eventsAt : Int)
  | changesSince (fails : Request → Bool) (listedAt eventsAt lookedAt : Int)

def State.step (service : Service) (s : State) : Call → Option State
  | .profile fails clock listedAt eventsAt =>
    if s.now ≤ listedAt ∧ listedAt ≤ eventsAt then
      match profile service fails clock listedAt eventsAt with
      | .error _   => some { s with now := eventsAt }
      | .ok cursor => some {
          now     := eventsAt
          cursor  := some cursor
          first   := listedAt, listedAt
          start   := service.logged eventsAt
          counted := service.logged eventsAt }
    else none
  | .changesSince fails listedAt eventsAt lookedAt =>
    if s.now ≤ listedAt ∧ listedAt ≤ eventsAt ∧ eventsAt ≤ lookedAt then
      match s.cursor with
      | none        => none
      | some cursor =>
        match changesSince service fails listedAt eventsAt lookedAt cursor with
        -- The caller keeps its cursor.
        | .error _              => some { s with now := lookedAt }
        | .ok (changes, cursor) =>
          some { s with
            now     := lookedAt
            cursor  := some cursor
            listedAt
            counted := service.logged eventsAt
            changes := s.changes ++ changes
            applied := s.applied ++
              ((service.log.take (service.logged eventsAt)).drop s.counted).map fun e => (e, lookedAt) }
    else none

-- Profiles and polls, each poll from the cursor that the call before it left.
def polling (service : Service) : System State Call where
  Start s := s = {}
  step    := State.step service

end Kaluta.AgentMail.Polling
