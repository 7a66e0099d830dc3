import Mathlib.Algebra.GroupWithZero.Nat
import Kaluta.Lib.Execution
import Kaluta.Store.Db

-- Which label changes of the history are Kaluta's own, and which are reported as someone else's.
namespace Kaluta.OwnChanges

open SystemLabels

inductive Change
  | messageAdded (id : MessageId)
  | messageDeleted (id : MessageId)
  | labelsAdded (id : MessageId) (labelIds : List LabelId)
  | labelsRemoved (id : MessageId) (labelIds : List LabelId)
  deriving DecidableEq

-- The message, the labels, and whether they are added.
def Change.labeled : Change → Option (MessageId × List LabelId × Bool)
  | labelsAdded id labelIds   => some (id, labelIds, true)
  | labelsRemoved id labelIds => some (id, labelIds, false)
  | _                         => none

-- A record of the history, and whether Kaluta's outbox made the change.
structure Record where
  mine   : Bool
  change : Change
  deriving DecidableEq

structure OwnChange where
  message : MessageId
  label   : LabelId
  added   : Bool
  at'     : Millis
  deriving DecidableEq

structure ExternalLabelChange where
  message : MessageId
  thread  : ThreadId
  added   : List LabelId
  removed : List LabelId
  deriving DecidableEq

-- How long an own change is remembered.
def OWN_CHANGE_WINDOW : Millis :=
  2 * 60 * 60 * 1000

-- Remember label changes the outbox is about to push.
def rememberOwn (messages : List MessageId) (add remove : List LabelId) (now : Millis) : List OwnChange :=
  messages.flatMap fun m => add.map (⟨m, ·, true, now⟩) ++ remove.map (⟨m, ·, false, now⟩)

-- What an attempt of the outbox at an op remembers.
def ownChanges (now : Millis) : OutboxOp → List OwnChange
  | .modifyLabels messageIds add remove => rememberOwn messageIds add remove now
  | .trash messageIds _                 => rememberOwn messageIds [TRASH] [INBOX] now
  | .untrash messageIds                 => rememberOwn messageIds [] [TRASH] now
  | _                                   => []

-- Changes of a message are put together in one entry, in the order of the messages' first ones.
def report (message : MessageId) (thread : ThreadId) (theirs : List LabelId) (added : Bool) :
    List ExternalLabelChange → List ExternalLabelChange
  | []       => [⟨message, thread, if added then theirs else [], if added then [] else theirs⟩]
  | e :: out =>
    if e.message = message then
      (if added then { e with added := e.added ++ theirs } else { e with removed := e.removed ++ theirs }) :: out
    else
      e :: report message thread theirs added out

abbrev Labeled := MessageId × ThreadId × List LabelId × Bool

def remembered (own : List OwnChange) (now : Millis) : List OwnChange :=
  own.filter fun c => now - c.at' < OWN_CHANGE_WINDOW

-- Drop the changes Kaluta's outbox made; group the rest per message.
def notOurs (own : List OwnChange) (labeled : List Labeled) : List ExternalLabelChange :=
  labeled.foldl (fun out (message, thread, labels, added) =>
    let theirs := labels.filter fun l => !own.any fun c => c.message = message ∧ c.label = l ∧ c.added = added
    if theirs = [] then out else report message thread theirs added out) []

-- A run of `sync_incremental` that has read the history up to a place.
structure Run where
  changes : List Change
  cursor  : Nat

-- A run whose transaction is done: the history it went through, and the label changes in it.
structure Applied where
  first   : Nat
  last    : Nat
  labeled : List Labeled

-- A run that is over, with what it reports.
structure Report where
  first    : Nat
  last     : Nat
  at'      : Millis
  external : List ExternalLabelChange

structure State where
  history  : List Record := []
  clock    : Millis
  -- The threads of the stored messages.
  threads  : MessageId → Option ThreadId
  cursor   : Nat
  own      : List OwnChange := []
  run      : Option Run := none
  applied  : Option Applied := none
  -- The runs that are over, the latest first, and the attempts at ops that there were.
  reports  : List Report := []
  attempts : List (OutboxOp × Millis) := []

inductive Action
  | tick (now : Millis)
  -- The outbox attempts an op; and the server makes a change that an attempt asked for, at any time since.
  | attempt (op : OutboxOp)
  | pushed (change : Change)
  -- Another client changes something, or mail comes or goes.
  | others (change : Change)
  -- The parts of `sync_incremental`, with the messages that the provider still has.
  | changesSince
  | commit (fetched : List MessageId)
  | notOurs
  -- The run fails; the cursor has expired, and the store is queued for a full resync; the program is started anew.
  | fail
  | startResync
  | restart

-- What the loop over the changes in the transaction carries.
structure Loop where
  threads  : MessageId → Option ThreadId
  external : List (MessageId × List LabelId × Bool) := []

def Loop.change (fetched : List MessageId) (k : Loop) (change : Change) : Loop :=
  match change with
  | .messageAdded _    => k
  | .messageDeleted id => { k with threads := fun m => if m = id then none else k.threads m }
  | change             =>
    match change.labeled with
    | none                     => k
    | some (id, labels, added) =>
      if id ∈ fetched then
        k
      else if (k.threads id).isSome then
        { k with external := k.external ++ [(id, labels, added)] }
      else
        k

-- Whether an attempt asked for a change: to one of its messages, of no other labels.
def asked (own : List OwnChange) (change : Change) : Bool :=
  change.labeled.any fun (id, labels, added) => labels.all fun l =>
    own.any fun c => c.message = id ∧ c.label = l ∧ c.added = added

namespace State

variable (threadOf : MessageId → ThreadId) (s : State)

-- The messages added that are not deleted again.
def toFetch (changes : List Change) : List MessageId :=
  (changes.filterMap fun
    | .messageAdded id => some id
    | _                => none).filter fun id => .messageDeleted id ∉ changes

-- The transaction, with what is left of the run.
def commit (run : Run) (fetched : List MessageId) : State :=
  let fetched := (toFetch run.changes).filter (· ∈ fetched)
  let stored : Loop := { threads := fun m => if m ∈ fetched then some (threadOf m) else s.threads m }
  let k := run.changes.foldl (Loop.change fetched) stored
  let labeled := k.external.filterMap fun (id, labels, added) => (k.threads id).map (id, ·, labels, added)
  { s with
    threads := k.threads
    cursor  := run.cursor
    run     := none
    applied := some ⟨s.cursor, run.cursor, labeled⟩ }

def finish (a : Applied) : State :=
  let own := remembered s.own s.clock
  { s with
    own
    applied := none
    reports := ⟨a.first, a.last, s.clock, notOurs own a.labeled⟩ :: s.reports }

def idle : Bool :=
  s.run.isNone && s.applied.isNone

def step : Action → Option State
  | .tick now        => if s.clock ≤ now then some { s with clock := now } else none
  | .attempt op      => some { s with own := s.own ++ ownChanges s.clock op, attempts := (op, s.clock) :: s.attempts }
  | .pushed change   =>
    if s.attempts.any fun (op, at') => asked (ownChanges at' op) change then
      some { s with history := s.history ++ [⟨true, change⟩] }
    else
      none
  | .others change   => some { s with history := s.history ++ [⟨false, change⟩] }
  | .changesSince    =>
    if s.idle then
      some { s with run := some ⟨(s.history.drop s.cursor).map (·.change), s.history.length⟩ }
    else
      none
  | .commit fetched  => s.run.map (s.commit threadOf · fetched)
  | .notOurs         => s.applied.map s.finish
  | .fail            => if s.applied.isNone then some { s with run := none } else none
  | .startResync     => if s.idle then some { s with cursor := s.history.length } else none
  | .restart         => some { s with own := [], run := none, applied := none }

-- The history from one place to another.
def between (first last : Nat) : List Record :=
  (s.history.take last).drop first

-- Whether no other client changes labels there.
def quiet (first last : Nat) : Bool :=
  (s.between first last).all fun r => r.mine || r.change.labeled.isNone

-- What a run goes through: the own changes in it are remembered where it reports; the messages whose labels others
-- changed are stored, neither fetched in this run nor deleted in it; and the program is not started anew before what
-- they changed is reported, nor does the cursor expire.
def cond : Action → Bool
  | .commit fetched => s.run.all fun run => (s.between s.cursor run.cursor).all fun r => r.mine ||
      r.change.labeled.all fun (id, _) =>
        id ∉ (toFetch run.changes).filter (· ∈ fetched) && (s.threads id).isSome && .messageDeleted id ∉ run.changes
  | .notOurs        => s.applied.all fun a => (s.between a.first a.last).all fun r => !r.mine ||
      asked (remembered s.own s.clock) r.change
  | .restart        => s.applied.all fun a => s.quiet a.first a.last
  | .startResync    => s.quiet s.cursor s.history.length
  | _               => true

end State

-- How often a label is added to a message, or removed.
def Change.count (c : Change) (m : MessageId) (l : LabelId) (added : Bool) : Nat :=
  match c.labeled with
  | none                       => 0
  | some (id, labels, added') => if id = m ∧ added' = added then labels.count l else 0

def ExternalLabelChange.labels (e : ExternalLabelChange) (added : Bool) : List LabelId :=
  if added then e.added else e.removed

def countExternal (external : List ExternalLabelChange) (m : MessageId) (l : LabelId) (added : Bool) : Nat :=
  (external.map fun e => if e.message = m then (e.labels added).count l else 0).sum

namespace State

variable (threadOf : MessageId → ThreadId) (s : State)

-- How often other clients added a label to a message, or removed it, in a part of the history.
def countTheirs (first last : Nat) (m : MessageId) (l : LabelId) (added : Bool) : Nat :=
  (((s.between first last).filter (!·.mine)).map fun r => r.change.count m l added).sum

-- Whether the outbox made the same change within the window before a report.
def AlsoPushed (r : Report) (m : MessageId) (l : LabelId) (added : Bool) : Prop :=
  ∃ op at', (op, at') ∈ s.attempts ∧ at' ≤ r.at' ∧ r.at' - at' < OWN_CHANGE_WINDOW ∧
    ∃ c ∈ ownChanges at' op, c.message = m ∧ c.label = l ∧ c.added = added

-- How far the history is reported.
def told : Nat :=
  s.applied.elim s.cursor (·.first)

-- What the outbox changed is in no report; what others changed, and the outbox did not also, is in one: as often as they
-- changed it, with its thread.
structure Told : Prop where
  own    : ∀ r ∈ s.reports, ∀ record ∈ s.between r.first r.last, record.mine = true →
    ∀ m l added, record.change.count m l added ≠ 0 → countExternal r.external m l added = 0
  theirs : ∀ r ∈ s.reports, ∀ m l added, ¬s.AlsoPushed r m l added →
    countExternal r.external m l added = s.countTheirs r.first r.last m l added
  thread : ∀ r ∈ s.reports, ∀ e ∈ r.external, e.thread = threadOf e.message
  once   : s.reports.Pairwise fun later earlier => earlier.last ≤ later.first
  covers : ∀ place < s.told, ∀ record, s.history[place]? = some record → record.mine = false →
    record.change.labeled.isSome → ∃ r ∈ s.reports, r.first ≤ place ∧ place < r.last

end State

-- `threadOf` says which threads the server has its messages in.
def syncs (threadOf : MessageId → ThreadId) : System State Action where
  Start s := s.history = [] ∧ s.own = [] ∧ s.run.isNone ∧ s.applied.isNone ∧ s.reports = [] ∧ s.attempts = [] ∧
    s.cursor = 0 ∧ ∀ m t, s.threads m = some t → t = threadOf m
  step    := State.step threadOf

end Kaluta.OwnChanges
