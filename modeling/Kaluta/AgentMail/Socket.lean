import Kaluta.Lib.Execution
import Mathlib.Data.List.Dedup

-- AgentMail's socket that the pushes of a service account share.
namespace Kaluta.AgentMail.Socket

abbrev Inbox  := String
abbrev PushId := Nat

def INBOXES_PER_SUBSCRIBE : Nat := 10

-- An inbox that pushes wait for: how many share it, and their `Notify`: a stored permit, or who waits for one.
structure Entry where
  inbox   : Inbox
  pushes  : Nat := 1
  permit  : Bool := false
  waiters : List PushId := []
  deriving DecidableEq

def Entry.notifyOne (e : Entry) : Entry :=
  match e.waiters with
  | []      => { e with permit := true }
  | _ :: ws => { e with waiters := ws }

-- A live push. It is owed a wake-up when a message arrived after the last one that it had.
structure Push where
  id    : PushId
  inbox : Inbox
  owed  : Bool := false
  deriving DecidableEq

inductive Frame
  | subscribed
  | event (inbox : Option Inbox)
  deriving DecidableEq

-- Where the connection task is.
inductive Phase
  -- Connecting, or between attempts.
  | idle
  | resting
  -- The queue is empty, and the list is to be read.
  | drained
  -- Sends the subscriptions for a list, which may have been empty.
  | opening (unsent : List (List Inbox)) (alone : Bool)
  -- Reads frames and commands.
  | session (subscribed : Bool)
  deriving DecidableEq

structure State where
  inboxes  : List Entry := []
  pushes   : List Push := []
  commands : List Inbox := []
  phase    : Phase := .idle
  -- At AgentMail: subscriptions it has not answered, inboxes of those it has, and what it sent.
  asked    : List (List Inbox) := []
  answered : List Inbox := []
  frames   : List Frame := []

inductive Action
  | new (push : PushId) (inbox : Inbox)
  | drop (push : PushId)
  | watch (push : PushId)
  | giveUp (push : PushId)
  | discard
  | handshake
  | readInboxes
  | subscribe
  | opened
  | command
  | frame
  | fail (rests : Bool)
  | rested
  | answer
  | arrive (inbox : Inbox)
  | event (inbox : Option Inbox)

namespace State

def addInbox (s : State) (inbox : Inbox) : State :=
  if inbox ∈ s.inboxes.map Entry.inbox then
    { s with inboxes := s.inboxes.map fun e => if e.inbox = inbox then { e with pushes := e.pushes + 1 } else e }
  -- Subscribed with the rest when it next connects; at once if it is connected now.
  else { s with inboxes := { inbox } :: s.inboxes, commands := s.commands ++ [inbox] }

-- The protocol has no unsubscribe: its events are ignored.
def removeInbox (s : State) (inbox : Inbox) : State :=
  { s with inboxes := s.inboxes.filterMap fun e =>
      if e.inbox ≠ inbox then some e
      else if e.pushes = 1 then none
      else some { e with pushes := e.pushes - 1 } }

-- Takes a push out of those that wait.
def leave (s : State) (push : PushId) : State :=
  { s with inboxes := s.inboxes.map fun e => { e with waiters := e.waiters.filter (· ≠ push) } }

-- Pushes that their `watch` returns to.
def woken (s : State) (pushes : List PushId) : State :=
  { s with pushes := s.pushes.map fun p => if p.id ∈ pushes then { p with owed := false } else p }

-- An event naming no inbox wakes everyone.
def names (inbox : Option Inbox) (e : Entry) : Bool :=
  inbox = none ∨ inbox = some e.inbox

def wake (s : State) (inbox : Option Inbox) : State :=
  { s.woken ((s.inboxes.filter (names inbox)).filterMap (·.waiters.head?)) with
    inboxes := s.inboxes.map fun e => if names inbox e then e.notifyOne else e }

-- Subscribed: every agent polls once.
def markConnected (s : State) : State :=
  { s with phase := .session true }.wake none

def watch (s : State) (p : Push) : State :=
  if s.inboxes.any fun e => e.inbox = p.inbox ∧ e.permit then
    { s.woken [p.id] with
      inboxes := s.inboxes.map fun e => if e.inbox = p.inbox then { e with permit := false } else e }
  else
    { s with inboxes := s.inboxes.map fun e =>
        if e.inbox = p.inbox then { e with waiters := e.waiters.filter (· ≠ p.id) ++ [p.id] } else e }

def chunksOf : Nat → List Inbox → List (List Inbox)
  | 0    , _       => []
  | _    , []      => []
  | k + 1, inboxes => inboxes.take INBOXES_PER_SUBSCRIBE :: chunksOf k (inboxes.drop INBOXES_PER_SUBSCRIBE)

def chunks (inboxes : List Inbox) : List (List Inbox) :=
  chunksOf inboxes.length inboxes

def receive (s : State) : Frame → State
  | .subscribed  => if s.phase = .session false then s.markConnected else s
  | .event inbox => s.wake inbox

def step (s : State) : Action → Option State
  | .new push inbox =>
    if push ∈ s.pushes.map Push.id then none
    else some { s.addInbox inbox with pushes := { id := push, inbox } :: s.pushes }
  | .drop push =>
    match s.pushes.find? (·.id = push) with
    | none   => none
    | some p => some { (s.leave push).removeInbox p.inbox with pushes := s.pushes.filter (·.id ≠ push) }
  | .watch push =>
    match s.pushes.find? (·.id = push) with
    | none   => none
    | some p => if s.phase = .resting then none else some (s.watch p)
  -- The time runs out, or the socket rests.
  | .giveUp push => some (s.leave push)
  -- Waiting to connect, the queue's inboxes are left for the list.
  | .discard   => if s.phase = .idle ∨ s.phase = .resting then some { s with commands := s.commands.tail } else none
  | .handshake => if s.phase = .idle then some { s with phase := .drained, commands := [] } else none
  | .readInboxes =>
    if s.phase = .drained then
      some { s with phase := .opening (chunks (s.inboxes.map Entry.inbox)) s.inboxes.isEmpty }
    else none
  | .subscribe =>
    match s.phase with
    | .opening (chunk :: unsent) alone => some { s with phase := .opening unsent alone, asked := s.asked ++ [chunk] }
    | _                                => none
  | .opened =>
    match s.phase with
    | .opening [] true  => some s.markConnected
    | .opening [] false => some { s with phase := .session false }
    | _                 => none
  | .command =>
    match s.phase, s.commands with
    | .session _, inbox :: commands => some { s with commands, asked := s.asked ++ [[inbox]] }
    | _         , _                 => none
  | .frame =>
    match s.phase, s.frames with
    | .session _, frame :: frames => some ({ s with frames }.receive frame)
    | _         , _               => none
  | .fail rests =>
    if s.phase = .resting then none
    else some { s with phase := if rests then .resting else .idle, asked := [], answered := [], frames := [] }
  | .rested => if s.phase = .resting then some { s with phase := .idle } else none
  | .answer =>
    match s.asked with
    | []             => none
    | chunk :: asked => some { s with asked, answered := s.answered ++ chunk, frames := s.frames ++ [.subscribed] }
  | .arrive inbox =>
    some { s with
      pushes := s.pushes.map fun p => if p.inbox = inbox then { p with owed := true } else p
      frames := if inbox ∈ s.answered then s.frames ++ [.event (some inbox)] else s.frames }
  | .event inbox =>
    if s.answered = [] then none else some { s with frames := s.frames ++ [.event inbox] }

end State

def pushing : System State Action where
  Start s := s = {}
  step    := State.step

end Kaluta.AgentMail.Socket
