import Kaluta.Agents.Session
import Mathlib.Data.Finset.Card
import Mathlib.Data.Finset.Dedup

-- The hard limits of an agent session, which hold whatever the policy says.
namespace Kaluta.Permissions

open Agents.Session (ThreadId Scope)

abbrev Millis := Int

-- Threads a single call may touch.
def MAX_THREADS_PER_CALL : Nat := 200

-- Threads a session may touch before the user prompts again.
def MAX_THREADS_PER_SESSION : Nat := 2000

-- Tool calls per rolling minute per session.
def MAX_CALLS_PER_MINUTE : Nat := 60

def MINUTE : Millis := 60000

-- How much harm a tool can do.
inductive Risk
  | readOnly
  | reversible
  | external
  deriving DecidableEq, Repr

inductive Tool
  | search
  | getThread
  | getMessage
  | listLabels
  | factsLookup
  | getAttachmentText
  | presentThreads
  | createDraft
  | updateDraft
  | archive
  | markRead
  | markUnread
  | addLabel
  | removeLabel
  | createLabel
  | send
  | forward
  | delete
  deriving DecidableEq, Repr

def Tool.risk : Tool → Risk
  | search | getThread | getMessage | listLabels | factsLookup | getAttachmentText | presentThreads => .readOnly
  | createDraft | updateDraft | archive | markRead | markUnread | addLabel | removeLabel | createLabel => .reversible
  | send | forward | delete => .external

-- One tool call, as far as permission is concerned.
structure ProposedAction where
  tool      : Tool
  threadIds : List ThreadId := []
  draftId   : Option Int := none
  deriving DecidableEq, Repr

-- Why a call was refused.
inductive DenyReason
  | tooManyThreadsInCall
  | sessionBulkCap
  | rateLimited
  | outOfScope
  | draftNotFromSession
  | missingDraft
  deriving DecidableEq, Repr

structure SessionGuard where
  scope          : Scope
  recentCalls    : List Millis := []
  touched        : Finset ThreadId := ∅
  -- Drafts this session may send: created by it, or attached by the user.
  sendableDrafts : Finset Int := ∅
  deriving DecidableEq

namespace SessionGuard

variable (g : SessionGuard)

-- Calls older than a minute no longer count.
def expire (now : Millis) : SessionGuard :=
  { g with recentCalls := g.recentCalls.dropWhile fun t => MINUTE ≤ now - t }

-- The threads a call names that the session has not touched, as often as it names them.
def listedNew (action : ProposedAction) : List ThreadId :=
  action.threadIds.filter (· ∉ g.touched)

-- The tests before that of the session's cap.
def refusedEarlier (action : ProposedAction) : Option DenyReason :=
  if MAX_CALLS_PER_MINUTE ≤ g.recentCalls.length then some .rateLimited
  else if action.tool.risk = .readOnly then none
  else if MAX_THREADS_PER_CALL < action.threadIds.length then some .tooManyThreadsInCall
  else if action.threadIds.any (!g.scope.allows ·) then some .outOfScope
  else none

def refusedForCap (action : ProposedAction) : Option DenyReason :=
  if action.tool.risk ≠ .readOnly ∧ MAX_THREADS_PER_SESSION < g.touched.card + (g.listedNew action).length then
    some .sessionBulkCap
  else none

-- Only drafts of this session may be sent.
def refusedForDraft (action : ProposedAction) : Option DenyReason :=
  if action.tool = .send then
    match action.draftId with
    | none       => some .missingDraft
    | some draft => if draft ∈ g.sendableDrafts then none else some .draftNotFromSession
  else none

def refusal (action : ProposedAction) : Option DenyReason :=
  (g.refusedEarlier action).or ((g.refusedForCap action).or (g.refusedForDraft action))

def count (action : ProposedAction) (now : Millis) : SessionGuard := { g with
  recentCalls := g.recentCalls ++ [now]
  touched     := if action.tool.risk = .readOnly then g.touched else g.touched ∪ action.threadIds.toFinset
}

-- Checks a call against the hard limits and, if it passes, counts it.
def check (action : ProposedAction) (now : Millis) : SessionGuard × Except DenyReason Unit :=
  let g := g.expire now
  match g.refusal action with
  | some reason => (g, .error reason)
  | none        => (g.count action now, .ok ())

def allowDraft (draft : Int) : SessionGuard :=
  { g with sendableDrafts := insert draft g.sendableDrafts }

-- The user prompted again: the session bulk count starts over.
def newUserPrompt : SessionGuard :=
  { g with touched := ∅ }

end SessionGuard

-- A check that was made, with the threads that accepted calls had touched since the last prompt.
structure Made where
  before : SessionGuard
  since  : Finset ThreadId
  action : ProposedAction
  now    : Millis

namespace Made

variable (m : Made)

def answer : Except DenyReason Unit := (m.before.check m.action m.now).2

def after : SessionGuard := (m.before.check m.action m.now).1

-- The call is one that the session's cap is for.
def asksForMore : Prop :=
  m.action.tool.risk ≠ .readOnly ∧ (m.before.expire m.now).refusedEarlier m.action = none

instance : Decidable m.asksForMore :=
  inferInstanceAs (Decidable (_ ∧ _))

-- The distinct threads the call adds.
def adds : Finset ThreadId := m.action.threadIds.toFinset \ m.since

end Made

-- A session's guard, with all that was checked and accepted so far.
structure State where
  guard    : SessionGuard
  clock    : Option Millis := none
  made     : List Made := []
  accepted : List Millis := []
  since    : Finset ThreadId := ∅

inductive Action
  | check (action : ProposedAction) (now : Millis)
  | allowDraft (draft : Int)
  | newUserPrompt

def State.checked (s : State) (action : ProposedAction) (now : Millis) : State :=
  let (guard, answer) := s.guard.check action now
  let made := ⟨s.guard, s.since, action, now⟩ :: s.made
  match answer with
  | .error _ => { s with guard, clock := some now, made }
  | .ok _    => { s with
    guard
    clock    := some now
    made
    accepted := now :: s.accepted
    since    := if action.tool.risk = .readOnly then s.since else s.since ∪ action.threadIds.toFinset }

-- Times do not go back.
def State.step (s : State) : Action → Option State
  | .check action now => if s.clock.all (· ≤ now) then some (s.checked action now) else none
  | .allowDraft draft => some { s with guard := s.guard.allowDraft draft }
  | .newUserPrompt    => some { s with guard := s.guard.newUserPrompt, since := ∅ }

def sessions : System State Action where
  Start s := ∃ scope, s = { guard := { scope } }
  step    := State.step

end Kaluta.Permissions
