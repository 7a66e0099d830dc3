import Kaluta.Lib.Execution
import Kaluta.Lib.Table
import Mathlib.Logic.Function.Basic

-- Agent sessions: what their tool calls may see and change, from starting to closing and resuming.
namespace Kaluta.Agents.Session

abbrev ThreadId := String

inductive Scope
  | mailbox
  | selection (threads : List ThreadId)
  deriving DecidableEq

def Scope.allows : Scope → ThreadId → Bool
  | .mailbox          , _      => true
  | .selection threads, thread => thread ∈ threads

-- What a session may do.
structure Powers where
  scope    : Scope
  readOnly : Bool
  deriving DecidableEq

-- The first allow no more than the others.
structure Powers.Within (p q : Powers) : Prop where
  scope    : ∀ thread, p.scope.allows thread → q.scope.allows thread
  readOnly : q.readOnly → p.readOnly

-- Where the starting of a session is.
inductive Phase
  | registering
  | storing
  -- The agent's CLI is started, and its tool calls may come.
  | launching
  | starting
  -- Its read-only mark is set.
  | marking
  deriving DecidableEq

structure Start where
  id        : Nat
  session   : Nat
  selection : Option (List ThreadId)
  readOnly  : Bool
  phase     : Phase := .registering
  deriving DecidableEq

-- A tool call whose limits were checked: under which scope, if the session was known.
structure Call where
  id      : Nat
  session : Nat
  checked : Option Scope
  deriving DecidableEq

structure State where
  -- In memory, as long as the app runs: the tool side of each session, the sessions of the agent manager, those whose
  -- CLI was started, and what is going on.
  sessions : Nat → Option Powers := fun _ => none
  live     : List Nat := []
  clis     : List Nat := []
  starts   : Table Start Start.id := ∅
  calls    : Table Call Call.id := ∅
  -- Sessions that a closing has unregistered.
  closing  : List Nat := []
  -- Stored: the conversations, with their prompts.
  rows     : Nat → Option Nat := fun _ => none
  nextSession : Nat := 0
  nextId      : Nat := 0
  -- What each session was first started with, and what each tool call was judged with.
  first    : Nat → Option Powers := fun _ => none
  judged   : List (Nat × Powers) := []

def scopeOf : Option (List ThreadId) → Scope
  | some threads => .selection threads
  | none         => .mailbox

inductive Action
  | start (selection : Option (List ThreadId)) (readOnly : Bool)
  | resume (session : Nat)
  | register (id : Nat)
  | store (id : Nat) (ok : Bool)
  | launch (id : Nat)
  | started (id : Nat) (ok : Bool)
  | mark (id : Nat)
  | prompt (session : Nat)
  | check (session : Nat)
  | judge (id : Nat)
  | close (session : Nat)
  | closed (session : Nat)
  | restart

namespace State

variable (s : State)

def begin_ (session : Nat) (selection : Option (List ThreadId)) (readOnly : Bool) : State :=
  { s with starts := s.starts.replace { id := s.nextId, session, selection, readOnly }, nextId := s.nextId + 1 }

def put (c : Start) (phase : Phase) : State :=
  { s with starts := s.starts.replace { c with phase } }

def drop (c : Start) : State :=
  { s with starts := s.starts.delete (·.id = c.id) }

def setSession (session : Nat) (powers : Option Powers) : State :=
  { s with sessions := Function.update s.sessions session powers }

-- `start_session_with_id`, one step after another, and `start_read_only_agent_session` after it.
def act (c : Start) : Phase → Action → Option State
  | .registering, .register _ =>
    some ((s.setSession c.session (some { scope := scopeOf c.selection, readOnly := false })).put c .storing)
  | .storing, .store _ ok =>
    if ok then
      some ({ s with rows := Function.update s.rows c.session (some ((s.rows c.session).getD 0)) }.put c .launching)
    else some (s.drop c)
  | .launching, .launch _ => some ({ s with clis := c.session :: s.clis }.put c .starting)
  | .starting, .started _ ok =>
    if ¬ok then some ((s.setSession c.session none).drop c)
    else
      let s := { s with live := c.session :: s.live }
      some (if c.readOnly then s.put c .marking else s.drop c)
  | .marking, .mark _ =>
    some ((s.setSession c.session ((s.sessions c.session).map fun p => { p with readOnly := true })).drop c)
  | _, _ => none

end State

def Action.startId : Action → Option Nat
  | .register id  => some id
  | .store id _   => some id
  | .launch id    => some id
  | .started id _ => some id
  | .mark id      => some id
  | _             => none

def State.step (s : State) : Action → Option State
  | .start selection readOnly =>
    some { s.begin_ s.nextSession selection readOnly with
      nextSession := s.nextSession + 1
      first       := Function.update s.first s.nextSession (some { scope := scopeOf selection, readOnly }) }
  -- The stored conversation names its agent, and nothing of its powers.
  | .resume session =>
    if session ∈ s.live ∨ s.rows session = none then none else some (s.begin_ session none false)
  | .prompt session => some { s with rows := Function.update s.rows session ((s.rows session).map (· + 1)) }
  | .check session =>
    if session ∈ s.clis then
      some { s with
        calls  := s.calls.replace { id := s.nextId, session, checked := (s.sessions session).map Powers.scope }
        nextId := s.nextId + 1 }
    else none
  | .judge id => do
    let c ← s.calls.find? id
    let s := { s with calls := s.calls.delete (·.id = id) }
    match c.checked with
    -- The session has ended: the call is refused.
    | none       => some s
    | some scope =>
      some { s with judged := (c.session, ⟨scope, ((s.sessions c.session).map Powers.readOnly).getD false⟩) :: s.judged }
  | .close session => some { s.setSession session none with closing := session :: s.closing }
  | .closed session =>
    if session ∈ s.closing then
      some { s with live := s.live.filter (· ≠ session), closing := s.closing.erase session }
    else none
  | .restart =>
    some { s with sessions := fun _ => none, live := [], clis := [], starts := ∅, calls := ∅, closing := [] }
  | a => do
    let c ← a.startId.bind s.starts.find?
    s.act c c.phase a

def agentSessions : System State Action where
  Start s := s = {}
  step    := State.step

end Kaluta.Agents.Session
