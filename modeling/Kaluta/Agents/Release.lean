import Kaluta.Lib.Execution
import Kaluta.Lib.Table
import Mathlib.Logic.Function.Basic

-- Agents are added to a service account and removed from this Mac, and its key goes with the last of them.
namespace Kaluta.Agents.Release

inductive Phase
  -- A removal: credentials to forget, the service account to release, the directory and the index entry to go.
  | marked
  | forgotten
  | released (deleted : Bool)
  | cleared
  -- An addition: checks that may ask the service, the section under the lock, and the store and the index.
  | asked
  | locked
  | written
  deriving DecidableEq

structure Call where
  id      : Nat
  account : String
  service : String
  -- Whether it removes a store that no listed account owns.
  orphan  : Bool := false
  phase   : Phase
  deriving DecidableEq

def Call.removes (c : Call) : Bool :=
  match c.phase with
  | .marked | .forgotten | .released _ | .cleared => true
  | .asked | .locked | .written                   => false

structure State where
  -- The agents on disk, each with its service account.
  disk    : Table (String × String) Prod.fst
  -- The service accounts with a key, and those whose record is written.
  keys    : String → Bool
  records : String → Bool
  index   : List String
  -- Accounts that are marked, as long as the app runs.
  removed : List String := []
  -- Who holds the lock of additions.
  adding  : Option Nat := none
  calls   : Table Call Call.id := ∅
  next    : Nat := 0
  -- The accounts whose removal succeeded.
  gone    : List String := []

inductive Action
  | remove (account : String)
  | removeOrphan (account : String)
  | add (service account : String)
  | credentials (id : Nat) (ok : Bool)
  -- `cleared` is whether the record's directory goes with the key.
  | release (id : Nat) (ok cleared : Bool)
  | clear (id : Nat) (ok : Bool)
  | saveIndex (id : Nat) (ok : Bool)
  | acquire (id : Nat) (ok : Bool)
  | write (id : Nat) (recorded ok : Bool)
  | finish (id : Nat) (recorded ok : Bool)
  | crash

namespace State

variable (s : State)

-- A service account's record: the one written, or the one its first agent stands for.
def readable (service : String) : Bool :=
  s.records service ∨ (service, service) ∈ s.disk.rows

def serviceOf (account : String) : String :=
  ((s.disk.find? account).map Prod.snd).getD account

def put (c : Call) (phase : Phase) : State :=
  { s with calls := s.calls.replace { c with phase } }

def drop (c : Call) : State :=
  { s with calls := s.calls.delete (·.id = c.id) }

def begin_ (c : Call) : State :=
  { s with calls := s.calls.replace { c with id := s.next }, next := s.next + 1 }

-- A removal fails: its account is no longer marked.
def fail (c : Call) : State :=
  { s.drop c with removed := if c.orphan then s.removed else s.removed.filter (· ≠ c.account) }

def others (service leaving : String) : Bool :=
  s.disk.rows.any fun m => m.1 ≠ leaving ∧ m.1 ∉ s.removed ∧ m.2 = service

def record (service : String) : State :=
  { s with records := Function.update s.records service true }

def release (c : Call) (ok cleared : Bool) : State :=
  let failed := if c.orphan then s.put c (.released false) else s.fail c
  if s.others c.service c.account then
    if s.records c.service = false ∧ s.readable c.service then
      if ok then (s.record c.service).put c (.released false) else failed
    else s.put c (.released false)
  else if ok then
    { s with
      keys    := Function.update s.keys c.service false
      records := Function.update s.records c.service (s.records c.service && !cleared) }.put c (.released true)
  else failed

def act (c : Call) : Phase → Action → Option State
  | .marked, .credentials _ ok => some (if ok ∨ c.orphan then s.put c .forgotten else s.fail c)
  | .forgotten, .release _ ok cleared => if s.adding = none then some (s.release c ok cleared) else none
  | .released _, .clear _ ok =>
    let s := if ok then { s with disk := s.disk.delete (·.1 = c.account) } else s
    if ¬c.orphan then some (s.put c .cleared)
    else if ok then some { s.drop c with gone := c.account :: s.gone }
    else some (s.drop c)
  | .cleared, .saveIndex _ ok =>
    if ok then some { s.drop c with index := s.index.filter (· ≠ c.account), gone := c.account :: s.gone }
    else some (s.fail c)
  | .asked, .acquire _ ok =>
    if s.adding ≠ none then none
    else if s.keys c.service ∧ ok then some { s.put c .locked with adding := some c.id }
    else some (s.drop c)
  | .locked, .write _ recorded ok =>
    let s := { s with adding := none }
    let s := if recorded ∧ s.readable c.service then s.record c.service else s
    if ok ∧ s.records c.service then
      some ({ s with disk := s.disk.replace (c.account, c.service) }.put c .written)
    else some (s.drop c)
  | .written, .finish _ recorded ok =>
    let s := if recorded ∧ s.readable c.service then s.record c.service else s
    if ok ∧ s.records c.service ∧ c.account ∉ s.removed then
      some { s.drop c with index := c.account :: s.index.filter (· ≠ c.account) }
    else some (s.drop c)
  | _, _ => none

def add (service account : String) : State :=
  match s.disk.find? account with
  | some existing =>
    if existing.2 = service then s.begin_ { id := 0, account, service, phase := .written } else s
  | none => if s.readable service then s.begin_ { id := 0, account, service, phase := .asked } else s

end State

def Action.id? : Action → Option Nat
  | .remove _       => none
  | .removeOrphan _ => none
  | .add _ _        => none
  | .crash          => none
  | .credentials id _ => some id
  | .release id _ _   => some id
  | .clear id _       => some id
  | .saveIndex id _   => some id
  | .acquire id _     => some id
  | .write id _ _     => some id
  | .finish id _ _    => some id

def State.step (s : State) : Action → Option State
  | .remove account =>
    some ({ s with removed := account :: s.removed }.begin_
      { id := 0, account, service := s.serviceOf account, phase := .marked })
  | .removeOrphan account =>
    if (s.disk.find? account).isSome ∧ account ∉ s.index then
      some (s.begin_ { id := 0, account, service := s.serviceOf account, orphan := true, phase := .marked })
    else some s
  | .add service account => some (s.add service account)
  -- What is on disk and in the Keychain stays.
  | .crash => some { s with calls := ∅, removed := [], adding := none }
  | a => do
    let c ← a.id?.bind s.calls.find?
    s.act c c.phase a

-- Every agent on disk has its service account's key and record, and every key an agent.
def agents : System State Action where
  Start s := s.calls = ∅ ∧ s.removed = [] ∧ s.adding = none ∧ s.gone = [] ∧
    (∀ m ∈ s.disk, s.keys m.2 = true ∧ s.readable m.2 = true) ∧
    ∀ service, s.keys service = true → ∃ m ∈ s.disk, m.2 = service
  step    := State.step

end Kaluta.Agents.Release
