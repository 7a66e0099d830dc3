import Mathlib.Logic.Function.Basic
import Kaluta.Guide.Entry
import Kaluta.Lib.Execution

-- What is stored of an agent's mailbox.
namespace Kaluta.Agents

open Guide (Unicode toLowercase trim)

inductive AgentService
  | primitive
  | agentMail
  deriving DecidableEq

-- Whether agents send from the mailbox without asking.
inductive AgentSendMode
  | freely
  | ask
  deriving DecidableEq

-- `agent.json` in the mailbox's directory.
structure AgentMeta where
  service        : AgentService := .primitive
  address        : String
  name           : String
  createdAt      : Int := 0
  sendMode       : AgentSendMode := .freely
  -- The address the service gave it, kept when the agent moves to an own domain.
  managedAddress : Option String := none
  serviceAccount : String := ""
  inboxId        : Option String := none
  deriving DecidableEq

section Read

variable [Unicode]

-- The agent's name as an address's local part.
def localPart (name : String) : String :=
  let dashed := (toLowercase name).toList.map fun c => if c.isAlphanum then c else '-'
  let parts := ((dashed.splitOn '-').filter (· ≠ [])).map String.ofList
  if parts = [] then "agent" else "-".intercalate parts

-- What a service gives as the mailbox's address: an address, or a domain that takes mail at any local part.
def mailboxAddress (given name : String) : String :=
  if '@' ∈ given.toList then given else localPart name ++ "@" ++ given

-- The record in a directory, as it is read: mailboxes of older versions hold a domain as their address,
-- and no service account.
def readMeta (dir : String) (stored : AgentMeta) : AgentMeta :=
  { stored with
    address        := mailboxAddress stored.address stored.name
    managedAddress := stored.managedAddress.map (mailboxAddress · stored.name)
    serviceAccount := if stored.serviceAccount = "" then dir else stored.serviceAccount }

variable {given name dir : String} {stored : AgentMeta}

theorem mailboxAddress_address (h : '@' ∈ given.toList) : mailboxAddress given name = given :=
  if_pos h

theorem at_mem_mailboxAddress : '@' ∈ (mailboxAddress given name).toList := by
  unfold mailboxAddress
  split
  case isTrue h => exact h
  case isFalse  => simp

-- What a record must be for reading to leave it as it is.
structure Current (dir : String) (m : AgentMeta) : Prop where
  address        : '@' ∈ m.address.toList
  managedAddress : ∀ a ∈ m.managedAddress, '@' ∈ a.toList
  serviceAccount : m.serviceAccount = "" → dir = ""

theorem readMeta_current (dir : String) (stored : AgentMeta) : Current dir (readMeta dir stored) where
  address := at_mem_mailboxAddress
  managedAddress := by
    intro a mem
    obtain ⟨_, _, rfl⟩ := Option.map_eq_some_iff.mp mem
    exact at_mem_mailboxAddress
  serviceAccount := by
    dsimp only [readMeta]
    split
    case isTrue       => exact id
    case isFalse some => exact fun none => absurd none some

theorem Current.readMeta_eq {m : AgentMeta} (h : Current dir m) : readMeta dir m = m := by
  have managed : m.managedAddress.map (mailboxAddress · m.name) = m.managedAddress := by
    cases eq : m.managedAddress with
    | none   => rfl
    | some a => exact congrArg some (mailboxAddress_address (h.managedAddress a eq))
  have service : (if m.serviceAccount = "" then dir else m.serviceAccount) = m.serviceAccount := by
    split
    case isTrue none => rw [none, h.serviceAccount none]
    case isFalse     => rfl
  rw [readMeta, mailboxAddress_address h.address, managed, service]

end Read

end Kaluta.Agents

-- The calls that write an agent mailbox's record: each reads the whole of it, and writes the whole of it back.
namespace Kaluta.Agents

open Guide (Unicode toLowercase trim)

structure AgentDomain where
  domain   : String
  verified : Bool

-- Before and after the last '@'.
def rsplitOnce (address : String) : Option (String × String) :=
  let reversed := address.toList.reverse
  match reversed.dropWhile (· ≠ '@') with
  | []          => none
  | _ :: before => some (.ofList before.reverse, .ofList (reversed.takeWhile (· ≠ '@')).reverse)

inductive Request
  | setAgentSendMode (mode : AgentSendMode)
  | renameMeta (name : String)
  -- The address, trimmed and in lower case.
  | setAgentAddress (address : String)
  -- The address that the index lists.
  | repairAgentAddress (listed : String)
  deriving DecidableEq

inductive Phase
  -- The record as it was read, and how often it had been written then.
  | read (copy : AgentMeta) (seen : Nat)
  -- An address is written. `previous` is put back if the mailbox's provider cannot be made.
  | written (previous : AgentMeta) (seen : Nat)
  -- The address goes to the store and the index.
  | storing

structure Call where
  request : Request
  phase   : Phase

structure State where
  dir    : String
  disk   : AgentMeta
  writes : Nat := 0
  calls  : Nat → Option Call := fun _ => none
  next   : Nat := 0
  -- The record at the start, as it is read.
  first  : AgentMeta
  -- The settings written by calls that have not failed, in order.
  kept   : List (Nat × Request) := []

inductive Action
  -- `others` are the agents of other mailboxes.
  | call (request : Request) (others : List AgentMeta)
  -- `domains` is what the service answers, and `ok` whether the file is written.
  | write (id : Nat) (domains : Option (List AgentDomain)) (ok : Bool)
  -- Makes the provider for a new address. `back` is whether the file is written back when that fails.
  | provide (id : Nat) (ok back : Bool)
  | finish (id : Nat) (ok : Bool)

def State.put (s : State) (id : Nat) (call : Call) : State :=
  { s with calls := Function.update s.calls id (some call) }

def State.drop (s : State) (id : Nat) : State :=
  { s with calls := Function.update s.calls id none }

def State.store (s : State) (m : AgentMeta) : State :=
  { s with disk := m, writes := s.writes + 1 }

def Request.sets : Request → Bool
  | repairAgentAddress _ => false
  | _                    => true

def State.keep (s : State) (id : Nat) (request : Request) : State :=
  if request.sets then { s with kept := s.kept ++ [(id, request)] } else s

-- A call that fails is not one that set anything.
def State.fail (s : State) (id : Nat) : State :=
  { s.drop id with kept := s.kept.filter (·.1 ≠ id) }

def isAddress (address : String) : Bool :=
  match rsplitOnce address with
  | none           => false
  | some (part, _) => part ≠ "" ∧ ¬part.toList.any isWhitespace

def taken (copy : AgentMeta) (address : String) (others : List AgentMeta) : Bool :=
  others.any fun a => a.serviceAccount = copy.serviceAccount ∧ (a.address = address ∨ a.managedAddress = some address)

-- Whether the address is the one the service gave, or on one of the user's own domains.
def allowed (copy : AgentMeta) (address : String) (domains : Option (List AgentDomain)) : Bool :=
  copy.managedAddress = some address ∨
    (domains.getD []).any fun d => d.verified ∧ (rsplitOnce address).any (·.2 = d.domain)

-- The record as a call writes it.
def Request.apply (copy : AgentMeta) : Request → AgentMeta
  | setAgentSendMode mode   => { copy with sendMode := mode }
  | renameMeta name         => { copy with name }
  | setAgentAddress address => { copy with address }
  | repairAgentAddress _    => copy

-- Whether the call goes on to write, from the record it reads.
def Request.begins (copy : AgentMeta) (others : List AgentMeta) : Request → Bool
  | setAgentAddress address   => isAddress address ∧ ¬taken copy address others
  | repairAgentAddress listed => listed ≠ copy.address
  | _                         => true

-- What a call is once it has written.
def Request.next (copy : AgentMeta) (seen : Nat) : Request → Option Phase
  | setAgentAddress _    => some (.written copy seen)
  | repairAgentAddress _ => some .storing
  | _                    => none

def Request.mayWrite (copy : AgentMeta) (domains : Option (List AgentDomain)) : Request → Bool
  | setAgentAddress address => allowed copy address domains
  | _                       => true

def State.settle (s : State) (id : Nat) (request : Request) : Option Phase → State
  | some phase => s.put id ⟨request, phase⟩
  | none       => s.drop id

def State.step [Unicode] (s : State) : Action → Option State
  | .call request others =>
    let copy := readMeta s.dir s.disk
    if request.begins copy others then
      some { s.put s.next ⟨request, .read copy s.writes⟩ with next := s.next + 1 }
    else some s
  | .write id domains ok => do
    let ⟨request, .read copy _⟩ ← s.calls id | none
    if request.mayWrite copy domains ∧ ok then
      some (((s.store (request.apply copy)).settle id request (request.next copy (s.writes + 1))).keep id request)
    else some (s.fail id)
  | .provide id ok back => do
    let ⟨request, .written previous _⟩ ← s.calls id | none
    if ok then some (s.put id ⟨request, .storing⟩)
    else if back then some ((s.store previous).fail id)
    else some (s.fail id)
  | .finish id ok => do
    let ⟨_, .storing⟩ ← s.calls id | none
    if ok then some (s.drop id) else some (s.fail id)

def settings [Unicode] : System State Action where
  Start s := s.writes = 0 ∧ s.next = 0 ∧ s.calls = (fun _ => none) ∧ s.kept = [] ∧ s.first = readMeta s.dir s.disk
  step    := State.step

end Kaluta.Agents
