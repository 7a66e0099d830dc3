import Kaluta.Agents.Meta

-- Several agents on one Primitive account: how they come by their addresses, and which of its mail each keeps.
namespace Kaluta.Primitive

open Guide (Unicode toLowercase trim)
open Agents (AgentMeta AgentDomain mailboxAddress localPart rsplitOnce isAddress taken allowed)

-- Which of a Primitive account's mail is one agent's.
structure Routing where
  own      : List String
  others   : List String
  catchAll : Bool

inductive Keep
  | mine
  | unclaimed
  deriving DecidableEq

section Routing

variable [Unicode]

def trimStart (c : Char) (s : String) : String :=
  .ofList (s.toList.dropWhile (· = c))

def trimEnd (c : Char) (s : String) : String :=
  .ofList (s.toList.reverse.dropWhile (· = c)).reverse

-- An address as compared: lower case, without angle brackets or a tag.
def normalize (address : String) : String :=
  let a := toLowercase (trim (trimEnd '>' (trimStart '<' (trim address))))
  match rsplitOnce a with
  | some (part, domain) => .ofList (part.toList.takeWhile (· ≠ '+')) ++ "@" ++ domain
  | none                => a

def anyOf (found list : List String) : Bool :=
  list.any (normalize · ∈ found)

def found (addresses : List String) : List String :=
  (addresses.map normalize).filter (· ≠ "")

-- Whether an agent keeps mail carrying addresses, and why.
def Routing.keeps (routing : Routing) (addresses : List String) : Option Keep :=
  if anyOf (found addresses) routing.own then some .mine
  else if ¬routing.catchAll ∨ anyOf (found addresses) routing.others then none
  else some .unclaimed

-- The addresses in a header, which `parsed` reads.
def addressesIn (parsed : String → List String) (value : String) : List String :=
  let emails := (parsed value).filter (· ≠ "")
  if emails = [] ∧ '@' ∈ value.toList then [trim value] else emails

variable (parsed : String → List String) (routing : Routing)

-- What a row says of whose it is.
def given (field : Option String) : Option String :=
  field.filter (trim · ≠ "")

-- Whether a listing gives a row. Rows that do not say whose they are are decided when fetched.
def lists (field : Option String) : Bool :=
  match given field with
  | some value => (routing.keeps (addressesIn parsed value)).isSome
  | none       => true

-- `raw` are the recipients that the raw message names.
def fetchInbound (toEmail : Option String) (raw : List String) : Option Keep :=
  match given toEmail with
  | some value => routing.keeps (addressesIn parsed value)
  | none       => routing.keeps raw

def fetchOutbound (fromHeader : String) : Option Keep :=
  routing.keeps (addressesIn parsed fromHeader)

end Routing

-- An agent on disk.
abbrev Agent := String × AgentMeta

def addressesOf (m : AgentMeta) : List String :=
  m.address :: (m.managedAddress.filter (· ≠ m.address)).toList

def earlier (a b : Agent) : Bool :=
  a.2.createdAt < b.2.createdAt ∨ a.2.createdAt = b.2.createdAt ∧ a.1 ≤ b.1

-- The oldest.
def first : List Agent → Option Agent
  | []      => none
  | a :: as =>
    match first as with
    | none   => some a
    | some b => some (if earlier a b then a else b)

-- Which mail is an agent's, from the agents on disk now. `fallback` is the agent as its sync started.
def primitiveRouting (agents : List Agent) (id : String) (fallback : AgentMeta) : Routing where
  own      := addressesOf (((agents.find? (·.1 = id)).map Prod.snd).getD fallback)
  others   := (agents.filter (·.1 ≠ id)).flatMap fun a => addressesOf a.2
  catchAll := (first agents).all (·.1 = id)

-- A call that sets an address: the record as it read it, and whether it wrote the address.
structure Call where
  id      : String
  address : String
  copy    : AgentMeta
  written : Bool := false
  deriving DecidableEq

structure State where
  created : Bool := false
  account : String := ""
  -- The service's own domain for the account.
  managed : Option String := none
  agents  : List Agent := []
  calls   : List Call := []
  deriving DecidableEq

inductive Action
  -- `given` is what the service answers.
  | create (id given name : String) (createdAt : Int)
  -- `verified` are the account's own domains.
  | add (id name : String) (domain : Option String) (verified : List String) (createdAt : Int)
  | call (id address : String)
  | write (n : Nat) (domains : Option (List AgentDomain))
  -- Makes the provider for a new address; when that fails, the record read is put back.
  | provide (n : Nat) (ok : Bool)
  | remove (id : String)

section Step

variable [Unicode]

def domainOf (address : String) : Option String :=
  (rsplitOnce address).map fun p => toLowercase p.2

-- Writing a record makes its directory.
def State.put (s : State) (id : String) (m : AgentMeta) : State :=
  { s with agents := s.agents.filter (·.1 ≠ id) ++ [(id, m)] }

def State.others (s : State) (id : String) : List AgentMeta :=
  (s.agents.filter (·.1 ≠ id)).map Prod.snd

-- The domain that an agent is added on: one of the account's own, or the service's.
def State.domainFor (s : State) (domain : Option String) (verified : List String) : Option String :=
  match domain.map fun d => toLowercase (trimEnd '.' (trim d)) with
  | none   => s.managed
  | some d => if some d = s.managed then s.managed else if d ∈ verified then some d else none

def State.addTaken (s : State) (address managed : String) : Bool :=
  s.agents.any fun a => a.2.address = address ∨ a.2.managedAddress = some managed

def State.step (s : State) : Action → Option State
  | .create id given name createdAt =>
    if s.created then none
    else
      let address := mailboxAddress given name
      some {
        created := true
        account := id
        managed := domainOf address
        agents  := [(id, { address, name, createdAt, managedAddress := some address, serviceAccount := id })] }
  | .add id name domain verified createdAt =>
    if id ∈ s.agents.map Prod.fst then some s
    else match s.domainFor domain verified, s.managed with
      | some d, some m =>
        let address := localPart name ++ "@" ++ d
        let managed := localPart name ++ "@" ++ m
        if s.agents = [] ∨ s.addTaken address managed then some s
        else some (s.put id { address, name, createdAt, managedAddress := some managed, serviceAccount := s.account })
      | _     , _      => some s
  | .call id address =>
    let address := toLowercase (trim address)
    match s.agents.find? (·.1 = id) with
    | none           => some s
    | some (_, copy) =>
      if isAddress address ∧ ¬taken copy address (s.others id) then
        some { s with calls := s.calls ++ [{ id, address, copy }] }
      else some s
  | .write n domains =>
    match s.calls[n]? with
    | none   => none
    | some c =>
      if c.written then none
      else if allowed c.copy c.address domains then
        some { s.put c.id { c.copy with address := c.address } with calls := s.calls.set n { c with written := true } }
      else some { s with calls := s.calls.eraseIdx n }
  | .provide n ok =>
    match s.calls[n]? with
    | none   => none
    | some c =>
      if ¬c.written then none
      else if ok then some { s with calls := s.calls.eraseIdx n }
      else some { s.put c.id c.copy with calls := s.calls.eraseIdx n }
  | .remove id => some { s with agents := s.agents.filter (·.1 ≠ id) }

def addressing : System State Action where
  Start s := s = {}
  step    := State.step

end Step

end Kaluta.Primitive
