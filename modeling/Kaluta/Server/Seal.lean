import Mathlib.Logic.Basic

-- The rules server's encryption at rest, taken to be ideal: a box opens with what it was closed with and
-- with nothing else, and says nothing to anyone else.
namespace Kaluta.Server

abbrev AgentId := Nat
abbrev KeyId   := String
abbrev Secret  := Nat -- What a random source yields.
abbrev Key     := Nat

abbrev PublicKey := Nat

-- A static agent token: its agent's id can be read off it.
structure AgentToken where
  id     : AgentId
  secret : Secret
  deriving DecidableEq

-- What opens an agent's key: the whole of its static token, or the secret that its grant's tokens carry.
inductive CredentialSecret
  | agentToken (token : AgentToken)
  | grantSecret (secret : Secret)
  deriving DecidableEq

-- An agent's key, wrapped under its credential.
structure KeyWrap where
  credential : CredentialSecret
  agentId    : AgentId
  key        : Key
  deriving DecidableEq

-- An agent's key, sealed to the app.
structure AppSeal where
  app     : PublicKey
  agentId : AgentId
  key     : Key
  deriving DecidableEq

-- The key of a snapshot, wrapped under an agent's key.
structure SnapshotWrap where
  agentKey    : Key
  agentId     : AgentId
  keyId       : KeyId
  snapshotKey : Key
  deriving DecidableEq

-- A snapshot's JSON sealed under its key, for an address, at a version.
structure SnapshotBox where
  key           : Key
  keyId         : KeyId
  address       : String
  version       : Int
  schemaVersion : Nat
  json          : String
  deriving DecidableEq

-- What an agent wrote, sealed to the app.
structure ReportBox (α : Type u) where
  app     : PublicKey
  address : String
  agentId : AgentId
  content : α
  deriving DecidableEq

def wrapAgentKey (credential : CredentialSecret) (key : Key) (agentId : AgentId) : KeyWrap :=
  { credential, agentId, key }

def unwrapAgentKey (credential : CredentialSecret) (wrapped : KeyWrap) (agentId : AgentId) : Option Key :=
  if wrapped.credential = credential ∧ wrapped.agentId = agentId then some wrapped.key else none

def wrapSnapshotKey (agentKey snapshotKey : Key) (agentId : AgentId) (keyId : KeyId) : SnapshotWrap :=
  { agentKey, agentId, keyId, snapshotKey }

def unwrapSnapshotKey (agentKey : Key) (wrapped : SnapshotWrap) (agentId : AgentId) (keyId : KeyId) : Option Key :=
  if wrapped.agentKey = agentKey ∧ wrapped.agentId = agentId ∧ wrapped.keyId = keyId then
    some wrapped.snapshotKey
  else
    none

def openAgentKeyForApp (app : PublicKey) (sealed : AppSeal) (agentId : AgentId) : Option Key :=
  if sealed.app = app ∧ sealed.agentId = agentId then some sealed.key else none

@[simp]
theorem unwrap_wrapAgentKey : unwrapAgentKey credential (wrapAgentKey credential key agent) agent = some key := by
  simp [unwrapAgentKey, wrapAgentKey]

theorem unwrapAgentKey_eq_some {wrapped : KeyWrap} : unwrapAgentKey credential wrapped agent = some key ↔
    wrapped = wrapAgentKey credential key agent := by
  rcases wrapped with ⟨c, a, k⟩
  simp [unwrapAgentKey, wrapAgentKey, and_assoc]

@[simp]
theorem unwrap_wrapSnapshotKey :
    unwrapSnapshotKey key (wrapSnapshotKey key snapshotKey agent keyId) agent keyId = some snapshotKey := by
  simp [unwrapSnapshotKey, wrapSnapshotKey]

-- What the server is set up with, and what is not its own code: how base64, points of the curve, SHA-256,
-- addresses and URLs are read.
structure Config where
  resource          : String := ""
  requireEncryption : Bool := false
  appPublicKey      : String → Option PublicKey
  contributory      : PublicKey → Bool -- Whether something can be sealed to a public key.
  s256              : String → String
  sameResource      : String → Bool
  normalizeAddress  : String → Option String

variable (cfg : Config)

def sealAgentKeyForApp (app : PublicKey) (key : Key) (agentId : AgentId) : Option AppSeal :=
  if cfg.contributory app then some { app, agentId, key } else none

theorem sealAgentKeyForApp_eq_some {sealed : AppSeal} : sealAgentKeyForApp cfg app key agent = some sealed ↔
    cfg.contributory app = true ∧ sealed = { app, agentId := agent, key } := by
  rw [sealAgentKeyForApp]
  split
  case isTrue h  => simp [h, eq_comm]
  case isFalse h => simp [h]

end Kaluta.Server
