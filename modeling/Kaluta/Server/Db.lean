import Kaluta.Store.Basic
import Kaluta.Lib.Table
import Kaluta.Server.Seal

namespace Kaluta.Server

abbrev MailboxId := Nat
abbrev ClientId  := Nat

structure MailboxRow where
  id             : MailboxId
  address        : String
  appKey         : Option String := none -- The app's public key.
  reportsDropped : Nat := 0

structure SnapshotRow where
  mailboxId     : MailboxId
  version       : Int
  json          : String -- Empty when it is sealed.
  publishedAt   : Millis
  keyId         : Option KeyId := none
  sealed        : Option SnapshotBox := none
  schemaVersion : Option Nat := none
  deriving DecidableEq

inductive AgentKind
  | token -- A static agent token.
  | oauth -- A grant made with a connect code, whose tokens are in `oauthTokens`.
  deriving DecidableEq

structure AgentTokenRow where
  id        : AgentId
  mailboxId : MailboxId
  token     : Option AgentToken -- As its hash tells it apart from every other.
  revokedAt : Option Millis := none
  kind      : AgentKind
  clientId  : Option ClientId := none
  keyWrap   : Option KeyWrap := none
  appSeal   : Option AppSeal := none
  deriving DecidableEq

structure SnapshotKeyRow where
  mailboxId : MailboxId
  keyId     : KeyId
  agentId   : AgentId
  wrap      : SnapshotWrap
  deriving DecidableEq

structure ClientRow where
  id        : ClientId
  createdAt : Millis

structure ConnectCodeRow where
  code      : Secret
  mailboxId : MailboxId
  expiresAt : Millis
  usedAt    : Option Millis := none

structure AuthCodeRow where
  code          : Secret
  grantId       : AgentId
  clientId      : ClientId
  redirectUri   : String
  codeChallenge : String
  resource      : String
  expiresAt     : Millis
  usedAt        : Option Millis := none
  deriving DecidableEq

inductive TokenKind
  | access
  | refresh
  deriving DecidableEq

-- A token, which its hash tells apart from every other, and the grant's secret that it carries.
structure OAuthToken where
  kind   : TokenKind
  nonce  : Secret
  secret : Option Secret -- None in a token from before there were grant secrets.
  deriving DecidableEq

structure OAuthTokenRow where
  token     : OAuthToken
  kind      : TokenKind
  grantId   : AgentId
  resource  : String
  expiresAt : Millis
  usedAt    : Option Millis := none
  deriving DecidableEq

-- What an agent says it sent, and what the guide's check made of it.
structure ReportContent where
  messageId    : Option String := none
  recipients   : List String := []
  subject      : String := ""
  bodyMarkdown : String := ""
  guideCheck   : List String := []
  deriving DecidableEq

structure ReportRow where
  id             : Nat
  mailboxId      : MailboxId
  agentId        : AgentId
  receivedAt     : Millis
  content        : ReportContent
  sentAt         : Option Millis := none
  checkedVersion : Option Int := none
  checkVersion   : Option Int := none
  sealed         : Option (ReportBox ReportContent) := none -- The content is empty then.
  deriving DecidableEq

-- The server's one file.
structure Db where
  mailboxes    : Table MailboxRow (·.id) := ∅
  snapshots    : Table SnapshotRow (fun r => (r.mailboxId, r.version)) := ∅
  agentTokens  : Table AgentTokenRow (·.id) := ∅
  snapshotKeys : Table SnapshotKeyRow (fun r => (r.keyId, r.agentId)) := ∅
  clients      : Table ClientRow (·.id) := ∅
  connectCodes : Table ConnectCodeRow (·.code) := ∅
  oauthCodes   : Table AuthCodeRow (·.code) := ∅
  oauthTokens  : Table OAuthTokenRow (·.token) := ∅
  reports      : Table ReportRow (·.id) := ∅
  reportSeq    : Nat := 0 -- The largest id that a report ever had.

def KEEP_VERSIONS : Nat := 5
def SPENT_MS : Int := 24 * 3600000
def UNUSED_CLIENT_MS : Int := 7 * 24 * 3600000
def MAX_PENDING_REPORTS : Nat := 10000
def REPORT_RETENTION_MS : Int := 30 * 24 * 3600000

namespace Db

-- Mailboxes

-- The first registration wins.
def insertMailbox (db : Db) (address : String) : Db × Bool :=
  if db.mailboxes.rows.any (·.address = address) then
    (db, false)
  else
    ({ db with mailboxes := db.mailboxes.insertRow (fun id => { id, address }) fun _ => rfl }, true)

-- What belongs to the agents goes with them.
def deleteMailbox (db : Db) (mailbox : MailboxId) : Db :=
  let agents := (db.agentTokens.rows.filter (·.mailboxId = mailbox)).map (·.id)
  { db with
    mailboxes    := db.mailboxes.delete (·.id = mailbox)
    snapshots    := db.snapshots.delete (·.mailboxId = mailbox)
    agentTokens  := db.agentTokens.delete (·.mailboxId = mailbox)
    snapshotKeys := db.snapshotKeys.delete fun r => r.mailboxId = mailbox || r.agentId ∈ agents
    connectCodes := db.connectCodes.delete (·.mailboxId = mailbox)
    oauthCodes   := db.oauthCodes.delete (·.grantId ∈ agents)
    oauthTokens  := db.oauthTokens.delete (·.grantId ∈ agents)
    reports      := db.reports.delete (·.mailboxId = mailbox) }

def appKey (db : Db) (mailbox : MailboxId) : Option String :=
  (db.mailboxes.find? mailbox).bind (·.appKey)

-- A new key makes every agent's key that is sealed to the old one useless.
def setAppKey (db : Db) (mailbox : MailboxId) (key : String) : Db :=
  if db.mailboxes.rows.any fun m => m.id = mailbox && m.appKey ≠ some key then
    { db with
      mailboxes   := db.mailboxes.update (·.id = mailbox) ({ · with appKey := some key }) fun _ => rfl
      agentTokens := db.agentTokens.update (·.mailboxId = mailbox) ({ · with appSeal := none }) fun _ => rfl }
  else
    db

-- Snapshots

def latestSnapshot (db : Db) (mailbox : MailboxId) : Option SnapshotRow :=
  (db.snapshots.rows.filter (·.mailboxId = mailbox)).maxOn? (·.version)

-- Stores a snapshot and drops all but the newest of its mailbox, and the wraps of keys that no
-- snapshot uses.
def insertSnapshot (db : Db) (row : SnapshotRow) : Option Db := do
  if db.mailboxes.find? row.mailboxId = none then none
  let snapshots ← db.snapshots.insert? row
  let newer (r : SnapshotRow) := snapshots.rows.countP fun r' => r'.mailboxId = r.mailboxId && r.version < r'.version
  let snapshots := snapshots.delete fun r => r.mailboxId = row.mailboxId && KEEP_VERSIONS ≤ newer r
  let keyIds := (snapshots.rows.filter (·.mailboxId = row.mailboxId)).filterMap (·.keyId)
  some { db with
    snapshots
    snapshotKeys := db.snapshotKeys.delete fun r => r.mailboxId = row.mailboxId && r.keyId ∉ keyIds }

-- A mailbox's plaintext snapshots go once it publishes encrypted ones.
def deletePlainSnapshots (db : Db) (mailbox : MailboxId) : Db :=
  { db with snapshots := db.snapshots.delete fun r => r.mailboxId = mailbox && r.sealed = none }

def hasKeyId (db : Db) (mailbox : MailboxId) (keyId : KeyId) : Bool :=
  db.snapshots.rows.any fun r => r.mailboxId = mailbox && r.keyId = some keyId

-- Agents

-- An agent with the address of its mailbox.
def agentToken (db : Db) (id : AgentId) : Option (AgentTokenRow × String) := do
  let row ← db.agentTokens.find? id
  let mailbox ← db.mailboxes.find? row.mailboxId
  some (row, mailbox.address)

def insertAgentToken (db : Db) (row : AgentTokenRow) : Option Db := do
  if db.mailboxes.find? row.mailboxId = none then none
  some { db with agentTokens := ← db.agentTokens.insert? row }

def agentKeys (db : Db) (agent : AgentId) : Option KeyWrap × Option AppSeal :=
  match db.agentTokens.find? agent with
  | some row => (row.keyWrap, row.appSeal)
  | none     => (none, none)

def updateAgent (db : Db) (p : AgentTokenRow → Bool) (keyWrap : Option KeyWrap → Option KeyWrap)
    (appSeal : Option AppSeal → Option AppSeal) : Db :=
  { db with
    agentTokens := db.agentTokens.update p
      (fun r => { r with keyWrap := keyWrap r.keyWrap, appSeal := appSeal r.appSeal }) fun _ => rfl }

-- Stores an agent's new key. Its wraps of earlier snapshot keys were under the old one and go.
def setAgentKeys (db : Db) (agent : AgentId) (keyWrap : KeyWrap) (appSeal : Option AppSeal) : Db :=
  let db := db.updateAgent (fun r => r.id = agent && r.revokedAt = none) (fun _ => some keyWrap) fun _ => appSeal
  { db with snapshotKeys := db.snapshotKeys.delete (·.agentId = agent) }

-- An agent's key, the same one, wrapped under a new credential.
def setKeyWrap (db : Db) (agent : AgentId) (keyWrap : KeyWrap) : Db :=
  db.updateAgent (fun r => r.id = agent && r.revokedAt = none) (fun _ => some keyWrap) id

def setAppSeal (db : Db) (agent : AgentId) (appSeal : AppSeal) : Db :=
  db.updateAgent (fun r => r.id = agent && r.revokedAt = none && r.keyWrap ≠ none) id fun _ => some appSeal

-- Stores the app's wraps of a snapshot key for the mailbox's live agents.
def insertSnapshotKeys (db : Db) (mailbox : MailboxId) (keyId : KeyId) (wraps : List (AgentId × SnapshotWrap)) :
    Db :=
  wraps.foldl (fun db (agentId, wrap) =>
    if db.agentTokens.rows.any fun r => r.id = agentId && r.mailboxId = mailbox && r.revokedAt = none then
      { db with snapshotKeys := db.snapshotKeys.replace { mailboxId := mailbox, keyId, agentId, wrap } }
    else db) db

-- A revoked agent's codes, tokens and keys are of no use.
def forgetGrantSecrets (db : Db) (id : AgentId) : Db :=
  let db := { db with
    oauthTokens := db.oauthTokens.delete (·.grantId = id)
    oauthCodes  := db.oauthCodes.delete (·.grantId = id) }
  let db := db.updateAgent (·.id = id) (fun _ => none) fun _ => none
  { db with snapshotKeys := db.snapshotKeys.delete (·.agentId = id) }

-- Revoking twice keeps the first time.
def markRevoked (db : Db) (p : AgentTokenRow → Bool) (now : Millis) : Db :=
  { db with
    agentTokens := db.agentTokens.update p (fun r => { r with revokedAt := some (r.revokedAt.getD now) })
      fun _ => rfl }

def revokeAgentToken (db : Db) (mailbox : MailboxId) (id : AgentId) (now : Millis) : Db × Bool :=
  let mine (r : AgentTokenRow) : Bool := r.mailboxId = mailbox && r.id = id
  if db.agentTokens.rows.any mine then
    ((db.markRevoked mine now).forgetGrantSecrets id, true)
  else
    (db, false)

-- An authorization code or a refresh token was used twice.
def revokeGrant (db : Db) (id : AgentId) (now : Millis) : Db :=
  (db.markRevoked (·.id = id) now).forgetGrantSecrets id

-- OAuth

def client (db : Db) (id : ClientId) : Option ClientRow :=
  db.clients.find? id

def insertClient (db : Db) (row : ClientRow) : Option Db := do
  some { db with clients := ← db.clients.insert? row }

-- Drops what has expired, and clients that never connected an agent.
def prune (db : Db) (now : Millis) : Db :=
  let connected := db.agentTokens.rows.filterMap (·.clientId)
  { db with
    connectCodes := db.connectCodes.delete (·.expiresAt < now - SPENT_MS)
    oauthCodes   := db.oauthCodes.delete (·.expiresAt < now - SPENT_MS)
    oauthTokens  := db.oauthTokens.delete (·.expiresAt < now - SPENT_MS)
    clients      := db.clients.delete fun c => c.createdAt < now - UNUSED_CLIENT_MS && c.id ∉ connected }

def insertConnectCode (db : Db) (row : ConnectCodeRow) : Option Db := do
  if db.mailboxes.find? row.mailboxId = none then none
  some { db with connectCodes := ← db.connectCodes.insert? row }

def liveConnectCodes (db : Db) (mailbox : MailboxId) (now : Millis) : Nat :=
  db.connectCodes.rows.countP fun r => r.mailboxId = mailbox && r.usedAt = none && now < r.expiresAt

-- A connect code's mailbox, once, if the code is unused and unexpired.
def redeemConnectCode (db : Db) (code : Secret) (now : Millis) : Option (Db × MailboxId) :=
  match db.connectCodes.find? code with
  | none     => none
  | some row =>
    if row.usedAt = none ∧ now < row.expiresAt then
      some ({ db with
        connectCodes := db.connectCodes.update (·.code = code) ({ · with usedAt := some now }) fun _ => rfl },
        row.mailboxId)
    else
      none

def insertAuthCode (db : Db) (row : AuthCodeRow) : Option Db := do
  if db.agentTokens.find? row.grantId = none then none
  some { db with oauthCodes := ← db.oauthCodes.insert? row }

def authCode (db : Db) (code : Secret) : Option AuthCodeRow :=
  db.oauthCodes.find? code

def useAuthCode (db : Db) (code : Secret) (now : Millis) : Db :=
  { db with oauthCodes := db.oauthCodes.update (·.code = code) ({ · with usedAt := some now }) fun _ => rfl }

def insertOAuthToken (db : Db) (row : OAuthTokenRow) : Option Db := do
  if db.agentTokens.find? row.grantId = none then none
  some { db with oauthTokens := ← db.oauthTokens.insert? row }

def oauthToken (db : Db) (token : OAuthToken) : Option OAuthTokenRow :=
  db.oauthTokens.find? token

-- A grant's access tokens end: its refresh made new ones.
def deleteAccessTokens (db : Db) (grantId : AgentId) : Db :=
  { db with oauthTokens := db.oauthTokens.delete fun r => r.grantId = grantId && r.kind = .access }

-- A refresh token was exchanged: it may not be again.
def useOAuthToken (db : Db) (token : OAuthToken) (now : Millis) : Db :=
  { db with
    oauthTokens := db.oauthTokens.update (·.token = token) ({ · with usedAt := some now }) fun _ => rfl }

-- Reports

-- Stores a report and drops the mailbox's oldest beyond the number that it may have.
def insertReport (db : Db) (row : ReportRow) (maxPending : Nat) : Option Db := do
  if db.mailboxes.find? row.mailboxId = none then none
  let reports ← db.reports.insert? { row with id := db.reportSeq + 1 }
  let newer (r : ReportRow) := reports.rows.countP fun r' => r'.mailboxId = r.mailboxId && r.id < r'.id
  let excess (r : ReportRow) : Bool := r.mailboxId = row.mailboxId && maxPending ≤ newer r
  some { db with
    reports   := reports.delete excess
    reportSeq := db.reportSeq + 1
    mailboxes := db.mailboxes.update (·.id = row.mailboxId)
      (fun m => { m with reportsDropped := m.reportsDropped + reports.rows.countP excess }) fun _ => rfl }

def plainReports (db : Db) (mailbox : MailboxId) : List ReportRow :=
  db.reports.rows.filter fun r => r.mailboxId = mailbox && r.sealed = none

-- A report's content replaced by its box sealed to the app.
def sealReport (db : Db) (id : Nat) (sealed : ReportBox ReportContent) : Db :=
  { db with
    reports := db.reports.update (·.id = id) ({ · with content := {}, sealed := some sealed }) fun _ => rfl }

def deleteReport (db : Db) (id : Nat) : Db :=
  { db with reports := db.reports.delete (·.id = id) }

def ackReports (db : Db) (mailbox : MailboxId) (upTo : Nat) : Db :=
  { db with reports := db.reports.delete fun r => r.mailboxId = mailbox && r.id ≤ upTo }

def sweepReports (db : Db) (now : Millis) : Db :=
  { db with reports := db.reports.delete (·.receivedAt < now - REPORT_RETENTION_MS) }

-- What a call of the database leaves as it is

variable {db db' : Db}

theorem setAppKey_frame : ∃ m a, db.setAppKey mailbox key = { db with mailboxes := m, agentTokens := a } := by
  rw [setAppKey]
  split
  · exact ⟨_, _, rfl⟩
  · exact ⟨_, _, rfl⟩

theorem insertSnapshotKeys_frame :
    ∃ k, db.insertSnapshotKeys mailbox keyId wraps = { db with snapshotKeys := k } := by
  rw [insertSnapshotKeys]
  induction wraps generalizing db
  case nil            => exact ⟨_, rfl⟩
  case cons wrap _ ih =>
    simp only [List.foldl_cons]
    split
    · exact ih
    · exact ih

@[simp]
theorem setAppKey_snapshots : (db.setAppKey mailbox key).snapshots = db.snapshots := by
  obtain ⟨_, _, h⟩ := @setAppKey_frame db mailbox key
  rw [h]

@[simp]
theorem setAppKey_reports : (db.setAppKey mailbox key).reports = db.reports := by
  obtain ⟨_, _, h⟩ := @setAppKey_frame db mailbox key
  rw [h]

@[simp]
theorem insertSnapshotKeys_mailboxes : (db.insertSnapshotKeys mailbox keyId wraps).mailboxes = db.mailboxes := by
  obtain ⟨_, h⟩ := @insertSnapshotKeys_frame db mailbox keyId wraps
  rw [h]

@[simp]
theorem insertSnapshotKeys_snapshots : (db.insertSnapshotKeys mailbox keyId wraps).snapshots = db.snapshots := by
  obtain ⟨_, h⟩ := @insertSnapshotKeys_frame db mailbox keyId wraps
  rw [h]

@[simp]
theorem insertSnapshotKeys_reports : (db.insertSnapshotKeys mailbox keyId wraps).reports = db.reports := by
  obtain ⟨_, h⟩ := @insertSnapshotKeys_frame db mailbox keyId wraps
  rw [h]

theorem setAgentKeys_frame : ∃ a k, db.setAgentKeys agent w s = { db with agentTokens := a, snapshotKeys := k } :=
  ⟨_, _, rfl⟩

theorem insertSnapshot_frame (h : db.insertSnapshot row = some db') :
    ∃ s k, db' = { db with snapshots := s, snapshotKeys := k } := by
  unfold insertSnapshot at h
  split at h
  case isTrue  => cases h
  case isFalse =>
    obtain ⟨s, _, h⟩ := Option.bind_eq_some_iff.mp h
    cases h
    exact ⟨_, _, rfl⟩

theorem mem_insertSnapshot (h : db.insertSnapshot row = some db') (hr : r ∈ db'.snapshots) :
    r ∈ db.snapshots ∨ r = row := by
  unfold insertSnapshot at h
  split at h
  case isTrue  => cases h
  case isFalse =>
    obtain ⟨s, hs, h⟩ := Option.bind_eq_some_iff.mp h
    cases h
    exact (Table.mem_insert? hs).mp (Table.mem_delete.mp hr).left

theorem latestSnapshot_mem (h : db.latestSnapshot mailbox = some r) : r ∈ db.snapshots ∧ r.mailboxId = mailbox := by
  have := List.mem_filter.mp (List.maxOn?_mem h)
  exact ⟨this.left, of_decide_eq_true this.right⟩

theorem exists_latestSnapshot (hr : r ∈ db.snapshots) :
    ∃ s, db.latestSnapshot r.mailboxId = some s ∧ r.version ≤ s.version := by
  have hm : r ∈ db.snapshots.rows.filter (·.mailboxId = r.mailboxId) := List.mem_filter.mpr ⟨hr, decide_eq_true rfl⟩
  exact ⟨_, (Option.some_get (List.isSome_maxOn?_of_mem hm)).symm, List.le_apply_get_maxOn?_of_mem hm⟩

theorem latestSnapshot_eq_some (hr : r ∈ db.snapshots)
    (h : ∀ r' ∈ db.snapshots, r'.mailboxId = r.mailboxId → r' = r ∨ r'.version < r.version) :
    db.latestSnapshot r.mailboxId = some r := by
  obtain ⟨s, hs, hle⟩ := exists_latestSnapshot hr
  have ⟨hm, hid⟩ := latestSnapshot_mem hs
  rcases h s hm hid with rfl | hlt
  · exact hs
  · exact absurd hlt (not_lt.mpr hle)

-- A snapshot that is newer than what there is becomes the newest.
theorem latestSnapshot_insertSnapshot (h : db.insertSnapshot row = some db')
    (hn : ∀ s, db.latestSnapshot row.mailboxId = some s → s.version < row.version) :
    row ∈ db'.snapshots ∧ ∀ r ∈ db'.snapshots, r.mailboxId = row.mailboxId → r = row ∨ r.version < row.version := by
  have older (r) (hr : r ∈ db.snapshots) (hm : r.mailboxId = row.mailboxId) : r.version < row.version := by
    obtain ⟨s, hs, hle⟩ := exists_latestSnapshot hr
    exact hle.trans_lt (hn s (hm ▸ hs))
  refine ⟨?_, fun r hr hm => (mem_insertSnapshot h hr).symm.imp_right fun hr => older r hr hm⟩
  unfold insertSnapshot at h
  split at h
  case isTrue  => cases h
  case isFalse =>
    obtain ⟨t, ht, h⟩ := Option.bind_eq_some_iff.mp h
    cases h
    refine Table.mem_delete.mpr ⟨(Table.mem_insert? ht).mpr (.inr rfl), ?_⟩
    have none_newer : t.rows.countP (fun r => r.mailboxId = row.mailboxId && row.version < r.version) = 0 := by
      rw [List.countP_eq_zero]
      intro r hr hp
      simp only [Bool.and_eq_true, decide_eq_true_eq] at hp
      rcases (Table.mem_insert? ht).mp hr with hr | rfl
      · exact absurd (older r hr hp.left) (not_lt.mpr hp.right.le)
      · exact lt_irrefl _ hp.right
    simp [none_newer, KEEP_VERSIONS]

theorem mem_snapshotKeys_insertSnapshot (h : db.insertSnapshot row = some db') (hr : r ∈ db'.snapshotKeys) :
    r ∈ db.snapshotKeys := by
  unfold insertSnapshot at h
  split at h
  case isTrue  => cases h
  case isFalse =>
    obtain ⟨s, _, h⟩ := Option.bind_eq_some_iff.mp h
    cases h
    exact (Table.mem_delete.mp hr).left

theorem appKey_congr (h : db'.mailboxes = db.mailboxes) : db'.appKey m = db.appKey m := by
  rw [appKey, h, appKey]

theorem appKey_setAppKey_of_ne (h : m ≠ mailbox) : (db.setAppKey mailbox key).appKey m = db.appKey m := by
  rw [setAppKey]
  split
  · simp only [appKey, Table.find?_update]
    cases hm : db.mailboxes.find? m
    case none => rfl
    case some row =>
      have : row.id ≠ mailbox := Table.find?_key_eq hm ▸ h
      simp [this]
  · rfl

theorem appKey_setAppKey_self (h : (db.setAppKey mailbox key).appKey mailbox = some k) : k = key := by
  rw [setAppKey] at h
  split at h
  case isTrue =>
    simp only [appKey, Table.find?_update] at h
    cases hm : db.mailboxes.find? mailbox
    case none     => simp [hm] at h
    case some row => simpa [hm, Table.find?_key_eq hm, eq_comm] using h
  case isFalse hn =>
    obtain ⟨row, hm, hk⟩ := Option.bind_eq_some_iff.mp h
    have hm := Table.find?_eq_some_iff.mp hm
    by_contra hne
    refine hn (List.any_eq_true.mpr ⟨row, hm.left, ?_⟩)
    simp [hm.right, hk, hne]

theorem insertReport_frame (h : db.insertReport row maxPending = some db') :
    ∃ m r n, db' = { db with mailboxes := m, reports := r, reportSeq := n } := by
  unfold insertReport at h
  split at h
  case isTrue  => cases h
  case isFalse =>
    obtain ⟨_, _, h⟩ := Option.bind_eq_some_iff.mp h
    cases h
    exact ⟨_, _, _, rfl⟩

theorem appKey_insertReport (h : db.insertReport row maxPending = some db') : db'.appKey m = db.appKey m := by
  unfold insertReport at h
  split at h
  case isTrue  => cases h
  case isFalse =>
    obtain ⟨_, _, h⟩ := Option.bind_eq_some_iff.mp h
    cases h
    simp only [appKey, Table.find?_update]
    cases db.mailboxes.find? m
    case none => rfl
    case some => simp only [Option.map_some, Option.bind_some]; split <;> rfl

theorem mem_insertReport (h : db.insertReport row maxPending = some db') (hr : r ∈ db'.reports) :
    r ∈ db.reports ∨ ∃ id, r = { row with id } := by
  unfold insertReport at h
  split at h
  case isTrue  => cases h
  case isFalse =>
    obtain ⟨t, ht, h⟩ := Option.bind_eq_some_iff.mp h
    cases h
    exact ((Table.mem_insert? ht).mp (Table.mem_delete.mp hr).left).imp_right fun h => ⟨_, h⟩

theorem mem_sealReport : r ∈ (db.sealReport n box).reports ↔
    (r ∈ db.reports ∧ r.id ≠ n) ∨ ∃ q ∈ db.reports, q.id = n ∧ { q with content := {}, sealed := some box } = r := by
  simp [sealReport]

theorem mem_deleteReport : r ∈ (db.deleteReport n).reports ↔ r ∈ db.reports ∧ r.id ≠ n := by
  simp [deleteReport]

theorem revokeGrant_frame : ∃ a k t c, db.revokeGrant grant now =
    { db with agentTokens := a, snapshotKeys := k, oauthTokens := t, oauthCodes := c } :=
  ⟨_, _, _, _, rfl⟩

theorem revokeAgentToken_frame : ∃ a k t c, (db.revokeAgentToken mailbox agent now).1 =
    { db with agentTokens := a, snapshotKeys := k, oauthTokens := t, oauthCodes := c } := by
  rw [revokeAgentToken]
  split
  · exact ⟨_, _, _, _, rfl⟩
  · exact ⟨_, _, _, _, rfl⟩

theorem insertAgentToken_eq_some (h : db.insertAgentToken row = some db') :
    ∃ a, db.agentTokens.insert? row = some a ∧ db' = { db with agentTokens := a } := by
  unfold insertAgentToken at h
  split at h
  case isTrue  => cases h
  case isFalse =>
    obtain ⟨a, ha, h⟩ := Option.bind_eq_some_iff.mp h
    cases h
    exact ⟨a, ha, rfl⟩

theorem insertAuthCode_eq_some (h : db.insertAuthCode row = some db') :
    ∃ c, db.oauthCodes.insert? row = some c ∧ db' = { db with oauthCodes := c } := by
  unfold insertAuthCode at h
  split at h
  case isTrue  => cases h
  case isFalse =>
    obtain ⟨c, hc, h⟩ := Option.bind_eq_some_iff.mp h
    cases h
    exact ⟨c, hc, rfl⟩

theorem insertOAuthToken_eq_some (h : db.insertOAuthToken row = some db') :
    ∃ t, db.oauthTokens.insert? row = some t ∧ db' = { db with oauthTokens := t } := by
  unfold insertOAuthToken at h
  split at h
  case isTrue  => cases h
  case isFalse =>
    obtain ⟨t, ht, h⟩ := Option.bind_eq_some_iff.mp h
    cases h
    exact ⟨t, ht, rfl⟩

theorem insertConnectCode_frame (h : db.insertConnectCode row = some db') :
    ∃ c, db' = { db with connectCodes := c } := by
  unfold insertConnectCode at h
  split at h
  case isTrue  => cases h
  case isFalse =>
    obtain ⟨c, _, h⟩ := Option.bind_eq_some_iff.mp h
    cases h
    exact ⟨c, rfl⟩

theorem redeemConnectCode_frame (h : db.redeemConnectCode code now = some (db', mailbox)) :
    ∃ c, db' = { db with connectCodes := c } := by
  simp only [redeemConnectCode] at h
  split at h
  case h_1 => cases h
  case h_2 =>
    split at h
    case isTrue  => cases h; exact ⟨_, rfl⟩
    case isFalse => cases h

theorem insertClient_frame (h : db.insertClient row = some db') : ∃ c, db' = { db with clients := c } := by
  simp only [insertClient, Option.bind_eq_bind, Option.bind_eq_some_iff] at h
  obtain ⟨c, _, h⟩ := h
  cases h
  exact ⟨c, rfl⟩

end Db

end Kaluta.Server
