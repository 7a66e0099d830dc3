import Kaluta.Server.OAuth
import Kaluta.Lib.Fallible

namespace Kaluta.Server

variable (cfg : Config)

def SCHEMA_VERSION : Nat := 1
def ENCRYPTION_VERSION : Nat := 2

-- A push's encryption: the box under a fresh key, the app's public key, and the key wrapped per agent.
structure SealedPush where
  encryption    : Nat
  keyId         : KeyId
  ciphertext    : SnapshotBox
  schemaVersion : Nat
  appKey        : String
  wraps         : List (AgentId × SnapshotWrap)

-- A snapshot as the app pushes it: its JSON in plaintext, or sealed.
structure Push where
  address     : String
  version     : Int
  publishedAt : Millis
  json        : String := ""
  sealed      : Option SealedPush := none

-- What a push came to, decided in one transaction.
inductive Pushed
  | stored
  | downgrade -- A plaintext push for a mailbox that publishes encrypted.
  | mismatch (current : Option Int)
  | needsIfMatch (current : Int)
  | notNewer (current : Int)
  deriving DecidableEq

inductive PushError
  | encryptionRequired
  | invalidSnapshot (why : String)
  | mailboxMismatch
  deriving DecidableEq

def validKeyId (k : KeyId) : Bool :=
  1 ≤ k.utf8ByteSize && k.utf8ByteSize ≤ 64 && k.toList.all fun c => c.isAlphanum || c = '-' || c = '_'

-- An encrypted push, checked as far as the server can without a key.
def sealedPush (push : Push) (s : SealedPush) (address : String) : Except PushError SnapshotRow :=
  if s.encryption ≠ ENCRYPTION_VERSION then
    .error (.invalidSnapshot "encryption")
  else if s.schemaVersion ≠ SCHEMA_VERSION then
    .error (.invalidSnapshot "schema_version")
  else if cfg.normalizeAddress push.address ≠ some address then
    .error (.invalidSnapshot "the snapshot is for another mailbox")
  else if ¬validKeyId s.keyId then
    .error (.invalidSnapshot "key_id is 1 to 64 letters, digits, - or _")
  else match cfg.appPublicKey s.appKey with
    | none    => .error (.invalidSnapshot "app_key")
    | some pk =>
      if ¬cfg.contributory pk then
        .error (.invalidSnapshot "app_key: not usable")
      else if 1000 < s.wraps.length then
        .error (.invalidSnapshot "too many wraps")
      else
        .ok {
          mailboxId := 0, version := push.version, json := "", publishedAt := push.publishedAt, keyId := some s.keyId,
          sealed := some s.ciphertext, schemaVersion := some s.schemaVersion }

def plainPush (push : Push) (address : String) : Except PushError SnapshotRow :=
  if cfg.requireEncryption then
    .error .encryptionRequired
  else if cfg.normalizeAddress push.address ≠ some address then
    .error .mailboxMismatch
  else
    .ok { mailboxId := 0, version := push.version, json := push.json, publishedAt := push.publishedAt }

-- The row that a push would store, before the mailbox is known.
def checkPush (push : Push) (address : String) : Except PushError SnapshotRow :=
  let row := match push.sealed with
    | some s => sealedPush cfg push s address
    | none   => plainPush cfg push address
  row.bind fun row =>
    if row.version < 1 then .error (.invalidSnapshot "a snapshot's version starts at 1") else .ok row

-- An agent's words sealed to the app.
def sealForApp (app : PublicKey) (address : String) (r : ReportRow) : Option (ReportBox ReportContent) :=
  if cfg.contributory app then some { app, address, agentId := r.agentId, content := r.content } else none

-- Seals the mailbox's plaintext reports to the app's public key. One that cannot be goes rather than
-- stay readable.
def sealPlainReports (db : Db) (mailbox : MailboxId) (address : String) (appKey : String) : Db :=
  match cfg.appPublicKey appKey with
  | none        => db
  | some pk =>
    (db.plainReports mailbox).foldl (fun db r =>
      match sealForApp cfg pk address r with
      | some sealed => db.sealReport r.id sealed
      | none        => db.deleteReport r.id) db

-- What a sealed push stores besides its snapshot.
def storeSealed (db : Db) (mailbox : MailboxId) (address : String) (s : SealedPush) : Db :=
  let db := db.setAppKey mailbox s.appKey
  let db := db.insertSnapshotKeys mailbox s.keyId s.wraps
  let db := db.deletePlainSnapshots mailbox
  sealPlainReports cfg db mailbox address s.appKey

-- A push's transaction. Once encrypted, a mailbox stays so.
def publish (db : Db) (mailbox : MailboxId) (address : String) (sealed : Option SealedPush) (row : SnapshotRow)
    (expected : Option Int) : Option (Db × Pushed) :=
  let store : Option (Db × Pushed) := do
    let db ← db.insertSnapshot { row with mailboxId := mailbox }
    match sealed with
    | some s => some (storeSealed cfg db mailbox address s, .stored)
    | none   => some (db, .stored)
  let wasEncrypted := (db.appKey mailbox).isSome
  if sealed.isNone ∧ wasEncrypted then
    some (db, .downgrade)
  else
    match (db.latestSnapshot mailbox).map (·.version), expected with
    | none, some v   => if v ≠ 0 then some (db, .mismatch none) else store
    | some c, none   => some (db, .needsIfMatch c)
    | some c, some v =>
      if v ≠ c then some (db, .mismatch (some c))
      else if row.version ≤ c then some (db, .notNewer c)
      else store
    | none, none     => store

-- The app's wraps of a kept snapshot's key for agents that connected after it was pushed.
def snapshotKeys (db : Db) (mailbox : MailboxId) (keyId : KeyId) (wraps : List (AgentId × SnapshotWrap)) : Option Db :=
  if db.hasKeyId mailbox keyId then some (db.insertSnapshotKeys mailbox keyId wraps) else none

-- A static agent token, and the agent's key while the server holds the token. The id, the token's secret
-- and the key are drawn from `rnd` on.
def mint (db : Db) (mailbox : MailboxId) (rnd : Nat) : Option (Db × AgentToken) := do
  let token : AgentToken := { id := rnd, secret := rnd + 1 }
  let db ← db.insertAgentToken { id := rnd, mailboxId := mailbox, token := some token, kind := .token }
  some ((db.agentKey cfg rnd mailbox (.agentToken token) .replace (rnd + 2)).1, token)

-- The agents' keys sealed to the app, as the app is shown them.
def listTokens (db : Db) (mailbox : MailboxId) : List AppSeal :=
  (db.agentTokens.rows.filter (·.mailboxId = mailbox)).filterMap (·.appSeal)

-- A one-time connect code, unless the mailbox has as many unused ones as it may.
def connectCode (db : Db) (mailbox : MailboxId) (now : Millis) (rnd : Nat) : Option Db :=
  let db := db.prune now
  if LIVE_CODES_PER_MAILBOX ≤ db.liveConnectCodes mailbox now then
    some db
  else
    db.insertConnectCode { code := rnd, mailboxId := mailbox, expiresAt := now + CONNECT_CODE_TTL_MS }

-- A report being filed: the mailbox's key was read, and what the agent says was checked.
structure Filing where
  agentId   : AgentId
  mailboxId : MailboxId
  address   : String
  appKey    : Option String
  deriving DecidableEq

-- The first of a report's database calls. A server that requires encryption keeps none in plaintext.
def beginFile (db : Db) (auth : LetIn) : Option Filing :=
  let appKey := db.appKey auth.mailboxId
  if appKey.isNone ∧ cfg.requireEncryption then
    none
  else
    some { agentId := auth.agentId, mailboxId := auth.mailboxId, address := auth.address, appKey }

-- The report as it is stored: what the agent wrote is sealed to the app if its key was read.
def Filing.row (f : Filing) (content : ReportContent) (now : Millis) : Option ReportRow :=
  let row : ReportRow := { id := 0, mailboxId := f.mailboxId, agentId := f.agentId, receivedAt := now, content }
  match f.appKey.bind cfg.appPublicKey with
  | some pk => (sealForApp cfg pk f.address row).map fun box => { row with content := {}, sealed := some box }
  | none        => some row

-- The last of them.
def storeReport (db : Db) (row : ReportRow) (now : Millis) : Option Db :=
  (db.sweepReports now).insertReport row MAX_PENDING_REPORTS

theorem checkPush_eq_ok {cfg} (h : checkPush cfg push address = .ok row) : 1 ≤ row.version ∧
    (match push.sealed with
      | some s => sealedPush cfg push s address
      | none   => plainPush cfg push address) = .ok row := by
  unfold checkPush at h
  obtain ⟨row', hr, h⟩ := Except.bind_eq_ok.mp h
  split at h
  case isTrue      => cases h
  case isFalse hv  => cases h; exact ⟨not_lt.mp hv, hr⟩

-- What a push that is stored makes of the file.
inductive Stored (db : Db) (mailbox : MailboxId) (address : String) (row : SnapshotRow) : Option SealedPush → Db → Prop
  | plain : db.appKey mailbox = none → db.insertSnapshot { row with mailboxId := mailbox } = some db₁ →
      Stored db mailbox address row none db₁
  | sealed : db.insertSnapshot { row with mailboxId := mailbox } = some db₁ →
      Stored db mailbox address row (some s) (storeSealed cfg db₁ mailbox address s)

variable {cfg} {db db' : Db}

theorem publish_eq_some (h : publish cfg db mailbox address sealed row expected = some (db', pushed)) :
    (db' = db ∧ pushed ≠ .stored) ∨
    (pushed = .stored ∧ Stored cfg db mailbox address row sealed db' ∧
      ∀ s, db.latestSnapshot mailbox = some s → expected = some s.version ∧ s.version < row.version) := by
  have stored (hd : ¬(sealed.isNone = true ∧ (db.appKey mailbox).isSome = true))
      (h : (do
        let db₁ ← db.insertSnapshot { row with mailboxId := mailbox }
        match sealed with
        | some s => some (storeSealed cfg db₁ mailbox address s, Pushed.stored)
        | none   => some (db₁, Pushed.stored)) = some (db', pushed)) :
      pushed = .stored ∧ Stored cfg db mailbox address row sealed db' := by
    obtain ⟨db₁, hi, h⟩ := Option.bind_eq_some_iff.mp h
    cases sealed
    case some s => cases h; exact ⟨rfl, .sealed hi⟩
    case none   => cases h; exact ⟨rfl, .plain (by simpa using hd) hi⟩
  unfold publish at h
  dsimp only at h
  split at h
  case isTrue       => cases h; exact .inl ⟨rfl, nofun⟩
  case isFalse hd   =>
    split at h
    case h_1 v hl _ =>
      split at h
      case isTrue  => cases h; exact .inl ⟨rfl, nofun⟩
      case isFalse => exact .inr ⟨(stored hd h).left, (stored hd h).right, by simp_all⟩
    case h_2        => cases h; exact .inl ⟨rfl, nofun⟩
    case h_3 c v hl =>
      split at h
      case isTrue       => cases h; exact .inl ⟨rfl, nofun⟩
      case isFalse hv   =>
        split at h
        case isTrue     => cases h; exact .inl ⟨rfl, nofun⟩
        case isFalse hn =>
          refine .inr ⟨(stored hd h).left, (stored hd h).right, fun s hs => ?_⟩
          obtain rfl : s.version = c := by simpa [hs] using hl
          exact ⟨congrArg some (not_not.mp hv), not_le.mp hn⟩
    case h_4        => exact .inr ⟨(stored hd h).left, (stored hd h).right, by simp_all⟩

theorem sealPlainReports_frame :
    ∃ r, sealPlainReports cfg db mailbox address appKey = { db with reports := r } := by
  rw [sealPlainReports]
  split
  case h_1 => exact ⟨_, rfl⟩
  case h_2 =>
    generalize db.plainReports mailbox = rows
    induction rows generalizing db
    case nil            => exact ⟨_, rfl⟩
    case cons row _ ih  =>
      simp only [List.foldl_cons]
      split
      · exact ih
      · exact ih

@[simp]
theorem sealPlainReports_mailboxes : (sealPlainReports cfg db mailbox address appKey).mailboxes = db.mailboxes := by
  obtain ⟨_, h⟩ := @sealPlainReports_frame cfg db mailbox address appKey
  rw [h]

@[simp]
theorem sealPlainReports_snapshots : (sealPlainReports cfg db mailbox address appKey).snapshots = db.snapshots := by
  obtain ⟨_, h⟩ := @sealPlainReports_frame cfg db mailbox address appKey
  rw [h]

theorem storeSealed_frame : ∃ s r, storeSealed cfg db mailbox address p =
    { (db.setAppKey mailbox p.appKey).insertSnapshotKeys mailbox p.keyId p.wraps with snapshots := s, reports := r } := by
  obtain ⟨r, hr⟩ := @sealPlainReports_frame cfg
    (((db.setAppKey mailbox p.appKey).insertSnapshotKeys mailbox p.keyId p.wraps).deletePlainSnapshots mailbox)
    mailbox address p.appKey
  exact ⟨_, r, hr⟩

@[simp]
theorem storeSealed_snapshots : (storeSealed cfg db mailbox address p).snapshots =
    db.snapshots.delete fun r => r.mailboxId = mailbox && r.sealed = none := by
  simp [storeSealed, Db.deletePlainSnapshots]

-- What is stored is the newest from then on.
theorem latestSnapshot_stored (h : Stored cfg db mailbox address row sealed db')
    (hn : ∀ s, db.latestSnapshot mailbox = some s → s.version < row.version) (hs : sealed.isSome → row.sealed ≠ none) :
    db'.latestSnapshot mailbox = some { row with mailboxId := mailbox } := by
  cases h
  case plain hi  =>
    obtain ⟨hm, hle⟩ := Db.latestSnapshot_insertSnapshot hi hn
    exact Db.latestSnapshot_eq_some hm hle
  case sealed hi =>
    obtain ⟨hm, hle⟩ := Db.latestSnapshot_insertSnapshot hi hn
    have kept := hs rfl
    refine Db.latestSnapshot_eq_some (r := { row with mailboxId := mailbox }) ?_ fun r hr => ?_
    · rw [storeSealed_snapshots, Table.mem_delete]
      exact ⟨hm, by simp [kept]⟩
    · rw [storeSealed_snapshots, Table.mem_delete] at hr
      exact hle r hr.left

-- What an answer says of the version that was current.
theorem publish_current (h : publish cfg db mailbox address sealed row expected = some (db', pushed)) :
    match pushed with
    | .stored         => expected.getD 0 = ((db.latestSnapshot mailbox).map (·.version)).getD 0
    | .downgrade      => True
    | .mismatch c     => c = (db.latestSnapshot mailbox).map (·.version)
    | .needsIfMatch c => some c = (db.latestSnapshot mailbox).map (·.version)
    | .notNewer c     => some c = (db.latestSnapshot mailbox).map (·.version) := by
  have stored {o : Option Db} (ho : o.bind (fun db => match sealed with
      | some s => some (storeSealed cfg db mailbox address s, Pushed.stored)
      | none   => some (db, Pushed.stored)) = some (db', pushed)) : pushed = .stored := by
    obtain ⟨db₁, _, ho⟩ := Option.bind_eq_some_iff.mp ho
    cases sealed <;> cases ho <;> rfl
  unfold publish at h
  dsimp only at h
  split at h
  case isTrue => cases h; trivial
  case isFalse =>
    split at h
    case h_1 v hl _ =>
      split at h
      case isTrue     => cases h; exact hl.symm
      case isFalse hv =>
        obtain rfl := stored h
        simp [hl, not_not.mp hv]
    case h_2 c hl _   => cases h; exact hl.symm
    case h_3 c v hl _ =>
      split at h
      case isTrue     => cases h; exact hl.symm
      case isFalse hv =>
        split at h
        case isTrue   => cases h; exact hl.symm
        case isFalse  =>
          obtain rfl := stored h
          simp [hl, not_not.mp hv]
    case h_4 hl _     =>
      obtain rfl := stored h
      simp [hl]

theorem mint_frame (h : mint cfg db mailbox rnd = some (db', token)) :
    ∃ a a' k, token = { id := rnd, secret := rnd + 1 } ∧
      db.agentTokens.insert? { id := rnd, mailboxId := mailbox, token := some token, kind := .token } = some a ∧
      db' = ({ db with agentTokens := a }.agentKey cfg rnd mailbox (.agentToken token) .replace (rnd + 2)).1 ∧
      db' = { db with agentTokens := a', snapshotKeys := k } := by
  obtain ⟨db₁, hi, h⟩ := Option.bind_eq_some_iff.mp h
  cases h
  obtain ⟨a, ha, rfl⟩ := Db.insertAgentToken_eq_some hi
  obtain ⟨a', k, hk⟩ := Db.agentKey_frame
  exact ⟨a, a', k, rfl, ha, rfl, hk⟩

theorem snapshotKeys_frame (h : snapshotKeys db mailbox keyId wraps = some db') :
    db' = db.insertSnapshotKeys mailbox keyId wraps := by
  rw [snapshotKeys] at h
  split at h
  · exact (Option.some.inj h).symm
  · cases h

theorem connectCode_frame (h : connectCode db mailbox now rnd = some db') :
    ∃ x, db' = { db.prune now with connectCodes := x } := by
  rw [connectCode] at h
  split at h
  · cases h
    exact ⟨_, rfl⟩
  · exact Db.insertConnectCode_frame h

theorem storeReport_frame (h : storeReport db row now = some db') :
    ∃ m r n, db' = { db with mailboxes := m, reports := r, reportSeq := n } := by
  obtain ⟨m, r, n, rfl⟩ := Db.insertReport_frame h
  exact ⟨m, r, n, rfl⟩

end Kaluta.Server
