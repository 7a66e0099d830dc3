import Kaluta.Server.Db

namespace Kaluta.Server

variable (cfg : Config)

-- Whether a key that the secret does not open may be replaced.
inductive Unopened
  | replace -- When tokens are issued or a token is minted.
  | keep    -- At a request.
  deriving DecidableEq

-- The mailbox's public key, if what is stored is one.
def Db.publicKey (db : Db) (mailbox : MailboxId) : Option PublicKey :=
  (db.appKey mailbox).bind cfg.appPublicKey

-- The key that an agent's credential opens.
def Db.openKey (db : Db) (agent : AgentId) (secret : CredentialSecret) : Option Key :=
  (db.agentKeys agent).1.bind (unwrapAgentKey secret · agent)

-- An agent's key that its credential opened, sealed to the app again after the app's key changed.
def Db.sealAgain (db : Db) (agent : AgentId) (mailbox : MailboxId) (key : Key) : Db :=
  if (db.agentKeys agent).2 = none then
    match (db.publicKey cfg mailbox).bind (sealAgentKeyForApp cfg · key agent) with
    | some s => db.setAppSeal agent s
    | none   => db
  else
    db

-- A new key for an agent, if the mailbox has the app's public key.
def Db.makeKey (db : Db) (agent : AgentId) (mailbox : MailboxId) (secret : CredentialSecret) (fresh : Key) :
    Db × Option Key :=
  match (db.publicKey cfg mailbox).bind (sealAgentKeyForApp cfg · fresh agent) with
  | some forApp => (db.setAgentKeys agent (wrapAgentKey secret fresh agent) (some forApp), some fresh)
  | none        => (db, none)

-- The agent's key, opened with its credential's secret, or made now when it has none and the mailbox
-- has the app's public key.
def Db.agentKey (db : Db) (agent : AgentId) (mailbox : MailboxId) (secret : CredentialSecret)
    (unopened : Unopened) (fresh : Key) : Db × Option Key :=
  match db.openKey agent secret with
  | some key => (db.sealAgain cfg agent mailbox key, some key)
  | none     =>
    if (db.agentKeys agent).1 ≠ none ∧ unopened = .keep then
      (db, none)
    else
      db.makeKey cfg agent mailbox secret fresh

-- A grant's refresh rotated its secret: its key, opened with the old one, is wrapped under the new one.
def Db.rewrapAgentKey (db : Db) (agent : AgentId) (old new : CredentialSecret) : Db :=
  match db.openKey agent old with
  | some key => db.setKeyWrap agent (wrapAgentKey new key agent)
  | none     => db

variable {cfg} {db : Db}

theorem Db.sealAgain_frame : ∃ a, db.sealAgain cfg agent mailbox key = { db with agentTokens := a } := by
  rw [sealAgain]
  split
  · split
    · exact ⟨_, rfl⟩
    · exact ⟨_, rfl⟩
  · exact ⟨_, rfl⟩

theorem Db.makeKey_frame : ∃ a k, (db.makeKey cfg agent mailbox secret fresh).1 =
    { db with agentTokens := a, snapshotKeys := k } := by
  rw [makeKey]
  split
  · exact setAgentKeys_frame
  · exact ⟨_, _, rfl⟩

theorem Db.agentKey_frame : ∃ a k, (db.agentKey cfg agent mailbox secret unopened fresh).1 =
    { db with agentTokens := a, snapshotKeys := k } := by
  rw [agentKey]
  split
  · exact sealAgain_frame.imp fun a h => ⟨_, h⟩
  · split
    · exact ⟨_, _, rfl⟩
    · exact makeKey_frame

theorem Db.rewrapAgentKey_frame : ∃ a, db.rewrapAgentKey agent old new = { db with agentTokens := a } := by
  rw [rewrapAgentKey]
  split
  · exact ⟨_, rfl⟩
  · exact ⟨_, rfl⟩

end Kaluta.Server

namespace Kaluta.Server

def ACCESS_TTL_MS : Int := 3600000
def REFRESH_TTL_MS : Int := 30 * 24 * 3600000
def AUTH_CODE_TTL_MS : Int := 120000
def CONNECT_CODE_TTL_MS : Int := 600000
def LIVE_CODES_PER_MAILBOX : Nat := 10

variable (cfg : Config)

-- PKCE: a code verifier is 43 to 128 unreserved characters.
def validVerifier (v : String) : Bool :=
  43 ≤ v.utf8ByteSize && v.utf8ByteSize ≤ 128 &&
    v.toList.all fun c => c.isAlphanum || c ∈ ['-', '.', '_', '~']

def pkceMatches (verifier challenge : String) : Bool :=
  validVerifier verifier && cfg.s256 verifier = challenge

-- What the consent form was made for, once the request was checked.
structure Pending where
  clientId    : ClientId
  redirectUri : String
  challenge   : String

-- Uses a connect code: a grant, and the authorization code of its first tokens. The grant's id and the
-- code are drawn from `rnd` on.
def consent (db : Db) (p : Pending) (connectCode : Secret) (now : Millis) (rnd : Nat) :
    Option (Db × AgentId × Secret) := do
  let (db, mailboxId) ← db.redeemConnectCode connectCode now
  let db ← db.insertAgentToken { id := rnd, mailboxId, token := none, kind := .oauth, clientId := some p.clientId }
  let db ← db.insertAuthCode {
    code := rnd + 1, grantId := rnd, clientId := p.clientId, redirectUri := p.redirectUri,
    codeChallenge := p.challenge, resource := cfg.resource, expiresAt := now + AUTH_CODE_TTL_MS }
  some (db, rnd, rnd + 1)

-- What a token request came to, decided in one transaction.
inductive Exchange
  | issued (grantId : AgentId) (access refresh : OAuthToken)
  | refused (why : String)
  | replayed (grantId : AgentId) -- A code or refresh token used twice: the grant is revoked.
  deriving DecidableEq

def accessToken (rnd : Nat) (secret : Secret) : OAuthToken :=
  { kind := .access, nonce := rnd, secret := some secret }

def refreshToken (rnd : Nat) (secret : Secret) : OAuthToken :=
  { kind := .refresh, nonce := rnd + 1, secret := some secret }

-- The row of a token that is issued.
def tokenRow (token : OAuthToken) (grantId : AgentId) (resource : String) (now : Millis) (ttl : Int) :
    OAuthTokenRow :=
  { token, kind := token.kind, grantId, resource, expiresAt := now + ttl }

-- The grant's key is made if it has none: this is the one moment the server holds its secret without a
-- request from the agent.
def grantKey (db : Db) (grantId : AgentId) (secret : Secret) (fresh : Key) : Db :=
  match db.agentToken grantId with
  | some (grant, _) => (db.agentKey cfg grantId grant.mailboxId (.grantSecret secret) .replace fresh).1
  | none            => db

-- Stores a new access and refresh token for a grant, both carrying the grant's secret.
def issue (db : Db) (grantId : AgentId) (resource : String) (now : Millis) (secret : Secret) (rnd : Nat) :
    Option (Db × OAuthToken × OAuthToken) := do
  let access  := accessToken rnd secret
  let refresh := refreshToken rnd secret
  let db := grantKey cfg db grantId secret (rnd + 2)
  let db ← db.insertOAuthToken (tokenRow access grantId resource now ACCESS_TTL_MS)
  let db ← db.insertOAuthToken (tokenRow refresh grantId resource now REFRESH_TTL_MS)
  some (db, access, refresh)

-- The grant behind a code or token, if it is live and the client's.
def liveGrant (db : Db) (grantId : AgentId) (clientId : ClientId) : Bool :=
  (db.agentToken grantId).any fun (g, _) => g.kind = .oauth && g.revokedAt = none && g.clientId = some clientId

inductive GrantType
  | authorizationCode (code : Secret) (verifier : String) (redirectUri : Option String)
  | refreshToken (token : OAuthToken)
  deriving DecidableEq

-- The code exchanged for a grant's first tokens. Any check that fails spends it: it was made for one
-- exchange. The grant's secret is made here.
def exchangeCode (db : Db) (clientId : ClientId) (code : Secret) (verifier : String) (redirectUri : Option String)
    (now : Millis) (rnd : Nat) : Option (Db × Exchange) :=
  match db.authCode code with
  | none     => some (db, .refused "unknown code")
  | some row =>
    if row.usedAt ≠ none then
      some (db.revokeGrant row.grantId now, .replayed row.grantId)
    else
      let db := db.useAuthCode code now
      if row.expiresAt ≤ now then
        some (db, .refused "the code expired")
      else if row.clientId ≠ clientId then
        some (db, .refused "the code was issued to another client")
      else if redirectUri ≠ some row.redirectUri then
        some (db, .refused "redirect_uri is not the one the code was issued for")
      else if ¬pkceMatches cfg verifier row.codeChallenge then
        some (db, .refused "code_verifier does not match the code_challenge")
      else if row.resource ≠ cfg.resource ∨ ¬liveGrant db row.grantId clientId then
        some (db, .refused "the grant was revoked")
      else do
        let (db, access, refresh) ← issue cfg db row.grantId cfg.resource now rnd (rnd + 1)
        some (db, .issued row.grantId access refresh)

-- A token from before there were grant secrets has none: the new tokens make the grant a key.
def rewrap (db : Db) (grantId : AgentId) (old : Option Secret) (new : Secret) : Db :=
  match old with
  | some old => db.rewrapAgentKey grantId (.grantSecret old) (.grantSecret new)
  | none     => db

-- A refresh token exchanged for the grant's next tokens, under a new secret.
def exchangeRefresh (db : Db) (clientId : ClientId) (refresh : OAuthToken) (now : Millis) (rnd : Nat) :
    Option (Db × Exchange) :=
  match (db.oauthToken refresh).filter (·.kind = .refresh) with
  | none     => some (db, .refused "unknown refresh token")
  | some row =>
    if row.usedAt ≠ none then
      some (db.revokeGrant row.grantId now, .replayed row.grantId)
    else if row.expiresAt ≤ now then
      some (db, .refused "the refresh token expired")
    else if row.resource ≠ cfg.resource ∨ ¬liveGrant db row.grantId clientId then
      some (db, .refused "the grant was revoked or is another client's")
    else do
      let db := db.useOAuthToken refresh now
      let db := db.deleteAccessTokens row.grantId
      let db := rewrap db row.grantId refresh.secret rnd
      let (db, access, refresh) ← issue cfg db row.grantId cfg.resource now rnd (rnd + 1)
      some (db, .issued row.grantId access refresh)

structure TokenRequest where
  clientId  : ClientId
  resource  : Option String := none
  grantType : GrantType
  deriving DecidableEq

inductive TokenError
  | invalidClient -- The client is not registered.
  | invalidTarget -- The server issues tokens only for its own resource.
  deriving DecidableEq

-- What is checked of a token request before its code or token is looked at.
def checkRequest (db : Db) (r : TokenRequest) : Except TokenError Unit := do
  if db.client r.clientId = none then throw .invalidClient
  if ¬r.resource.all cfg.sameResource then throw .invalidTarget

def exchange (db : Db) (r : TokenRequest) (now : Millis) (rnd : Nat) : Option (Db × Exchange) :=
  match r.grantType with
  | .authorizationCode code verifier redirectUri => exchangeCode cfg db r.clientId code verifier redirectUri now rnd
  | .refreshToken token                          => exchangeRefresh cfg db r.clientId token now rnd

-- What an agent signs in with.
inductive Bearer
  | agent (token : AgentToken)
  | access (token : OAuthToken)
  deriving DecidableEq

-- An agent that was let in, and what its credential opens its key with.
structure LetIn where
  agentId   : AgentId
  mailboxId : MailboxId
  address   : String
  secret    : Option CredentialSecret
  deriving DecidableEq

-- Checks an agent's token. Access tokens are bound to the resource: they are taken only where `oauthOk`.
def agentAuth (db : Db) (bearer : Bearer) (oauthOk : Bool) (now : Millis) : Option LetIn :=
  match bearer with
  | .access token => do
    if ¬oauthOk then none
    let t ← db.oauthToken token
    let (grant, address) ← db.agentToken t.grantId
    if t.kind = .access ∧ now < t.expiresAt ∧ grant.kind = .oauth ∧ grant.revokedAt = none ∧
        t.resource = cfg.resource then
      some { agentId := grant.id, mailboxId := grant.mailboxId, address, secret := token.secret.map .grantSecret }
    else
      none
  | .agent token => do
    let (row, address) ← db.agentToken token.id
    if row.kind = .token ∧ row.revokedAt = none ∧ row.token = some token then
      some { agentId := row.id, mailboxId := row.mailboxId, address, secret := some (.agentToken token) }
    else
      none

-- What a token request can come to.
inductive Exchanged (db : Db) (r : TokenRequest) (now : Millis) (rnd : Nat) : Db → Exchange → Prop
  | refused : Exchanged db r now rnd db (.refused why)
  | spentCode (row) :
      r.grantType = .authorizationCode code verifier redirectUri → db.authCode code = some row → row.usedAt = none →
      Exchanged db r now rnd (db.useAuthCode code now) (.refused why)
  | replayedCode (row) :
      r.grantType = .authorizationCode code verifier redirectUri → db.authCode code = some row → row.usedAt ≠ none →
      Exchanged db r now rnd (db.revokeGrant row.grantId now) (.replayed row.grantId)
  | replayedRefresh (row) :
      r.grantType = .refreshToken token → db.oauthToken token = some row → row.kind = .refresh → row.usedAt ≠ none →
      Exchanged db r now rnd (db.revokeGrant row.grantId now) (.replayed row.grantId)
  | issuedCode (row) :
      r.grantType = .authorizationCode code verifier redirectUri → db.authCode code = some row → row.usedAt = none →
      liveGrant (db.useAuthCode code now) row.grantId r.clientId = true →
      issue cfg (db.useAuthCode code now) row.grantId cfg.resource now rnd (rnd + 1) = some (db', access, refresh) →
      Exchanged db r now rnd db' (.issued row.grantId access refresh)
  | issuedRefresh (row) :
      r.grantType = .refreshToken token → db.oauthToken token = some row → row.kind = .refresh → row.usedAt = none →
      liveGrant db row.grantId r.clientId = true →
      issue cfg (rewrap ((db.useOAuthToken token now).deleteAccessTokens row.grantId) row.grantId token.secret rnd)
        row.grantId cfg.resource now rnd (rnd + 1) = some (db', access, refresh) →
      Exchanged db r now rnd db' (.issued row.grantId access refresh)

variable {cfg} {db db' : Db}

theorem grantKey_frame (cfg db grantId secret fresh) :
    ∃ a k, grantKey cfg db grantId secret fresh = { db with agentTokens := a, snapshotKeys := k } := by
  rw [grantKey]
  split
  · exact Db.agentKey_frame
  · exact ⟨_, _, rfl⟩

theorem rewrap_frame (db grantId old new) : ∃ a, rewrap db grantId old new = { db with agentTokens := a } := by
  rw [rewrap.eq_def]
  split
  · exact Db.rewrapAgentKey_frame
  · exact ⟨_, rfl⟩

-- The rows of the tokens that are issued.
theorem issue_eq_some (h : issue cfg db grantId resource now secret rnd = some (db', access, refresh)) :
    access = accessToken rnd secret ∧ refresh = refreshToken rnd secret ∧
      ∃ t t', db.oauthTokens.insert? (tokenRow access grantId resource now ACCESS_TTL_MS) = some t ∧
        t.insert? (tokenRow refresh grantId resource now REFRESH_TTL_MS) = some t' ∧
        db' = { grantKey cfg db grantId secret (rnd + 2) with oauthTokens := t' } := by
  unfold issue at h
  obtain ⟨db₁, h₁, h⟩ := Option.bind_eq_some_iff.mp h
  obtain ⟨db₂, h₂, h⟩ := Option.bind_eq_some_iff.mp h
  cases h
  obtain ⟨t, ht, rfl⟩ := Db.insertOAuthToken_eq_some h₁
  obtain ⟨t', ht', rfl⟩ := Db.insertOAuthToken_eq_some h₂
  have ⟨a, k, hk⟩ := grantKey_frame cfg db grantId secret (rnd + 2)
  rw [hk] at ht ht' ⊢
  exact ⟨rfl, rfl, t, t', ht, ht', rfl⟩

theorem issue_frame (h : issue cfg db grantId resource now secret rnd = some (db', access, refresh)) :
    ∃ a k t, db' = { db with agentTokens := a, snapshotKeys := k, oauthTokens := t } := by
  obtain ⟨_, _, _, t', _, _, rfl⟩ := issue_eq_some h
  obtain ⟨a, k, hk⟩ := grantKey_frame cfg db grantId secret (rnd + 2)
  exact ⟨a, k, t', by rw [hk]⟩

theorem exchangeCode_exchanged (hr : r.grantType = .authorizationCode code verifier redirectUri)
    (h : exchangeCode cfg db r.clientId code verifier redirectUri now rnd = some (db', outcome)) :
    Exchanged cfg db r now rnd db' outcome := by
  unfold exchangeCode at h
  split at h
  case h_1 => cases h; exact .refused
  case h_2 row hc =>
    split at h
    case isTrue hu => cases h; exact .replayedCode row hr hc hu
    case isFalse hu =>
      have hu : row.usedAt = none := not_not.mp hu
      dsimp only at h
      split at h
      case isTrue => cases h; exact .spentCode row hr hc hu
      split at h
      case isTrue => cases h; exact .spentCode row hr hc hu
      split at h
      case isTrue => cases h; exact .spentCode row hr hc hu
      split at h
      case isTrue => cases h; exact .spentCode row hr hc hu
      split at h
      case isTrue => cases h; exact .spentCode row hr hc hu
      case isFalse hl =>
        obtain ⟨⟨_, _, _⟩, hi, h⟩ := Option.bind_eq_some_iff.mp h
        cases h
        exact .issuedCode row hr hc hu (by simpa using (not_or.mp hl).right) hi

theorem exchangeRefresh_exchanged (hr : r.grantType = .refreshToken token)
    (h : exchangeRefresh cfg db r.clientId token now rnd = some (db', outcome)) :
    Exchanged cfg db r now rnd db' outcome := by
  unfold exchangeRefresh at h
  split at h
  case h_1 => cases h; exact .refused
  case h_2 row ht =>
    obtain ⟨ht, hk⟩ : db.oauthToken token = some row ∧ row.kind = .refresh := by
      simpa [Option.filter_eq_some_iff] using ht
    split at h
    case isTrue hu => cases h; exact .replayedRefresh row hr ht hk hu
    case isFalse hu =>
      split at h
      case isTrue => cases h; exact .refused
      split at h
      case isTrue => cases h; exact .refused
      case isFalse hl =>
        obtain ⟨⟨_, _, _⟩, hi, h⟩ := Option.bind_eq_some_iff.mp h
        cases h
        exact .issuedRefresh row hr ht hk (not_not.mp hu) (by simpa using (not_or.mp hl).right) hi

theorem exchange_exchanged (h : exchange cfg db r now rnd = some (db', outcome)) :
    Exchanged cfg db r now rnd db' outcome := by
  unfold exchange at h
  split at h
  case h_1 hr => exact exchangeCode_exchanged hr h
  case h_2 hr => exact exchangeRefresh_exchanged hr h

theorem Exchanged.frame (h : Exchanged cfg db r now rnd db' outcome) : ∃ a k t c,
    db' = { db with agentTokens := a, snapshotKeys := k, oauthTokens := t, oauthCodes := c } := by
  cases h
  case refused                   => exact ⟨_, _, _, _, rfl⟩
  case spentCode                 => exact ⟨_, _, _, _, rfl⟩
  case replayedCode              => exact Db.revokeGrant_frame
  case replayedRefresh           => exact Db.revokeGrant_frame
  case issuedCode hi             =>
    obtain ⟨_, _, _, rfl⟩ := issue_frame hi
    exact ⟨_, _, _, _, rfl⟩
  case issuedRefresh token _ _ row _ _ _ _ _ hi =>
    obtain ⟨a, hw⟩ := rewrap_frame ((db.useOAuthToken token now).deleteAccessTokens row.grantId) row.grantId
      token.secret rnd
    rw [hw] at hi
    obtain ⟨_, _, _, rfl⟩ := issue_frame hi
    exact ⟨_, _, _, _, rfl⟩

theorem consent_eq_some (h : consent cfg db form code now rnd = some (db', grantId, authCode)) :
    ∃ x a c mailbox, db.redeemConnectCode code now = some ({ db with connectCodes := x }, mailbox) ∧
      db.agentTokens.insert?
        { id := rnd, mailboxId := mailbox, token := none, kind := .oauth, clientId := some form.clientId } = some a ∧
      db.oauthCodes.insert? {
        code := rnd + 1, grantId := rnd, clientId := form.clientId, redirectUri := form.redirectUri,
        codeChallenge := form.challenge, resource := cfg.resource, expiresAt := now + AUTH_CODE_TTL_MS } = some c ∧
      db' = { db with connectCodes := x, agentTokens := a, oauthCodes := c } := by
  obtain ⟨⟨db₁, mailbox⟩, hx, h⟩ := Option.bind_eq_some_iff.mp h
  obtain ⟨db₂, h₂, h⟩ := Option.bind_eq_some_iff.mp h
  obtain ⟨db₃, h₃, h⟩ := Option.bind_eq_some_iff.mp h
  cases h
  obtain ⟨x, rfl⟩ := Db.redeemConnectCode_frame hx
  obtain ⟨a, ha, rfl⟩ := Db.insertAgentToken_eq_some h₂
  obtain ⟨c, hc, rfl⟩ := Db.insertAuthCode_eq_some h₃
  exact ⟨x, a, c, mailbox, hx, ha, hc, rfl⟩

theorem agentAuth_access (h : agentAuth cfg db (.access token) oauthOk now = some auth) :
    ∃ t grant address, db.oauthToken token = some t ∧ db.agentToken t.grantId = some (grant, address) ∧
      t.kind = .access ∧ grant.revokedAt = none ∧
      auth = { agentId := grant.id, mailboxId := grant.mailboxId, address, secret := token.secret.map .grantSecret } := by
  simp only [agentAuth] at h
  split at h
  case isTrue  => cases h
  case isFalse =>
    obtain ⟨t, ht, h⟩ := Option.bind_eq_some_iff.mp h
    obtain ⟨⟨grant, address⟩, hg, h⟩ := Option.bind_eq_some_iff.mp h
    split at h
    case isTrue hl  => cases h; exact ⟨t, grant, address, ht, hg, hl.left, hl.right.right.right.left, rfl⟩
    case isFalse    => cases h

theorem agentAuth_agent (h : agentAuth cfg db (.agent token) oauthOk now = some auth) :
    ∃ row address, db.agentToken token.id = some (row, address) ∧ row.revokedAt = none ∧ row.token = some token ∧
      auth = { agentId := row.id, mailboxId := row.mailboxId, address, secret := some (.agentToken token) } := by
  simp only [agentAuth] at h
  obtain ⟨⟨row, address⟩, hr, h⟩ := Option.bind_eq_some_iff.mp h
  split at h
  case isTrue hl  => cases h; exact ⟨row, address, hr, hl.right.left, hl.right.right, rfl⟩
  case isFalse    => cases h

theorem agentToken_eq_some (h : db.agentToken g = some (row, address)) : row ∈ db.agentTokens ∧ row.id = g := by
  obtain ⟨r, hr, h⟩ := Option.bind_eq_some_iff.mp h
  obtain ⟨_, _, h⟩ := Option.bind_eq_some_iff.mp h
  cases h
  exact Table.find?_eq_some_iff.mp hr

end Kaluta.Server
