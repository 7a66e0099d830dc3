import Kaluta.Lib.Execution
import Kaluta.Server.Rest

namespace Kaluta.Server

-- What a token request is answered for.
inductive Presented
  | code (code : Secret)
  | refresh (token : OAuthToken)
  deriving DecidableEq

def GrantType.presented : GrantType → Presented
  | authorizationCode code _ _ => .code code
  | refreshToken token         => .refresh token

-- A pair of tokens that was issued.
structure Issue where
  presented : Presented
  grantId   : AgentId
  access    : OAuthToken
  refresh   : OAuthToken
  deriving DecidableEq

-- The server's file, and the calls that are between two of their accesses to it.
structure State where
  db       : Db := {}
  next     : Nat := 0                -- Random values from here on were never drawn.
  requests : List TokenRequest := [] -- Checked token requests.
  admitted : List LetIn := []        -- Agents let in, whose key is not opened yet.
  serving  : List LetIn := []        -- Agents let in, whose key was looked for.
  filings  : List Filing := []       -- Reports not stored yet.
  issued   : List Issue := []        -- Every pair of tokens issued so far, newest first.
  shown    : List AppSeal := []      -- Every agent's key sealed to the app that the app was shown so far.

-- One access to the server's file. Those made with the command line are among them.
inductive Action
  | register (address : String)
  | forget (mailbox : MailboxId)
  | publish (mailbox : MailboxId) (address : String) (push : Push) (ifMatch : Option Int)
  | snapshotKeys (mailbox : MailboxId) (keyId : KeyId) (wraps : List (AgentId × SnapshotWrap))
  | mint (mailbox : MailboxId)
  | listTokens (mailbox : MailboxId)
  | revoke (mailbox : MailboxId) (agent : AgentId) (now : Millis)
  | connectCode (mailbox : MailboxId) (now : Millis)
  | registerClient (now : Millis)
  | consent (form : Pending) (connectCode : Secret) (now : Millis)
  | checkRequest (request : TokenRequest)
  | exchange (request : TokenRequest) (now : Millis)
  | agentAuth (bearer : Bearer) (oauthOk : Bool) (now : Millis)
  | agentKey (auth : LetIn)
  | beginFile (auth : LetIn)
  | storeReport (filing : Filing) (content : ReportContent) (now : Millis)
  | ackReports (mailbox : MailboxId) (upTo : Nat)
  | sweepReports (now : Millis)

variable (cfg : Config)

-- How many random values an action may draw.
def DRAWS : Nat := 4

def State.exchange (s : State) (request : TokenRequest) (now : Millis) : Option State := do
  if request ∉ s.requests then none
  let (db, outcome) ← Server.exchange cfg s.db request now s.next
  let issued := match outcome with
    | .issued grantId access refresh =>
      { presented := request.grantType.presented, grantId, access, refresh } :: s.issued
    | _                              => s.issued
  some { s with db, next := s.next + DRAWS, requests := s.requests.erase request, issued }

-- The key that a request's credential opens, made if the agent has none.
def LetIn.keyed (auth : LetIn) (db : Db) (fresh : Key) : Db :=
  match auth.secret with
  | some secret => (db.agentKey cfg auth.agentId auth.mailboxId secret .keep fresh).1
  | none        => db

def State.agentKey (s : State) (auth : LetIn) : Option State := do
  if auth ∉ s.admitted then none
  some { s with
    db := auth.keyed cfg s.db s.next, next := s.next + DRAWS,
    admitted := s.admitted.erase auth, serving := auth :: s.serving }

def State.beginFile (s : State) (auth : LetIn) : Option State := do
  if auth ∉ s.serving then none
  let filing ← Server.beginFile cfg s.db auth
  some { s with filings := filing :: s.filings, serving := s.serving.erase auth }

def State.publish (s : State) (mailbox : MailboxId) (address : String) (push : Push) (ifMatch : Option Int) :
    Option State := do
  let row ← (checkPush cfg push address).toOption
  let (db, _) ← Server.publish cfg s.db mailbox address push.sealed row ifMatch
  some { s with db }

def State.storeReport (s : State) (filing : Filing) (content : ReportContent) (now : Millis) : Option State := do
  if filing ∉ s.filings then none
  let row ← filing.row cfg content now
  some { s with db := ← Server.storeReport s.db row now, filings := s.filings.erase filing }

def State.step (s : State) : Action → Option State
  | .register address                      => some { s with db := (s.db.insertMailbox address).1 }
  | .forget mailbox                        => some { s with db := s.db.deleteMailbox mailbox }
  | .publish mailbox address push ifMatch  => s.publish cfg mailbox address push ifMatch
  | .snapshotKeys mailbox keyId wraps      => do
    some { s with db := ← Server.snapshotKeys s.db mailbox keyId wraps }
  | .mint mailbox                          => do
    some { s with db := (← Server.mint cfg s.db mailbox s.next).1, next := s.next + DRAWS }
  | .listTokens mailbox                    => some { s with shown := Server.listTokens s.db mailbox ++ s.shown }
  | .revoke mailbox agent now              => some { s with db := (s.db.revokeAgentToken mailbox agent now).1 }
  | .connectCode mailbox now               => do
    some { s with db := ← Server.connectCode s.db mailbox now s.next, next := s.next + DRAWS }
  | .registerClient now                    => do
    some { s with
      db := ← (s.db.prune now).insertClient { id := s.next, createdAt := now }, next := s.next + DRAWS }
  | .consent form connectCode now          => do
    some { s with db := (← Server.consent cfg s.db form connectCode now s.next).1, next := s.next + DRAWS }
  | .checkRequest request                  => do
    let _ ← (Server.checkRequest cfg s.db request).toOption
    some { s with requests := request :: s.requests }
  | .exchange request now                  => s.exchange cfg request now
  | .agentAuth bearer oauthOk now          => do
    some { s with admitted := (← Server.agentAuth cfg s.db bearer oauthOk now) :: s.admitted }
  | .agentKey auth                         => s.agentKey cfg auth
  | .beginFile auth                        => s.beginFile cfg auth
  | .storeReport filing content now        => s.storeReport cfg filing content now
  | .ackReports mailbox upTo               => some { s with db := s.db.ackReports mailbox upTo }
  | .sweepReports now                      => some { s with db := s.db.sweepReports now }

-- The server from the day it was set up.
def server : System State Action where
  Start s := s = {}
  step    := State.step cfg

variable {cfg} {s s' : State}

theorem State.exchange_eq_some (h : s.exchange cfg request now = some s') :
    ∃ db outcome, Exchanged cfg s.db request now s.next db outcome ∧ s' = { s with
      db, next := s.next + DRAWS, requests := s.requests.erase request,
      issued := match outcome with
        | .issued grantId access refresh =>
          { presented := request.grantType.presented, grantId, access, refresh } :: s.issued
        | _                              => s.issued } := by
  unfold exchange at h
  split at h
  case isTrue  => cases h
  case isFalse =>
    obtain ⟨⟨db, outcome⟩, he, h⟩ := Option.bind_eq_some_iff.mp h
    cases h
    exact ⟨db, outcome, exchange_exchanged he, rfl⟩

theorem State.agentKey_eq_some (h : s.agentKey cfg auth = some s') :
    auth ∈ s.admitted ∧ s' = { s with
      db := auth.keyed cfg s.db s.next, next := s.next + DRAWS,
      admitted := s.admitted.erase auth, serving := auth :: s.serving } := by
  unfold agentKey at h
  split at h
  case isTrue     => cases h
  case isFalse ha => cases h; exact ⟨not_not.mp ha, rfl⟩

theorem LetIn.keyed_frame {auth : LetIn} {db : Db} :
    ∃ a k, auth.keyed cfg db fresh = { db with agentTokens := a, snapshotKeys := k } := by
  rw [keyed]
  split
  · exact Db.agentKey_frame
  · exact ⟨_, _, rfl⟩

theorem State.beginFile_eq_some (h : s.beginFile cfg auth = some s') :
    auth ∈ s.serving ∧ ∃ filing, Server.beginFile cfg s.db auth = some filing ∧
      s' = { s with filings := filing :: s.filings, serving := s.serving.erase auth } := by
  unfold beginFile at h
  split at h
  case isTrue     => cases h
  case isFalse ha =>
    obtain ⟨filing, hf, h⟩ := Option.bind_eq_some_iff.mp h
    cases h
    exact ⟨not_not.mp ha, filing, hf, rfl⟩

theorem State.storeReport_eq_some (h : s.storeReport cfg filing content now = some s') :
    filing ∈ s.filings ∧ ∃ row db, filing.row cfg content now = some row ∧
      Server.storeReport s.db row now = some db ∧ s' = { s with db, filings := s.filings.erase filing } := by
  unfold storeReport at h
  split at h
  case isTrue     => cases h
  case isFalse hf =>
    obtain ⟨row, hr, h⟩ := Option.bind_eq_some_iff.mp h
    obtain ⟨db, hd, h⟩ := Option.bind_eq_some_iff.mp h
    cases h
    exact ⟨not_not.mp hf, row, db, hr, hd, rfl⟩

theorem State.publish_eq_some (h : s.publish cfg mailbox address push ifMatch = some s') :
    ∃ row db pushed, checkPush cfg push address = .ok row ∧
      Server.publish cfg s.db mailbox address push.sealed row ifMatch = some (db, pushed) ∧ s' = { s with db } := by
  obtain ⟨row, hr, h⟩ := Option.bind_eq_some_iff.mp h
  obtain ⟨⟨db, pushed⟩, hd, h⟩ := Option.bind_eq_some_iff.mp h
  cases h
  refine ⟨row, db, pushed, ?_, hd, rfl⟩
  cases hc : checkPush cfg push address
  case error => simp [hc, Except.toOption] at hr
  case ok    => simpa [hc, Except.toOption] using hr

-- A server that takes plaintext too, and whose keys and addresses are all well formed.
def lenient : Config where
  appPublicKey _     := some 0
  contributory _     := true
  s256 verifier      := verifier
  sameResource _     := true
  normalizeAddress a := some a

end Kaluta.Server
