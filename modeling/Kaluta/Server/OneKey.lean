import Kaluta.Server.KeyChain
import Kaluta.Server.Encryption

-- An agent's key along every run: whatever is stored of it opens to the one key that the agent's newest
-- credential opens, and an agent that is revoked is left without.
namespace Kaluta.Server

variable {cfg : Config} {s t : State}

-- A wrap that the app made with an agent's key sealed to it.
def SnapshotKeyRow.MadeFrom (r : SnapshotKeyRow) (shown : List AppSeal) : Prop :=
  ∃ box ∈ shown, ∃ app key, openAgentKeyForApp app box r.agentId = some key ∧
    ∃ snapshotKey, r.wrap = wrapSnapshotKey key snapshotKey r.agentId r.keyId

-- The agent's newest credential opens a key, and so does everything else that is stored of it.
def AgentTokenRow.OneKey (cfg : Config) (s : State) (row : AgentTokenRow) (wrap : KeyWrap) : Prop :=
  ∃ credential key, newest s.issued row = some credential ∧ unwrapAgentKey credential wrap row.id = some key ∧
    (∀ box ∈ row.appSeal, ∃ app, s.db.publicKey cfg row.mailboxId = some app ∧
      openAgentKeyForApp app box row.id = some key) ∧
    (∀ r ∈ s.db.snapshotKeys, r.agentId = row.id → r.MadeFrom s.shown →
      (unwrapSnapshotKey key r.wrap row.id r.keyId).isSome)

-- Nothing is left of an agent's keys and tokens, and nothing lets it in.
structure State.Keyless (cfg : Config) (s : State) (agent : AgentId) : Prop where
  rows   : ∀ row ∈ s.db.agentTokens, row.id = agent → row.keyWrap = none ∧ row.appSeal = none
  wraps  : ∀ r ∈ s.db.snapshotKeys, r.agentId ≠ agent
  tokens : ∀ t ∈ s.db.oauthTokens, t.grantId ≠ agent
  bearer : ∀ bearer oauthOk now auth, agentAuth cfg s.db bearer oauthOk now = some auth → auth.agentId ≠ agent

theorem State.KeyChain.oneKey (h : s.KeyChain cfg) (hr : row ∈ s.db.agentTokens) (hw : row.keyWrap = some wrap) :
    row.OneKey cfg s wrap := by
  have hc := h.rows row hr
  obtain ⟨hv, ha, hn⟩ := hc.wrap wrap hw
  refine ⟨wrap.credential, wrap.key, hn, by simp [unwrapAgentKey, ha], fun box hb => ?_, fun r hm he hf => ?_⟩
  · obtain ⟨hi, hp, w, hw', hk⟩ := hc.sealed box hb
    rw [hw] at hw'
    cases hw'
    exact ⟨box.app, hp, by simp [openAgentKeyForApp, hi, hk]⟩
  · obtain ⟨box, hb, app, key, ho, snapshotKey, hwrap⟩ := hf
    simp only [openAgentKeyForApp, Option.ite_none_right_eq_some, Option.some.injEq] at ho
    obtain ⟨⟨_, hi⟩, rfl⟩ := ho
    obtain ⟨w, hw', hk⟩ := hc.shown hv box hb (hi.trans he)
    rw [hw] at hw'
    cases hw'
    rw [hwrap, hk, he, unwrap_wrapSnapshotKey]
    rfl

theorem State.KeyChain.keyless (h : s.KeyChain cfg) (hg : s.Grants) (hl : ¬s.db.Live agent) : s.Keyless cfg agent where
  rows row hr hi := by
    have hc := h.rows row hr
    have hw : row.keyWrap = none := by
      cases hw : row.keyWrap
      case none => rfl
      case some => exact absurd (Db.live_iff.mpr ⟨row, hr, hi, (hc.wrap _ hw).left⟩) hl
    refine ⟨hw, ?_⟩
    cases hb : row.appSeal
    case none => rfl
    case some =>
      obtain ⟨_, _, _, hw', _⟩ := hc.sealed _ hb
      rw [hw] at hw'
      cases hw'
  wraps r hr hi                      := hl (hi ▸ h.wraps r hr)
  tokens t ht hi                     := hl (hi ▸ (hg.tokens t ht).right.right)
  bearer bearer oauthOk now auth h hi := hl (hi ▸ agentAuth_live h)

theorem reachable_one_key (h : (server cfg).Reachable (KeyedInTime cfg) s) :
    (∀ row ∈ s.db.agentTokens, row.revokedAt = none → ∀ wrap, row.keyWrap = some wrap → row.OneKey cfg s wrap) ∧
    (∀ row ∈ s.db.agentTokens, row.revokedAt ≠ none →
      ∀ t, (server cfg).Leads (KeyedInTime cfg) s t → t.Keyless cfg row.id) := by
  have hg := reachable_grants h
  refine ⟨fun row hr _ wrap hw => (reachable_keyChain h).oneKey hr hw, fun row hr hv t hl => ?_⟩
  have ht := hl.reachable h
  refine (reachable_keyChain ht).keyless (reachable_grants ht) ?_
  refine leads_not_live hl hg (hg.agents _ (List.mem_map_of_mem hr)) fun hlive => ?_
  obtain ⟨r, hr', hi, hn⟩ := Db.live_iff.mp hlive
  obtain rfl := Table.eq_of_key_eq hr hr' hi.symm
  exact hv hn

section DelayedRequest

def grantConnected : List Action := [
  .register "scout@a.example", .registerClient 0, .connectCode 1 0,
  .consent { clientId := 0, redirectUri := "https://app.example/", challenge := verifier } 4 0,
  .checkRequest codeRequest, .exchange codeRequest 0]

def firstLetIn : LetIn :=
  { agentId := 8, mailboxId := 1, address := "scout@a.example", secret := some (.grantSecret 12) }

def letIn : Action := .agentAuth (.access (accessToken 13 12)) true 0

-- A key that a request made, what the app wraps with it, and the grant's next tokens.
theorem reachable_one_key_refreshed : ∃ s, (server lenient).Reachable (KeyedInTime lenient) s ∧
    ∃ row ∈ s.db.agentTokens, ∃ wrap, row.keyWrap = some wrap ∧ wrap.credential = .grantSecret 20 ∧
      s.db.snapshotKeys.rows.length = 1 ∧ row.OneKey lenient s wrap := by
  have run : ((server lenient).run (KeyedInTime lenient) {} (grantConnected ++ [firstSealedPush, letIn,
      .agentKey firstLetIn, .listTokens 1, .snapshotKeys 1 "k" [(8, wrapSnapshotKey 16 0 8 "k")],
      .checkRequest refreshRequest, .exchange refreshRequest 0])).any
        fun s => s.db.snapshotKeys.rows.length = 1 ∧ ∃ row ∈ s.db.agentTokens.rows,
          row.revokedAt = none ∧ row.keyWrap = some (wrapAgentKey (.grantSecret 20) 16 8) := by decide
  obtain ⟨s, hs, h⟩ := (Option.any_eq_true _ _).mp run
  obtain ⟨hn, row, hr, hv, hw⟩ := of_decide_eq_true h
  have hreach := System.Reachable.run (.start rfl) hs
  exact ⟨s, hreach, row, hr, _, hw, rfl, hn, (reachable_one_key hreach).left row hr hv _ hw⟩

-- A request that was let in before a refresh makes the key after it: under a secret that no token carries.
theorem keyed_after_refresh : ¬∀ s, (server lenient).Reachable (fun _ _ => True) s →
    ∀ row ∈ s.db.agentTokens, row.revokedAt = none → ∀ wrap, row.keyWrap = some wrap → row.OneKey lenient s wrap := by
  intro claim
  have run : ((server lenient).run (fun _ _ => True) {} (grantConnected ++ [letIn,
      .checkRequest refreshRequest, .exchange refreshRequest 0, firstSealedPush, .agentKey firstLetIn])).any
        fun s => ∃ row ∈ s.db.agentTokens.rows, row.revokedAt = none ∧
          row.keyWrap = some (wrapAgentKey (.grantSecret 12) 20 8) ∧ newest s.issued row = some (.grantSecret 16) := by
    decide
  obtain ⟨s, hs, h⟩ := (Option.any_eq_true _ _).mp run
  obtain ⟨row, hr, hv, hw, hn⟩ := of_decide_eq_true h
  obtain ⟨credential, key, hc, ho, _⟩ := claim s (.run (.start rfl) hs) row hr hv _ hw
  rw [hn] at hc
  cases hc
  rw [unwrapAgentKey_eq_some] at ho
  cases ho

end DelayedRequest

end Kaluta.Server
