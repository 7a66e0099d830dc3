import Kaluta.Server.System

-- What becomes of a grant, its authorization code and its tokens.
namespace Kaluta.Server

variable (cfg : Config)

-- The agents that there are, and when each was revoked.
def Db.standing (db : Db) : List (AgentId × Option Millis) :=
  db.agentTokens.rows.map fun r => (r.id, r.revokedAt)

def Db.Live (db : Db) (agent : AgentId) : Prop :=
  (agent, none) ∈ db.standing

-- Agents are revoked or forgotten, codes and tokens used or dropped. Those that are left are of the agents
-- they were of, and none is left of an agent that is revoked or forgotten.
structure Fades (db db' : Db) : Prop where
  agents : ∀ x ∈ db'.standing, ∃ revokedAt, (x.1, revokedAt) ∈ db.standing
  live   : ∀ g, db'.Live g → db.Live g
  codes  : ∀ c' ∈ db'.oauthCodes, ∃ c ∈ db.oauthCodes, c.code = c'.code ∧ c.grantId = c'.grantId ∧
    (c'.usedAt = none → c.usedAt = none) ∧ (db.Live c.grantId → db'.Live c.grantId)
  tokens : ∀ t' ∈ db'.oauthTokens, ∃ t ∈ db.oauthTokens, t.token = t'.token ∧ t.kind = t'.kind ∧
    t.grantId = t'.grantId ∧ (t'.usedAt = none → t.usedAt = none) ∧ (db.Live t.grantId → db'.Live t.grantId)

variable {cfg} {db db' db'' : Db} {s s' : State}

theorem Db.live_iff : db.Live g ↔ ∃ r ∈ db.agentTokens, r.id = g ∧ r.revokedAt = none := by
  simp [Live, standing, Table.mem_rows]

theorem Db.mem_standing : (∃ o, (g, o) ∈ db.standing) ↔ ∃ r ∈ db.agentTokens, r.id = g := by
  simp [standing, Table.mem_rows]

namespace Fades

-- Codes and tokens are dropped.
theorem of_subset (hs : db'.standing = db.standing) (hc : ∀ c ∈ db'.oauthCodes, c ∈ db.oauthCodes)
    (ht : ∀ t ∈ db'.oauthTokens, t ∈ db.oauthTokens) : Fades db db' where
  agents x hx  := ⟨x.2, hs ▸ hx⟩
  live g hg    := by rwa [Db.Live, hs] at hg
  codes c h    := ⟨c, hc c h, rfl, rfl, id, fun hl => by rwa [Db.Live, hs]⟩
  tokens t h   := ⟨t, ht t h, rfl, rfl, rfl, id, fun hl => by rwa [Db.Live, hs]⟩

theorem of_eq (hs : db'.standing = db.standing) (hc : db'.oauthCodes = db.oauthCodes)
    (ht : db'.oauthTokens = db.oauthTokens) : Fades db db' :=
  of_subset hs (fun _ h => hc ▸ h) fun _ h => ht ▸ h

theorem refl : Fades db db :=
  of_eq rfl rfl rfl

theorem trans (h₁ : Fades db db') (h₂ : Fades db' db'') : Fades db db'' where
  agents x hx := by
    obtain ⟨revokedAt, hx'⟩ := h₂.agents x hx
    exact h₁.agents (x.1, revokedAt) hx'
  live g hg := h₁.live g (h₂.live g hg)
  codes c hc := by
    obtain ⟨c', hc', hk', hg', hu', hl'⟩ := h₂.codes c hc
    obtain ⟨c'', hc'', hk, hg, hu, hl⟩ := h₁.codes c' hc'
    exact ⟨c'', hc'', hk.trans hk', hg.trans hg', hu ∘ hu', fun h => hg ▸ hl' (hg ▸ hl h)⟩
  tokens t ht := by
    obtain ⟨t', ht', hk', hd', hg', hu', hl'⟩ := h₂.tokens t ht
    obtain ⟨t'', ht'', hk, hd, hg, hu, hl⟩ := h₁.tokens t' ht'
    exact ⟨t'', ht'', hk.trans hk', hd.trans hd', hg.trans hg', hu ∘ hu', fun h => hg ▸ hl' (hg ▸ hl h)⟩

end Fades

-- Keys come and go without a change of who is live.

@[simp]
theorem standing_updateAgent : (db.updateAgent p w a).standing = db.standing :=
  Table.map_update (by simp) (by simp)

@[simp]
theorem standing_setAppKey : (db.setAppKey mailbox key).standing = db.standing := by
  rw [Db.setAppKey]
  split
  · exact Table.map_update (by simp) (by simp)
  · rfl

@[simp]
theorem standing_setAgentKeys : (db.setAgentKeys agent w a).standing = db.standing :=
  Table.map_update (by simp) (by simp)

theorem standing_sealAgain : (db.sealAgain cfg agent mailbox key).standing = db.standing := by
  rw [Db.sealAgain]
  split
  · split
    · exact standing_updateAgent
    · rfl
  · rfl

theorem standing_makeKey : (db.makeKey cfg agent mailbox secret fresh).1.standing = db.standing := by
  rw [Db.makeKey]
  split
  · exact standing_setAgentKeys
  · rfl

@[simp]
theorem standing_agentKey : (db.agentKey cfg agent mailbox secret unopened fresh).1.standing = db.standing := by
  rw [Db.agentKey]
  split
  · exact standing_sealAgain
  · split
    · rfl
    · exact standing_makeKey

@[simp]
theorem standing_grantKey : (grantKey cfg db grant secret fresh).standing = db.standing := by
  rw [grantKey]
  split
  · exact standing_agentKey
  · rfl

@[simp]
theorem standing_rewrap : (rewrap db grant old new).standing = db.standing := by
  rw [rewrap.eq_def]
  split
  · rw [Db.rewrapAgentKey]
    split
    · exact standing_updateAgent
    · rfl
  · rfl

theorem standing_keyed {auth : LetIn} : (auth.keyed cfg db fresh).standing = db.standing := by
  rw [LetIn.keyed]
  split
  · exact standing_agentKey
  · rfl

theorem standing_insert {row : AgentTokenRow} (h : db.agentTokens.insert? row = some a) :
    { db with agentTokens := a }.standing = db.standing ++ [(row.id, row.revokedAt)] := by
  obtain ⟨_, rfl⟩ := Table.insert?_eq_some.mp h
  simp [Db.standing, Table.insert]

theorem fades_rewrap : Fades db (rewrap db g old new) := by
  obtain ⟨_, h⟩ := rewrap_frame db g old new
  exact .of_eq standing_rewrap (by rw [h]) (by rw [h])

theorem fades_insertSnapshotKeys : Fades db (db.insertSnapshotKeys mailbox keyId wraps) := by
  obtain ⟨_, h⟩ := @Db.insertSnapshotKeys_frame db mailbox keyId wraps
  rw [h]
  exact .of_eq rfl rfl rfl

theorem fades_setAppKey : Fades db (db.setAppKey mailbox key) := by
  obtain ⟨_, _, h⟩ := @Db.setAppKey_frame db mailbox key
  exact .of_eq standing_setAppKey (by rw [h]) (by rw [h])

theorem fades_publish (h : publish cfg db mailbox address sealed row v = some (db', pushed)) : Fades db db' := by
  have insert {db₁ : Db} (hi : db.insertSnapshot { row with mailboxId := mailbox } = some db₁) : Fades db db₁ := by
    obtain ⟨_, _, rfl⟩ := Db.insertSnapshot_frame hi
    exact .of_eq rfl rfl rfl
  rcases publish_eq_some h with ⟨rfl, _⟩ | ⟨_, hs, _⟩
  case inl => exact .refl
  case inr =>
    cases hs
    case plain hi            => exact insert hi
    case sealed db₁ p hi     =>
      obtain ⟨_, _, hs⟩ := @storeSealed_frame cfg db₁ mailbox address p
      rw [hs]
      exact (insert hi).trans (fades_setAppKey.trans (fades_insertSnapshotKeys.trans (.of_eq rfl rfl rfl)))

-- Revocation

theorem mem_markRevoked : x ∈ (db.markRevoked p now).standing ↔ ∃ r ∈ db.agentTokens, x =
    (r.id, if p r then some (r.revokedAt.getD now) else r.revokedAt) := by
  simp only [Db.standing, Db.markRevoked, Table.update, List.map_map, List.mem_map, Table.mem_rows]
  refine exists_congr fun r => and_congr_right fun _ => ?_
  simp only [Function.comp_apply]
  split
  · simp [eq_comm]
  · simp [eq_comm]

@[simp]
theorem standing_forgetGrantSecrets : (db.forgetGrantSecrets g).standing = db.standing :=
  Table.map_update (by simp) (by simp)

theorem forget_live (hp : ∀ r, p r = true → r.id = g) (hg : g' ≠ g) (hl : db.Live g') :
    ((db.markRevoked p now).forgetGrantSecrets g).Live g' := by
  obtain ⟨r, hr, rfl, hn⟩ := Db.live_iff.mp hl
  have : p r = false := by
    by_contra h
    exact hg (hp r (by simpa using h))
  rw [Db.Live, standing_forgetGrantSecrets, mem_markRevoked]
  exact ⟨r, hr, by simp [this, hn]⟩

-- The agent's codes and tokens go, and the others' are left as they are.
theorem fades_forget (hp : ∀ r, p r = true → r.id = g) :
    Fades db ((db.markRevoked p now).forgetGrantSecrets g) := by
  refine ⟨fun x hx => ?_, fun g' hg => ?_, fun c hc => ?_, fun t ht => ?_⟩
  · rw [standing_forgetGrantSecrets, mem_markRevoked] at hx
    obtain ⟨r, hr, rfl⟩ := hx
    exact Db.mem_standing.mpr ⟨r, hr, rfl⟩
  · rw [Db.Live, standing_forgetGrantSecrets, mem_markRevoked] at hg
    obtain ⟨r, hr, he⟩ := hg
    obtain ⟨rfl, hn⟩ := Prod.mk.inj he
    split at hn
    case isTrue  => cases hn
    case isFalse => exact Db.live_iff.mpr ⟨r, hr, rfl, hn.symm⟩
  · obtain ⟨hc, hg⟩ := Table.mem_delete.mp hc
    exact ⟨c, hc, rfl, rfl, id, forget_live hp (by simpa using hg)⟩
  · obtain ⟨ht, hg⟩ := Table.mem_delete.mp ht
    exact ⟨t, ht, rfl, rfl, rfl, id, forget_live hp (by simpa using hg)⟩

theorem fades_revokeAgentToken : Fades db (db.revokeAgentToken mailbox agent now).1 := by
  rw [Db.revokeAgentToken]
  split
  · exact fades_forget fun r hr => by simp at hr; exact hr.right
  · exact .refl

theorem fades_revokeGrant : Fades db (db.revokeGrant agent now) :=
  fades_forget fun r hr => by simpa using hr

theorem fades_deleteMailbox : Fades db (db.deleteMailbox mailbox) := by
  have live (g) (hg : g ∉ (db.agentTokens.rows.filter (·.mailboxId = mailbox)).map (·.id)) (hl : db.Live g) :
      (db.deleteMailbox mailbox).Live g := by
    obtain ⟨r, hr, rfl, hn⟩ := Db.live_iff.mp hl
    refine Db.live_iff.mpr ⟨r, Table.mem_delete.mpr ⟨hr, ?_⟩, rfl, hn⟩
    by_contra hm
    exact hg (List.mem_map_of_mem (List.mem_filter.mpr ⟨hr, by simpa using hm⟩))
  refine ⟨fun x hx => ?_, fun g hg => ?_, fun c hc => ?_, fun t ht => ?_⟩
  · obtain ⟨r, hr, rfl⟩ := List.mem_map.mp hx
    exact Db.mem_standing.mpr ⟨r, (Table.mem_delete.mp hr).left, rfl⟩
  · obtain ⟨r, hr, rfl, hn⟩ := Db.live_iff.mp hg
    exact Db.live_iff.mpr ⟨r, (Table.mem_delete.mp hr).left, rfl, hn⟩
  · obtain ⟨hc, hg⟩ := Table.mem_delete.mp hc
    exact ⟨c, hc, rfl, rfl, id, live c.grantId (by simpa using hg)⟩
  · obtain ⟨ht, hg⟩ := Table.mem_delete.mp ht
    exact ⟨t, ht, rfl, rfl, rfl, id, live t.grantId (by simpa using hg)⟩

theorem fades_insertMailbox : Fades db (db.insertMailbox address).1 := by
  rw [Db.insertMailbox]
  split
  · exact .refl
  · exact .of_eq rfl rfl rfl

theorem fades_prune : Fades db (db.prune now) :=
  .of_subset rfl (fun _ h => (Table.mem_delete.mp h).left) fun _ h => (Table.mem_delete.mp h).left

theorem mem_useAuthCode : c ∈ (db.useAuthCode code now).oauthCodes ↔
    (c ∈ db.oauthCodes ∧ c.code ≠ code) ∨ ∃ c' ∈ db.oauthCodes, c'.code = code ∧ { c' with usedAt := some now } = c := by
  simp [Db.useAuthCode]

theorem mem_useOAuthToken : t ∈ (db.useOAuthToken token now).oauthTokens ↔
    (t ∈ db.oauthTokens ∧ t.token ≠ token) ∨
      ∃ t' ∈ db.oauthTokens, t'.token = token ∧ { t' with usedAt := some now } = t := by
  simp [Db.useOAuthToken]

theorem fades_useAuthCode : Fades db (db.useAuthCode code now) where
  agents x hx    := ⟨x.2, hx⟩
  live _         := id
  codes c h      := by
    rcases mem_useAuthCode.mp h with ⟨hc, _⟩ | ⟨c', hc, _, rfl⟩
    · exact ⟨c, hc, rfl, rfl, id, id⟩
    · exact ⟨c', hc, rfl, rfl, nofun, id⟩
  tokens t h     := ⟨t, h, rfl, rfl, rfl, id, id⟩

theorem fades_useOAuthToken : Fades db (db.useOAuthToken token now) where
  agents x hx    := ⟨x.2, hx⟩
  live _         := id
  codes c h      := ⟨c, h, rfl, rfl, id, id⟩
  tokens t h     := by
    rcases mem_useOAuthToken.mp h with ⟨ht, _⟩ | ⟨t', ht, _, rfl⟩
    · exact ⟨t, ht, rfl, rfl, rfl, id, id⟩
    · exact ⟨t', ht, rfl, rfl, rfl, nofun, id⟩

theorem fades_deleteAccessTokens : Fades db (db.deleteAccessTokens g) :=
  .of_subset rfl (fun _ => id) fun _ h => (Table.mem_delete.mp h).left

end Kaluta.Server
