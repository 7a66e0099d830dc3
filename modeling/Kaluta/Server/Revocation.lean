import Kaluta.Server.Grants

-- What holds of grants along every run: a code and a refresh token are exchanged once, using one of them
-- again revokes the grant, and a grant that is revoked stays so.
namespace Kaluta.Server

variable {cfg : Config} {db db' : Db} {s s' t : State}

-- The grant whose code or refresh token a request presents, and when it was used.
def Db.finds (db : Db) : GrantType → Option (AgentId × Option Millis)
  | .authorizationCode code _ _ => (db.authCode code).map fun row => (row.grantId, row.usedAt)
  | .refreshToken token         =>
    ((db.oauthToken token).filter (·.kind = .refresh)).map fun row => (row.grantId, row.usedAt)

-- The grant is revoked and every code and token of it is dropped.
structure Db.Revoked (db : Db) (g : AgentId) : Prop where
  agent  : ∃ revokedAt : Millis, (g, some revokedAt) ∈ db.standing
  tokens : ∀ t ∈ db.oauthTokens, t.grantId ≠ g
  codes  : ∀ c ∈ db.oauthCodes, c.grantId ≠ g

-- Nothing that was issued for the grant is accepted, and nothing is issued for it.
structure State.Refuses (cfg : Config) (s : State) (g : AgentId) : Prop where
  bearer   : ∀ bearer oauthOk now auth, agentAuth cfg s.db bearer oauthOk now = some auth → auth.agentId ≠ g
  access   : ∀ i ∈ s.issued, i.grantId = g → ∀ oauthOk now, agentAuth cfg s.db (.access i.access) oauthOk now = none
  refresh  : ∀ i ∈ s.issued, i.grantId = g → ∀ request now s', request.grantType = .refreshToken i.refresh →
    s.step cfg (.exchange request now) = some s' → s'.issued = s.issued
  exchange : ∀ request now s', s.step cfg (.exchange request now) = some s' → ∀ i ∈ s'.issued, i.grantId = g →
    i ∈ s.issued

theorem reachable_grants (h : (server cfg).Reachable ok s) : s.Grants := by
  refine h.invariant (fun s hs => ?_) fun _ _ _ hg _ hs => (step_grantStep hg hs).grants hg
  cases hs
  have none {α : Type} {κ : Type} {key : α → κ} {P : α → Prop} : ∀ a ∈ (∅ : Table α key), P a :=
    fun a ha => absurd ha Table.not_mem_empty
  exact {
    agents     := by simp [Db.standing, EmptyCollection.emptyCollection]
    codes      := none
    tokens     := none
    oneCode    := none
    first      := none
    oneAccess  := none
    oneRefresh := none
    unissued   := by simp
    grants     := by simp
    spent      := by simp
    pairs      := by simp
    once       := List.nodup_nil }

-- Using something again

theorem markRevoked_revokes (hl : db.Live g) (hp : ∀ r ∈ db.agentTokens, r.id = g → p r = true) :
    ((db.markRevoked p now).forgetGrantSecrets g).Revoked g where
  agent := by
    obtain ⟨r, hr, rfl, hn⟩ := Db.live_iff.mp hl
    refine ⟨now, ?_⟩
    rw [standing_forgetGrantSecrets, mem_markRevoked]
    exact ⟨r, hr, by simp [hp r hr rfl, hn]⟩
  tokens t ht := by simpa using (Table.mem_delete.mp ht).right
  codes c hc  := by simpa using (Table.mem_delete.mp hc).right

theorem revokeGrant_revoked (hl : db.Live g) : (db.revokeGrant g now).Revoked g :=
  markRevoked_revokes hl fun r _ hr => by simp [hr]

-- What was exchanged before is found used.
theorem State.Grants.finds_used (h : s.Grants) (hf : s.db.finds grantType = some (g, usedAt))
    (hi : grantType.presented ∈ s.issued.map (·.presented)) : usedAt ≠ none := by
  obtain ⟨i, hi, hp⟩ := List.mem_map.mp hi
  have hs := h.spent i hi
  rw [hp] at hs
  cases grantType
  case authorizationCode =>
    obtain ⟨row, hr, he⟩ := Option.map_eq_some_iff.mp hf
    have ⟨hm, hk⟩ := Table.find?_eq_some_iff.mp hr
    cases he
    exact hs.right row hm hk
  case refreshToken =>
    obtain ⟨row, hr, he⟩ := Option.map_eq_some_iff.mp hf
    have ⟨hm, hk⟩ := Table.find?_eq_some_iff.mp (Option.filter_eq_some_iff.mp hr).left
    cases he
    exact hs.right row hm hk

theorem State.Grants.finds_live (h : s.Grants) (hf : s.db.finds grantType = some (g, usedAt)) : s.db.Live g := by
  cases grantType
  case authorizationCode =>
    obtain ⟨row, hr, he⟩ := Option.map_eq_some_iff.mp hf
    cases he
    exact (h.codes row (Table.find?_mem hr)).right
  case refreshToken =>
    obtain ⟨row, hr, he⟩ := Option.map_eq_some_iff.mp hf
    cases he
    exact (h.tokens row (Table.find?_mem (Option.filter_eq_some_iff.mp hr).left)).right.right

-- A request that presents what was used revokes the grant.
theorem exchange_replayed (hf : db.finds request.grantType = some (g, usedAt)) (hu : usedAt ≠ none) :
    exchange cfg db request now rnd = some (db.revokeGrant g now, .replayed g) := by
  unfold exchange
  cases hr : request.grantType
  case authorizationCode =>
    rw [hr] at hf
    obtain ⟨row, hc, he⟩ := Option.map_eq_some_iff.mp hf
    cases he
    simp only [exchangeCode, hc, if_pos hu]
  case refreshToken =>
    rw [hr] at hf
    obtain ⟨row, ht, he⟩ := Option.map_eq_some_iff.mp hf
    cases he
    simp only [exchangeRefresh, ht, if_pos hu]

theorem step_replayed (h : s.Grants) (hr : request ∈ s.requests)
    (hf : s.db.finds request.grantType = some (g, usedAt)) (hu : usedAt ≠ none) :
    ∃ s', s.step cfg (.exchange request now) = some s' ∧ s'.db.Revoked g := by
  refine ⟨{ s with
    db := s.db.revokeGrant g now, next := s.next + DRAWS, requests := s.requests.erase request }, ?_,
    revokeGrant_revoked (h.finds_live hf)⟩
  simp [State.step, State.exchange, hr, exchange_replayed hf hu]

-- A grant that is revoked stays so

theorem GrantStep.not_live (hs : GrantStep s s') (hn : g < s.next) (h : ¬s.db.Live g) : ¬s'.db.Live g := by
  cases hs
  case fades hf _ _       => exact fun hl => h (hf.live g hl)
  case agent hs _ _ _     =>
    intro hl
    rw [Db.Live, hs] at hl
    rcases List.mem_append.mp hl with hl | hl
    · exact h hl
    · cases List.mem_singleton.mp hl
      exact lt_irrefl _ hn
  case issues hf hi       => exact fun hl => h (hf.live g (hi.live_iff.mp hl))

theorem GrantStep.next_le (hs : GrantStep s s') : s.next ≤ s'.next := by
  cases hs
  case fades hn        => exact hn
  case agent hn _ _ _ _ => exact hn.le
  case issues hi       => exact (hi.access.left.trans_lt hi.access.right.left).le

theorem leads_not_live (h : (server cfg).Leads ok s t) (hg : s.Grants) (hn : g < s.next) (hl : ¬s.db.Live g) :
    ¬t.db.Live g := by
  suffices t.Grants ∧ g < t.next ∧ ¬t.db.Live g from this.right.right
  refine h.invariant (P := fun t => t.Grants ∧ g < t.next ∧ ¬t.db.Live g) ⟨hg, hn, hl⟩ fun s a s' hi _ hs => ?_
  have step := step_grantStep hi.left hs
  exact ⟨step.grants hi.left, hi.right.left.trans_le step.next_le, step.not_live hi.right.left hi.right.right⟩

theorem agentAuth_live (h : agentAuth cfg db bearer oauthOk now = some auth) : db.Live auth.agentId := by
  cases bearer
  case access token =>
    obtain ⟨_, grant, _, _, hg, _, hn, rfl⟩ := agentAuth_access h
    exact Db.live_iff.mpr ⟨grant, (agentToken_eq_some hg).left, rfl, hn⟩
  case agent token =>
    obtain ⟨row, _, hr, hn, _, rfl⟩ := agentAuth_agent h
    exact Db.live_iff.mpr ⟨row, (agentToken_eq_some hr).left, rfl, hn⟩

-- A pair that an exchange issues is for a live grant, the one of the refresh token that was presented.
theorem step_exchange_issued (hs : s.step cfg (.exchange request now) = some s') :
    s'.issued = s.issued ∨ ∃ i, s'.issued = i :: s.issued ∧ s.db.Live i.grantId ∧
      ∀ token, request.grantType = .refreshToken token → ∃ t ∈ s.db.oauthTokens, t.token = token ∧ t.grantId = i.grantId := by
  obtain ⟨db, outcome, hx, rfl⟩ := State.exchange_eq_some hs
  cases hx
  case issuedCode row hr _ _ hl _ =>
    exact .inr ⟨_, rfl, liveGrant_live hl, fun _ ht => by rw [hr] at ht; cases ht⟩
  case issuedRefresh row hr ht _ _ hl _ =>
    refine .inr ⟨_, rfl, liveGrant_live hl, fun token he => ?_⟩
    rw [hr] at he
    cases he
    have ⟨hm, hk⟩ := Table.find?_eq_some_iff.mp ht
    exact ⟨row, hm, hk, rfl⟩
  all_goals exact .inl rfl

theorem State.Grants.refuses (h : s.Grants) (hl : ¬s.db.Live g) : s.Refuses cfg g where
  bearer bearer oauthOk now auth ha he := hl (he ▸ agentAuth_live ha)
  access i hi hg oauthOk now := by
    cases ha : agentAuth cfg s.db (.access i.access) oauthOk now
    case none      => rfl
    case some auth =>
      obtain ⟨t, grant, _, ht, hr, _, _, rfl⟩ := agentAuth_access ha
      have ⟨hm, hk⟩ := Table.find?_eq_some_iff.mp ht
      have he := (h.pairs i hi).right.right t hm (.inl hk)
      have hlive := agentAuth_live ha
      rw [show grant.id = g from (agentToken_eq_some hr).right.trans (he.trans hg)] at hlive
      exact absurd hlive hl
  refresh i hi hg request now s' hr hs := by
    rcases step_exchange_issued hs with he | ⟨j, _, hj, hp⟩
    · exact he
    · obtain ⟨t, ht, hk, he⟩ := hp i.refresh hr
      have := (h.pairs i hi).right.right t ht (.inr hk)
      exact absurd (hg ▸ this ▸ he ▸ hj) hl
  exchange request now s' hs i hi hg := by
    rcases step_exchange_issued hs with he | ⟨j, he, hj, _⟩
    · exact he ▸ hi
    · rcases List.mem_cons.mp (he ▸ hi) with rfl | hi
      · exact absurd (hg ▸ hj) hl
      · exact hi

-- In every reachable state: a code and a refresh token were exchanged once at most; a grant has one unused
-- refresh token and one access token at most; presenting what was used revokes the grant; and nothing of a
-- grant that is revoked is accepted from then on.
theorem reachable_grant_safety (h : (server cfg).Reachable (fun _ _ => True) s) :
    (s.issued.map (·.presented)).Nodup ∧
    (∀ g, s.db.oauthTokens.count (fun t => t.grantId = g ∧ t.kind = .refresh ∧ t.usedAt = none) ≤ 1 ∧
      s.db.oauthTokens.count (fun t => t.grantId = g ∧ t.kind = .access) ≤ 1) ∧
    (∀ request ∈ s.requests, ∀ g usedAt, s.db.finds request.grantType = some (g, usedAt) →
      usedAt ≠ none ∨ request.grantType.presented ∈ s.issued.map (·.presented) →
      ∀ now, ∃ s', s.step cfg (.exchange request now) = some s' ∧ s'.db.Revoked g) ∧
    (∀ g revokedAt, (g, some revokedAt) ∈ s.db.standing →
      ∀ t, (server cfg).Leads (fun _ _ => True) s t → t.Refuses cfg g) := by
  have hg := reachable_grants h
  refine ⟨hg.once, fun g => ⟨?_, ?_⟩, fun request hr g usedAt hf hu now => ?_, fun g revokedAt hm t hl => ?_⟩
  case refine_1 =>
    refine Table.count_le_one fun t ht t' ht' hp hp' => ?_
    obtain ⟨rfl, hk, hn⟩ := of_decide_eq_true hp
    obtain ⟨he, hk', hn'⟩ := of_decide_eq_true hp'
    exact hg.oneRefresh t ht t' ht' hk hk' hn hn' he.symm
  case refine_2 =>
    refine Table.count_le_one fun t ht t' ht' hp hp' => ?_
    obtain ⟨rfl, hk⟩ := of_decide_eq_true hp
    obtain ⟨he, hk'⟩ := of_decide_eq_true hp'
    exact hg.oneAccess t ht t' ht' hk hk' he.symm
  case refine_3 =>
    exact step_replayed hg hr hf (hu.elim id (hg.finds_used hf))
  case refine_4 =>
    have ht := reachable_grants (hl.reachable h)
    refine ht.refuses (leads_not_live hl hg (hg.agents _ hm) fun hlive => ?_)
    -- An agent has one row, and it says when the agent was revoked.
    obtain ⟨r, hr, he⟩ := List.mem_map.mp hm
    obtain ⟨r', hr', hid, hn⟩ := Db.live_iff.mp hlive
    obtain ⟨rfl, hrevoked⟩ := Prod.mk.inj he
    obtain rfl := Table.eq_of_key_eq hr hr' hid.symm
    rw [hn] at hrevoked
    cases hrevoked

def verifier : String := "abcdefghijklmnopqrstuvwxyzABCDEFGHIJKLMNOPQ"

def codeRequest : TokenRequest :=
  { clientId := 0, grantType := .authorizationCode 9 verifier (some "https://app.example/") }

def refreshRequest : TokenRequest := { clientId := 0, grantType := .refreshToken (refreshToken 13 12) }

-- A grant whose first refresh token was exchanged, and comes again.
theorem reachable_grant_safety_replayed : ∃ s, (server lenient).Reachable (fun _ _ => True) s ∧ s.issued.length = 2 ∧
    (s.issued.map (·.presented)).Nodup ∧
    ∃ s', s.step lenient (.exchange refreshRequest 0) = some s' ∧ s'.db.Revoked 8 := by
  have run : ((server lenient).run (fun _ _ => True) {} [
      .register "scout@a.example", .registerClient 0, .connectCode 1 0,
      .consent { clientId := 0, redirectUri := "https://app.example/", challenge := verifier } 4 0,
      .checkRequest codeRequest, .exchange codeRequest 0, .checkRequest refreshRequest, .exchange refreshRequest 0,
      .checkRequest refreshRequest]).any
        fun s => s.issued.length = 2 ∧ refreshRequest ∈ s.requests ∧
          s.db.finds refreshRequest.grantType = some (8, some 0) := by decide
  obtain ⟨s, hs, h⟩ := (Option.any_eq_true _ _).mp run
  obtain ⟨hl, hr, hf⟩ := of_decide_eq_true h
  have hreach := System.Reachable.run (.start rfl) hs
  have safe := reachable_grant_safety hreach
  exact ⟨s, hreach, hl, safe.left, safe.right.right.left _ hr 8 _ hf (.inl nofun) 0⟩

end Kaluta.Server
