import Kaluta.Server.Standing

namespace Kaluta.Server

variable {cfg : Config} {db db' : Db} {s s' : State}

-- What was presented was drawn before, and what is left of it is marked as used.
def Db.Spent (db : Db) (next : Nat) : Presented → Prop
  | .code code     => code < next ∧ ∀ c ∈ db.oauthCodes, c.code = code → c.usedAt ≠ none
  | .refresh token => token.nonce < next ∧ ∀ t ∈ db.oauthTokens, t.token = token → t.usedAt ≠ none

structure State.Grants (s : State) : Prop where
  agents     : ∀ x ∈ s.db.standing, x.1 < s.next
  codes      : ∀ c ∈ s.db.oauthCodes, c.code < s.next ∧ s.db.Live c.grantId
  tokens     : ∀ t ∈ s.db.oauthTokens, t.token.nonce < s.next ∧ t.kind = t.token.kind ∧ s.db.Live t.grantId
  oneCode    : ∀ c ∈ s.db.oauthCodes, ∀ c' ∈ s.db.oauthCodes, c.grantId = c'.grantId → c = c'
  first      : ∀ c ∈ s.db.oauthCodes, c.usedAt = none → ∀ t ∈ s.db.oauthTokens, t.grantId ≠ c.grantId
  oneAccess  : ∀ t ∈ s.db.oauthTokens, ∀ t' ∈ s.db.oauthTokens, t.kind = .access → t'.kind = .access →
    t.grantId = t'.grantId → t = t'
  oneRefresh : ∀ t ∈ s.db.oauthTokens, ∀ t' ∈ s.db.oauthTokens, t.kind = .refresh → t'.kind = .refresh →
    t.usedAt = none → t'.usedAt = none → t.grantId = t'.grantId → t = t'
  unissued   : ∀ c ∈ s.db.oauthCodes, c.usedAt = none → ∀ i ∈ s.issued, i.grantId ≠ c.grantId
  grants     : ∀ i ∈ s.issued, i.grantId < s.next
  spent      : ∀ i ∈ s.issued, s.db.Spent s.next i.presented
  pairs      : ∀ i ∈ s.issued, i.access.nonce < s.next ∧ i.refresh.nonce < s.next ∧
    ∀ t ∈ s.db.oauthTokens, t.token = i.access ∨ t.token = i.refresh → t.grantId = i.grantId
  once       : (s.issued.map (·.presented)).Nodup

theorem Fades.spent (hf : Fades db db') (hn : next ≤ next') (h : db.Spent next p) : db'.Spent next' p := by
  cases p
  case code =>
    refine ⟨h.left.trans_le hn, fun c' hc' hk hu => ?_⟩
    obtain ⟨c, hc, hk', _, hu', _⟩ := hf.codes c' hc'
    exact h.right c hc (hk'.trans hk) (hu' hu)
  case refresh =>
    refine ⟨h.left.trans_le hn, fun t' ht' hk hu => ?_⟩
    obtain ⟨t, ht, hk', _, _, hu', _⟩ := hf.tokens t' ht'
    exact h.right t ht (hk'.trans hk) (hu' hu)

-- Steps that issue nothing
theorem Fades.grants (hf : Fades s.db s'.db) (hi : s'.issued = s.issued) (hn : s.next ≤ s'.next) (h : s.Grants) :
    s'.Grants where
  agents x hx := by
    obtain ⟨_, hx'⟩ := hf.agents x hx
    exact (h.agents _ hx').trans_le hn
  codes c' hc' := by
    obtain ⟨c, hc, hk, hg, _, hl⟩ := hf.codes c' hc'
    have ⟨hlt, hlive⟩ := h.codes c hc
    exact ⟨hk ▸ hlt.trans_le hn, hg ▸ hl hlive⟩
  tokens t' ht' := by
    obtain ⟨t, ht, hk, hd, hg, _, hl⟩ := hf.tokens t' ht'
    have ⟨hlt, hkind, hlive⟩ := h.tokens t ht
    exact ⟨hk ▸ hlt.trans_le hn, hk ▸ hd ▸ hkind, hg ▸ hl hlive⟩
  oneCode c₁ hc₁ c₂ hc₂ hg := by
    obtain ⟨b₁, hb₁, hk₁, hg₁, _⟩ := hf.codes c₁ hc₁
    obtain ⟨b₂, hb₂, hk₂, hg₂, _⟩ := hf.codes c₂ hc₂
    obtain rfl := h.oneCode b₁ hb₁ b₂ hb₂ (hg₁.trans (hg.trans hg₂.symm))
    exact Table.eq_of_key_eq hc₁ hc₂ (hk₁.symm.trans hk₂)
  first c' hc' hu t' ht' := by
    obtain ⟨c, hc, _, hg, hu', _⟩ := hf.codes c' hc'
    obtain ⟨t, ht, _, _, hg', _⟩ := hf.tokens t' ht'
    exact hg ▸ hg' ▸ h.first c hc (hu' hu) t ht
  oneAccess t₁ ht₁ t₂ ht₂ ha₁ ha₂ hg := by
    obtain ⟨b₁, hb₁, hk₁, hd₁, hg₁, _⟩ := hf.tokens t₁ ht₁
    obtain ⟨b₂, hb₂, hk₂, hd₂, hg₂, _⟩ := hf.tokens t₂ ht₂
    obtain rfl := h.oneAccess b₁ hb₁ b₂ hb₂ (hd₁.trans ha₁) (hd₂.trans ha₂) (hg₁.trans (hg.trans hg₂.symm))
    exact Table.eq_of_key_eq ht₁ ht₂ (hk₁.symm.trans hk₂)
  oneRefresh t₁ ht₁ t₂ ht₂ hr₁ hr₂ hu₁ hu₂ hg := by
    obtain ⟨b₁, hb₁, hk₁, hd₁, hg₁, hu₁', _⟩ := hf.tokens t₁ ht₁
    obtain ⟨b₂, hb₂, hk₂, hd₂, hg₂, hu₂', _⟩ := hf.tokens t₂ ht₂
    obtain rfl := h.oneRefresh b₁ hb₁ b₂ hb₂ (hd₁.trans hr₁) (hd₂.trans hr₂) (hu₁' hu₁) (hu₂' hu₂)
      (hg₁.trans (hg.trans hg₂.symm))
    exact Table.eq_of_key_eq ht₁ ht₂ (hk₁.symm.trans hk₂)
  unissued c' hc' hu i hi' := by
    obtain ⟨c, hc, _, hg, hu', _⟩ := hf.codes c' hc'
    exact hg ▸ h.unissued c hc (hu' hu) i (hi ▸ hi')
  grants i hi' := (h.grants i (hi ▸ hi')).trans_le hn
  spent i hi' := hf.spent hn (h.spent i (hi ▸ hi'))
  pairs i hi' := by
    have ⟨ha, hr, hp⟩ := h.pairs i (hi ▸ hi')
    refine ⟨ha.trans_le hn, hr.trans_le hn, fun t' ht' he => ?_⟩
    obtain ⟨t, ht, hk, _, hg, _⟩ := hf.tokens t' ht'
    exact hg ▸ hp t ht (hk ▸ he)
  once := hi ▸ h.once

-- A new agent and, if it connected with a connect code, its authorization code
theorem grants_of_agent (c₀ : Option AuthCodeRow)
    (hc₀ : ∀ c ∈ c₀, c.grantId = s.next ∧ s.next ≤ c.code ∧ c.code < s'.next) (hn : s.next < s'.next)
    (hs : s'.db.standing = s.db.standing ++ [(s.next, none)])
    (hc : ∀ c ∈ s'.db.oauthCodes, c ∈ s.db.oauthCodes ∨ c ∈ c₀) (ht : s'.db.oauthTokens = s.db.oauthTokens)
    (hi : s'.issued = s.issued) (h : s.Grants) : s'.Grants := by
  have live (g) (hl : s.db.Live g) : s'.db.Live g := by
    rw [Db.Live, hs]
    exact List.mem_append_left _ hl
  have old (g) (hl : s.db.Live g) : g ≠ s.next := (h.agents _ hl).ne
  exact {
    agents x hx := by
      rcases List.mem_append.mp (hs ▸ hx) with hx | hx
      · exact (h.agents x hx).trans hn
      · obtain rfl := List.mem_singleton.mp hx
        exact hn
    codes c hc' := by
      rcases hc c hc' with hc' | hm
      · exact ⟨(h.codes c hc').left.trans hn, live _ (h.codes c hc').right⟩
      · obtain ⟨hg, _, hlt⟩ := hc₀ c hm
        refine ⟨hlt, ?_⟩
        rw [hg, Db.Live, hs]
        exact List.mem_append_right _ (List.mem_singleton_self _)
    tokens t ht' := by
      obtain ⟨hlt, hk, hl⟩ := h.tokens t (ht ▸ ht')
      exact ⟨hlt.trans hn, hk, live _ hl⟩
    oneCode c₁ hc₁ c₂ hc₂ he := by
      rcases hc c₁ hc₁ with hc₁ | hm₁ <;> rcases hc c₂ hc₂ with hc₂ | hm₂
      · exact h.oneCode c₁ hc₁ c₂ hc₂ he
      · exact absurd (he.trans (hc₀ c₂ hm₂).left) (old _ (h.codes c₁ hc₁).right)
      · exact absurd (he.symm.trans (hc₀ c₁ hm₁).left) (old _ (h.codes c₂ hc₂).right)
      · exact Option.mem_unique hm₁ hm₂
    first c hc' hu t ht' := by
      rcases hc c hc' with hc' | hm
      · exact h.first c hc' hu t (ht ▸ ht')
      · exact (hc₀ c hm).left ▸ old _ (h.tokens t (ht ▸ ht')).right.right
    oneAccess := ht ▸ h.oneAccess
    oneRefresh := ht ▸ h.oneRefresh
    unissued c hc' hu i hi' := by
      rcases hc c hc' with hc' | hm
      · exact h.unissued c hc' hu i (hi ▸ hi')
      · exact (hc₀ c hm).left ▸ (h.grants i (hi ▸ hi')).ne
    grants i hi' := (h.grants i (hi ▸ hi')).trans hn
    spent i hi' := by
      have hs := h.spent i (hi ▸ hi')
      cases hp : i.presented
      case code code =>
        rw [hp] at hs
        refine ⟨hs.left.trans hn, fun c hc' hk => ?_⟩
        rcases hc c hc' with hc' | hm
        · exact hs.right c hc' hk
        · exact absurd (hk ▸ (hc₀ c hm).right.left) (not_le.mpr hs.left)
      case refresh token =>
        rw [hp] at hs
        exact ⟨hs.left.trans hn, fun t ht' => hs.right t (ht ▸ ht')⟩
    pairs i hi' := by
      obtain ⟨ha, hr, hp⟩ := h.pairs i (hi ▸ hi')
      exact ⟨ha.trans hn, hr.trans hn, fun t ht' => hp t (ht ▸ ht')⟩
    once := hi ▸ h.once }

-- A pair of tokens issued for a live grant of which no other is left that could be used
structure Issues (s s' : State) (i : Issue) : Prop where
  issued   : s'.issued = i :: s.issued
  standing : s'.db.standing = s.db.standing
  codes    : s'.db.oauthCodes = s.db.oauthCodes
  tokens   : ∀ t ∈ s'.db.oauthTokens, t ∈ s.db.oauthTokens ∨
    ((t.token = i.access ∨ t.token = i.refresh) ∧ t.kind = t.token.kind ∧ t.grantId = i.grantId)
  access   : s.next ≤ i.access.nonce ∧ i.access.nonce < s'.next ∧ i.access.kind = .access
  refresh  : s.next ≤ i.refresh.nonce ∧ i.refresh.nonce < s'.next ∧ i.refresh.kind = .refresh
  live     : s.db.Live i.grantId
  used     : ∀ c ∈ s.db.oauthCodes, c.grantId = i.grantId → c.usedAt ≠ none
  ended    : ∀ t ∈ s.db.oauthTokens, t.grantId = i.grantId → t.kind = .refresh ∧ t.usedAt ≠ none
  spent    : s.db.Spent s.next i.presented
  once     : i.presented ∉ s.issued.map (·.presented)

-- The pair's rows are told from those that there were by their nonces.
theorem Issues.new_token (hi : Issues s s' i) (ht : t ∈ s'.db.oauthTokens)
    (hn : t.token.nonce < s.next) : t ∈ s.db.oauthTokens := by
  rcases hi.tokens t ht with ht | ⟨he | he, _⟩
  · exact ht
  · exact absurd (he ▸ hn) (not_lt.mpr hi.access.left)
  · exact absurd (he ▸ hn) (not_lt.mpr hi.refresh.left)

theorem Issues.live_iff (hi : Issues s s' i) : s'.db.Live g ↔ s.db.Live g := by
  rw [Db.Live, hi.standing, Db.Live]

-- Of a kind there is one that can be used, among the rows that there were and those of the pair.
theorem Issues.one (hi : Issues s s' i) {kind : TokenKind} {u : OAuthTokenRow → Prop}
    (hu : ∀ t ∈ s.db.oauthTokens, t.grantId = i.grantId → t.kind = kind → ¬u t)
    (h : ∀ t ∈ s.db.oauthTokens, ∀ t' ∈ s.db.oauthTokens, t.kind = kind → t'.kind = kind → u t → u t' →
      t.grantId = t'.grantId → t = t') :
    ∀ t ∈ s'.db.oauthTokens, ∀ t' ∈ s'.db.oauthTokens, t.kind = kind → t'.kind = kind → u t → u t' →
      t.grantId = t'.grantId → t = t' := by
  intro t ht t' ht' hk hk' hn hn' hg
  rcases hi.tokens t ht with hs | ⟨he, hd, hi₁⟩ <;> rcases hi.tokens t' ht' with hs' | ⟨he', hd', hi₂⟩
  · exact h t hs t' hs' hk hk' hn hn' hg
  · exact absurd hn (hu t hs (hg.trans hi₂) hk)
  · exact absurd hn' (hu t' hs' (hg.symm.trans hi₁) hk')
  · refine Table.eq_of_key_eq ht ht' ?_
    have ha := hi.access.right.right
    have hr := hi.refresh.right.right
    rcases he with he | he <;> rcases he' with he' | he'
    · exact he.trans he'.symm
    · rw [hd, he, ha] at hk; rw [hd', he', hr, ← hk] at hk'; cases hk'
    · rw [hd, he, hr] at hk; rw [hd', he', ha, ← hk] at hk'; cases hk'
    · exact he.trans he'.symm

theorem Issues.grants (hi : Issues s s' i) (h : s.Grants) : s'.Grants where
  agents x hx := (h.agents x (hi.standing ▸ hx)).trans (hi.access.left.trans_lt hi.access.right.left)
  codes c hc := by
    have ⟨hlt, hl⟩ := h.codes c (hi.codes ▸ hc)
    exact ⟨hlt.trans (hi.access.left.trans_lt hi.access.right.left), hi.live_iff.mpr hl⟩
  tokens t ht := by
    rcases hi.tokens t ht with ht | ⟨he, hk, hg⟩
    · have ⟨hlt, hk, hl⟩ := h.tokens t ht
      exact ⟨hlt.trans (hi.access.left.trans_lt hi.access.right.left), hk, hi.live_iff.mpr hl⟩
    · refine ⟨?_, hk, hg ▸ hi.live_iff.mpr hi.live⟩
      rcases he with he | he
      · exact he ▸ hi.access.right.left
      · exact he ▸ hi.refresh.right.left
  oneCode := hi.codes ▸ h.oneCode
  first c hc hu t ht := by
    rcases hi.tokens t ht with ht | ⟨_, _, hg⟩
    · exact h.first c (hi.codes ▸ hc) hu t ht
    · intro he
      exact hi.used c (hi.codes ▸ hc) (he.symm.trans hg) hu
  oneAccess t ht t' ht' hk hk' := by
    refine hi.one (u := fun _ => True) (fun t ht hg hk => ?_) ?_ t ht t' ht' hk hk' trivial trivial
    · rw [(hi.ended t ht hg).left] at hk
      cases hk
    · exact fun t ht t' ht' hk hk' _ _ => h.oneAccess t ht t' ht' hk hk'
  oneRefresh t ht t' ht' hk hk' := by
    refine hi.one (fun t ht hg _ => ?_) h.oneRefresh t ht t' ht' hk hk'
    exact (hi.ended t ht hg).right
  unissued c hc hu j hj := by
    rcases List.mem_cons.mp (hi.issued ▸ hj) with rfl | hj
    · exact fun hg => hi.used c (hi.codes ▸ hc) hg.symm hu
    · exact h.unissued c (hi.codes ▸ hc) hu j hj
  grants j hj := by
    have hn := hi.access.left.trans_lt hi.access.right.left
    rcases List.mem_cons.mp (hi.issued ▸ hj) with rfl | hj
    · exact (h.agents _ hi.live).trans hn
    · exact (h.grants j hj).trans hn
  spent j hj := by
    have hn := (hi.access.left.trans_lt hi.access.right.left).le
    have hs : s.db.Spent s.next j.presented := by
      rcases List.mem_cons.mp (hi.issued ▸ hj) with rfl | hj
      · exact hi.spent
      · exact h.spent j hj
    cases hp : j.presented
    case code =>
      rw [hp] at hs
      exact ⟨hs.left.trans_le hn, hi.codes ▸ hs.right⟩
    case refresh =>
      rw [hp] at hs
      exact ⟨hs.left.trans_le hn, fun t ht he => hs.right t (hi.new_token ht (he ▸ hs.left)) he⟩
  pairs j hj := by
    have hn := (hi.access.left.trans_lt hi.access.right.left).le
    rcases List.mem_cons.mp (hi.issued ▸ hj) with rfl | hj
    case inl =>
      refine ⟨hi.access.right.left, hi.refresh.right.left, fun t ht he => ?_⟩
      rcases hi.tokens t ht with ht | ⟨_, _, hg⟩
      · have hlt := (h.tokens t ht).left
        rcases he with he | he
        · exact absurd (he ▸ hlt) (not_lt.mpr hi.access.left)
        · exact absurd (he ▸ hlt) (not_lt.mpr hi.refresh.left)
      · exact hg
    case inr =>
      have ⟨ha, hr, hp⟩ := h.pairs j hj
      refine ⟨ha.trans_le hn, hr.trans_le hn, fun t ht he => hp t (hi.new_token ht ?_) he⟩
      rcases he with he | he
      · exact he ▸ ha
      · exact he ▸ hr
  once := by
    rw [hi.issued, List.map_cons]
    exact List.nodup_cons.mpr ⟨hi.once, h.once⟩

theorem liveGrant_live (h : liveGrant db g client = true) : db.Live g := by
  simp only [liveGrant, Option.any_eq_true] at h
  obtain ⟨⟨row, address⟩, ha, h⟩ := h
  have ⟨hm, hk⟩ := agentToken_eq_some ha
  simp only [Bool.and_eq_true, decide_eq_true_eq] at h
  exact Db.live_iff.mpr ⟨row, hm, hk, h.left.right⟩

theorem mem_issue (h : issue cfg db g resource now secret rnd = some (db', access, refresh))
    (ht : t ∈ db'.oauthTokens) :
    t ∈ db.oauthTokens ∨ ((t.token = access ∨ t.token = refresh) ∧ t.kind = t.token.kind ∧ t.grantId = g) := by
  obtain ⟨_, _, _, _, h₁, h₂, rfl⟩ := issue_eq_some h
  rcases (Table.mem_insert? h₂).mp ht with ht | rfl
  · rcases (Table.mem_insert? h₁).mp ht with ht | rfl
    · exact .inl ht
    · exact .inr ⟨.inl rfl, rfl, rfl⟩
  · exact .inr ⟨.inr rfl, rfl, rfl⟩

theorem standing_issue (h : issue cfg db g resource now secret rnd = some (db', access, refresh)) :
    db'.standing = db.standing := by
  obtain ⟨_, _, _, _, _, _, rfl⟩ := issue_eq_some h
  exact standing_grantKey

theorem codes_issue (h : issue cfg db g resource now secret rnd = some (db', access, refresh)) :
    db'.oauthCodes = db.oauthCodes := by
  obtain ⟨_, _, _, rfl⟩ := issue_frame h
  rfl

-- The grant's first tokens
theorem issues_code (h : s.Grants) (hr : row ∈ s.db.oauthCodes) (hu : row.usedAt = none)
    (hl : liveGrant (s.db.useAuthCode row.code now) row.grantId client = true)
    (hi : issue cfg (s.db.useAuthCode row.code now) row.grantId resource now secret (s.next + 1) =
      some (db', access, refresh))
    (hs : s'.db = db' ∧ s'.next = s.next + DRAWS ∧ s'.issued = i :: s.issued)
    (he : i = { presented := .code row.code, grantId := row.grantId, access, refresh }) :
    Issues { s with db := s.db.useAuthCode row.code now } s' i := by
  obtain ⟨rfl, hn, hi'⟩ := hs
  subst he
  obtain ⟨rfl, rfl, -⟩ := issue_eq_some hi
  have used (c) (hc : c ∈ (s.db.useAuthCode row.code now).oauthCodes) (he : c.code = row.code) : c.usedAt ≠ none := by
    rcases mem_useAuthCode.mp hc with ⟨_, hne⟩ | ⟨_, _, _, rfl⟩
    · exact absurd he hne
    · nofun
  exact {
    issued   := hi'
    standing := standing_issue hi
    codes    := codes_issue hi
    tokens _ := mem_issue hi
    access   := ⟨Nat.le_succ _, by simp [hn, accessToken, DRAWS], rfl⟩
    refresh  := ⟨by simp [refreshToken]; omega, by simp [hn, refreshToken, DRAWS], rfl⟩
    live     := liveGrant_live hl
    used c hc hg := by
      refine used c hc ?_
      rcases mem_useAuthCode.mp hc with ⟨hc, _⟩ | ⟨_, _, hk, rfl⟩
      · exact congrArg (·.code) (h.oneCode c hc row hr hg)
      · exact hk
    ended t ht hg := absurd hg (h.first row hr hu t ht)
    spent    := ⟨(h.codes row hr).left, used⟩
    once     := by
      intro hm
      obtain ⟨j, hj, hp⟩ := List.mem_map.mp hm
      have := h.spent j hj
      rw [hp] at this
      exact this.right row hr rfl hu }

-- The grant's next tokens
theorem issues_refresh (h : s.Grants) (hr : row ∈ s.db.oauthTokens) (hk : row.kind = .refresh) (hu : row.usedAt = none)
    (hl : liveGrant s.db row.grantId client = true)
    (hi : issue cfg (rewrap ((s.db.useOAuthToken row.token now).deleteAccessTokens row.grantId) row.grantId old new)
      row.grantId resource now secret (s.next + 1) = some (db', access, refresh))
    (hs : s'.db = db' ∧ s'.next = s.next + DRAWS ∧ s'.issued = i :: s.issued)
    (he : i = { presented := .refresh row.token, grantId := row.grantId, access, refresh }) :
    Issues { s with
      db := rewrap ((s.db.useOAuthToken row.token now).deleteAccessTokens row.grantId) row.grantId old new } s' i := by
  obtain ⟨rfl, hn, hi'⟩ := hs
  subst he
  obtain ⟨rfl, rfl, -⟩ := issue_eq_some hi
  have mem (t) : t ∈ (rewrap ((s.db.useOAuthToken row.token now).deleteAccessTokens row.grantId) row.grantId old new).oauthTokens ↔
      t ∈ (s.db.useOAuthToken row.token now).oauthTokens ∧ ¬(t.grantId = row.grantId ∧ t.kind = .access) := by
    obtain ⟨_, hw⟩ := rewrap_frame ((s.db.useOAuthToken row.token now).deleteAccessTokens row.grantId) row.grantId old new
    rw [hw]
    simp [Db.deleteAccessTokens]
  have used (t) (ht : t ∈ (s.db.useOAuthToken row.token now).oauthTokens) (he : t.token = row.token) : t.usedAt ≠ none := by
    rcases mem_useOAuthToken.mp ht with ⟨_, hne⟩ | ⟨_, _, _, rfl⟩
    · exact absurd he hne
    · nofun
  have live : (s.db.useOAuthToken row.token now).Live row.grantId := liveGrant_live hl
  exact {
    issued   := hi'
    standing := standing_issue hi
    codes    := codes_issue hi
    tokens _ := mem_issue hi
    access   := ⟨Nat.le_succ _, by simp [hn, accessToken, DRAWS], rfl⟩
    refresh  := ⟨by simp [refreshToken]; omega, by simp [hn, refreshToken, DRAWS], rfl⟩
    live     := by rwa [Db.Live, standing_rewrap]
    used c hc hg hn := by
      obtain ⟨_, hw⟩ := rewrap_frame ((s.db.useOAuthToken row.token now).deleteAccessTokens row.grantId) row.grantId old new
      rw [hw] at hc
      exact h.first c hc hn row hr hg.symm
    ended t ht hg := by
      obtain ⟨ht, ha⟩ := (mem t).mp ht
      have hd : t.kind = .refresh := by
        cases hd : t.kind
        case access  => exact absurd ⟨hg, hd⟩ ha
        case refresh => rfl
      refine ⟨hd, fun hn => ?_⟩
      rcases mem_useOAuthToken.mp ht with ⟨ht, hne⟩ | ⟨_, _, _, rfl⟩
      · exact hne (congrArg (·.token) (h.oneRefresh t ht row hr hd hk hn hu hg))
      · cases hn
    spent    := ⟨(h.tokens row hr).left, fun t ht => used t ((mem t).mp ht).left⟩
    once     := by
      intro hm
      obtain ⟨j, hj, hp⟩ := List.mem_map.mp hm
      have := h.spent j hj
      rw [hp] at this
      exact this.right row hr rfl hu }

-- What a step makes of the grants: it may make an agent, it may issue a pair of tokens, and otherwise it
-- revokes, forgets and drops.
inductive GrantStep (s s' : State) : Prop
  | fades : Fades s.db s'.db → s'.issued = s.issued → s.next ≤ s'.next → GrantStep s s'
  | agent (c₀ : Option AuthCodeRow) : (∀ c ∈ c₀, c.grantId = s.next ∧ s.next ≤ c.code ∧ c.code < s'.next) →
      s.next < s'.next → s'.db.standing = s.db.standing ++ [(s.next, none)] →
      (∀ c ∈ s'.db.oauthCodes, c ∈ s.db.oauthCodes ∨ c ∈ c₀) → s'.db.oauthTokens = s.db.oauthTokens →
      s'.issued = s.issued → GrantStep s s'
  | issues (db : Db) : Fades s.db db → Issues { s with db } s' i → GrantStep s s'

theorem GrantStep.grants (hs : GrantStep s s') (h : s.Grants) : s'.Grants := by
  cases hs
  case fades hf hi hn           => exact hf.grants hi hn h
  case agent hc hn hs hc' ht hi => exact grants_of_agent _ hc hn hs hc' ht hi h
  case issues db hf hi          =>
    have h' : State.Grants { s with db } := Fades.grants (s := s) hf rfl le_rfl h
    exact hi.grants h'

theorem exchange_grantStep (h : s.Grants) (hs : s.exchange cfg request now = some s') : GrantStep s s' := by
  obtain ⟨db, outcome, hx, rfl⟩ := State.exchange_eq_some hs
  cases hx
  case refused         => exact .fades .refl rfl (Nat.le_add_right _ _)
  case spentCode       => exact .fades fades_useAuthCode rfl (Nat.le_add_right _ _)
  case replayedCode    => exact .fades fades_revokeGrant rfl (Nat.le_add_right _ _)
  case replayedRefresh => exact .fades fades_revokeGrant rfl (Nat.le_add_right _ _)
  case issuedCode row hr hc hu hl hi =>
    obtain ⟨hm, rfl⟩ := Table.find?_eq_some_iff.mp hc
    exact .issues _ fades_useAuthCode (issues_code h hm hu hl hi ⟨rfl, rfl, rfl⟩ (by rw [hr]; rfl))
  case issuedRefresh row hr ht hk hu hl hi =>
    obtain ⟨hm, rfl⟩ := Table.find?_eq_some_iff.mp ht
    exact .issues _ (fades_useOAuthToken.trans (fades_deleteAccessTokens.trans fades_rewrap))
      (issues_refresh h hm hk hu hl hi ⟨rfl, rfl, rfl⟩ (by rw [hr]; rfl))

theorem step_grantStep (h : s.Grants) (hs : s.step cfg a = some s') : GrantStep s s' := by
  cases a
  case exchange             => exact exchange_grantStep h hs
  case register             => cases hs; exact .fades fades_insertMailbox rfl le_rfl
  case forget               => cases hs; exact .fades fades_deleteMailbox rfl le_rfl
  case publish              =>
    obtain ⟨_, _, _, _, hp, rfl⟩ := State.publish_eq_some hs
    exact .fades (fades_publish hp) rfl le_rfl
  case snapshotKeys         =>
    obtain ⟨db, hd, hs⟩ := Option.bind_eq_some_iff.mp hs
    cases hs
    obtain rfl := snapshotKeys_frame hd
    exact .fades fades_insertSnapshotKeys rfl le_rfl
  case mint mailbox         =>
    obtain ⟨⟨db, token⟩, hd, hs⟩ := Option.bind_eq_some_iff.mp hs
    cases hs
    obtain ⟨a, a', k, rfl, ha, hk, rfl⟩ := mint_frame hd
    refine .agent none nofun (by simp [DRAWS]) ?_ (fun _ => .inl) rfl rfl
    exact (congrArg Db.standing hk).trans (standing_agentKey.trans (standing_insert ha))
  case listTokens           => cases hs; exact .fades .refl rfl le_rfl
  case revoke               => cases hs; exact .fades fades_revokeAgentToken rfl le_rfl
  case connectCode          =>
    obtain ⟨db, hd, hs⟩ := Option.bind_eq_some_iff.mp hs
    cases hs
    obtain ⟨_, rfl⟩ := connectCode_frame hd
    exact .fades (fades_prune.trans (.of_eq rfl rfl rfl)) rfl (Nat.le_add_right _ _)
  case registerClient       =>
    obtain ⟨db, hd, hs⟩ := Option.bind_eq_some_iff.mp hs
    cases hs
    obtain ⟨_, rfl⟩ := Db.insertClient_frame hd
    exact .fades (fades_prune.trans (.of_eq rfl rfl rfl)) rfl (Nat.le_add_right _ _)
  case consent              =>
    obtain ⟨⟨db, _, _⟩, hd, hs⟩ := Option.bind_eq_some_iff.mp hs
    cases hs
    obtain ⟨x, a, c, _, _, ha, hc, rfl⟩ := consent_eq_some hd
    refine .agent (some _) (fun _ hm => ?_) (by simp [DRAWS]) (standing_insert ha)
      (fun _ hm => ((Table.mem_insert? hc).mp hm).imp_right fun he => congrArg some he.symm) rfl rfl
    cases hm
    exact ⟨rfl, Nat.le_succ _, by simp [DRAWS]⟩
  case checkRequest         =>
    obtain ⟨_, _, hs⟩ := Option.bind_eq_some_iff.mp hs
    cases hs
    exact .fades .refl rfl le_rfl
  case agentAuth            =>
    obtain ⟨_, _, hs⟩ := Option.bind_eq_some_iff.mp hs
    cases hs
    exact .fades .refl rfl le_rfl
  case agentKey             =>
    obtain ⟨_, rfl⟩ := State.agentKey_eq_some hs
    obtain ⟨_, _, hd⟩ := LetIn.keyed_frame
    exact .fades (.of_eq standing_keyed (by rw [hd]) (by rw [hd])) rfl (Nat.le_add_right _ _)
  case beginFile            =>
    obtain ⟨_, _, _, rfl⟩ := State.beginFile_eq_some hs
    exact .fades .refl rfl le_rfl
  case storeReport          =>
    obtain ⟨_, _, _, _, hd, rfl⟩ := State.storeReport_eq_some hs
    obtain ⟨_, _, _, rfl⟩ := storeReport_frame hd
    exact .fades (.of_eq rfl rfl rfl) rfl le_rfl
  case ackReports           => cases hs; exact .fades (.of_eq rfl rfl rfl) rfl le_rfl
  case sweepReports         => cases hs; exact .fades (.of_eq rfl rfl rfl) rfl le_rfl

end Kaluta.Server
