import Kaluta.Server.Keys
import Kaluta.Server.Revocation

namespace Kaluta.Server

variable {cfg : Config} {db db' : Db} {s s' : State}

-- An agent's key is made or stored in another form.
theorem State.KeyChain.of_rows (h : s.KeyChain cfg) (hrows : ∀ row ∈ db'.agentTokens, Chained cfg db' s.issued s.shown row)
    (hs : db'.standing = s.db.standing) (hk : ∀ w ∈ db'.snapshotKeys, w ∈ s.db.snapshotKeys)
    (ht : db'.oauthTokens = s.db.oauthTokens)
    (hm : ∀ r' ∈ db'.agentTokens, ∃ r ∈ s.db.agentTokens, r.id = r'.id ∧ r.mailboxId = r'.mailboxId) :
    State.KeyChain cfg { s with db := db' } where
  rows         := hrows
  wraps w hw   := by
    rw [Db.Live, hs]
    exact h.wraps w (hk w hw)
  refresh      := ht ▸ h.refresh
  admitted auth ha := by
    refine ⟨(h.admitted auth ha).left, fun r' hr' he => ?_⟩
    obtain ⟨r, hr, hi, hm⟩ := hm r' hr'
    exact hm.symm.trans ((h.admitted auth ha).right r hr (hi.trans he))
  shownIds     := h.shownIds

theorem openKey_eq_some : db.openKey agent secret = some key ↔
    ∃ row ∈ db.agentTokens, row.id = agent ∧ row.keyWrap = some (wrapAgentKey secret key agent) := by
  simp only [Db.openKey, Db.agentKeys]
  constructor
  · intro h
    split at h
    case h_1 row hr =>
      obtain ⟨w, hw, h⟩ := Option.bind_eq_some_iff.mp h
      obtain ⟨hm, hi⟩ := Table.find?_eq_some_iff.mp hr
      exact ⟨row, hm, hi, hw.trans (congrArg some (unwrapAgentKey_eq_some.mp h))⟩
    case h_2 => cases h
  · rintro ⟨row, hm, hi, hw⟩
    rw [Table.find?_eq_some_iff.mpr ⟨hm, hi⟩]
    simp [hw]

theorem agentKeys_wrap (hm : row ∈ db.agentTokens) (hi : row.id = agent) : (db.agentKeys agent).1 = row.keyWrap := by
  rw [Db.agentKeys, Table.find?_eq_some_iff.mpr ⟨hm, hi⟩]

-- The key that the credential opened, sealed to the app
theorem sealAgain_keyChain (h : s.KeyChain cfg) (hk : s.db.openKey agent secret = some key)
    (hm : ∀ row ∈ s.db.agentTokens, row.id = agent → row.mailboxId = mailbox) :
    State.KeyChain cfg { s with db := s.db.sealAgain cfg agent mailbox key } := by
  rw [Db.sealAgain]
  split
  case isFalse => exact h
  case isTrue  =>
    split
    case h_2         => exact h
    case h_1 box hb  =>
      obtain ⟨pk, hp, hb⟩ := Option.bind_eq_some_iff.mp hb
      obtain ⟨_, rfl⟩ := (sealAgentKeyForApp_eq_some cfg).mp hb
      obtain ⟨row, hrow, hi, hw⟩ := openKey_eq_some.mp hk
      refine h.of_rows (fun r' hr' => ?_) standing_updateAgent (fun _ => id) rfl fun r' hr' => ?_
      · simp only [Db.setAppSeal, Db.updateAgent, Table.mem_update, Bool.and_eq_true, decide_eq_true_eq] at hr'
        rcases hr' with ⟨hr, _⟩ | ⟨r, hr, ⟨⟨he, _⟩, _⟩, rfl⟩
        · exact ⟨(h.rows r' hr).wrap, (h.rows r' hr).sealed, (h.rows r' hr).shown⟩
        · obtain rfl := Table.eq_of_key_eq hr hrow (he.trans hi.symm)
          refine ⟨(h.rows r hr).wrap, fun box hb => ?_, (h.rows r hr).shown⟩
          cases hb
          exact ⟨hi.symm, (hm r hr hi) ▸ hp, _, hw, rfl⟩
      · simp only [Db.setAppSeal, Db.updateAgent, Table.mem_update] at hr'
        rcases hr' with ⟨hr, _⟩ | ⟨r, hr, _, rfl⟩
        · exact ⟨r', hr, rfl, rfl⟩
        · exact ⟨r, hr, rfl, rfl⟩

-- A key made for an agent that has none, under its newest credential
theorem makeKey_keyChain (h : s.KeyChain cfg)
    (hm : ∀ row ∈ s.db.agentTokens, row.id = agent → row.mailboxId = mailbox)
    (hn : ∀ row ∈ s.db.agentTokens, row.id = agent → row.revokedAt = none → (s.db.publicKey cfg mailbox).isSome →
      row.keyWrap = none ∧ newest s.issued row = some secret) :
    State.KeyChain cfg { s with db := (s.db.makeKey cfg agent mailbox secret fresh).1 } := by
  rw [Db.makeKey]
  split
  case h_2          => exact h
  case h_1 box hb   =>
    obtain ⟨pk, hp, hb⟩ := Option.bind_eq_some_iff.mp hb
    obtain ⟨_, rfl⟩ := (sealAgentKeyForApp_eq_some cfg).mp hb
    refine h.of_rows (fun r' hr' => ?_) standing_setAgentKeys (fun _ hw => (Table.mem_delete.mp hw).left) rfl
      fun r' hr' => ?_
    · simp only [Db.setAgentKeys, Db.updateAgent, Table.mem_update, Bool.and_eq_true, decide_eq_true_eq] at hr'
      rcases hr' with ⟨hr, _⟩ | ⟨r, hr, ⟨hi, hv⟩, rfl⟩
      · exact ⟨(h.rows r' hr).wrap, (h.rows r' hr).sealed, (h.rows r' hr).shown⟩
      · obtain ⟨hw, hc⟩ := hn r hr hi hv (by rw [hp]; rfl)
        refine ⟨fun w he => ?_, fun box he => ?_, fun hv box hb he => ?_⟩
        · cases he
          exact ⟨hv, hi.symm, hc⟩
        · cases he
          exact ⟨hi.symm, hm r hr hi ▸ hp, _, rfl, rfl⟩
        · obtain ⟨w, hw', _⟩ := (h.rows r hr).shown hv box hb he
          rw [hw] at hw'
          cases hw'
    · simp only [Db.setAgentKeys, Db.updateAgent, Table.mem_update] at hr'
      rcases hr' with ⟨hr, _⟩ | ⟨r, hr, _, rfl⟩
      · exact ⟨r', hr, rfl, rfl⟩
      · exact ⟨r, hr, rfl, rfl⟩

theorem agentKey_keyChain (h : s.KeyChain cfg)
    (hm : ∀ row ∈ s.db.agentTokens, row.id = agent → row.mailboxId = mailbox)
    (hn : ∀ row ∈ s.db.agentTokens, row.id = agent → row.revokedAt = none → (s.db.publicKey cfg mailbox).isSome →
      row.keyWrap = none ∨ unopened = .replace → newest s.issued row = some secret) :
    State.KeyChain cfg { s with db := (s.db.agentKey cfg agent mailbox secret unopened fresh).1 } := by
  rw [Db.agentKey]
  split
  case h_1 key hk => exact sealAgain_keyChain h hk hm
  case h_2 hk     =>
    split
    case isTrue     => exact h
    case isFalse hu =>
      refine makeKey_keyChain h hm fun row hr hi hv hp => ?_
      rw [agentKeys_wrap hr hi] at hu
      have hc : newest s.issued row = some secret := hn row hr hi hv hp <| by
        by_contra hc
        push Not at hc
        exact hu ⟨hc.left, by cases unopened; exacts [absurd rfl hc.right, rfl]⟩
      refine ⟨?_, hc⟩
      -- A key that there is would be under the newest credential, and open.
      cases hw : row.keyWrap
      case none => rfl
      case some w =>
        obtain ⟨_, ha, hc'⟩ := (h.rows row hr).wrap w hw
        have he : w.credential = secret := Option.some.inj (hc'.symm.trans hc)
        have : s.db.openKey agent secret = some w.key :=
          openKey_eq_some.mpr ⟨row, hr, hi, by rw [hw, ← he, ← hi, ← ha]; rfl⟩
        rw [hk] at this
        cases this

-- New tokens for a grant

theorem newest_cons_ne (h : i.grantId ≠ row.id) : newest (i :: issued) row = newest issued row := by
  simp [newest, List.find?_cons_of_neg, h]

theorem newest_cons_eq (hk : row.kind = .oauth) (h : i.grantId = row.id) :
    newest (i :: issued) row = i.refresh.secret.map .grantSecret := by
  simp [newest, hk, h]

-- The agent's key, wrapped under the secret of the new tokens when the old one opens it
theorem rewrap_keyChain (h : s.KeyChain cfg) (hr : row ∈ s.db.agentTokens) (hk : row.kind = .oauth)
    (hi : i.grantId = row.id) (hnew : i.refresh.secret = some new)
    (hold : newest s.issued row = old.map .grantSecret)
    (hu : ∀ t ∈ s.db.oauthTokens, t.grantId = row.id → t.kind = .refresh → t.usedAt ≠ none) :
    State.KeyChain cfg { s with db := rewrap s.db row.id old new, issued := i :: s.issued } := by
  have other (db' : Db) (hp : ∀ m, db'.publicKey cfg m = s.db.publicKey cfg m) (r) (hr' : r ∈ s.db.agentTokens)
      (hne : r.id ≠ row.id) : Chained cfg db' (i :: s.issued) s.shown r := by
    have hc := h.rows r hr'
    refine ⟨fun w hw => ?_, fun box hb => hp _ ▸ hc.sealed box hb, hc.shown⟩
    rw [newest_cons_ne (hi.trans_ne hne.symm)]
    exact hc.wrap w hw
  have rest {db' : Db} (hrows : ∀ r ∈ db'.agentTokens, Chained cfg db' (i :: s.issued) s.shown r)
      (hs : db'.standing = s.db.standing) (hw : db'.snapshotKeys = s.db.snapshotKeys)
      (ht : db'.oauthTokens = s.db.oauthTokens)
      (hm : ∀ r' ∈ db'.agentTokens, ∃ r ∈ s.db.agentTokens, r.id = r'.id ∧ r.mailboxId = r'.mailboxId) :
      State.KeyChain cfg { s with db := db', issued := i :: s.issued } := by
    refine ⟨hrows, fun w hm => ?_, fun t htm hd hn => ?_, fun auth ha => ?_, h.shownIds⟩
    · rw [Db.Live, hs]
      exact h.wraps w (hw ▸ hm)
    · have ht' : t ∈ s.db.oauthTokens := ht ▸ htm
      have hne : i.grantId ≠ t.grantId := fun he => hu t ht' (he.symm.trans hi) hd hn
      simpa [hne] using h.refresh t ht' hd hn
    · refine ⟨(h.admitted auth ha).left, fun r' hr' he => ?_⟩
      obtain ⟨r, hr, hid, hmail⟩ := hm r' hr'
      exact hmail.symm.trans ((h.admitted auth ha).right r hr (hid.trans he))
  cases hw : row.keyWrap
  case none =>
    have same : rewrap s.db row.id old new = s.db := by
      rw [rewrap.eq_def]
      split
      case h_2 => rfl
      case h_1 =>
        rw [Db.rewrapAgentKey]
        split
        case h_2 => rfl
        case h_1 key ho =>
          obtain ⟨r, hr', hid, hw'⟩ := openKey_eq_some.mp ho
          obtain rfl := Table.eq_of_key_eq hr' hr hid
          rw [hw] at hw'
          cases hw'
    rw [same]
    refine rest (fun r hr' => ?_) rfl rfl rfl fun r hr' => ⟨r, hr', rfl, rfl⟩
    by_cases hid : r.id = row.id
    case neg => exact other _ (fun _ => rfl) r hr' hid
    case pos =>
      obtain rfl := Table.eq_of_key_eq hr' hr hid
      have hc := h.rows r hr
      exact ⟨fun w he => by simp [hw] at he, hc.sealed, hc.shown⟩
  case some w =>
    have hc := h.rows row hr
    obtain ⟨hv, ha, hn⟩ := hc.wrap w hw
    obtain ⟨o, rfl, ho⟩ : ∃ o, old = some o ∧ w.credential = .grantSecret o := by
      cases old
      case none   => rw [hold] at hn; cases hn
      case some o => rw [hold] at hn; exact ⟨o, rfl, (Option.some.inj hn).symm⟩
    have hopen : s.db.openKey row.id (.grantSecret o) = some w.key :=
      openKey_eq_some.mpr ⟨row, hr, rfl, by rw [hw, ← ho, ← ha]; rfl⟩
    simp only [rewrap, Db.rewrapAgentKey, hopen]
    refine rest (fun r' hr' => ?_) standing_updateAgent rfl rfl fun r' hr' => ?_
    · simp only [Db.setKeyWrap, Db.updateAgent, Table.mem_update, Bool.and_eq_true, decide_eq_true_eq] at hr'
      rcases hr' with ⟨hr', hne⟩ | ⟨r, hr', ⟨hid, _⟩, rfl⟩
      · refine other (s.db.setKeyWrap _ _) (fun _ => rfl) r' hr' fun hid => ?_
        obtain rfl := Table.eq_of_key_eq hr' hr hid
        simp [hv] at hne
      · obtain rfl := Table.eq_of_key_eq hr' hr hid
        refine ⟨fun w' hw' => ?_, fun box hb => ?_, fun hv box hb he => ?_⟩
        · cases hw'
          refine ⟨hv, rfl, (newest_cons_eq hk hi).trans ?_⟩
          rw [hnew]
          rfl
        · obtain ⟨h₁, h₂, w', hw', hkey⟩ := hc.sealed box hb
          rw [hw] at hw'
          cases hw'
          exact ⟨h₁, h₂, _, rfl, hkey⟩
        · obtain ⟨w', hw', hkey⟩ := hc.shown hv box hb he
          rw [hw] at hw'
          cases hw'
          exact ⟨_, rfl, hkey⟩
    · simp only [Db.setKeyWrap, Db.updateAgent, Table.mem_update] at hr'
      rcases hr' with ⟨hr', _⟩ | ⟨r, hr', _, rfl⟩
      · exact ⟨r', hr', rfl, rfl⟩
      · exact ⟨r, hr', rfl, rfl⟩

theorem grantKey_keyChain (g : AgentId) (secret : Secret) (fresh : Key) (h : s.KeyChain cfg)
    (hn : ∀ row ∈ s.db.agentTokens, row.id = g → newest s.issued row = some (.grantSecret secret)) :
    State.KeyChain cfg { s with db := grantKey cfg s.db g secret fresh } := by
  rw [grantKey]
  split
  case h_2 => exact h
  case h_1 grant _ hg =>
    obtain ⟨hm, hi⟩ := agentToken_eq_some hg
    refine agentKey_keyChain h (fun r hr he => ?_) fun r hr he _ _ _ => hn r hr he
    rw [Table.eq_of_key_eq hr hm (he.trans hi.symm)]

theorem liveGrant_oauth (h : liveGrant db g client = true) : ∃ row ∈ db.agentTokens, row.id = g ∧ row.kind = .oauth := by
  simp only [liveGrant, Option.any_eq_true] at h
  obtain ⟨⟨row, address⟩, ha, h⟩ := h
  obtain ⟨hm, hk⟩ := agentToken_eq_some ha
  simp only [Bool.and_eq_true, decide_eq_true_eq] at h
  exact ⟨row, hm, hk, h.left.left⟩

theorem mem_rewrap (h : r' ∈ (rewrap db g old new).agentTokens) :
    ∃ r ∈ db.agentTokens, r.id = r'.id ∧ r.kind = r'.kind := by
  rw [rewrap.eq_def] at h
  split at h
  case h_2 => exact ⟨r', h, rfl, rfl⟩
  case h_1 =>
    rw [Db.rewrapAgentKey] at h
    split at h
    case h_2 => exact ⟨r', h, rfl, rfl⟩
    case h_1 =>
      simp only [Db.setKeyWrap, Db.updateAgent, Table.mem_update] at h
      rcases h with ⟨h, _⟩ | ⟨r, h, _, rfl⟩
      · exact ⟨r', h, rfl, rfl⟩
      · exact ⟨r, h, rfl, rfl⟩

theorem insertTokens_keyChain (h : s.KeyChain cfg) (hi : s.issued.find? (·.grantId = g) = some i)
    (ha : i.access.kind = .access) (t') (ht : ∀ t ∈ t', t ∈ s.db.oauthTokens ∨
      ((t.token = i.access ∨ t.token = i.refresh) ∧ t.kind = t.token.kind ∧ t.grantId = g)) :
    State.KeyChain cfg { s with db := { s.db with oauthTokens := t' } } where
  rows r hr    := ⟨(h.rows r hr).wrap, (h.rows r hr).sealed, (h.rows r hr).shown⟩
  wraps        := h.wraps
  refresh t hm hd hn := by
    rcases ht t hm with hm | ⟨he | he, hk, hg⟩
    · exact h.refresh t hm hd hn
    · rw [hk, he, ha] at hd
      cases hd
    · exact ⟨i, hg ▸ hi, he.symm⟩
  admitted     := h.admitted
  shownIds     := h.shownIds

-- A pair of tokens issued for a live grant, after its key was wrapped under their secret
theorem issue_keyChain {s₁ s₂ : State} (h : s₁.KeyChain cfg) (hr : row ∈ s₁.db.agentTokens) (hk : row.kind = .oauth)
    (hold : newest s₁.issued row = old.map .grantSecret)
    (hu : ∀ t ∈ s₁.db.oauthTokens, t.grantId = row.id → t.kind = .refresh → t.usedAt ≠ none)
    (hi : issue cfg (rewrap s₁.db row.id old secret) row.id resource now secret rnd = some (db', access, refresh))
    (hp : i.grantId = row.id ∧ i.access = access ∧ i.refresh = refresh) (hn : s₁.next ≤ s₂.next)
    (hs : s₂.db = db' ∧ s₂.issued = i :: s₁.issued ∧ s₂.shown = s₁.shown ∧ s₂.admitted = s₁.admitted) :
    s₂.KeyChain cfg := by
  have hmem := fun t => mem_issue (t := t) hi
  obtain ⟨rfl, rfl, _, t', _, _, rfl⟩ := issue_eq_some hi
  obtain ⟨hdb, hissued, hshown, hadmitted⟩ := hs
  obtain ⟨hgrant, haccess, hrefresh⟩ := hp
  have hrewrap := rewrap_keyChain h hr hk hgrant (by rw [hrefresh]; rfl) hold hu
  have hkey := grantKey_keyChain row.id secret (rnd + 2) hrewrap fun r' hr' hid => by
    obtain ⟨r, hr₁, hid', hk'⟩ := mem_rewrap hr'
    obtain rfl := Table.eq_of_key_eq hr₁ hr (hid'.trans hid)
    rw [newest_cons_eq (hk'.symm.trans hk) (hgrant.trans hid.symm), hrefresh]
    rfl
  have htokens := insertTokens_keyChain (g := row.id) (i := i) hkey (by simp [hgrant]) (by rw [haccess]; rfl) t' fun t ht => by
    obtain ⟨_, _, hf⟩ := grantKey_frame cfg (rewrap s₁.db row.id old secret) row.id secret (rnd + 2)
    rw [haccess, hrefresh]
    exact (hmem t ht).imp_left fun hm => by rw [hf]; exact hm
  exact htokens.carry hdb hissued hshown (fun auth ha => hadmitted ▸ ha) hn

-- What a request's exchange makes of the keys
theorem exchange_keyChain (hg : s.Grants) (h : s.KeyChain cfg) (hs : s.exchange cfg request now = some s') :
    s'.KeyChain cfg := by
  obtain ⟨db, outcome, hx, rfl⟩ := State.exchange_eq_some hs
  cases hx
  case refused         => exact h.keeps (.of_eq .refl rfl rfl rfl) rfl rfl (fun _ => id) (Nat.le_add_right _ _)
  case spentCode       => exact h.keeps (.of_eq fades_useAuthCode rfl rfl rfl) rfl rfl (fun _ => id) (Nat.le_add_right _ _)
  case replayedCode    => exact h.keeps .revokeGrant rfl rfl (fun _ => id) (Nat.le_add_right _ _)
  case replayedRefresh => exact h.keeps .revokeGrant rfl rfl (fun _ => id) (Nat.le_add_right _ _)
  case issuedCode row hr hc hu hl hi =>
    obtain ⟨hm, rfl⟩ := Table.find?_eq_some_iff.mp hc
    obtain ⟨agent, ha, hid, hk⟩ := liveGrant_oauth hl
    have h₁ : State.KeyChain cfg { s with db := s.db.useAuthCode row.code now } :=
      h.keeps (.of_eq fades_useAuthCode rfl rfl rfl) rfl rfl (fun _ => id) le_rfl
    rw [← hid] at hi
    refine issue_keyChain h₁ ha hk (?_ : newest _ _ = none.map _) (fun t ht hg' => ?_) hi ⟨hid.symm, rfl, rfl⟩
      (Nat.le_add_right _ _) ⟨rfl, rfl, rfl, rfl⟩
    · have : s.issued.find? (·.grantId = agent.id) = none :=
        List.find?_eq_none.mpr fun i hi => by simpa [hid] using hg.unissued row hm hu i hi
      simp [newest, hk, this]
    · exact absurd (hg'.trans hid) (hg.first row hm hu t ht)
  case issuedRefresh row hr ht hd hu hl hi =>
    obtain ⟨hm, rfl⟩ := Table.find?_eq_some_iff.mp ht
    obtain ⟨agent, ha, hid, hk⟩ := liveGrant_oauth hl
    have h₁ : State.KeyChain cfg { s with db := (s.db.useOAuthToken row.token now).deleteAccessTokens row.grantId } :=
      h.keeps (.of_eq (fades_useOAuthToken.trans fades_deleteAccessTokens) rfl rfl rfl) rfl rfl (fun _ => id) le_rfl
    obtain ⟨i, hnew, he⟩ := h.refresh row hm hd hu
    rw [← hid] at hi hnew h₁
    refine issue_keyChain h₁ ha hk (?_ : newest _ _ = row.token.secret.map _) (fun t ht' hg' hd' => ?_) hi ⟨hid.symm, rfl, rfl⟩
      (Nat.le_add_right _ _) ⟨rfl, rfl, rfl, rfl⟩
    · simp [newest, hk, hnew, he]
    · rcases mem_useOAuthToken.mp (Table.mem_delete.mp ht').left with ⟨ht', hne⟩ | ⟨_, _, _, rfl⟩
      · exact fun hn => hne (congrArg (·.token) (hg.oneRefresh t ht' row hm hd' hd hn hu (hg'.trans hid)))
      · rintro ⟨⟩

-- The other steps

-- An agent that has no key yet
theorem insertAgent_keyChain {row : AgentTokenRow} (h : s.KeyChain cfg)
    (ha : s.db.agentTokens.insert? row = some a) (hr : row.id = s.next ∧ row.keyWrap = none ∧ row.appSeal = none)
    (hd : s'.db.agentTokens = a ∧ s'.db.mailboxes = s.db.mailboxes ∧ s'.db.snapshotKeys = s.db.snapshotKeys ∧
      s'.db.oauthTokens = s.db.oauthTokens)
    (hs : s'.issued = s.issued ∧ s'.shown = s.shown ∧ s'.admitted = s.admitted) (hn : s.next ≤ s'.next) :
    s'.KeyChain cfg := by
  obtain ⟨rfl, hmail, hwraps, htokens⟩ := hd
  obtain ⟨hissued, hshown, hadmitted⟩ := hs
  have mem := fun r => Table.mem_insert? ha (b := r)
  refine ⟨fun r hm => ?_, fun w hw => ?_, fun t ht => ?_, fun auth hauth => ?_, fun box hbox => ?_⟩
  · rw [hissued, hshown]
    rcases (mem r).mp hm with hm | rfl
    · exact (h.rows r hm).kept rfl rfl rfl rfl
        (.inl ⟨rfl, rfl, .inr ⟨rfl, fun _ h => (publicKey_congr (Db.appKey_congr hmail)).trans h⟩⟩)
    · refine ⟨fun w hw => ?_, fun box hb => ?_, fun _ box hb he => ?_⟩
      · rw [hr.right.left] at hw
        cases hw
      · rw [hr.right.right] at hb
        cases hb
      · exact absurd (he.trans hr.left) (h.shownIds box hb).ne
  · obtain ⟨r, hm, he⟩ := Db.live_iff.mp (h.wraps w (hwraps ▸ hw))
    exact Db.live_iff.mpr ⟨r, (mem r).mpr (.inl hm), he⟩
  · rw [hissued]
    exact h.refresh t (htokens ▸ ht)
  · obtain ⟨hlt, hrow⟩ := h.admitted auth (hadmitted ▸ hauth)
    refine ⟨hlt.trans_le hn, fun r hm he => ?_⟩
    rcases (mem r).mp hm with hm | rfl
    · exact hrow r hm he
    · exact absurd (hr.left.symm.trans he) hlt.ne'
  · exact (h.shownIds box (hshown ▸ hbox)).trans_le hn

theorem mint_keyChain (h : s.KeyChain cfg) (hd : mint cfg s.db mailbox s.next = some (db, token)) :
    State.KeyChain cfg { s with db, next := s.next + DRAWS } := by
  obtain ⟨a, _, _, rfl, ha, rfl, _⟩ := mint_frame hd
  have hrow : State.KeyChain cfg { s with db := { s.db with agentTokens := a }, next := s.next + DRAWS } :=
    insertAgent_keyChain h ha ⟨rfl, rfl, rfl⟩ ⟨rfl, rfl, rfl, rfl⟩ ⟨rfl, rfl, rfl⟩ (Nat.le_add_right _ _)
  have only (r) (hr : r ∈ a) (he : r.id = s.next) := Table.eq_of_key_eq hr ((Table.mem_insert? ha).mpr (.inr rfl)) he
  refine agentKey_keyChain hrow (fun r hr he => ?_) fun r hr he _ _ _ => ?_
  · rw [only r hr he]
  · rw [only r hr he]
    rfl

theorem listTokens_keyChain (hg : s.Grants) (h : s.KeyChain cfg) :
    State.KeyChain cfg { s with shown := listTokens s.db mailbox ++ s.shown } := by
  have listed (box) (hb : box ∈ listTokens s.db mailbox) : ∃ r ∈ s.db.agentTokens, r.appSeal = some box := by
    obtain ⟨r, hr, hb⟩ := List.mem_filterMap.mp hb
    exact ⟨r, (List.mem_filter.mp hr).left, hb⟩
  refine ⟨fun r hr => ⟨(h.rows r hr).wrap, (h.rows r hr).sealed, fun hv box hb he => ?_⟩, h.wraps, h.refresh, h.admitted,
    fun box hb => ?_⟩
  · rcases List.mem_append.mp hb with hb | hb
    · obtain ⟨r', hr', hb⟩ := listed box hb
      obtain ⟨hi, _, hw⟩ := (h.rows r' hr').sealed box hb
      obtain rfl := Table.eq_of_key_eq hr hr' (he.symm.trans hi)
      exact hw
    · exact (h.rows r hr).shown hv box hb he
  · rcases List.mem_append.mp hb with hb | hb
    · obtain ⟨r, hr, hb⟩ := listed box hb
      rw [((h.rows r hr).sealed box hb).left]
      exact hg.agents _ (List.mem_map_of_mem hr)
    · exact h.shownIds box hb

theorem agentAuth_row (h : agentAuth cfg db bearer oauthOk now = some auth) :
    ∃ row ∈ db.agentTokens, row.id = auth.agentId ∧ row.mailboxId = auth.mailboxId := by
  cases bearer
  case access =>
    obtain ⟨_, grant, _, _, hg, _, _, rfl⟩ := agentAuth_access h
    exact ⟨grant, (agentToken_eq_some hg).left, rfl, rfl⟩
  case agent =>
    obtain ⟨row, _, hr, _, _, rfl⟩ := agentAuth_agent h
    exact ⟨row, (agentToken_eq_some hr).left, rfl, rfl⟩

theorem agentAuth_keyChain (hg : s.Grants) (h : s.KeyChain cfg)
    (ha : agentAuth cfg s.db bearer oauthOk now = some auth) :
    State.KeyChain cfg { s with admitted := auth :: s.admitted } := by
  refine ⟨h.rows, h.wraps, h.refresh, fun auth' hm => ?_, h.shownIds⟩
  rcases List.mem_cons.mp hm with rfl | hm
  · obtain ⟨row, hr, hi, hmail⟩ := agentAuth_row ha
    refine ⟨hi ▸ hg.agents _ (List.mem_map_of_mem hr), fun r hr' he => ?_⟩
    rw [Table.eq_of_key_eq hr' hr (he.trans hi.symm), hmail]
  · exact h.admitted auth' hm

-- A request makes a key only for an agent whose newest credential is still the one that it was let in with.
def KeyedInTime (cfg : Config) (s : State) : Action → Prop
  | .agentKey auth => ∀ row ∈ s.db.agentTokens.rows, row.id = auth.agentId → row.revokedAt = none → row.keyWrap = none →
    (s.db.publicKey cfg row.mailboxId).isSome → ∀ secret ∈ auth.secret, newest s.issued row = some secret
  | _              => True

instance : Decidable (KeyedInTime cfg s a) := by
  unfold KeyedInTime
  split <;> infer_instance

theorem step_keyChain (hg : s.Grants) (h : s.KeyChain cfg) (ht : KeyedInTime cfg s a) (hs : s.step cfg a = some s') :
    s'.KeyChain cfg := by
  cases a
  case exchange             => exact exchange_keyChain hg h hs
  case register             => cases hs; exact h.keeps .insertMailbox rfl rfl (fun _ => id) le_rfl
  case forget               => cases hs; exact h.keeps .deleteMailbox rfl rfl (fun _ => id) le_rfl
  case publish              =>
    obtain ⟨_, _, _, _, hp, rfl⟩ := State.publish_eq_some hs
    exact h.keeps (.publish hp) rfl rfl (fun _ => id) le_rfl
  case snapshotKeys         =>
    obtain ⟨db, hd, hs⟩ := Option.bind_eq_some_iff.mp hs
    cases hs
    obtain rfl := snapshotKeys_frame hd
    exact h.keeps .insertSnapshotKeys rfl rfl (fun _ => id) le_rfl
  case mint                 =>
    obtain ⟨⟨db, token⟩, hd, hs⟩ := Option.bind_eq_some_iff.mp hs
    cases hs
    exact mint_keyChain h hd
  case listTokens           => cases hs; exact listTokens_keyChain hg h
  case revoke               => cases hs; exact h.keeps .revokeAgentToken rfl rfl (fun _ => id) le_rfl
  case connectCode          =>
    obtain ⟨db, hd, hs⟩ := Option.bind_eq_some_iff.mp hs
    cases hs
    obtain ⟨_, rfl⟩ := connectCode_frame hd
    exact h.keeps (.of_eq (fades_prune.trans (.of_eq rfl rfl rfl)) rfl rfl rfl) rfl rfl (fun _ => id) (Nat.le_add_right _ _)
  case registerClient       =>
    obtain ⟨db, hd, hs⟩ := Option.bind_eq_some_iff.mp hs
    cases hs
    obtain ⟨_, rfl⟩ := Db.insertClient_frame hd
    exact h.keeps (.of_eq (fades_prune.trans (.of_eq rfl rfl rfl)) rfl rfl rfl) rfl rfl (fun _ => id) (Nat.le_add_right _ _)
  case consent              =>
    obtain ⟨⟨db, _, _⟩, hd, hs⟩ := Option.bind_eq_some_iff.mp hs
    cases hs
    obtain ⟨x, a, c, _, _, ha, hc, rfl⟩ := consent_eq_some hd
    exact insertAgent_keyChain h ha ⟨rfl, rfl, rfl⟩ ⟨rfl, rfl, rfl, rfl⟩ ⟨rfl, rfl, rfl⟩ (Nat.le_add_right _ _)
  case checkRequest         =>
    obtain ⟨_, _, hs⟩ := Option.bind_eq_some_iff.mp hs
    cases hs
    exact h.carry rfl rfl rfl (fun _ => id) le_rfl
  case agentAuth            =>
    obtain ⟨_, ha, hs⟩ := Option.bind_eq_some_iff.mp hs
    cases hs
    exact agentAuth_keyChain hg h ha
  case agentKey auth        =>
    obtain ⟨hm, rfl⟩ := State.agentKey_eq_some hs
    have hkey : State.KeyChain cfg { s with db := auth.keyed cfg s.db s.next } := by
      rw [LetIn.keyed]
      split
      case h_2        => exact h
      case h_1 secret he =>
        have hrow := (h.admitted auth hm).right
        refine agentKey_keyChain h hrow fun row hr hi hv hp hw => ?_
        exact ht row hr hi hv (hw.resolve_right (by simp)) (hrow row hr hi ▸ hp) secret he
    exact hkey.carry rfl rfl rfl (fun _ => List.mem_of_mem_erase) (Nat.le_add_right _ _)
  case beginFile            =>
    obtain ⟨_, _, _, rfl⟩ := State.beginFile_eq_some hs
    exact h.carry rfl rfl rfl (fun _ => id) le_rfl
  case storeReport          =>
    obtain ⟨_, row, db, _, hd, rfl⟩ := State.storeReport_eq_some hs
    obtain ⟨_, _, _, hf⟩ := storeReport_frame hd
    have hk : Keeps cfg s.db db := by
      refine .of_agents_eq (by rw [hf]; exact .of_eq rfl rfl rfl) (by rw [hf]) (fun m pk hp => ?_) fun w hw => .inr ?_
      · exact (publicKey_congr (Db.appKey_insertReport hd)).trans hp
      · rwa [hf] at hw
    exact h.keeps hk rfl rfl (fun _ => id) le_rfl
  case ackReports           => cases hs; exact h.keeps (.of_eq (.of_eq rfl rfl rfl) rfl rfl rfl) rfl rfl (fun _ => id) le_rfl
  case sweepReports         => cases hs; exact h.keeps (.of_eq (.of_eq rfl rfl rfl) rfl rfl rfl) rfl rfl (fun _ => id) le_rfl

theorem reachable_keyChain (h : (server cfg).Reachable (KeyedInTime cfg) s) : s.KeyChain cfg := by
  suffices s.Grants ∧ s.KeyChain cfg from this.right
  refine h.invariant (P := fun s => s.Grants ∧ s.KeyChain cfg) (fun s hs => ?_) fun s a s' hi ht hs => ?_
  · refine ⟨reachable_grants (.start hs : (server cfg).Reachable (KeyedInTime cfg) s), ?_⟩
    cases hs
    refine ⟨fun _ hr => ?_, fun _ hr => ?_, fun _ hr => ?_, by simp, by simp⟩
    all_goals exact absurd hr Table.not_mem_empty
  · exact ⟨(step_grantStep hi.left hs).grants hi.left, step_keyChain hi.left hi.right ht hs⟩

end Kaluta.Server
