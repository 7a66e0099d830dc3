import Kaluta.Server.Grants

-- One agent's key in its three forms: wrapped under its credential, sealed to the app, and what the app
-- wraps for it.
namespace Kaluta.Server

variable (cfg : Config)

-- The newest credential of an agent: its static token, or the secret of the tokens that its grant got last.
def newest (issued : List Issue) (row : AgentTokenRow) : Option CredentialSecret :=
  match row.kind with
  | .token => row.token.map .agentToken
  | .oauth => (issued.find? (·.grantId = row.id)).bind fun i => i.refresh.secret.map .grantSecret

-- An agent's key as it is stored. Each form that there is opens to the same one.
structure Chained (db : Db) (issued : List Issue) (shown : List AppSeal) (row : AgentTokenRow) : Prop where
  wrap   : ∀ w, row.keyWrap = some w → row.revokedAt = none ∧ w.agentId = row.id ∧ newest issued row = some w.credential
  sealed : ∀ box, row.appSeal = some box → box.agentId = row.id ∧ db.publicKey cfg row.mailboxId = some box.app ∧
    ∃ w, row.keyWrap = some w ∧ w.key = box.key
  shown  : row.revokedAt = none → ∀ box ∈ shown, box.agentId = row.id → ∃ w, row.keyWrap = some w ∧ w.key = box.key

structure State.KeyChain (s : State) : Prop where
  rows     : ∀ row ∈ s.db.agentTokens, Chained cfg s.db s.issued s.shown row
  wraps    : ∀ r ∈ s.db.snapshotKeys, s.db.Live r.agentId
  refresh  : ∀ t ∈ s.db.oauthTokens, t.kind = .refresh → t.usedAt = none →
    ∃ i, s.issued.find? (·.grantId = t.grantId) = some i ∧ i.refresh = t.token
  admitted : ∀ auth ∈ s.admitted, auth.agentId < s.next ∧
    ∀ row ∈ s.db.agentTokens, row.id = auth.agentId → row.mailboxId = auth.mailboxId
  shownIds : ∀ box ∈ s.shown, box.agentId < s.next

-- A row whose key is as it was, or is gone.
def AgentTokenRow.KeyKept (db db' : Db) (r r' : AgentTokenRow) : Prop :=
  (r'.revokedAt = r.revokedAt ∧ r'.keyWrap = r.keyWrap ∧
    (r'.appSeal = none ∨ (r'.appSeal = r.appSeal ∧
      ∀ pk, db.publicKey cfg r.mailboxId = some pk → db'.publicKey cfg r.mailboxId = some pk))) ∨
  (r'.revokedAt ≠ none ∧ r'.keyWrap = none ∧ r'.appSeal = none)

-- No agent gets a key, and wraps of snapshot keys are stored for live agents only.
structure Keeps (db db' : Db) : Prop where
  fades : Fades db db'
  rows  : ∀ r' ∈ db'.agentTokens, ∃ r ∈ db.agentTokens,
    r.id = r'.id ∧ r.mailboxId = r'.mailboxId ∧ r.kind = r'.kind ∧ r.token = r'.token ∧ r.KeyKept cfg db db' r'
  wraps : ∀ w ∈ db'.snapshotKeys, db'.Live w.agentId ∨
    ∃ w₀ ∈ db.snapshotKeys, w₀.agentId = w.agentId ∧ (db.Live w.agentId → db'.Live w.agentId)

variable {cfg} {db db' db'' : Db} {s s' : State} {r r' : AgentTokenRow}

theorem newest_congr (hi : r.id = r'.id) (hk : r.kind = r'.kind) (ht : r.token = r'.token) :
    newest issued r = newest issued r' := by
  rw [newest, newest, hi, hk, ht]

theorem Chained.kept (hi : r.id = r'.id) (hm : r.mailboxId = r'.mailboxId) (hk : r.kind = r'.kind)
    (ht : r.token = r'.token) (hr : r.KeyKept cfg db db' r') (h : Chained cfg db issued boxes r) :
    Chained cfg db' issued boxes r' := by
  rcases hr with ⟨hv, hw, hs⟩ | ⟨hv, hw, hs⟩
  case inl =>
    refine ⟨fun w he => ?_, fun box he => ?_, fun hn box hm he => ?_⟩
    · obtain ⟨hn, ha, hc⟩ := h.wrap w (hw ▸ he)
      exact ⟨hv.trans hn, ha.trans hi, newest_congr hi hk ht ▸ hc⟩
    · rcases hs with hs | ⟨hs, hp⟩
      · rw [hs] at he
        cases he
      · obtain ⟨ha, hk, hw'⟩ := h.sealed box (hs ▸ he)
        exact ⟨ha.trans hi, hm ▸ hp _ hk, hw ▸ hw'⟩
    · exact hw ▸ h.shown (hv ▸ hn) box hm (he.trans hi.symm)
  case inr =>
    exact ⟨fun w he => by simp [hw] at he, fun box he => by simp [hs] at he, fun hn => absurd hn hv⟩

theorem State.KeyChain.keeps (h : s.KeyChain cfg) (hk : Keeps cfg s.db s'.db) (hi : s'.issued = s.issued)
    (hs : s'.shown = s.shown) (ha : ∀ auth ∈ s'.admitted, auth ∈ s.admitted) (hn : s.next ≤ s'.next) :
    s'.KeyChain cfg where
  rows r' hr' := by
    obtain ⟨r, hr, h₁, h₂, h₃, h₄, hkept⟩ := hk.rows r' hr'
    rw [hi, hs]
    exact (h.rows r hr).kept h₁ h₂ h₃ h₄ hkept
  wraps w hw := by
    rcases hk.wraps w hw with hl | ⟨w₀, hw₀, he, hl⟩
    · exact hl
    · exact hl (he ▸ h.wraps w₀ hw₀)
  refresh t' ht' hd' hu' := by
    obtain ⟨t, ht, hk, hd, hg, hu, _⟩ := hk.fades.tokens t' ht'
    rw [hi, ← hk, ← hg]
    exact h.refresh t ht (hd.trans hd') (hu hu')
  admitted auth hm := by
    have ⟨hlt, hrow⟩ := h.admitted auth (ha auth hm)
    refine ⟨hlt.trans_le hn, fun r' hr' he => ?_⟩
    obtain ⟨r, hr, h₁, h₂, _⟩ := hk.rows r' hr'
    exact h₂.symm.trans (hrow r hr (h₁.trans he))
  shownIds box hm := (h.shownIds box (hs ▸ hm)).trans_le hn

-- What else changes of a state is of no matter.
theorem State.KeyChain.carry (h : s.KeyChain cfg) (hd : s'.db = s.db) (hi : s'.issued = s.issued)
    (hs : s'.shown = s.shown) (ha : ∀ auth ∈ s'.admitted, auth ∈ s.admitted) (hn : s.next ≤ s'.next) :
    s'.KeyChain cfg where
  rows         := by rw [hd, hi, hs]; exact h.rows
  wraps        := by rw [hd]; exact h.wraps
  refresh      := by rw [hd, hi]; exact h.refresh
  admitted auth hm := by
    rw [hd]
    exact ⟨(h.admitted auth (ha auth hm)).left.trans_le hn, (h.admitted auth (ha auth hm)).right⟩
  shownIds box hm := (h.shownIds box (hs ▸ hm)).trans_le hn

theorem publicKey_congr (h : db'.appKey m = db.appKey m) : db'.publicKey cfg m = db.publicKey cfg m := by
  rw [Db.publicKey, h, Db.publicKey]

theorem standing_congr (h : db'.agentTokens = db.agentTokens) : db'.standing = db.standing := by
  rw [Db.standing, h, Db.standing]

namespace Keeps

theorem of_agents_eq (hf : Fades db db') (hr : db'.agentTokens = db.agentTokens)
    (hp : ∀ m pk, db.publicKey cfg m = some pk → db'.publicKey cfg m = some pk)
    (hw : ∀ w ∈ db'.snapshotKeys, db'.Live w.agentId ∨ w ∈ db.snapshotKeys) : Keeps cfg db db' where
  fades      := hf
  rows r hm  := ⟨r, hr ▸ hm, rfl, rfl, rfl, rfl, .inl ⟨rfl, rfl, .inr ⟨rfl, hp _⟩⟩⟩
  wraps w hm := (hw w hm).imp_right fun hm => ⟨w, hm, rfl, fun hl => by rwa [Db.Live, standing_congr hr]⟩

-- What a step that only touches other tables keeps.
theorem of_eq (hf : Fades db db') (hr : db'.agentTokens = db.agentTokens) (hm : db'.mailboxes = db.mailboxes)
    (hw : db'.snapshotKeys = db.snapshotKeys) : Keeps cfg db db' :=
  of_agents_eq hf hr (fun _ _ h => (publicKey_congr (Db.appKey_congr hm)).trans h) fun _ h => .inr (hw ▸ h)

theorem insertMailbox : Keeps cfg db (db.insertMailbox address).1 := by
  refine of_agents_eq fades_insertMailbox ?_ (fun m pk h => ?_) fun w hw => .inr ?_
  · rw [Db.insertMailbox]
    split <;> rfl
  · obtain ⟨k, hk, hp⟩ := Option.bind_eq_some_iff.mp h
    refine Option.bind_eq_some_iff.mpr ⟨k, ?_, hp⟩
    rw [Db.insertMailbox]
    split
    case isTrue  => exact hk
    case isFalse =>
      obtain ⟨row, hm, hk⟩ := Option.bind_eq_some_iff.mp hk
      obtain ⟨hr, he⟩ := Table.find?_eq_some_iff.mp hm
      refine Option.bind_eq_some_iff.mpr ⟨row, ?_, hk⟩
      rw [Table.find?_insertRow_ne (he ▸ (Table.lt_nextRowid hr).ne)]
      exact hm
  · rw [Db.insertMailbox] at hw
    split at hw <;> exact hw

theorem deleteMailbox : Keeps cfg db (db.deleteMailbox mailbox) := by
  refine ⟨fades_deleteMailbox, fun r hr => ?_, fun w hw => .inr ?_⟩
  · obtain ⟨hr, hm⟩ := Table.mem_delete.mp hr
    refine ⟨r, hr, rfl, rfl, rfl, rfl, .inl ⟨rfl, rfl, .inr ⟨rfl, fun pk hp => ?_⟩⟩⟩
    obtain ⟨k, hk, hp⟩ := Option.bind_eq_some_iff.mp hp
    obtain ⟨row, hrow, hk⟩ := Option.bind_eq_some_iff.mp hk
    have ⟨hmem, he⟩ := Table.find?_eq_some_iff.mp hrow
    refine Option.bind_eq_some_iff.mpr ⟨k, Option.bind_eq_some_iff.mpr ⟨row, ?_, hk⟩, hp⟩
    exact Table.find?_eq_some_iff.mpr ⟨Table.mem_delete.mpr ⟨hmem, by rw [he]; exact hm⟩, he⟩
  · obtain ⟨hw, hn⟩ := Table.mem_delete.mp hw
    refine ⟨w, hw, rfl, fun hl => ?_⟩
    obtain ⟨r, hr, he, hn'⟩ := Db.live_iff.mp hl
    refine Db.live_iff.mpr ⟨r, Table.mem_delete.mpr ⟨hr, ?_⟩, he, hn'⟩
    by_contra hm
    simp only [Bool.or_eq_false_iff, decide_eq_false_iff_not] at hn
    exact hn.right (he ▸ List.mem_map_of_mem (List.mem_filter.mpr ⟨hr, by simpa using hm⟩))

theorem mem_insertSnapshotKeys (h : w ∈ (db.insertSnapshotKeys mailbox keyId ws).snapshotKeys) :
    db.Live w.agentId ∨ w ∈ db.snapshotKeys := by
  rw [Db.insertSnapshotKeys] at h
  induction ws generalizing db
  case nil           => exact .inr h
  case cons x xs ih  =>
    simp only [List.foldl_cons] at h
    split at h
    case isFalse     => exact ih h
    case isTrue ha   =>
      rcases ih h with hl | hm
      · exact .inl hl
      · rcases Table.mem_replace.mp hm with ⟨hm, _⟩ | rfl
        · exact .inr hm
        · obtain ⟨r, hr, hp⟩ := List.any_eq_true.mp ha
          simp only [Bool.and_eq_true, decide_eq_true_eq] at hp
          exact .inl (Db.live_iff.mpr ⟨r, hr, hp.left.left, hp.right⟩)

@[simp]
theorem insertSnapshotKeys_agentTokens : (db.insertSnapshotKeys mailbox keyId ws).agentTokens = db.agentTokens := by
  obtain ⟨_, h⟩ := @Db.insertSnapshotKeys_frame db mailbox keyId ws
  rw [h]

theorem insertSnapshotKeys : Keeps cfg db (db.insertSnapshotKeys mailbox keyId ws) := by
  refine of_agents_eq fades_insertSnapshotKeys insertSnapshotKeys_agentTokens (fun m pk h => ?_) fun w hw => ?_
  · exact (publicKey_congr (Db.appKey_congr Db.insertSnapshotKeys_mailboxes)).trans h
  · rw [Db.Live, standing_congr insertSnapshotKeys_agentTokens]
    exact mem_insertSnapshotKeys hw

-- A new key of the app's drops what is sealed to the old one.
theorem mem_setAppKey (h : r' ∈ (db.setAppKey mailbox key).agentTokens) : ∃ r ∈ db.agentTokens,
    r.id = r'.id ∧ r.mailboxId = r'.mailboxId ∧ r.kind = r'.kind ∧ r.token = r'.token ∧
      r.KeyKept cfg db (db.setAppKey mailbox key) r' := by
  by_cases hm : r'.mailboxId = mailbox
  case neg =>
    have hp (pk) (h : db.publicKey cfg r'.mailboxId = some pk) :
        (db.setAppKey mailbox key).publicKey cfg r'.mailboxId = some pk :=
      (publicKey_congr (Db.appKey_setAppKey_of_ne hm)).trans h
    refine ⟨r', ?_, rfl, rfl, rfl, rfl, .inl ⟨rfl, rfl, .inr ⟨rfl, hp⟩⟩⟩
    rw [Db.setAppKey] at h
    split at h
    case isFalse => exact h
    case isTrue  =>
      simp only [Table.mem_update, decide_eq_true_eq] at h
      rcases h with ⟨h, _⟩ | ⟨r, hr, he, rfl⟩
      · exact h
      · exact absurd he hm
  case pos =>
    rw [Db.setAppKey] at h ⊢
    split at h
    case isFalse hn =>
      rw [if_neg hn]
      exact ⟨r', h, rfl, rfl, rfl, rfl, .inl ⟨rfl, rfl, .inr ⟨rfl, fun _ => id⟩⟩⟩
    case isTrue  =>
      simp only [Table.mem_update, decide_eq_false_iff_not] at h
      rcases h with ⟨_, he⟩ | ⟨r, hr, _, rfl⟩
      · exact absurd hm he
      · exact ⟨r, hr, rfl, rfl, rfl, rfl, .inl ⟨rfl, rfl, .inl rfl⟩⟩

theorem publish (h : publish cfg db mailbox address p row v = some (db', pushed)) : Keeps cfg db db' := by
  have hf := fades_publish h
  rcases publish_eq_some h with ⟨rfl, _⟩ | ⟨_, hs, _⟩
  case inl => exact of_eq .refl rfl rfl rfl
  case inr =>
    have insert {db₁} (hi : db.insertSnapshot { row with mailboxId := mailbox } = some db₁) :
        db₁.agentTokens = db.agentTokens ∧ db₁.mailboxes = db.mailboxes ∧
        ∀ w ∈ db₁.snapshotKeys, w ∈ db.snapshotKeys := by
      refine ⟨?_, ?_, fun w hw => ?_⟩
      · obtain ⟨_, _, rfl⟩ := Db.insertSnapshot_frame hi; rfl
      · obtain ⟨_, _, rfl⟩ := Db.insertSnapshot_frame hi; rfl
      · exact Db.mem_snapshotKeys_insertSnapshot hi hw
    cases hs
    case plain hi =>
      obtain ⟨ha, hm, hw⟩ := insert hi
      exact of_agents_eq hf ha (fun _ _ h => (publicKey_congr (Db.appKey_congr hm)).trans h) fun w h => .inr (hw w h)
    case sealed db₁ p hi =>
      obtain ⟨ha, hm, hw⟩ := insert hi
      obtain ⟨_, _, hs⟩ := @storeSealed_frame cfg db₁ mailbox address p
      have agents : (storeSealed cfg db₁ mailbox address p).agentTokens = (db₁.setAppKey mailbox p.appKey).agentTokens := by
        rw [hs]
        exact insertSnapshotKeys_agentTokens
      refine ⟨hf, fun r' hr' => ?_, fun w h => ?_⟩
      · obtain ⟨r, hr, h₁, h₂, h₃, h₄, hk⟩ := @mem_setAppKey cfg _ _ _ _ (agents ▸ hr')
        refine ⟨r, ha ▸ hr, h₁, h₂, h₃, h₄, hk.imp_left fun ⟨hv, hw, hp⟩ => ⟨hv, hw, hp.imp_right fun ⟨hb, hp⟩ => ⟨hb, fun pk h => ?_⟩⟩⟩
        have mailboxes : (storeSealed cfg db₁ mailbox address p).publicKey cfg r.mailboxId =
            (db₁.setAppKey mailbox p.appKey).publicKey cfg r.mailboxId := by
          rw [hs]
          exact publicKey_congr (Db.appKey_congr Db.insertSnapshotKeys_mailboxes)
        exact mailboxes.trans (hp pk ((publicKey_congr (Db.appKey_congr hm)).trans h))
      · rw [Db.Live, standing_congr agents]
        rw [hs] at h
        have standing : (db₁.setAppKey mailbox p.appKey).standing = db.standing :=
          standing_setAppKey.trans (standing_congr ha)
        rcases mem_insertSnapshotKeys h with hl | h
        · exact .inl hl
        · obtain ⟨_, _, hk⟩ := @Db.setAppKey_frame db₁ mailbox p.appKey
          rw [hk] at h
          exact .inr ⟨w, hw w h, rfl, fun hl => standing ▸ hl⟩

-- Revocation leaves the agent without a key, and the others as they were.
theorem forget (hp : ∀ r, p r = true → r.id = g) (hg : ∀ r ∈ db.agentTokens, r.id = g → p r = true) :
    Keeps cfg db ((db.markRevoked p now).forgetGrantSecrets g) := by
  refine ⟨fades_forget hp, fun r' hr' => ?_, fun w hw => .inr ?_⟩
  · simp only [Db.forgetGrantSecrets, Db.updateAgent, Db.markRevoked, Table.mem_update, decide_eq_true_eq] at hr'
    rcases hr' with ⟨⟨hr, _⟩ | ⟨r, _, hm, rfl⟩, hn⟩ | ⟨r', ⟨hr, hn⟩ | ⟨r, hr, _, rfl⟩, he, rfl⟩
    · exact ⟨r', hr, rfl, rfl, rfl, rfl, .inl ⟨rfl, rfl, .inr ⟨rfl, fun _ => id⟩⟩⟩
    · exact absurd (hp r hm) (by simpa using hn)
    · rw [hg r' hr he] at hn
      cases hn
    · exact ⟨r, hr, rfl, rfl, rfl, rfl, .inr ⟨(by rintro ⟨⟩), rfl, rfl⟩⟩
  · obtain ⟨hw, hn⟩ := Table.mem_delete.mp hw
    exact ⟨w, hw, rfl, forget_live hp (by simpa using hn)⟩

theorem revokeGrant : Keeps cfg db (db.revokeGrant agent now) :=
  forget (fun r hr => by simpa using hr) fun r _ hr => by simpa using hr

theorem revokeAgentToken : Keeps cfg db (db.revokeAgentToken mailbox agent now).1 := by
  rw [Db.revokeAgentToken]
  split
  case isFalse => exact of_eq .refl rfl rfl rfl
  case isTrue ha =>
    refine forget (fun r hr => by simp at hr; exact hr.right) fun r hr he => ?_
    obtain ⟨r', hr', hm⟩ := List.any_eq_true.mp ha
    simp only [Bool.and_eq_true, decide_eq_true_eq] at hm
    obtain rfl := Table.eq_of_key_eq hr hr' (he.trans hm.right.symm)
    simp [hm]

end Keeps

end Kaluta.Server
