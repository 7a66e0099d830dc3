import Kaluta.Server.System

-- What is stored of a mailbox that publishes encrypted.
namespace Kaluta.Server

variable (cfg : Config)

-- The row holds its box and nothing that can be read without a key.
def SnapshotRow.Encrypted (r : SnapshotRow) : Prop :=
  r.sealed.isSome ∧ r.json = ""

def ReportRow.Encrypted (r : ReportRow) : Prop :=
  r.sealed.isSome ∧ r.content = {}

-- A report whose filing read no key is stored before the mailbox has one.
def FiledInTime (s : State) : Action → Prop
  | .storeReport filing _ _ => filing.appKey = none → s.db.appKey filing.mailboxId = none
  | _                       => True

instance : Decidable (FiledInTime s a) := by
  unfold FiledInTime
  split <;> infer_instance

-- The public keys that are stored are ones, and what belongs to a mailbox with one is encrypted.
structure Db.AtRest (db : Db) : Prop where
  keys      : ∀ m k, db.appKey m = some k → (cfg.appPublicKey k).isSome
  boxes     : ∀ r ∈ db.snapshots, r.sealed.isSome → r.json = ""
  letters   : ∀ r ∈ db.reports, r.sealed.isSome → r.content = {}
  snapshots : ∀ r ∈ db.snapshots, (db.appKey r.mailboxId).isSome → r.sealed.isSome
  reports   : ∀ r ∈ db.reports, (db.appKey r.mailboxId).isSome → r.sealed.isSome

structure State.AtRest (s : State) : Prop where
  db      : s.db.AtRest cfg
  filings : ∀ f ∈ s.filings, ∀ k, f.appKey = some k → (cfg.appPublicKey k).isSome

-- Nothing is stored, and no mailbox gets a key.
structure Quiet (db db' : Db) : Prop where
  appKey    : ∀ m k, db'.appKey m = some k → db.appKey m = some k
  snapshots : ∀ r ∈ db'.snapshots, r ∈ db.snapshots
  reports   : ∀ r ∈ db'.reports, r ∈ db.reports

variable {cfg} {db db' : Db} {s s' : State} {f : Filing}

theorem Quiet.of_eq (hm : db'.mailboxes = db.mailboxes) (hs : db'.snapshots = db.snapshots)
    (hr : db'.reports = db.reports) : Quiet db db' where
  appKey m k h    := by rwa [Db.appKey, hm] at h
  snapshots r h   := hs ▸ h
  reports r h     := hr ▸ h

theorem Quiet.atRest (hq : Quiet db db') (h : db.AtRest cfg) : db'.AtRest cfg where
  keys m k hk         := h.keys m k (hq.appKey m k hk)
  boxes r hr          := h.boxes r (hq.snapshots r hr)
  letters r hr        := h.letters r (hq.reports r hr)
  snapshots r hr hk   := by
    obtain ⟨k, hk⟩ := Option.isSome_iff_exists.mp hk
    exact h.snapshots r (hq.snapshots r hr) (by rw [hq.appKey _ _ hk]; rfl)
  reports r hr hk     := by
    obtain ⟨k, hk⟩ := Option.isSome_iff_exists.mp hk
    exact h.reports r (hq.reports r hr) (by rw [hq.appKey _ _ hk]; rfl)

theorem insertMailbox_quiet : Quiet db (db.insertMailbox address).1 where
  appKey m k h := by
    rw [Db.insertMailbox] at h
    split at h
    case isTrue  => exact h
    case isFalse =>
      obtain ⟨row, hm, hk⟩ := Option.bind_eq_some_iff.mp h
      obtain ⟨ht, rfl⟩ := Table.find?_eq_some_iff.mp hm
      rcases Table.mem_insertRow.mp ht with ht | rfl
      · exact Option.bind_eq_some_iff.mpr ⟨row, Table.find?_key ht, hk⟩
      · cases hk
  snapshots r h := by
    rw [Db.insertMailbox] at h
    split at h <;> exact h
  reports r h := by
    rw [Db.insertMailbox] at h
    split at h <;> exact h

theorem deleteMailbox_quiet : Quiet db (db.deleteMailbox mailbox) where
  appKey m k h := by
    obtain ⟨row, hm, hk⟩ := Option.bind_eq_some_iff.mp h
    obtain ⟨ht, rfl⟩ := Table.find?_eq_some_iff.mp hm
    exact Option.bind_eq_some_iff.mpr ⟨row, Table.find?_key (Table.mem_delete.mp ht).left, hk⟩
  snapshots _ h := (Table.mem_delete.mp h).left
  reports _ h   := (Table.mem_delete.mp h).left

-- A push that is checked has a public key that can be read, and its JSON is not in the row.
theorem checkPush_sealed (h : checkPush cfg push address = .ok row) (hs : push.sealed = some p) :
    (cfg.appPublicKey p.appKey).isSome ∧ row.Encrypted := by
  have h := (checkPush_eq_ok h).right
  rw [hs] at h
  simp only [sealedPush] at h
  split at h; cases h
  split at h; cases h
  split at h; cases h
  split at h; cases h
  split at h
  case h_1 => cases h
  case h_2 hk =>
    split at h; cases h
    split at h; cases h
    cases h
    exact ⟨by rw [hk]; rfl, rfl, rfl⟩

theorem checkPush_plain (h : checkPush cfg push address = .ok row) (hs : push.sealed = none) : row.sealed = none := by
  have h := (checkPush_eq_ok h).right
  rw [hs] at h
  simp only [plainPush] at h
  split at h; cases h
  split at h; cases h
  cases h
  rfl

-- Every report that a sealed push finds in plaintext is sealed or gone.
theorem mem_sealPlainReports (hk : (cfg.appPublicKey appKey).isSome)
    (h : r ∈ (sealPlainReports cfg db mailbox address appKey).reports) :
    (r ∈ db.reports ∧ (r.mailboxId = mailbox → r.sealed.isSome)) ∨ r.Encrypted := by
  have sealed (rows : List ReportRow) (db : Db) (pk : PublicKey) (step : Db → ReportRow → Db)
      (one : ∀ db r, step db r = (sealForApp cfg pk address r).elim (db.deleteReport r.id) (db.sealReport r.id))
      (h : r ∈ (rows.foldl step db).reports) :
      (r ∈ db.reports ∧ ∀ q ∈ rows, q.id ≠ r.id) ∨ r.Encrypted := by
    induction rows generalizing db
    case nil            => exact .inl ⟨h, by simp⟩
    case cons q rows ih =>
      simp only [List.foldl_cons] at h
      rcases ih _ h with ⟨hr, hn⟩ | he
      case inr => exact .inr he
      case inl =>
        rw [one] at hr
        cases box : sealForApp cfg pk address q <;> rw [box] at hr
        case none =>
          obtain ⟨hr, hq⟩ := Db.mem_deleteReport.mp hr
          exact .inl ⟨hr, List.forall_mem_cons.mpr ⟨hq.symm, hn⟩⟩
        case some =>
          rcases Db.mem_sealReport.mp hr with ⟨hr, hq⟩ | ⟨_, _, _, rfl⟩
          · exact .inl ⟨hr, List.forall_mem_cons.mpr ⟨hq.symm, hn⟩⟩
          · exact .inr ⟨rfl, rfl⟩
  obtain ⟨pk, hk⟩ := Option.isSome_iff_exists.mp hk
  simp only [sealPlainReports, hk] at h
  refine (sealed _ _ pk _ (fun db r => by cases sealForApp cfg pk address r <;> rfl) h).imp_left ?_
  rintro ⟨hr, hn⟩
  refine ⟨hr, fun hm => ?_⟩
  by_contra hs
  exact hn r (List.mem_filter.mpr ⟨hr, by simpa [hm] using hs⟩) rfl

theorem appKey_storeSealed : (storeSealed cfg db mailbox address p).appKey m = (db.setAppKey mailbox p.appKey).appKey m :=
  Db.appKey_congr (by simp [storeSealed, Db.deletePlainSnapshots])

theorem mem_snapshots_storeSealed (h : r ∈ (storeSealed cfg db mailbox address p).snapshots) :
    r ∈ db.snapshots ∧ (r.mailboxId = mailbox → r.sealed.isSome) := by
  simp only [storeSealed, sealPlainReports_snapshots] at h
  obtain ⟨hr, hs⟩ := Table.mem_delete.mp h
  refine ⟨by simpa using hr, fun hm => ?_⟩
  by_contra hn
  simp [hm, Option.not_isSome_iff_eq_none.mp hn] at hs

theorem mem_reports_storeSealed (hk : (cfg.appPublicKey p.appKey).isSome)
    (h : r ∈ (storeSealed cfg db mailbox address p).reports) :
    (r ∈ db.reports ∧ (r.mailboxId = mailbox → r.sealed.isSome)) ∨ r.Encrypted := by
  have h := mem_sealPlainReports hk h
  simpa [Db.deletePlainSnapshots] using h

theorem storeSealed_atRest (hk : (cfg.appPublicKey p.appKey).isSome) (h : db.AtRest cfg) :
    (storeSealed cfg db mailbox address p).AtRest cfg where
  keys m k hm := by
    rw [appKey_storeSealed] at hm
    by_cases he : m = mailbox
    case pos =>
      subst he
      exact Db.appKey_setAppKey_self hm ▸ hk
    case neg => exact h.keys m k (Db.appKey_setAppKey_of_ne he ▸ hm)
  boxes r hr := h.boxes r (mem_snapshots_storeSealed hr).left
  letters r hr hs := by
    rcases mem_reports_storeSealed hk hr with ⟨hr, _⟩ | he
    · exact h.letters r hr hs
    · exact he.right
  snapshots r hr hm := by
    obtain ⟨hr, hs⟩ := mem_snapshots_storeSealed hr
    by_cases he : r.mailboxId = mailbox
    case pos => exact hs he
    case neg =>
      rw [appKey_storeSealed, Db.appKey_setAppKey_of_ne he] at hm
      exact h.snapshots r hr hm
  reports r hr hm := by
    rcases mem_reports_storeSealed hk hr with ⟨hr, hs⟩ | he
    case inr => exact he.left
    case inl =>
      by_cases he : r.mailboxId = mailbox
      case pos => exact hs he
      case neg =>
        rw [appKey_storeSealed, Db.appKey_setAppKey_of_ne he] at hm
        exact h.reports r hr hm

theorem insertSnapshot_atRest (hi : db.insertSnapshot row = some db') (hb : row.sealed.isSome → row.json = "")
    (hm : (db.appKey row.mailboxId).isSome → row.sealed.isSome) (h : db.AtRest cfg) : db'.AtRest cfg := by
  have key (m) : db'.appKey m = db.appKey m := by
    obtain ⟨_, _, rfl⟩ := Db.insertSnapshot_frame hi
    rfl
  have reports : db'.reports = db.reports := by
    obtain ⟨_, _, rfl⟩ := Db.insertSnapshot_frame hi
    rfl
  refine ⟨fun m k hk => h.keys m k (key m ▸ hk), fun r hr => ?_, ?_, fun r hr hk => ?_, ?_⟩
  · rcases Db.mem_insertSnapshot hi hr with hr | rfl
    · exact h.boxes r hr
    · exact hb
  · simpa [reports] using h.letters
  · rw [key] at hk
    rcases Db.mem_insertSnapshot hi hr with hr | rfl
    · exact h.snapshots r hr hk
    · exact hm hk
  · simpa [reports, key] using h.reports

theorem publish_atRest (hc : checkPush cfg push address = .ok row)
    (hp : publish cfg db mailbox address push.sealed row v = some (db', pushed)) (h : db.AtRest cfg) : db'.AtRest cfg := by
  rcases publish_eq_some hp with ⟨rfl, _⟩ | ⟨_, hs, _⟩
  case inl => exact h
  case inr =>
    generalize hq : push.sealed = sealed at hs
    cases hs
    case plain hk hi =>
      have hn := checkPush_plain hc hq
      exact insertSnapshot_atRest hi (by simp [hn]) (by simp [hk]) h
    case sealed hi =>
      obtain ⟨hk, hs, hj⟩ := checkPush_sealed hc hq
      exact storeSealed_atRest hk (insertSnapshot_atRest hi (fun _ => hj) (fun _ => hs) h)

-- What is filed with a key that can be read is sealed to it.
theorem filing_row (hr : f.row cfg content now = some row) : row.mailboxId = f.mailboxId ∧
    (row.sealed.isSome → row.content = {}) ∧
    ∀ k, f.appKey = some k → (cfg.appPublicKey k).isSome → row.sealed.isSome := by
  simp only [Filing.row] at hr
  split at hr
  case h_1 =>
    obtain ⟨_, _, rfl⟩ := Option.map_eq_some_iff.mp hr
    exact ⟨rfl, fun _ => rfl, fun _ _ _ => rfl⟩
  case h_2 hn =>
    cases hr
    refine ⟨rfl, nofun, fun k hk hp => ?_⟩
    obtain ⟨pk, hp⟩ := Option.isSome_iff_exists.mp hp
    simp [hk, hp] at hn

theorem storeReport_atRest (hr : f.row cfg content now = some row) (hs : storeReport db row now = some db')
    (hf : ∀ k, f.appKey = some k → (cfg.appPublicKey k).isSome) (ht : f.appKey = none → db.appKey f.mailboxId = none)
    (h : db.AtRest cfg) : db'.AtRest cfg := by
  obtain ⟨hm, hc, hk⟩ := filing_row hr
  have hi : (db.sweepReports now).insertReport row MAX_PENDING_REPORTS = some db' := hs
  have key (m) : db'.appKey m = db.appKey m := (Db.appKey_insertReport hi).trans (Db.appKey_congr rfl)
  have snapshots : db'.snapshots = db.snapshots := by
    obtain ⟨_, _, _, rfl⟩ := storeReport_frame hs
    rfl
  have new : (db.appKey row.mailboxId).isSome → row.sealed.isSome := by
    intro hn
    cases ha : f.appKey
    case none   => simp [hm, ht ha] at hn
    case some k => exact hk k ha (hf k ha)
  refine ⟨fun m k hk => h.keys m k (key m ▸ hk), ?_, fun r hr => ?_, ?_, fun r hr hn => ?_⟩
  · simpa [snapshots] using h.boxes
  · rcases Db.mem_insertReport hi hr with hr | ⟨_, rfl⟩
    · exact h.letters r (Table.mem_delete.mp hr).left
    · exact hc
  · simpa [snapshots, key] using h.snapshots
  · rw [key] at hn
    rcases Db.mem_insertReport hi hr with hr | ⟨_, rfl⟩
    · exact h.reports r (Table.mem_delete.mp hr).left hn
    · exact new hn

-- What stores something is a push or the last of a filing's calls.
theorem step_quiet (h : s.step cfg a = some s') : Quiet s.db s'.db ∨
    (∃ mailbox address push v, a = .publish mailbox address push v) ∨
    ∃ filing content now, a = .storeReport filing content now := by
  cases a
  case publish     => exact .inr (.inl ⟨_, _, _, _, rfl⟩)
  case storeReport => exact .inr (.inr ⟨_, _, _, rfl⟩)
  all_goals left
  case register             => cases h; exact insertMailbox_quiet
  case forget               => cases h; exact deleteMailbox_quiet
  case snapshotKeys         =>
    obtain ⟨db, hd, h⟩ := Option.bind_eq_some_iff.mp h
    cases h
    obtain rfl := snapshotKeys_frame hd
    exact .of_eq (by simp) (by simp) (by simp)
  case mint                 =>
    obtain ⟨⟨db, _⟩, hd, h⟩ := Option.bind_eq_some_iff.mp h
    cases h
    obtain ⟨_, _, _, _, _, _, rfl⟩ := mint_frame hd
    exact .of_eq rfl rfl rfl
  case listTokens           => cases h; exact .of_eq rfl rfl rfl
  case revoke mailbox agent now =>
    cases h
    obtain ⟨_, _, _, _, hd⟩ := @Db.revokeAgentToken_frame s.db mailbox agent now
    exact .of_eq (by rw [hd]) (by rw [hd]) (by rw [hd])
  case connectCode          =>
    obtain ⟨db, hd, h⟩ := Option.bind_eq_some_iff.mp h
    cases h
    obtain ⟨_, rfl⟩ := connectCode_frame hd
    exact .of_eq rfl rfl rfl
  case registerClient       =>
    obtain ⟨db, hd, h⟩ := Option.bind_eq_some_iff.mp h
    cases h
    obtain ⟨_, rfl⟩ := Db.insertClient_frame hd
    exact .of_eq rfl rfl rfl
  case consent              =>
    obtain ⟨⟨db, _, _⟩, hd, h⟩ := Option.bind_eq_some_iff.mp h
    cases h
    obtain ⟨_, _, _, _, _, _, _, rfl⟩ := consent_eq_some hd
    exact .of_eq rfl rfl rfl
  case checkRequest         =>
    obtain ⟨_, _, h⟩ := Option.bind_eq_some_iff.mp h
    cases h
    exact .of_eq rfl rfl rfl
  case exchange             =>
    obtain ⟨_, _, hx, rfl⟩ := State.exchange_eq_some h
    obtain ⟨_, _, _, _, rfl⟩ := hx.frame
    exact .of_eq rfl rfl rfl
  case agentAuth            =>
    obtain ⟨_, _, h⟩ := Option.bind_eq_some_iff.mp h
    cases h
    exact .of_eq rfl rfl rfl
  case agentKey             =>
    obtain ⟨_, rfl⟩ := State.agentKey_eq_some h
    obtain ⟨_, _, hd⟩ := LetIn.keyed_frame
    exact .of_eq (by rw [hd]) (by rw [hd]) (by rw [hd])
  case beginFile            =>
    obtain ⟨_, _, _, rfl⟩ := State.beginFile_eq_some h
    exact .of_eq rfl rfl rfl
  case ackReports           => cases h; exact ⟨fun _ _ => id, fun _ => id, fun _ hr => (Table.mem_delete.mp hr).left⟩
  case sweepReports         => cases h; exact ⟨fun _ _ => id, fun _ => id, fun _ hr => (Table.mem_delete.mp hr).left⟩

-- A filing is begun with the key of its mailbox.
theorem filings_step (h : s.step cfg a = some s') (hf : f ∈ s'.filings) :
    f ∈ s.filings ∨ f.appKey = s.db.appKey f.mailboxId := by
  cases a
  case publish     => obtain ⟨_, _, _, _, _, rfl⟩ := State.publish_eq_some h; exact .inl hf
  case exchange    => obtain ⟨_, _, _, rfl⟩ := State.exchange_eq_some h; exact .inl hf
  case agentKey    => obtain ⟨_, rfl⟩ := State.agentKey_eq_some h; exact .inl hf
  case storeReport =>
    obtain ⟨_, _, _, _, _, rfl⟩ := State.storeReport_eq_some h
    exact .inl (List.mem_of_mem_erase hf)
  case beginFile auth =>
    obtain ⟨_, filing, hb, rfl⟩ := State.beginFile_eq_some h
    rcases List.mem_cons.mp hf with rfl | hf
    case inr => exact .inl hf
    case inl =>
      simp only [beginFile] at hb
      split at hb
      case isTrue  => cases hb
      case isFalse => cases hb; exact .inr rfl
  case register | forget | listTokens | revoke | ackReports | sweepReports => cases h; exact .inl hf
  all_goals
    obtain ⟨_, _, h⟩ := Option.bind_eq_some_iff.mp h
    cases h
    exact .inl hf

theorem step_atRest (hs : s.AtRest cfg) (ht : FiledInTime s a) (h : s.step cfg a = some s') : s'.AtRest cfg where
  db := by
    rcases step_quiet h with hq | ⟨_, _, _, _, rfl⟩ | ⟨_, _, _, rfl⟩
    · exact hq.atRest hs.db
    · obtain ⟨_, _, _, hc, hp, rfl⟩ := State.publish_eq_some h
      exact publish_atRest hc hp hs.db
    · obtain ⟨hf, _, _, hr, hd, rfl⟩ := State.storeReport_eq_some h
      exact storeReport_atRest hr hd (hs.filings _ hf) ht hs.db
  filings f hf k hk := by
    rcases filings_step h hf with hf | he
    · exact hs.filings f hf k hk
    · exact hs.db.keys _ k (he ▸ hk)

-- Once a mailbox has the app's public key, nothing of it is stored in plaintext.
theorem reachable_encrypted (h : (server cfg).Reachable FiledInTime s) (mailbox : MailboxId)
    (hm : (s.db.appKey mailbox).isSome) :
    (∀ r ∈ s.db.snapshots, r.mailboxId = mailbox → r.Encrypted) ∧
    (∀ r ∈ s.db.reports, r.mailboxId = mailbox → r.Encrypted) := by
  have hi : s.AtRest cfg := by
    refine h.invariant (fun s hs => ?_) fun _ _ _ hi ht hs => step_atRest hi ht hs
    cases hs
    refine ⟨⟨fun _ _ hk => ?_, fun _ hr => ?_, fun _ hr => ?_, fun _ hr => ?_, fun _ hr => ?_⟩, by simp⟩
    case refine_1 => cases hk
    all_goals exact absurd hr Table.not_mem_empty
  constructor
  · rintro r hr rfl
    have hs := hi.db.snapshots r hr hm
    exact ⟨hs, hi.db.boxes r hr hs⟩
  · rintro r hr rfl
    have hs := hi.db.reports r hr hm
    exact ⟨hs, hi.db.letters r hr hs⟩

section FirstPush

def scout : LetIn :=
  { agentId := 0, mailboxId := 1, address := "scout@a.example", secret := some (.agentToken ⟨0, 1⟩) }

def scoutConnected : List Action :=
  [.register "scout@a.example", .mint 1, .agentAuth (.agent ⟨0, 1⟩) false 0, .agentKey scout]

def firstSealedPush : Action := .publish 1 "scout@a.example" {
  address := "scout@a.example", version := 1, publishedAt := 0
  sealed := some {
    encryption := 2, keyId := "k", schemaVersion := 1, appKey := "app", wraps := []
    ciphertext := { key := 0, keyId := "k", address := "scout@a.example", version := 1, schemaVersion := 1, json := "" } } }
  none

def scoutFiles (appKey : Option String) : Action :=
  .storeReport { agentId := 0, mailboxId := 1, address := "scout@a.example", appKey } { subject := "Hello" } 0

-- A report whose key was read before the push is sealed by it when it was stored by then, and one that
-- is begun after it when it is stored.
theorem reachable_encrypted_twice : ∃ s, (server lenient).Reachable FiledInTime s ∧ s.db.reports.rows.length = 2 ∧
    (∀ r ∈ s.db.snapshots, r.mailboxId = 1 → r.Encrypted) ∧ (∀ r ∈ s.db.reports, r.mailboxId = 1 → r.Encrypted) := by
  have run : ((server lenient).run FiledInTime {} (scoutConnected ++
      [.beginFile scout, scoutFiles none, firstSealedPush] ++ scoutConnected.drop 2 ++
      [.beginFile scout, scoutFiles (some "app")])).any
        fun s => s.db.reports.rows.length = 2 && (s.db.appKey 1).isSome := by decide
  obtain ⟨s, hs, h⟩ := (Option.any_eq_true _ _).mp run
  simp only [Bool.and_eq_true, decide_eq_true_eq] at h
  have hr := System.Reachable.run (.start rfl) hs
  exact ⟨s, hr, h.left, reachable_encrypted hr 1 h.right⟩

-- A report whose key was read before the first sealed push and which is stored after it stays in plaintext.
theorem filed_across_first_push : ¬∀ s, (server lenient).Reachable (fun _ _ => True) s →
    s.requests = [] → s.admitted = [] → s.serving = [] → s.filings = [] → ∀ mailbox, (s.db.appKey mailbox).isSome →
      (∀ r ∈ s.db.snapshots, r.mailboxId = mailbox → r.Encrypted) ∧
      (∀ r ∈ s.db.reports, r.mailboxId = mailbox → r.Encrypted) := by
  intro claim
  have run : ((server lenient).run (fun _ _ => True) {} (scoutConnected ++
      [.beginFile scout, firstSealedPush, scoutFiles none])).any
        fun s => s.requests = [] ∧ s.admitted = [] ∧ s.serving = [] ∧ s.filings = [] ∧ (s.db.appKey 1).isSome ∧
          ∃ r ∈ s.db.reports.rows, r.mailboxId = 1 ∧ r.sealed = none := by decide
  obtain ⟨s, hs, h⟩ := (Option.any_eq_true _ _).mp run
  obtain ⟨h₁, h₂, h₃, h₄, hk, r, hr, hm, hn⟩ := of_decide_eq_true h
  have := (claim s (.run (.start rfl) hs) h₁ h₂ h₃ h₄ 1 hk).right r hr hm
  simp [ReportRow.Encrypted, hn] at this

end FirstPush

end Kaluta.Server
