import Kaluta.Publish.Ordered

-- What the app's record, the requests on their way and the server's newest snapshot have to do with each other.
namespace Kaluta.Publish

variable (cfg : Config)

-- A push that the server will not store, whenever it gets it.
def Put.Stale (p : Put) (h : Host) : Prop :=
  h.token ≠ some p.token ∨ ∃ c, h.current = some c ∧ p.ifMatch.getD 0 < c

-- A version that the record knows of, or that the server had under the token.
def State.Known (s : State) (token : Token) (version : Int) : Prop :=
  version ≤ s.record.lastVersion ∨ (s.host.token = some token → version ≤ s.host.current.getD 0)

-- The newest snapshot says this, and goes on to until the next push.
def State.Holds (s : State) (plain : Guide) (salt : Salt) : Prop :=
  s.host.content = some (cfg.hashed plain salt) ∧ ∀ p ∈ s.puts, p.Stale s.host

def State.Expects (s : State) : Phase → Prop
  | .registering call _ _ | .registered call _ | .kept call _ => call.expected.getD 0 ≤ s.record.lastVersion
  | .ready call token | .sending call token _                 => s.Known token (call.expected.getD 0)
  | _                                                         => True

structure Call.Sends (c : Call) (token : Token) (p : Put) : Prop where
  token   : p.token = token
  version : p.push.version = c.version
  content : text p.push.json (p.push.sealed.map (·.ciphertext)) = cfg.hashed c.plain c.salt

structure State.Settled (s : State) : Prop where
  last    : 0 ≤ s.record.lastVersion
  known   : ∀ p ∈ s.puts, s.Known p.token (p.ifMatch.getD 0)
  calls   : ∀ call, s.phase.call = some call →
    call.plain = s.guide ∧ s.record.lastVersion < call.version ∧ call.attempts ≤ ATTEMPTS
  expects : s.Expects s.phase
  sending : ∀ call token id, s.phase = .sending call token id →
    (∀ p ∈ s.puts, p.id = id → call.Sends cfg token p) ∧
    ∀ a, (id, a) ∈ s.answers → (a = .stored → s.Holds cfg call.plain call.salt) ∧
      ∀ c, a = .notCurrent c → s.Known token (c.getD 0)
  stored  : ∀ call, s.phase = .stored call → s.Holds cfg call.plain call.salt
  clean   : s.doubtful = false → s.record.error = none → s.record.content ≠ none → s.phase.sent = false →
    ∃ g, s.recorded = some g ∧ s.Holds cfg g s.record.salt
  answered : s.record.enabled → s.outcome = some .pushed ∨ s.outcome = some .unchanged →
    s.host.content = some (cfg.hashed s.guide s.record.salt)

-- The server took a push that the app did not write down yet.
def State.accepted (s : State) : Bool :=
  match s.phase with
  | .stored _       => true
  | .sending _ _ id => s.answers.any fun a => a.1 = id && a.2 = .stored
  | _               => false

-- The guide is left alone during a push, the mailbox is not forgotten between the server's taking a push
-- and the app's writing it down, and the app trusts its record only when that is of this guide and the app
-- did not stop in a push, nor the server forget the mailbox, since.
def Steady (s : State) : Action → Bool
  | .change _    => s.phase.call.isNone
  | .forget      => !s.accepted
  | .begin force => force || !s.record.skips (cfg.digest s.guide) || (!s.doubtful && s.recorded = some s.guide)
  | _            => true

-- A push of the call is on its way, or the app did not write down yet that the server took it.
def Phase.pushing : Phase → Bool
  | .sending _ _ _ | .stored _ => true
  | _                          => false

theorem Phase.ne_sending {f : Phase} (h : f.pushing = false) (call : Call) (token : Token) (id : Nat) :
    f ≠ .sending call token id := by
  rintro rfl
  cases h

theorem Phase.not_called {f : Phase} {P : Call → Prop} (h : f.call = none) (call : Call) (he : f.call = some call) :
    P call := by
  cases h.symm.trans he

theorem Phase.not_stored {f : Phase} {P : Call → Prop} (h : f.pushing = false) (call : Call) (he : f = .stored call) :
    P call := by
  rw [he] at h
  cases h

variable {cfg} {s s' : State} {p : Put} {h h' : Host}

theorem Call.push_version (c : Call) : (c.push cfg publishedAt).version = c.version := by
  rw [Call.push]
  split <;> rfl

theorem Call.push_text (c : Call) :
    text (c.push cfg publishedAt).json ((c.push cfg publishedAt).sealed.map (·.ciphertext)) =
      cfg.hashed c.plain c.salt := by
  rw [Call.push]
  split <;> rfl

theorem Put.Stale.not_stored (hs : p.Stale h) (hp : p.Served h h' .stored) : False := by
  cases hp
  case refused hne _ _                    => exact hne rfl
  case stored htoken _ hif _ _ _ _ =>
    rcases hs with hs | ⟨c, hc, hlt⟩
    · exact hs htoken
    · rw [hif, hc] at hlt
      exact lt_irrefl _ hlt

theorem State.Known.mono (hk : s.Known token v) (hl : s.record.lastVersion ≤ s'.record.lastVersion)
    (hh : s'.host = s.host) : s'.Known token v := by
  rw [Known, hh]
  exact hk.imp_left (·.trans hl)

theorem State.Holds.of_subset (hs : s.Holds cfg plain salt) (hh : s'.host = s.host) (hp : ∀ p ∈ s'.puts, p ∈ s.puts) :
    s'.Holds cfg plain salt := by
  rw [Holds, hh]
  exact ⟨hs.left, fun p hm => hs.right p (hp p hm)⟩

theorem State.Expects.mono {p : Phase} (he : s.Expects p) (hl : s.record.lastVersion ≤ s'.record.lastVersion)
    (hh : s'.host = s.host) : s'.Expects p := by
  cases p
  case registering | registered | kept => exact le_trans he hl
  case ready | sending                 => exact State.Known.mono he hl hh
  all_goals trivial

-- What the app does by itself leaves the requests and the server as they are.
theorem State.Settled.of_app (hs : s.Settled cfg) (hh : s'.host = s.host) (hp : s'.puts = s.puts)
    (hl : s'.record.lastVersion = s.record.lastVersion)
    (calls : ∀ call, s'.phase.call = some call →
      call.plain = s'.guide ∧ s.record.lastVersion < call.version ∧ call.attempts ≤ ATTEMPTS)
    (expects : s.Expects s'.phase)
    (sending : ∀ call token id, s'.phase ≠ .sending call token id)
    (stored : ∀ call, s'.phase = .stored call → s.Holds cfg call.plain call.salt)
    (clean : s'.doubtful = false → s'.record.error = none → s'.record.content ≠ none → s'.phase.sent = false →
      ∃ g, s'.recorded = some g ∧ s.Holds cfg g s'.record.salt)
    (answered : s'.record.enabled → s'.outcome = some .pushed ∨ s'.outcome = some .unchanged →
      s.host.content = some (cfg.hashed s'.guide s'.record.salt)) : s'.Settled cfg where
  last     := hl ▸ hs.last
  known p hm := (hs.known p (hp ▸ hm)).mono hl.ge hh
  calls    := hl ▸ calls
  expects  := expects.mono hl.ge hh
  sending call token id he := absurd he (sending call token id)
  stored call he := (stored call he).of_subset hh fun _ hm => hp ▸ hm
  clean h₁ h₂ h₃ h₄ := by
    obtain ⟨g, hg, hold⟩ := clean h₁ h₂ h₃ h₄
    exact ⟨g, hg, hold.of_subset hh fun _ hm => hp ▸ hm⟩
  answered h₁ h₂ := hh ▸ answered h₁ h₂

-- Of a call only how it goes on changes
theorem State.Settled.go {f : Phase} (hs : s.Settled cfg) (hc : s.phase.call = some call) (hc' : f.call = some call')
    (hplain : call'.plain = call.plain) (hv : call.version ≤ call'.version) (ha : call'.attempts = call.attempts)
    (expects : s.Expects f) (sending : ∀ call token id, f ≠ .sending call token id)
    (stored : ∀ call, f = .stored call → s.Holds cfg call.plain call.salt) (ho : s.outcome = none)
    (hn : s' = { s with phase := f, registrations := s'.registrations, next := s'.next }) : s'.Settled cfg := by
  have ⟨hg, hlt, hle⟩ := hs.calls call hc
  rw [hn]
  refine hs.of_app rfl rfl rfl (fun c he => ?_) expects sending stored (fun h₁ h₂ h₃ h₄ => ?_) fun _ ha => ?_
  · obtain rfl := Option.some.inj (hc'.symm.trans he)
    exact ⟨hplain.trans hg, hlt.trans_le hv, ha ▸ hle⟩
  · refine hs.clean h₁ h₂ h₃ ?_
    rw [Phase.sent, hc]
    rw [Phase.sent, hc'] at h₄
    simpa [ha] using h₄
  · rw [ho] at ha
    rcases ha with ha | ha <;> cases ha

theorem begin_settled (hs : s.Settled cfg) (ht : Steady cfg s (.begin force)) (h : s.begin cfg force = some s') :
    s'.Settled cfg := by
  unfold State.begin at h
  split at h
  case h_2 => cases h
  case h_1 hp =>
    have unsent : s.phase.sent = false := by rw [hp]; rfl
    have unchanged (hn : s.record.enabled → s.host.content = some (cfg.hashed s.guide s.record.salt)) :
        State.Settled cfg { s with outcome := some .unchanged } :=
      hs.of_app rfl rfl rfl hs.calls hs.expects (fun _ _ _ he => by rw [hp] at he; cases he) hs.stored hs.clean
        fun he _ => hn he
    split at h
    case isTrue he => cases h; exact unchanged fun hn => absurd hn he
    split at h
    case isTrue hskip =>
      cases h
      refine unchanged fun _ => ?_
      have hforce : force = false := by simpa using hskip.left
      simp only [Steady, hforce, hskip.right, Bool.not_true, Bool.false_or, Bool.and_eq_true, Bool.not_eq_true',
        decide_eq_true_eq] at ht
      have hrec := hskip.right
      simp only [Record.skips, Bool.and_eq_true, decide_eq_true_eq, Option.isNone_iff_eq_none] at hrec
      obtain ⟨g, hg, hold⟩ := hs.clean ht.left hrec.left.right (by rw [hrec.right]; nofun) unsent
      rw [ht.right] at hg
      cases hg
      exact hold.left
    case isFalse =>
      have expected : (if 0 < s.record.lastVersion then some s.record.lastVersion else none).getD 0 ≤
          s.record.lastVersion := by
        split
        · exact le_rfl
        · exact hs.last
      dsimp only at h
      split at h
      case h_1 token hk =>
        cases h
        refine hs.of_app rfl rfl rfl (fun c he => ?_) (.inl expected) (Phase.ne_sending rfl) (Phase.not_stored rfl) (fun h₁ h₂ h₃ _ => hs.clean h₁ h₂ h₃ unsent)
          hs.answered
        cases he
        exact ⟨rfl, Int.lt_succ _, le_rfl⟩
      case h_2 hk =>
        cases h
        refine hs.of_app rfl rfl rfl (fun c he => ?_) expected (Phase.ne_sending rfl) (Phase.not_stored rfl) (fun h₁ h₂ h₃ _ => hs.clean h₁ h₂ h₃ unsent)
          hs.answered
        cases he
        exact ⟨rfl, Int.lt_succ _, le_rfl⟩

theorem send_settled (ho : s.Ordered) (hs : s.Settled cfg) (hn : s.outcome = none)
    (h : s.send cfg publishedAt = some s') : s'.Settled cfg := by
  unfold State.send at h
  split at h
  case h_2 => cases h
  case h_1 call token hp =>
    have hcall : s.phase.call = some call := by rw [hp]; rfl
    have hexp : s.Known token (call.expected.getD 0) := by
      have := hs.expects
      rwa [hp] at this
    have ⟨hg, hlt, hle⟩ := hs.calls call hcall
    split at h
    case isTrue => cases h; exact hs.go (f := .failed call .keptRefusing) hcall rfl rfl le_rfl rfl trivial (Phase.ne_sending rfl) (Phase.not_stored rfl) hn rfl
    split at h
    case isTrue => cases h
    case isFalse hne _ =>
      cases h
      have sent : ¬((call.attempts - 1 < ATTEMPTS) = false) := by simp [ATTEMPTS] at hle ⊢; omega
      refine ⟨hs.last, fun p hm => ?_, fun c he => ?_, hexp, fun c t i he => ⟨fun p hm hid => ?_, fun a hm => ?_⟩,
        fun _ he => Phase.noConfusion he,
        fun _ _ _ h₄ => ?_, hs.answered⟩
      · rcases List.mem_cons.mp hm with rfl | hm
        · exact hexp
        · exact hs.known p hm
      · cases he
        exact ⟨hg, hlt, (Nat.sub_le _ _).trans hle⟩
      · cases he
        rcases List.mem_cons.mp hm with rfl | hm
        · exact ⟨rfl, Call.push_version call, Call.push_text call⟩
        · exact absurd hid (ho.puts p hm).right.ne
      · cases he
        exact absurd (ho.answers _ hm).left (lt_irrefl _)
      · simp only [Phase.sent, Phase.call, Option.any_some, decide_eq_false_iff_not] at h₄
        simp [ATTEMPTS] at hle h₄
        omega

theorem receive_settled (hs : s.Settled cfg) (hn : s.outcome = none) (h : s.receive = some s') : s'.Settled cfg := by
  unfold State.receive at h
  split at h
  case h_3 => cases h
  case h_1 call id after401 hp =>
    have hcall : s.phase.call = some call := by rw [hp]; rfl
    have hexp : call.expected.getD 0 ≤ s.record.lastVersion := by
      have := hs.expects
      rwa [hp] at this
    obtain ⟨⟨_, answer⟩, hf, h⟩ := Option.bind_eq_some_iff.mp h
    dsimp only at h
    split at h
    case h_1 token => cases h; exact hs.go (f := .registered call token) hcall rfl rfl le_rfl rfl hexp (Phase.ne_sending rfl) (Phase.not_stored rfl) hn rfl
    case h_2       => cases h; exact hs.go (f := .failed call _) hcall rfl rfl le_rfl rfl trivial (Phase.ne_sending rfl) (Phase.not_stored rfl) hn rfl
  case h_2 call token id hp =>
    have hcall : s.phase.call = some call := by rw [hp]; rfl
    have hexp : s.Known token (call.expected.getD 0) := by
      have := hs.expects
      rwa [hp] at this
    obtain ⟨⟨i, answer⟩, hf, h⟩ := Option.bind_eq_some_iff.mp h
    cases h
    obtain rfl : i = id := by simpa using List.find?_some hf
    have ⟨hstored, hknown⟩ := (hs.sending call token i hp).right answer (List.mem_of_find?_eq_some hf)
    have failed (why) : State.Settled cfg { s with phase := .failed call why } :=
      hs.go (f := .failed call why) hcall rfl rfl le_rfl rfl trivial (Phase.ne_sending rfl) (Phase.not_stored rfl) hn rfl
    cases answer
    case stored             =>
      refine hs.go (f := .stored call) hcall rfl rfl le_rfl rfl trivial (fun _ _ _ he => Phase.noConfusion he) (fun c he => ?_) hn rfl
      cases he
      exact hstored rfl
    case notCurrent c       =>
      exact hs.go (f := .ready { call with expected := c, version := max call.version (c.getD 0 + 1) } token)
        hcall rfl rfl (le_max_left _ _) rfl (hknown c rfl) (Phase.ne_sending rfl) (Phase.not_stored rfl) hn rfl
    case unauthorized       =>
      simp only [State.answered]
      split
      case isTrue  => exact failed _
      case isFalse =>
        exact hs.go
          (f := .registering { call with registeredAgain := true, expected := none, sealing := none } s.next true)
          hcall rfl rfl le_rfl rfl hs.last (Phase.ne_sending rfl) (Phase.not_stored rfl) hn rfl
    case encryptionRequired =>
      simp only [State.answered]
      split
      case isTrue  => exact failed _
      case isFalse =>
        have ready : State.Settled cfg { s with phase := .ready { call with encrypt := true } token } :=
          hs.go (f := .ready { call with encrypt := true } token) hcall rfl rfl le_rfl rfl hexp (Phase.ne_sending rfl) (Phase.not_stored rfl) hn rfl
        exact ready.of_app rfl rfl rfl ready.calls ready.expects (Phase.ne_sending rfl) (Phase.not_stored rfl) ready.clean fun _ ha => by
          rw [hn] at ha
          rcases ha with ha | ha <;> cases ha
    all_goals exact failed _

theorem advance_settled (hs : s.Settled cfg) (hn : s.outcome = none) (h : s.advance cfg = some s') :
    s'.Settled cfg := by
  unfold State.advance at h
  have quiet {P : Prop} (ha : s.outcome = some .pushed ∨ s.outcome = some .unchanged) : P := by
    rw [hn] at ha
    rcases ha with ha | ha <;> cases ha
  split at h
  case h_1 call token hp =>
    cases h
    have hexp := hs.expects
    rw [hp] at hexp
    refine hs.of_app rfl rfl rfl (fun c he => hs.calls c (hp ▸ he)) hexp (Phase.ne_sending rfl) (Phase.not_stored rfl) (fun h₁ h₂ h₃ h₄ => ?_) fun _ => quiet
    exact hs.clean h₁ h₂ h₃ (by rw [hp]; exact h₄)
  case h_2 call token hp =>
    cases h
    have hexp := hs.expects
    rw [hp] at hexp
    refine hs.of_app rfl rfl rfl (fun c he => ?_) (.inl hexp) (Phase.ne_sending rfl) (Phase.not_stored rfl) (fun _ _ h₃ => absurd rfl h₃) fun _ => quiet
    cases he
    exact hs.calls call (by rw [hp]; rfl)
  case h_3 call hp =>
    cases h
    have ⟨hg, hlt, _⟩ := hs.calls call (by rw [hp]; rfl)
    have hold := hs.stored call hp
    refine ⟨hs.last.trans hlt.le, fun p hm => (hs.known p hm).mono hlt.le rfl, Phase.not_called rfl, trivial,
      fun _ _ _ he => Phase.noConfusion he, Phase.not_stored rfl,
      fun _ _ _ _ => ⟨call.plain, rfl, hold.of_subset rfl fun _ => id⟩, fun _ _ => ?_⟩
    rw [← hg]
    exact hold.left
  case h_4 call why hp =>
    cases h
    refine hs.of_app rfl rfl rfl (Phase.not_called rfl) trivial (Phase.ne_sending rfl) (Phase.not_stored rfl) (fun _ h₂ => by cases h₂) fun _ ha => ?_
    rcases ha with ha | ha <;> cases ha
  case h_5 => cases h

theorem State.Holds.registered (hs : s.Holds cfg plain salt) (hm : s.host.mailbox = none) : False := by
  have := hs.left
  rw [Host.content, Host.latest, hm] at this
  cases this

theorem register_settled {id : Nat} (ho : s.Ordered) (hs : s.Settled cfg) (h : s.register cfg id = some s') :
    s'.Settled cfg := by
  obtain ⟨hr, host, answer, hcases, rfl⟩ := State.register_eq_some h
  rcases hcases with ⟨rfl, rfl, _⟩ | ⟨hm, ht, rfl⟩
  case inl =>
    have hold {plain salt} (hd : s.Holds cfg plain salt) := hd
    refine ⟨hs.last, hs.known, hs.calls, hs.expects, fun call token i he => ⟨(hs.sending call token i he).left, fun a ha => ?_⟩,
      hs.stored, hs.clean, hs.answered⟩
    rcases List.mem_cons.mp ha with ha | ha
    · cases ha
      exact ⟨fun he => Answer.noConfusion he, fun _ he => Answer.noConfusion he⟩
    · exact (hs.sending call token i he).right a ha
  case inr =>
    -- A token that was never drawn before
    have known {token : Token} {v : Int} (hlt : token < s.next) (hk : s.Known token v) :
        State.Known { s with
          host, registrations := s.registrations.erase id, answers := (id, .registered s.next) :: s.answers
          next := s.next + 1 } token v :=
      hk.imp_right fun _ he => absurd (Option.some.inj (ht.symm.trans he)) hlt.ne'
    refine ⟨hs.last, fun p hp => known (ho.puts p hp).left (hs.known p hp), hs.calls, ?_, fun call token i he => ⟨?_, fun a ha => ?_⟩,
      fun call he => ((hs.stored call he).registered hm).elim, fun h₁ h₂ h₃ h₄ => ?_, fun he ha => ?_⟩
    · have hexp := hs.expects
      have htoken := ho.phase.left
      revert hexp htoken
      cases s.phase
      case ready call token | sending call token _ =>
        exact fun hexp htoken => known (htoken token rfl) hexp
      all_goals exact fun hexp _ => hexp
    · exact (hs.sending call token i he).left
    · rcases List.mem_cons.mp ha with ha | ha
      · cases ha
        exact ⟨fun he => Answer.noConfusion he, fun _ he => Answer.noConfusion he⟩
      · have ⟨hstored, hknown⟩ := (hs.sending call token i he).right a ha
        exact ⟨fun ha => ((hstored ha).registered hm).elim,
          fun c hc => known (ho.phase.left token (by rw [show s.phase = _ from he]; rfl)) (hknown c hc)⟩
    · obtain ⟨g, _, hold⟩ := hs.clean h₁ h₂ h₃ h₄
      exact (hold.registered hm).elim
    · have := hs.answered he ha
      rw [Host.content, Host.latest, hm] at this
      cases this

-- A push that the server says no to
theorem refused_settled {put : Put} {answer : Answer} (hs : s.Settled cfg) (hne : answer ≠ .stored)
    (hc : ∀ c, answer = .notCurrent c → s.host.token = some put.token ∧ c = s.host.current) :
    State.Settled cfg { s with
      puts := s.puts.filter (·.id ≠ put.id), answers := (put.id, answer) :: s.answers } := by
  have subset (p) (hp : p ∈ s.puts.filter (·.id ≠ put.id)) : p ∈ s.puts := (List.mem_filter.mp hp).left
  refine ⟨hs.last, fun p hp => hs.known p (subset p hp), hs.calls, hs.expects, fun call token id he => ⟨?_, fun a ha => ?_⟩,
    fun call he => (hs.stored call he).of_subset rfl subset, fun h₁ h₂ h₃ h₄ => ?_, hs.answered⟩
  · exact fun p hp => (hs.sending call token id he).left p (subset p hp)
  · rcases List.mem_cons.mp ha with ha | ha
    · cases ha
      refine ⟨fun he => absurd he hne, fun c he' => .inr fun _ => ?_⟩
      rw [(hc c he').right]
    · exact ((hs.sending call token id he).right a ha).imp_left fun hold he => (hold he).of_subset rfl subset
  · obtain ⟨g, hg, hold⟩ := hs.clean h₁ h₂ h₃ h₄
    exact ⟨g, hg, hold.of_subset rfl subset⟩

theorem serve_settled {id : Nat} (hs : s.Settled cfg) (hn : s.outcome = none) (h : s.serve cfg id = some s') :
    s'.Settled cfg := by
  obtain ⟨put, host, answer, hput, rfl, served, rfl⟩ := State.serve_eq_some h
  cases served
  case refused hne _ hc =>
    rw [if_neg hne]
    exact refused_settled hs hne hc
  case stored htoken hone hif hlt hmail hcur hcontent =>
    have subset (p) (hp : p ∈ s.puts.filter (·.id ≠ put.id)) : p ∈ s.puts := (List.mem_filter.mp hp).left
    have hsame : host.token = s.host.token := by rw [Host.token, hmail, Host.token]
    have above : s.host.current.getD 0 < put.push.version := by
      cases hc : s.host.current
      case none   => exact hone
      case some c => exact hlt c hc
    have known {token : Token} {v : Int} (hk : s.Known token v) : State.Known { s with
        host, puts := s.puts.filter (·.id ≠ put.id), answers := (put.id, .stored) :: s.answers
        versions := if Answer.stored = .stored then (put.token, put.push.version) :: s.versions else s.versions } token v := by
      refine hk.imp_right fun hv ht => ?_
      rw [hcur]
      exact (hv (hsame ▸ ht)).trans above.le
    -- Where the newest snapshot was to stay, the push would not have been taken.
    have fixed {plain : Guide} {salt : Salt} {P : Prop} (hold : s.Holds cfg plain salt) : P :=
      ((hold.right put hput).not_stored (.stored htoken hmail hcur hone hcontent hif hlt)).elim
    refine ⟨hs.last, fun p hp => known (hs.known p (subset p hp)), hs.calls, ?_, fun call token id he => ⟨?_, fun a ha => ?_⟩,
      fun call he => fixed (hs.stored call he), fun h₁ h₂ h₃ h₄ => ?_, fun _ ha => ?_⟩
    · have hexp := hs.expects
      revert hexp
      cases s.phase
      case ready | sending => exact known
      all_goals exact id
    · exact fun p hp => (hs.sending call token id he).left p (subset p hp)
    · rcases List.mem_cons.mp ha with ha | ha
      · cases ha
        have sends := (hs.sending call token _ he).left put hput rfl
        obtain ⟨_, hversion, _⟩ := hs.calls call (by rw [show s.phase = _ from he]; rfl)
        refine ⟨fun _ => ⟨hcontent.trans (congrArg some sends.content), fun p hp => ?_⟩, fun _ he => Answer.noConfusion he⟩
        rw [Put.Stale, hcur, hsame]
        by_cases ht : s.host.token = some p.token
        case neg => exact .inl ht
        case pos =>
          refine .inr ⟨_, rfl, ?_⟩
          rcases hs.known p (subset p hp) with hk | hk
          · exact hk.trans_lt (sends.version ▸ hversion)
          · exact (hk ht).trans_lt above
      · obtain ⟨hstored, hknown⟩ := (hs.sending call token id he).right a ha
        exact ⟨fun ha => fixed (hstored ha), fun c hc => known (hknown c hc)⟩
    · obtain ⟨g, _, hold⟩ := hs.clean h₁ h₂ h₃ h₄
      exact fixed hold
    · rw [hn] at ha
      rcases ha with ha | ha <;> cases ha

theorem crash_settled (hs : s.Settled cfg) (hn : s.outcome = none) :
    State.Settled cfg { s with phase := .idle, doubtful := s.doubtful || s.phase.sent } := by
  refine hs.of_app rfl rfl rfl (Phase.not_called rfl) trivial (Phase.ne_sending rfl) (Phase.not_stored rfl) (fun h₁ h₂ h₃ _ => ?_) fun _ ha => ?_
  · have ⟨hd, hsent⟩ := Bool.or_eq_false_iff.mp h₁
    exact hs.clean hd h₂ h₃ hsent
  · rw [hn] at ha
    rcases ha with ha | ha <;> cases ha

theorem forget_settled (hs : s.Settled cfg) (hn : s.outcome = none) (ht : s.accepted = false) :
    State.Settled cfg { s with host := s.host.forget, doubtful := true } := by
  have known {token : Token} {v : Int} (hk : s.Known token v) :
      State.Known { s with host := s.host.forget, doubtful := true } token v := by
    refine hk.imp_right fun _ he => ?_
    rw [Host.forget_token] at he
    cases he
  refine ⟨hs.last, fun p hp => known (hs.known p hp), hs.calls, ?_, fun call token id he => ⟨(hs.sending call token id he).left,
    fun a ha => ?_⟩, fun call he => ?_, fun hd => Bool.noConfusion hd, fun _ ha => ?_⟩
  · have hexp := hs.expects
    revert hexp
    cases s.phase
    case ready | sending => exact known
    all_goals exact id
  · have ⟨_, hknown⟩ := (hs.sending call token id he).right a ha
    refine ⟨fun hstored => ?_, fun c hc => known (hknown c hc)⟩
    rw [State.accepted, show s.phase = _ from he] at ht
    have := List.any_eq_false.mp ht _ ha
    simp [hstored] at this
  · rw [State.accepted, show s.phase = _ from he] at ht
    cases ht
  · rw [hn] at ha
    rcases ha with ha | ha <;> cases ha

theorem act_settled (ho : s.Ordered) (hs : s.Settled cfg) (hn : s.outcome = none) (ht : Steady cfg s a)
    (h : s.act cfg a = some s') : s'.Settled cfg := by
  have quiet {P : Prop} (ha : s.outcome = some .pushed ∨ s.outcome = some .unchanged) : P := by
    rw [hn] at ha
    rcases ha with ha | ha <;> cases ha
  cases a
  case change guide =>
    cases h
    have idle : s.phase.call = none := by simpa [Steady] using ht
    refine ⟨hs.last, hs.known, fun call he => ?_, hs.expects, hs.sending, hs.stored, hs.clean, fun _ => quiet⟩
    cases idle.symm.trans he
  case begin    => exact begin_settled hs ht h
  case «seal» sealing =>
    simp only [State.act, State.seal] at h
    split at h
    case h_2 => cases h
    case h_1 call token hp =>
      split at h
      case isFalse => cases h
      case isTrue  =>
        cases h
        have hexp := hs.expects
        have hcall : s.phase.call = some call := by rw [hp]; rfl
        rw [hp] at hexp
        exact hs.go (f := .ready { call with sealing := some sealing } token) hcall rfl rfl le_rfl rfl hexp (Phase.ne_sending rfl) (Phase.not_stored rfl) hn rfl
  case send     => exact send_settled ho hs hn h
  case register => exact register_settled ho hs h
  case serve    => exact serve_settled hs hn h
  case receive  => exact receive_settled hs hn h
  case giveUp   =>
    simp only [State.act, State.giveUp] at h
    split at h
    case h_1 call _ _ hp =>
      cases h
      exact hs.go (f := .failed call .transient) (by rw [hp]; rfl) rfl rfl le_rfl rfl trivial (Phase.ne_sending rfl) (Phase.not_stored rfl) hn rfl
    case h_2 call _ hp   =>
      cases h
      exact hs.go (f := .failed call .refused) (by rw [hp]; rfl) rfl rfl le_rfl rfl trivial (Phase.ne_sending rfl) (Phase.not_stored rfl) hn rfl
    case h_3 call _ _ hp =>
      cases h
      exact hs.go (f := .failed call .transient) (by rw [hp]; rfl) rfl rfl le_rfl rfl trivial (Phase.ne_sending rfl) (Phase.not_stored rfl) hn rfl
    case h_4             => cases h
  case advance  => exact advance_settled hs hn h
  case crash    => cases h; exact crash_settled hs hn
  case restart  =>
    cases h
    have gone {P : Put → Prop} : ∀ p ∈ ([] : List Put), P p := fun _ hp => absurd hp List.not_mem_nil
    refine ⟨hs.last, gone, hs.calls, hs.expects, fun call token id he => ⟨gone, fun a ha => ?_⟩,
      fun call he => (hs.stored call he).of_subset rfl gone, fun h₁ h₂ h₃ h₄ => ?_, fun _ => quiet⟩
    · exact ((hs.sending call token id he).right a ha).imp_left fun hold he => (hold he).of_subset rfl gone
    · obtain ⟨g, hg, hold⟩ := hs.clean h₁ h₂ h₃ h₄
      exact ⟨g, hg, hold.of_subset rfl gone⟩
  case forget   => cases h; exact forget_settled hs hn (by simpa [Steady] using ht)

theorem reachable_settled (h : (publication cfg).Reachable (fun s a => Steady cfg s a) s) : s.Settled cfg := by
  suffices s.Ordered ∧ s.Settled cfg from this.right
  refine h.invariant (P := fun s => s.Ordered ∧ s.Settled cfg) (fun s hs => ?_) fun s a s' hi ht hs => ?_
  · refine ⟨reachable_ordered (.start hs : (publication cfg).Reachable (fun s a => Steady cfg s a) s), ?_⟩
    cases hs
    exact ⟨le_rfl, fun _ hp => absurd hp List.not_mem_nil, Phase.not_called rfl, trivial,
      fun _ _ _ he => Phase.noConfusion he, Phase.not_stored rfl, fun _ _ hc => absurd rfl hc, fun _ ha => by rcases ha with ha | ha <;> cases ha⟩
  · refine ⟨step_ordered hi.left hs, ?_⟩
    have ho : State.Ordered { s with outcome := none } := hi.left.keep hi.left.phase rfl
    refine act_settled ho ⟨hi.right.last, hi.right.known, hi.right.calls, hi.right.expects, hi.right.sending,
      hi.right.stored, hi.right.clean, fun _ ha => ?_⟩ rfl ?_ hs
    · rcases ha with ha | ha <;> cases ha
    · cases a <;> exact ht

end Kaluta.Publish
