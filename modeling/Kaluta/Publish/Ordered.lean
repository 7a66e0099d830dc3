import Kaluta.Publish.App

-- What was drawn, and the versions that the server stores.
namespace Kaluta.Publish

def Phase.token : Phase → Option Token
  | .registered _ token | .kept _ token | .ready _ token | .sending _ token _ => some token
  | _                                                                         => none

def Phase.id : Phase → Option Nat
  | .registering _ id _ | .sending _ _ id => some id
  | _                                     => none

structure State.Ordered (s : State) : Prop where
  host     : ∀ t, s.host.token = some t → t < s.next
  keychain : ∀ t, s.keychain = some t → t < s.next
  phase    : (∀ t, s.phase.token = some t → t < s.next) ∧ ∀ id, s.phase.id = some id → id < s.next
  requests : ∀ id ∈ s.registrations, id < s.next
  puts     : ∀ p ∈ s.puts, p.token < s.next ∧ p.id < s.next
  answers  : ∀ a ∈ s.answers, a.1 < s.next ∧ ∀ t, a.2 = .registered t → t < s.next
  stored   : ∀ v ∈ s.versions, v.1 < s.next ∧ 1 ≤ v.2 ∧ (s.host.token = some v.1 → v.2 ≤ s.host.current.getD 0)
  versions : ∀ t, ((s.versions.filter (·.1 = t)).map (·.2)).Pairwise (· > ·)

variable {cfg : Config} {s s' : State} {h : Host}

@[simp]
theorem Host.forget_token : h.forget.token = none := by
  rw [forget]
  cases hm : h.mailbox
  case some => rfl
  case none => rw [token, hm]; rfl

-- What the app does by itself
theorem State.Ordered.app (h : s.Ordered) (hh : s'.host = s.host) (hv : s'.versions = s.versions)
    (ha : s'.answers = s.answers) (hn : s.next ≤ s'.next)
    (hk : ∀ t, s'.keychain = some t → t < s'.next)
    (hp : (∀ t, s'.phase.token = some t → t < s'.next) ∧ ∀ id, s'.phase.id = some id → id < s'.next)
    (hr : ∀ id ∈ s'.registrations, id < s'.next) (hputs : ∀ p ∈ s'.puts, p.token < s'.next ∧ p.id < s'.next) :
    s'.Ordered where
  host t ht    := (h.host t (hh ▸ ht)).trans_le hn
  keychain     := hk
  phase        := hp
  requests     := hr
  puts         := hputs
  answers a hm := ((h.answers a (ha ▸ hm)).imp (·.trans_le hn)) fun h t ht => (h t ht).trans_le hn
  stored v hm  := by
    rw [hh]
    exact ((h.stored v (hv ▸ hm)).imp_left (·.trans_le hn))
  versions     := hv ▸ h.versions

-- The phases that need no more than what was drawn before
theorem State.Ordered.keep (h : s.Ordered) (hp : (∀ t, s'.phase.token = some t → t < s.next) ∧
    ∀ id, s'.phase.id = some id → id < s.next) (hs : s' = { s with
      phase := s'.phase, record := s'.record, outcome := s'.outcome, recorded := s'.recorded, doubtful := s'.doubtful,
      guide := s'.guide }) : s'.Ordered := by
  rw [hs]
  exact h.app rfl rfl rfl le_rfl h.keychain hp h.requests h.puts

theorem begin_ordered (h : s.Ordered) (hs : s.begin cfg force = some s') : s'.Ordered := by
  unfold State.begin at hs
  split at hs
  case h_2 => cases hs
  case h_1 =>
    split at hs
    case isTrue => cases hs; exact h.keep h.phase rfl
    split at hs
    case isTrue => cases hs; exact h.keep h.phase rfl
    case isFalse =>
      dsimp only at hs
      split at hs
      case h_1 token hk =>
        cases hs
        exact h.keep ⟨fun t ht => h.keychain t (hk.trans ht), nofun⟩ rfl
      case h_2 hk =>
        cases hs
        refine h.app rfl rfl rfl (Nat.le_succ _) (fun t ht => (h.keychain t ht).trans (Nat.lt_succ_self _)) ⟨nofun, ?_⟩ ?_ ?_
        · intro id hid
          cases hid
          exact Nat.lt_succ_self _
        · intro id hid
          rcases List.mem_cons.mp hid with rfl | hid
          · exact Nat.lt_succ_self _
          · exact (h.requests id hid).trans (Nat.lt_succ_self _)
        · exact fun p hp => ((h.puts p hp).imp (·.trans (Nat.lt_succ_self _)) (·.trans (Nat.lt_succ_self _)))

theorem send_ordered (h : s.Ordered) (hs : s.send cfg publishedAt = some s') : s'.Ordered := by
  unfold State.send at hs
  split at hs
  case h_2 => cases hs
  case h_1 call token hp =>
    have htoken := h.phase.left token (by rw [hp]; rfl)
    split at hs
    case isTrue => cases hs; exact h.keep ⟨nofun, nofun⟩ rfl
    split at hs
    case isTrue => cases hs
    case isFalse =>
      cases hs
      have lt {n : Nat} (hn : n < s.next) : n < s.next + 1 := hn.trans (Nat.lt_succ_self _)
      refine h.app rfl rfl rfl (Nat.le_succ _) (fun t ht => lt (h.keychain t ht)) ⟨?_, ?_⟩
        (fun id hid => lt (h.requests id hid)) fun p hp => ?_
      · intro t ht
        cases ht
        exact lt htoken
      · intro id hid
        cases hid
        exact Nat.lt_succ_self _
      · rcases List.mem_cons.mp hp with rfl | hp
        · exact ⟨lt htoken, Nat.lt_succ_self _⟩
        · exact ⟨lt (h.puts p hp).left, lt (h.puts p hp).right⟩

theorem receive_ordered (h : s.Ordered) (hs : s.receive = some s') : s'.Ordered := by
  unfold State.receive at hs
  split at hs
  case h_3 => cases hs
  case h_1 call id after401 hp =>
    obtain ⟨⟨_, answer⟩, hf, hs⟩ := Option.bind_eq_some_iff.mp hs
    have hm := h.answers _ (List.mem_of_find?_eq_some hf)
    dsimp only at hs
    split at hs
    case h_1 token =>
      cases hs
      refine h.keep ⟨fun t ht => ?_, nofun⟩ rfl
      cases ht
      exact hm.right token rfl
    case h_2 => cases hs; exact h.keep ⟨nofun, nofun⟩ rfl
  case h_2 call token id hp =>
    obtain ⟨⟨_, answer⟩, hf, hs⟩ := Option.bind_eq_some_iff.mp hs
    cases hs
    have htoken (t) (ht : some token = some t) : t < s.next := h.phase.left t (by rw [hp]; exact ht)
    cases answer
    case notCurrent         => exact h.keep ⟨htoken, nofun⟩ rfl
    case unauthorized       =>
      simp only [State.answered]
      split
      case isTrue  => exact h.keep ⟨nofun, nofun⟩ rfl
      case isFalse =>
        have lt {n : Nat} (hn : n < s.next) : n < s.next + 1 := hn.trans (Nat.lt_succ_self _)
        refine h.app rfl rfl rfl (Nat.le_succ _) (fun t ht => lt (h.keychain t ht)) ⟨nofun, ?_⟩ ?_
          fun p hp => ⟨lt (h.puts p hp).left, lt (h.puts p hp).right⟩
        · intro id hid
          cases hid
          exact Nat.lt_succ_self _
        · intro id hid
          rcases List.mem_cons.mp hid with rfl | hid
          · exact Nat.lt_succ_self _
          · exact lt (h.requests id hid)
    case encryptionRequired =>
      simp only [State.answered]
      split
      case isTrue  => exact h.keep ⟨nofun, nofun⟩ rfl
      case isFalse => exact h.keep ⟨htoken, nofun⟩ rfl
    all_goals exact h.keep ⟨nofun, nofun⟩ rfl

theorem advance_ordered (h : s.Ordered) (hs : s.advance cfg = some s') : s'.Ordered := by
  unfold State.advance at hs
  split at hs
  case h_1 call token hp =>
    cases hs
    have htoken (t) (ht : some token = some t) : t < s.next := h.phase.left t (by rw [hp]; exact ht)
    exact h.app rfl rfl rfl le_rfl htoken ⟨htoken, nofun⟩ h.requests h.puts
  case h_2 call token hp =>
    cases hs
    have lt {n : Nat} (hn : n < s.next) : n < s.next + 1 := hn.trans (Nat.lt_succ_self _)
    have htoken (t) (ht : some token = some t) : t < s.next + 1 := lt (h.phase.left t (by rw [hp]; exact ht))
    exact h.app rfl rfl rfl (Nat.le_succ _) (fun t ht => lt (h.keychain t ht)) ⟨htoken, nofun⟩
      (fun id hid => lt (h.requests id hid)) fun p hp => ⟨lt (h.puts p hp).left, lt (h.puts p hp).right⟩
  case h_3 => cases hs; exact h.keep ⟨nofun, nofun⟩ rfl
  case h_4 => cases hs; exact h.keep ⟨nofun, nofun⟩ rfl
  case h_5 => cases hs

-- What the server does

theorem register_ordered {id : Nat} (h : s.Ordered) (hs : s.register cfg id = some s') : s'.Ordered := by
  obtain ⟨hr, host, answer, hcases, rfl⟩ := State.register_eq_some hs
  have lt {n : Nat} (hn : n < s.next) : n < s.next + 1 := hn.trans (Nat.lt_succ_self _)
  refine ⟨fun t ht => ?_, fun t ht => lt (h.keychain t ht), ⟨fun t ht => lt (h.phase.left t ht),
    fun i hi => lt (h.phase.right i hi)⟩, fun i hi => lt (h.requests i (List.mem_of_mem_erase hi)),
    fun p hp => ⟨lt (h.puts p hp).left, lt (h.puts p hp).right⟩, fun a ha => ?_, fun v hv => ?_, h.versions⟩
  · rcases hcases with ⟨rfl, _⟩ | ⟨_, he, _⟩
    · exact lt (h.host t ht)
    · cases he.symm.trans ht
      exact Nat.lt_succ_self _
  · rcases List.mem_cons.mp ha with rfl | ha
    · refine ⟨lt (h.requests id hr), fun t ht => ?_⟩
      rcases hcases with ⟨_, rfl, _⟩ | ⟨_, _, rfl⟩
      · cases ht
      · cases ht
        exact Nat.lt_succ_self _
    · exact ⟨lt (h.answers a ha).left, fun t ht => lt ((h.answers a ha).right t ht)⟩
  · have ⟨hlt, hone, hle⟩ := h.stored v hv
    refine ⟨lt hlt, hone, fun ht => ?_⟩
    rcases hcases with ⟨rfl, _⟩ | ⟨_, he, _⟩
    · exact hle ht
    · exact absurd (Option.some.inj (he.symm.trans ht)) hlt.ne'

-- A version that is stored is above those that were stored for the same registration.
theorem State.Ordered.stored_lt (h : s.Ordered) (hv : v ∈ s.versions) (ht : s.host.token = some v.1)
    (hc : ∀ c, s.host.current = some c → c < n) (hone : 1 ≤ n) : v.2 < n := by
  have hle := (h.stored v hv).right.right ht
  cases hcur : s.host.current
  case none   =>
    rw [hcur] at hle
    exact hle.trans_lt hone
  case some c =>
    rw [hcur] at hle
    exact hle.trans_lt (hc c hcur)

theorem serve_ordered {id : Nat} (h : s.Ordered) (hs : s.serve cfg id = some s') : s'.Ordered := by
  obtain ⟨put, host, answer, hm, rfl, served, rfl⟩ := State.serve_eq_some hs
  have hput := h.puts put hm
  have puts (p) (hp : p ∈ s.puts.filter (·.id ≠ put.id)) := h.puts p (List.mem_filter.mp hp).left
  cases served
  case refused hne hr _ =>
    refine ⟨h.host, h.keychain, h.phase, h.requests, puts, fun a ha => ?_, fun v hv => ?_, fun t => ?_⟩
    · rcases List.mem_cons.mp ha with rfl | ha
      · exact ⟨hput.right, fun t ht => absurd ht (hr t)⟩
      · exact h.answers a ha
    · rw [if_neg hne] at hv
      exact h.stored v hv
    · rw [if_neg hne]
      exact h.versions t
  case stored htoken hone _ hlt hmail hc _ =>
    have hsame : host.token = s.host.token := by rw [Host.token, hmail, Host.token]
    refine ⟨hsame ▸ h.host, h.keychain, h.phase, h.requests, puts, fun a ha => ?_, fun v hv => ?_, fun t => ?_⟩
    · rcases List.mem_cons.mp ha with rfl | ha
      · exact ⟨hput.right, (by simp)⟩
      · exact h.answers a ha
    · rw [if_pos rfl] at hv
      rcases List.mem_cons.mp hv with rfl | hv
      · exact ⟨hput.left, hone, fun _ => by rw [hc]; exact le_rfl⟩
      · refine ⟨(h.stored v hv).left, (h.stored v hv).right.left, fun ht => ?_⟩
        rw [hc]
        exact (h.stored_lt hv (hsame ▸ ht) hlt hone).le
    · rw [if_pos rfl, List.filter_cons]
      split
      case isFalse => exact h.versions t
      case isTrue ht =>
        obtain rfl : put.token = t := by simpa using ht
        refine List.pairwise_cons.mpr ⟨fun n hn => ?_, h.versions put.token⟩
        obtain ⟨v, hv, rfl⟩ := List.mem_map.mp hn
        obtain ⟨hv, he⟩ := List.mem_filter.mp hv
        exact h.stored_lt hv (htoken.trans (congrArg some (of_decide_eq_true he).symm)) hlt hone

theorem step_ordered (h : s.Ordered) (hs : s.step cfg a = some s') : s'.Ordered := by
  replace h : State.Ordered { s with outcome := none } := h.keep h.phase rfl
  unfold State.step at hs
  cases a
  case change   => cases hs; exact h.keep h.phase rfl
  case begin    => exact begin_ordered h hs
  case «seal»   =>
    simp only [State.act, State.seal] at hs
    split at hs
    case h_2 => cases hs
    case h_1 call token hp =>
      split at hs
      case isTrue  =>
        cases hs
        exact h.keep ⟨fun t ht => h.phase.left t (by rw [hp]; exact ht), nofun⟩ rfl
      case isFalse => cases hs
  case send     => exact send_ordered h hs
  case register => exact register_ordered h hs
  case serve    => exact serve_ordered h hs
  case receive  => exact receive_ordered h hs
  case giveUp   =>
    simp only [State.act, State.giveUp] at hs
    split at hs
    case h_4 => cases hs
    all_goals cases hs; exact h.keep ⟨nofun, nofun⟩ rfl
  case advance  => exact advance_ordered h hs
  case crash    => cases hs; exact h.keep ⟨nofun, nofun⟩ rfl
  case restart  =>
    cases hs
    exact h.app rfl rfl rfl le_rfl h.keychain h.phase (fun _ hr => absurd hr List.not_mem_nil)
      fun _ hp => absurd hp List.not_mem_nil
  case forget   =>
    cases hs
    refine ⟨fun t ht => ?_, h.keychain, h.phase, h.requests, h.puts, h.answers, fun v hv => ?_, h.versions⟩
    · rw [Host.forget_token] at ht
      cases ht
    · refine ⟨(h.stored v hv).left, (h.stored v hv).right.left, fun ht => ?_⟩
      rw [Host.forget_token] at ht
      cases ht

theorem reachable_ordered (h : (publication cfg).Reachable ok s) : s.Ordered := by
  refine h.invariant (fun s hs => ?_) fun _ _ _ hi _ hs => step_ordered hi hs
  cases hs
  have unset {n : Nat} : ∀ t, (none : Option Nat) = some t → t < n := fun _ ht => by cases ht
  exact ⟨unset, unset, ⟨unset, unset⟩, fun _ h => absurd h List.not_mem_nil, fun _ h => absurd h List.not_mem_nil,
    fun _ h => absurd h List.not_mem_nil, fun _ h => absurd h List.not_mem_nil, fun _ => .nil⟩

end Kaluta.Publish
