import Kaluta.Lib.Fallible
import Kaluta.Provider.Http
import Mathlib.Order.Nat

-- How often one call of `send` puts the message out.
namespace Kaluta.Provider

variable {http : HttpClient} {server : Server} {answers : List Answer} {a : Answer} {key : Option String} {k : String}

-- What a request of a call may still put out: nothing more once the server has seen its key.
def Server.room (s : Server) (k : String) : Nat :=
  if k ∈ s.seen then 0 else 1

theorem post_keyed (s : Server) (k : String) (a : Answer) :
    (s.post (some k) a).out + (s.post (some k) a).room k ≤ s.out + s.room k := by
  unfold Server.post
  split
  case isFalse => exact le_rfl
  case isTrue  =>
    dsimp only
    split
    case isTrue  => exact le_rfl
    case isFalse new => simp [Server.room, new]

theorem post_out (s : Server) (key : Option String) (a : Answer) : (s.post key a).out ≤ s.out + 1 := by
  unfold Server.post
  split
  case isFalse => omega
  case isTrue  =>
    cases key
    case none   => exact le_rfl
    case some k =>
      dsimp only
      split
      · omega
      · exact le_rfl

theorem post_of_not_takes (h : a.takes = false) : server.post key a = server := by
  unfold Server.post
  rw [if_neg (by rw [h]; decide)]

-- However often a request is made, one key puts one message out.
theorem execute_keyed (attempt : Nat) (refreshed : Bool) :
    (http.execute (some k) attempt refreshed answers server).server.out +
      (http.execute (some k) attempt refreshed answers server).server.room k ≤ server.out + server.room k := by
  induction answers generalizing attempt refreshed server
  case nil => exact le_rfl
  case cons a rest ih =>
    have step := post_keyed server k a
    unfold HttpClient.execute
    cases a
    case noToken => exact step
    case lost =>
      dsimp only
      split
      · exact step
      · exact (ih _ _).trans step
    case response =>
      dsimp only
      split
      · exact step
      split
      · split
        · exact step
        · exact (ih _ _).trans step
      · split
        · exact step
        · exact (ih _ _).trans step

theorem json_server : (http.json key answers server).server = (http.execute key 0 false answers server).server := by
  unfold HttpClient.json
  dsimp only
  split
  · split <;> rfl
  · rfl

-- A request that is not made again when its answer fails is taken once.
theorem execute_once (once : http.retry.maxAttempts ≤ 1) (refreshed : Bool) :
    (http.execute key 0 refreshed answers server).server.out ≤ server.out + 1 := by
  induction answers generalizing refreshed server
  case nil => exact Nat.le_succ _
  case cons a rest ih =>
    have step := post_out server key a
    unfold HttpClient.execute
    cases a
    case noToken => exact step
    case lost =>
      dsimp only
      rw [if_pos (.inr once)]
      exact step
    case response status retryAfter body taken =>
      dsimp only
      split
      · exact step
      split
      case isTrue rejected =>
        have same : server.post key (.response status retryAfter body taken) = server :=
          post_of_not_takes (by subst rejected; rfl)
        split
        · exact step
        · rw [same]
          exact ih _
      case isFalse =>
        rw [if_pos (.inr once)]
        exact step

-- A 5xx that does not claim to know the message's parent not to be there.
def Answer.Plain : Answer → Prop
  | response status _ body _ => 500 ≤ status → ∀ e ∈ body.errorBody, e.code ≠ "not_found"
  | _                        => True

-- AgentMail says of a message that it answers one that is not there only when it did not take it.
theorem classify_notFound {status : Nat} {retryAfter : Option Nat} {body : Body} {message : String}
    (plain : 500 ≤ status → ∀ e ∈ body.errorBody, e.code ≠ "not_found")
    (h : classify agentmailError status retryAfter body = .notFound message) : status < 500 := by
  by_contra high
  have high : 500 ≤ status := not_lt.mp high
  have ne (n : Nat) (hn : n < 500) : ¬status = n := by omega
  rw [classify, if_neg (ne 429 (by decide))] at h
  cases there : body.errorBody
  case none =>
    have hook : agentmailError status body = none := by rw [agentmailError, there]; rfl
    rw [hook, if_neg (ne 429 (by decide)), if_neg (ne 403 (by decide)), if_neg (ne 404 (by decide)),
      if_neg fun h => ne 410 (by decide) h.left, if_pos high] at h
    cases h
  case some e =>
    have code := plain high e there
    have hook : ∃ error, agentmailError status body = some error ∧ error ≠ .notFound message := by
      rw [agentmailError, there]
      simp only [Option.bind_some, code, ne 404 (by decide), or_self, if_false, high, if_true]
      repeat' split
      all_goals exact ⟨_, rfl, nofun⟩
    obtain ⟨error, hook, ne⟩ := hook
    rw [hook] at h
    exact ne h

theorem postSend_refused {message : String} (plain : ∀ a ∈ answers, a.Plain) (refreshed : Bool)
    (h : (HttpClient.execute { retry := { maxAttempts := 1 }, hook := agentmailError } key 0 refreshed answers server).outcome =
      .failed (.notFound message)) :
    (HttpClient.execute { retry := { maxAttempts := 1 }, hook := agentmailError } key 0 refreshed answers server).server.out ≤
      server.out := by
  induction answers generalizing refreshed server
  case nil => exact le_rfl
  case cons a rest ih =>
    have plain' := fun b hb => plain b (List.mem_cons_of_mem _ hb)
    unfold HttpClient.execute at h ⊢
    cases a
    case noToken e =>
      rw [post_of_not_takes rfl]
    case lost taken =>
      dsimp only at h
      rw [if_pos (.inr (by decide))] at h
      cases h
    case response status retryAfter body taken =>
      dsimp only at h ⊢
      split at h
      case isTrue => cases h
      case isFalse fails =>
        rw [if_neg fails]
        split at h
        case isTrue rejected =>
          have same : server.post key (.response status retryAfter body taken) = server :=
            post_of_not_takes (by subst rejected; rfl)
          rw [if_pos rejected]
          rw [same] at h ⊢
          cases refreshed
          case true =>
            rw [if_pos rfl] at h
            cases h
          case false =>
            rw [if_neg Bool.false_ne_true] at h ⊢
            exact ih plain' true h
        case isFalse other =>
          rw [if_pos (.inr (by decide))] at h
          rw [if_neg other, if_pos (.inr (by decide))]
          have low := classify_notFound (plain _ List.mem_cons_self) (Outcome.failed.inj h)
          have untaken : (Answer.response status retryAfter body taken).takes = false := by
            simp [Answer.takes, fails, Nat.not_le.mpr low]
          exact (congrArg Server.out (post_of_not_takes untaken)).le

theorem execute_of_json {message : String} (h : (http.json key answers server).outcome = .failed (.notFound message)) :
    (http.execute key 0 false answers server).outcome = .failed (.notFound message) := by
  unfold HttpClient.json at h
  dsimp only at h
  split at h
  case h_1 ok =>
    split at h
    · rw [ok] at h
      cases h
    · cases h
  case h_2 => exact h

variable {retry : RetryPolicy} {m : Outgoing} {earlier : Except ProviderError (Option String)}

theorem postSend_once : (postSend k answers server).server.out ≤ server.out + 1 := by
  unfold postSend
  rw [json_server]
  exact execute_once le_rfl false

theorem primitiveSend_once : (primitiveSend retry m answers server).server.out ≤ server.out + 1 := by
  unfold primitiveSend
  split
  case h_1 => exact Nat.le_succ _
  case h_2 =>
    have keyed : (HttpClient.json { retry } (some m.key) answers server).server.out ≤ server.out + 1 := by
      rw [json_server]
      refine (Nat.le_add_right _ _).trans ((execute_keyed 0 false).trans (Nat.add_le_add_left ?_ _))
      unfold Server.room
      split <;> decide
    dsimp only
    split
    · split <;> exact keyed
    · exact keyed

-- When the second request is made, the first one was not taken.
theorem agentMailSend_plain (plain : ∀ a ∈ answers, a.Plain) :
    (agentMailSend earlier m answers server).server.out ≤ server.out + 1 := by
  unfold agentMailSend
  split
  case h_1 => exact Nat.le_succ _
  case h_2 => exact Nat.le_succ _
  case h_3 =>
    split
    case h_1 => exact Nat.le_succ _
    case h_2 =>
      dsimp only
      split
      case h_2 => exact postSend_once
      case h_1 refused =>
        have untaken : (postSend m.key answers server).server.out ≤ server.out := by
          unfold postSend at refused ⊢
          rw [json_server]
          exact postSend_refused plain false (execute_of_json refused)
        split
        case h_1 => exact untaken.trans (Nat.le_succ _)
        case h_2 => exact postSend_once.trans (Nat.add_le_add_right untaken 1)

theorem agentMailSend_once (m : Outgoing)
    (h : ¬(m.inReplyTo.isSome = true ∧ (m.body true).toBool = true ∧ (m.body false).toBool = true)) :
    (agentMailSend earlier m answers server).server.out ≤ server.out + 1 := by
  unfold agentMailSend
  split
  case h_1 => exact Nat.le_succ _
  case h_2 => exact Nat.le_succ _
  case h_3 =>
    split
    case h_1 => exact Nat.le_succ _
    case h_2 built =>
      dsimp only
      split
      case h_2 => exact postSend_once
      case h_1 parent _ reply _ =>
        split
        case h_1 => exact postSend_once
        case h_2 built' =>
          have reply' : m.inReplyTo.isSome = true := by rw [reply]; rfl
          rw [reply] at built
          exact absurd ⟨reply', congrArg Except.toBool built, congrArg Except.toBool built'⟩ h

-- Whom a provider's `send` leaves without a second message whatever answers it meets.
def SendsOnce (provider : Provider) (retry : RetryPolicy) (m : Outgoing) : Prop :=
  match provider with
  | .gmail     => retry.maxAttempts ≤ 1
  | .agentMail => ¬(m.inReplyTo.isSome = true ∧ (m.body true).toBool = true ∧ (m.body false).toBool = true)
  | .primitive => True

-- A message that Gmail has taken is put out again when the answer is lost and attempts are left.
theorem gmail_repeats (h : ¬retry.maxAttempts ≤ 1) :
    (gmailSend retry [.lost true, .response 200 none {} true] {}).server.out = 2 := by
  simp [gmailSend, HttpClient.json, HttpClient.execute, Server.post, Answer.takes, isSuccess, ProviderError.isTransient, h]

-- AgentMail's message of its own has another key than the reply that was taken.
theorem agentMail_repeats (reply : m.inReplyTo.isSome = true) (body : (m.body true).toBool = true)
    (own : (m.body false).toBool = true) :
    (agentMailSend (.ok none) m [.response 503 none { errorBody := some { code := "not_found", words := "" } } true,
      .response 200 none {} true] {}).server.out = 2 := by
  obtain ⟨_, body⟩ := Except.exists_ok body
  obtain ⟨_, own⟩ := Except.exists_ok own
  obtain ⟨parent, reply⟩ := Option.isSome_iff_exists.mp reply
  have ne : m.key ++ "-s" ≠ m.key := by
    intro eq
    have := congrArg String.length eq
    simp at this
  simp [agentMailSend, reply, body, own, postSend, HttpClient.json, HttpClient.execute, Server.post, Answer.takes, isSuccess,
    ProviderError.isTransient, classify, agentmailError, ne]

-- Whether one call of `send` puts the message out at most once, whatever answers it meets.
theorem send_once_iff (provider : Provider) (retry : RetryPolicy) (m : Outgoing) :
    ((∀ earlier answers server, (send provider retry earlier m answers server).server.out ≤ server.out + 1) ↔
      SendsOnce provider retry m) ∧
    ∀ earlier answers server, (∀ a ∈ answers, a.Plain) →
      (send .agentMail retry earlier m answers server).server.out ≤ server.out + 1 := by
  refine ⟨?_, fun _ _ _ plain => agentMailSend_plain plain⟩
  cases provider
  case primitive => exact ⟨fun _ => trivial, fun _ _ _ _ => primitiveSend_once⟩
  case gmail =>
    constructor
    · intro once
      by_contra repeats
      have := (gmail_repeats repeats).symm.le.trans (once (.ok none) _ _)
      cases Nat.le_of_succ_le_succ this
    · intro few _ answers server
      change (gmailSend retry answers server).server.out ≤ _
      unfold gmailSend
      rw [json_server]
      exact execute_once (show ({ retry } : HttpClient).retry.maxAttempts ≤ 1 from few) false
  case agentMail =>
    constructor
    · rintro once ⟨reply, body, own⟩
      have := (agentMail_repeats reply body own).symm.le.trans (once (.ok none) _ _)
      cases Nat.le_of_succ_le_succ this
    · exact fun h _ _ _ => agentMailSend_once m h

-- Gmail with the policy that the app uses.
theorem gmail_sends_twice : ¬∀ provider retry m earlier answers server,
    (send provider retry earlier m answers server).server.out ≤ server.out + 1 := by
  intro once
  exact absurd (once .gmail {} { key := "k" } (.ok none) [.lost true, .response 200 none {} true] {}) (by decide)

end Kaluta.Provider
