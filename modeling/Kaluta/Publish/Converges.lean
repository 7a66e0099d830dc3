import Kaluta.Publish.Settled
import Kaluta.Server.System

-- What publishing comes to along every run.
namespace Kaluta.Publish

variable {cfg : Config} {s : State} {ok : State → Action → Prop}

theorem put_of_ifMatch_ne {put : Put} (h : put.ifMatch.getD 0 ≠ s.host.current.getD 0) :
    (s.host.put cfg put).1 = s.host := by
  cases hp : s.host.put cfg put
  case mk host answer =>
    cases Host.put_served hp
    case refused                   => rfl
    case stored _ _ hif _ _ _ _    => exact absurd hif h

-- The versions stored for a registration increase, and a push that does not match the current version stores
-- nothing. Along steady runs the newest snapshot is what the app would publish, whenever it says so.
theorem reachable_converges (h : (publication cfg).Reachable ok s) :
    (∀ t, ((s.versions.filter (·.1 = t)).map (·.2)).Pairwise (· > ·)) ∧
    (∀ put ∈ s.puts, put.ifMatch.getD 0 ≠ s.host.current.getD 0 → (s.host.put cfg put).1 = s.host) ∧
    ((∀ s a, ok s a → Steady cfg s a) → s.record.enabled →
      s.outcome = some .pushed ∨ s.outcome = some .unchanged →
      s.host.content = some (cfg.hashed s.guide s.record.salt)) :=
  ⟨(reachable_ordered h).versions, fun _ _ => put_of_ifMatch_ne,
    fun hok => (reachable_settled (h.mono hok)).answered⟩

section Reverted

def plainDigest : Config where
  server     := Server.lenient
  address    := "scout@a.example"
  hashed g _ := g
  digest     := id

def sealing : Sealing := { key := 0, keyId := "k", appKey := "app", wraps := [] }

def firstPush : List Action :=
  [.begin true, .register 0, .receive, .advance, .advance, .seal sealing, .send 0, .serve 3, .receive, .advance]

-- A push of a change that is lost on its way, and the next one.
theorem reachable_converges_retried : ∃ s, (publication plainDigest).Reachable (fun s a => Steady plainDigest s a) s ∧
    s.versions.length = 2 ∧ s.outcome = some .pushed ∧ s.host.content = some "Sign as Scout" := by
  have run : ((publication plainDigest).run (fun s a => Steady plainDigest s a) {} (firstPush ++
      [.change "Sign as Scout", .begin false, .seal sealing, .send 0, .giveUp, .advance,
        .begin false, .seal sealing, .send 0, .serve 5, .receive, .advance])).any
        fun s => s.versions.length = 2 ∧ s.record.enabled = true ∧ s.outcome = some .pushed ∧
          s.guide = "Sign as Scout" := by decide
  obtain ⟨s, hs, h⟩ := (Option.any_eq_true _ _).mp run
  obtain ⟨hv, he, ho, hg⟩ := of_decide_eq_true h
  have hr := System.Reachable.run (.start rfl) hs
  refine ⟨s, hr, hv, ho, ?_⟩
  rw [(reachable_converges hr).right.right (fun _ _ => id) he (.inl ho), hg]
  rfl

-- The server took a change, the app stopped before it wrote that down, and the change was taken back: the app
-- finds nothing to push, and the server goes on with the change.
theorem unchanged_after_crash : ¬∀ s, (publication plainDigest).Reachable (fun _ _ => True) s → s.record.enabled →
    s.outcome = some .pushed ∨ s.outcome = some .unchanged →
    s.host.content = some (plainDigest.hashed s.guide s.record.salt) := by
  intro claim
  have run : ((publication plainDigest).run (fun _ _ => True) {} (firstPush ++
      [.change "Sign as Scout", .begin false, .seal sealing, .send 0, .serve 4, .crash, .change "", .begin false])).any
        fun s => s.record.enabled = true ∧ s.outcome = some .unchanged ∧ s.guide = "" ∧
          s.host.content = some "Sign as Scout" := by decide
  obtain ⟨s, hs, h⟩ := (Option.any_eq_true _ _).mp run
  obtain ⟨he, ho, hg, hc⟩ := of_decide_eq_true h
  have := claim s (.run (.start rfl) hs) he (.inr ho)
  rw [hc, hg] at this
  exact absurd (Option.some.inj this) (by simp [plainDigest])

end Reverted

end Kaluta.Publish
