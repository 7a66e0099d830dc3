import Kaluta.Review.Learning

-- What is lost by stopping a background run: nothing, as long as no learning run is cancelled while the agent has its
-- batch, and a stopped review's pairs are given back in time.
namespace Kaluta.Review

variable {s : State} {l : Learning.State}

-- What holds of the review's pairs.
structure State.NothingLost (s : State) : Prop where
  marked   : ∀ p ∈ s.db.runPairs, p.done → ∃ ending, ending ≠ .dropped ∧ (p.runId, p.batch, ending) ∈ s.handled
  reviewed : ∀ c ∈ s.db.compositions, c.status = .reviewed → UNCHANGED < c.distance →
    ∃ p ∈ s.db.runPairs, p.compositionId = c.id ∧ p.done
  -- A pair that a run took waits for the next run, or a later run took it, or the run still has it: compared, or not
  -- yet compared and in progress, or about to be given back.
  offered  : ∀ t ∈ s.taken, t.2 ∈ s.db.pairsToCompare s.db.compositions.rows.length ∨
    ∃ p ∈ s.db.runPairs, p.compositionId = t.2 ∧
      (t.1 < p.runId ∨ p.runId = t.1 ∧ (p.done ∨ s.db.Active t.1 ∨ s.Releasing t.1))
  once     : ∀ t ∈ s.compared, ∀ t' ∈ s.compared, t.2 = t'.2 → t.1 = t'.1

-- And of the mail that learning runs analyse.
structure Learning.State.NothingLost (l : Learning.State) : Prop where
  marked   : ∀ m ∈ l.db.runMessages, m.done → ∃ ending, ending.isThrough ∧ (m.runId, m.batch, ending) ∈ l.handled
  offered  : ∀ row ∈ l.db.sent, (∃ m ∈ l.db.runMessages, m.messageId = row.messageId ∧ m.done) ∨
    row.messageId ∈ l.db.runSample { kind := .latest, count := l.db.sent.length }

theorem pairsToCompare_all {db : Db} {c : Composition} (hc : c ∈ db.compositions) (h : db.isToCompare c) :
    c.id ∈ db.pairsToCompare db.compositions.rows.length := by
  rw [Db.pairsToCompare, List.take_of_length_le]
  · exact List.mem_map_of_mem ((List.mem_insertionSort _).mpr (List.mem_filter.mpr ⟨hc, h⟩))
  · rw [List.length_map, List.length_insertionSort]
    exact List.length_filter_le _ _

theorem State.Kept.nothingLost (h : s.Kept) (hh : s.db.Held) : s.NothingLost where
  marked p hp hd := by
    obtain ⟨ending, he⟩ := h.handled p hp hd
    exact ⟨ending, h.ending _ he, he⟩
  reviewed := h.reviewed
  offered t ht := by
    obtain ⟨_, later, c, hc, hid, hdist, hst⟩ := h.taken t ht
    by_cases hp : ∃ p ∈ s.db.runPairs, p.compositionId = t.2
    case pos =>
      obtain ⟨p, hp, hpid⟩ := hp
      refine .inr ⟨p, hp, hpid, (later p hp hpid).lt_or_eq.imp_right fun heq => ⟨heq.symm, ?_⟩⟩
      by_cases hd : p.done
      case pos => exact .inl hd
      case neg => exact .inr (heq ▸ h.stopped p hp (by simpa using hd))
    case neg =>
      have matched : c.status = .matched := by
        refine hst.resolve_right fun hr => hp ?_
        obtain ⟨p, hp, hpid, _⟩ := h.reviewed c hc hr hdist
        exact ⟨p, hp, hpid.trans hid⟩
      refine .inl (hid ▸ pairsToCompare_all hc (decide_eq_true ⟨matched, hdist, fun p hm heq => hp ?_⟩))
      exact ⟨p, hm, heq.trans hid⟩
  once t ht t' ht' heq := by
    obtain ⟨p, hp, hr, hid, _⟩ := h.compared t ht
    obtain ⟨p', hp', hr', hid', _⟩ := h.compared t' ht'
    rw [← hr, ← hr', hh.once p hp p' hp' (hid.trans (heq.trans hid'.symm))]

theorem kept_start : State.Kept {} where
  handled p hp    := absurd hp (Table.not_mem_empty (a := p))
  ending          := nofun
  finishing       := nofun
  reviewed c hc   := absurd hc (Table.not_mem_empty (a := c))
  stopped p hp    := absurd hp (Table.not_mem_empty (a := p))
  through         := by simp
  calls           := nofun
  taken           := nofun
  compared        := nofun

section Stopped

def asked : List Learning.Action :=
  [.send { messageId := "m1", date := 1 }, .start { kind := .latest, count := 10 }, .go 0 true, .go 0 true, .advance,
    .ready true fun _ => true]

end Stopped

end Kaluta.Review
