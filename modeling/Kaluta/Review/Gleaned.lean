import Kaluta.Review.Glean

-- What the marker moves past was read, and nothing that it moved past is read again.
namespace Kaluta.Review.Glean

variable {s s' : State} {a : Action} {m : Message}

-- A message sent after gleaning began.
def State.Due (s : State) (m : Message) : Prop :=
  m.isLocal = false ∧ ∃ b ∈ s.began, b < m.time

instance : Decidable (s.Due m) :=
  inferInstanceAs (Decidable (_ ∧ _))

-- The marker, or what it is about to be while a review gleans.
def State.isPast (s : State) (t : Millis) : Bool :=
  s.gleanedUntil.any (t ≤ ·) || s.phase ≠ .idle && s.gleanUntil.any (t ≤ ·)

-- No message is stored that was sent up to the marker. Of the messages that are due, a review that gleans finds none
-- before the day that it looks back to; the bodies of those that it chooses are there; and it leaves none of the same
-- time as the last that it chooses.
def State.onTime (s : State) (a : Action) : Bool :=
  match a with
  | .store m            => m.isLocal || !s.began.any (· < m.time) || !s.isPast m.time
  | .glean _ startedAt  =>
    let began := s.began.getD startedAt
    let due (m : Message) : Bool := !m.isLocal && began < m.time
    s.messages.rows.all (fun m => !due m || s.gleanedUntil.isSome || s.since startedAt < m.time) &&
    (s.chosen startedAt).all (fun m => !due m || m.text.isSome) &&
    ((s.candidates startedAt).drop GLEAN_CAP).all fun m =>
      !due m || (s.chosen startedAt).getLast?.all (·.time < m.time)
  | _                   => true

def Phase.chosen : Phase → List Message
  | .idle                                                     => []
  | .asking _ chosen | .merging _ chosen | .writing _ chosen  => chosen

theorem isPast_of_marker {t u : Millis} (hu : u ∈ s.gleanedUntil) (h : t ≤ u) : s.isPast t := by
  simp [State.isPast, Option.mem_def.mp hu, h]

theorem isPast_of_pending {t u : Millis} (hp : s.phase ≠ .idle) (hu : u ∈ s.gleanUntil) (h : t ≤ u) : s.isPast t := by
  simp [State.isPast, Option.mem_def.mp hu, h, hp]

theorem mem_sentSince {since : Millis} :
    m ∈ s.sentSince since ↔ m ∈ s.messages ∧ since ≤ m.time ∧ m.isLocal = false := by
  simp [State.sentSince, Table.mem_rows]

theorem mem_candidates {startedAt : Millis} :
    m ∈ s.candidates startedAt ↔ m ∈ s.messages ∧ s.since startedAt < m.time ∧ m.isLocal = false := by
  rw [State.candidates, mem_sentSince, Int.add_one_le_iff]

theorem candidates_sorted (s : State) (startedAt : Millis) :
    (s.candidates startedAt).Pairwise (·.time ≤ ·.time) :=
  List.pairwise_insertionSort _ _

-- What is chosen is no later than the last of it, and what is left is no earlier.
theorem le_last {startedAt u : Millis} (hu : ((s.chosen startedAt).getLast?.map (·.time)) = some u)
    (hm : m ∈ s.chosen startedAt) : m.time ≤ u := by
  obtain ⟨l, hl, rfl⟩ := Option.map_eq_some_iff.mp hu
  have sorted : (s.chosen startedAt).Pairwise (·.time ≤ ·.time) := (candidates_sorted s startedAt).take
  obtain ⟨front, hf⟩ := List.getLast?_eq_some_iff.mp hl
  rw [hf] at sorted hm
  rcases List.mem_append.mp hm with hm | hm
  · exact (List.pairwise_append.mp sorted).right.right m hm l (List.mem_singleton_self l)
  · exact (List.mem_singleton.mp hm) ▸ le_refl _

-- The readings that are due and up to a time were read, or are about to be.
structure State.Read (s : State) : Prop where
  marked  : ∀ u ∈ s.gleanedUntil, ∀ m ∈ s.messages, s.Due m → m.time ≤ u → m.reading ∈ s.read
  pending : s.phase ≠ .idle → ∀ u ∈ s.gleanUntil, ∀ m ∈ s.messages, s.Due m → m.time ≤ u →
    m.reading ∈ s.read ∨ (∃ run, s.phase = .asking run s.phase.chosen) ∧ m.reading ∈ readings s.phase.chosen
  ahead   : ∀ u ∈ s.gleanUntil, ∀ u' ∈ s.gleanedUntil, u' < u
  later   : ∀ u ∈ s.gleanedUntil, ∀ m ∈ s.phase.chosen, u < m.time
  upTo    : s.phase.chosen ≠ [] → ∃ u ∈ s.gleanUntil, ∀ m ∈ s.phase.chosen, m.time ≤ u
  passed  : ∀ r ∈ s.passed, ∃ u ∈ s.gleanedUntil, r.2 ≤ u
  once    : s.passed.Nodup
  begun   : s.gleanedUntil.isSome ∨ s.gleanUntil.isSome → s.began.isSome
  chosen  : (s.phase.chosen.map (·.reading)).Nodup

theorem mem_readings {cs : List Message} (hm : m ∈ cs) (ht : m.text.isSome) : m.reading ∈ readings cs :=
  List.mem_map_of_mem (List.mem_filter.mpr ⟨hm, ht⟩)

theorem chosen_nodup (s : State) (startedAt : Millis) : ((s.chosen startedAt).map (·.reading)).Nodup := by
  refine List.Nodup.of_map Prod.fst ?_
  rw [List.map_map]
  have perm : ((s.candidates startedAt).map (·.messageId)).Nodup :=
    ((List.perm_insertionSort _ _).map _).nodup_iff.mpr ((List.filter_sublist.map _).nodup s.messages.nodup)
  exact ((List.take_sublist _ _).map _).nodup perm

theorem since_eq {startedAt : Millis} (h : s.gleanedUntil = some u) : s.since startedAt = u := by
  simp [State.since, h]

namespace State.Read

-- The mail changes, and what is new in it was not sent up to the marker.
theorem mail (h : s.Read) (hs : s' = { s with messages := messages' })
    (old : ∀ m ∈ messages', (∃ m₀ ∈ s.messages, m₀.reading = m.reading ∧ m₀.isLocal = m.isLocal) ∨
      (s.Due m → s.isPast m.time = false)) : s'.Read := by
  subst hs
  have due {m m₀ : Message} (hr : m₀.reading = m.reading) (hl : m₀.isLocal = m.isLocal) (hd : s.Due m) : s.Due m₀ := by
    have ht : m₀.time = m.time := congrArg Prod.snd hr
    rwa [State.Due, hl, ht]
  refine ⟨fun u hu m hm hd hle => ?_, fun hp u hu m hm hd hle => ?_, h.ahead, h.later, h.upTo, h.passed, h.once, h.begun,
    h.chosen⟩
  · rcases old m hm with ⟨m₀, hm₀, hr, hl⟩ | hn
    · have ht : m₀.time = m.time := congrArg Prod.snd hr
      exact hr ▸ h.marked u hu m₀ hm₀ (due hr hl hd) (ht.symm ▸ hle)
    · have past : s.isPast m.time := isPast_of_marker hu hle
      rw [hn hd] at past
      cases past
  · rcases old m hm with ⟨m₀, hm₀, hr, hl⟩ | hn
    · have ht : m₀.time = m.time := congrArg Prod.snd hr
      exact hr ▸ h.pending hp u hu m₀ hm₀ (due hr hl hd) (ht.symm ▸ hle)
    · have past : s.isPast m.time := isPast_of_pending hp hu hle
      rw [hn hd] at past
      cases past

theorem stored (h : s.Read) (m : Message) (ok : s.onTime (.store m)) :
    { s with messages := s.messages.insertOrIgnore m }.Read := by
  refine h.mail rfl fun x hx => ?_
  rcases Table.mem_of_mem_insertOrIgnore hx with hx | rfl
  · exact .inl ⟨x, hx, rfl, rfl⟩
  · refine .inr fun ⟨hl, b, hb, hlt⟩ => ?_
    rw [Option.mem_def] at hb
    simpa [State.onTime, hl, hb, hlt] using ok

theorem gleaned (h : s.Read) (run : RunId) (startedAt : Millis) (ok : s.onTime (.glean run startedAt)) :
    (s.glean run startedAt).Read := by
  rw [State.glean]
  split
  case isTrue  => exact h
  case isFalse =>
    have ⟨hfirst, hleft⟩ := Bool.and_eq_true_iff.mp ok
    have ⟨hday, hbodies⟩ := Bool.and_eq_true_iff.mp hfirst
    have due {m : Message} (hl : m.isLocal = false) (hb : s.began.getD startedAt < m.time) :
        (!m.isLocal && decide (s.began.getD startedAt < m.time)) = true := by simp [hl, hb]
    -- A message that is due and up to the new time was read before, or is chosen with its words.
    have reads : ∀ u ∈ ((s.chosen startedAt).getLast?.map Message.time).or s.gleanUntil, ∀ m ∈ s.messages,
        m.isLocal = false → s.began.getD startedAt < m.time → m.time ≤ u →
        m.reading ∈ s.read ∨ m.reading ∈ readings (s.chosen startedAt) := by
      intro u hu m hm hl hb hle
      by_cases hsince : s.since startedAt < m.time
      case pos =>
        have hc : m ∈ s.candidates startedAt := mem_candidates.mpr ⟨hm, hsince, hl⟩
        rw [← List.take_append_drop GLEAN_CAP (s.candidates startedAt)] at hc
        rcases List.mem_append.mp hc with hc | hc
        · refine .inr (mem_readings hc ?_)
          simpa [due hl hb, hl, hb] using List.all_eq_true.mp hbodies m hc
        · have hlast := List.all_eq_true.mp hleft m hc
          cases hg : (s.chosen startedAt).getLast?
          case none =>
            have hempty : s.chosen startedAt = [] := List.getLast?_eq_none_iff.mp hg
            have : s.candidates startedAt = [] := by
              rw [State.chosen, List.take_eq_nil_iff] at hempty
              exact hempty.resolve_left (by decide)
            rw [this] at hc
            simp at hc
          case some l =>
            have hul : l.time = u := by simpa [hg] using hu
            have : l.time < m.time := by simpa [hl, hb, hg] using hlast
            exact absurd (hul ▸ this) (not_lt_of_ge hle)
      case neg =>
        have hall := List.all_eq_true.mp hday m hm
        cases hg : s.gleanedUntil
        case none      => simp [hl, hb, hg, hsince] at hall
        case some mark =>
          obtain ⟨b, hbegan⟩ := Option.isSome_iff_exists.mp (h.begun (.inl (by simp [hg])))
          refine .inl (h.marked mark hg m hm ⟨hl, b, hbegan, ?_⟩ ?_)
          · simpa [hbegan] using hb
          · exact since_eq hg ▸ not_lt.mp hsince
    have marked : ∀ u ∈ s.gleanedUntil, ∀ m ∈ s.messages, m.isLocal = false → s.began.getD startedAt < m.time →
        m.time ≤ u → m.reading ∈ s.read := by
      intro u hu m hm hl hb hle
      obtain ⟨b, hbegan⟩ := Option.isSome_iff_exists.mp (h.begun (.inl (by simp [Option.mem_def.mp hu])))
      exact h.marked u hu m hm ⟨hl, b, hbegan, by simpa [hbegan] using hb⟩ hle
    have ahead : ∀ u ∈ ((s.chosen startedAt).getLast?.map Message.time).or s.gleanUntil, ∀ u' ∈ s.gleanedUntil,
        u' < u := by
      intro u hu u' hu'
      cases hg : (s.chosen startedAt).getLast?
      case none   => exact h.ahead u (by simpa [hg] using hu) u' hu'
      case some l =>
        obtain rfl : l.time = u := by simpa [hg] using hu
        have := (mem_candidates.mp (List.mem_of_mem_take (List.mem_of_getLast? hg))).right.left
        rwa [since_eq hu'] at this
    have later : ∀ u ∈ s.gleanedUntil, ∀ m ∈ s.chosen startedAt, u < m.time := by
      intro u hu m hm
      have := (mem_candidates.mp (List.mem_of_mem_take hm)).right.left
      rwa [since_eq hu] at this
    have upTo : s.chosen startedAt ≠ [] → ∃ u ∈ ((s.chosen startedAt).getLast?.map Message.time).or s.gleanUntil,
        ∀ m ∈ s.chosen startedAt, m.time ≤ u := by
      intro hne
      refine ⟨((s.chosen startedAt).getLast hne).time, by simp [List.getLast?_eq_some_getLast hne], fun m hm => ?_⟩
      exact le_last (by simp [List.getLast?_eq_some_getLast hne]) hm
    dsimp only
    split
    case isTrue =>
      refine ⟨fun u hu m hm ⟨hl, b, hb, hlt⟩ hle => ?_, fun _ u hu m hm ⟨hl, b, hb, hlt⟩ hle => ?_, ahead, later, upTo,
        h.passed, h.once, fun _ => rfl, chosen_nodup s startedAt⟩
      · exact marked u hu m hm hl (Option.some.inj hb ▸ hlt) hle
      · exact (reads u hu m hm hl (Option.some.inj hb ▸ hlt) hle).imp_right fun hr => ⟨⟨run, rfl⟩, hr⟩
    case isFalse =>
      refine ⟨fun u hu m hm ⟨hl, b, hb, hlt⟩ hle => ?_, fun _ u hu m hm ⟨hl, b, hb, hlt⟩ hle => ?_, ahead, later, upTo,
        h.passed, h.once, fun _ => rfl, chosen_nodup s startedAt⟩
      · exact List.mem_append_right _ (marked u hu m hm hl (Option.some.inj hb ▸ hlt) hle)
      · refine .inl (List.mem_append.mpr ?_)
        exact (reads u hu m hm hl (Option.some.inj hb ▸ hlt) hle).symm

theorem answered {run : RunId} {chosen : List Message} {phase : Phase} (h : s.Read) (hp : s.phase = .asking run chosen)
    (hs : s' = { s with phase, read := readings chosen ++ s.read })
    (phase' : phase = .merging run chosen ∨ phase = .writing run chosen) : s'.Read := by
  subst hs
  have same : phase.chosen = s.phase.chosen := by rcases phase' with rfl | rfl <;> simp [hp, Phase.chosen]
  refine ⟨fun u hu m hm hd hle => List.mem_append_right _ (h.marked u hu m hm hd hle), fun _ u hu m hm hd hle => ?_,
    h.ahead, fun u hu m hm => h.later u hu m (same ▸ hm), fun hne => ?_, h.passed, h.once, h.begun, same ▸ h.chosen⟩
  · rcases h.pending (by simp [hp]) u hu m hm hd hle with hr | ⟨_, hr⟩
    · exact .inl (List.mem_append_right _ hr)
    · exact .inl (List.mem_append_left _ (by simpa [hp, Phase.chosen] using hr))
  · obtain ⟨u, hu, hle⟩ := h.upTo (same ▸ hne)
    exact ⟨u, hu, fun m hm => hle m (same ▸ hm)⟩

theorem merged {run : RunId} {chosen : List Message} (h : s.Read) (hp : s.phase = .merging run chosen) : { s with phase := .writing run chosen }.Read := by
  have same : (Phase.writing run chosen).chosen = s.phase.chosen := by simp [hp, Phase.chosen]
  refine ⟨h.marked, fun _ u hu m hm hd hle => ?_, h.ahead, fun u hu m hm => h.later u hu m (same ▸ hm), fun hne => ?_,
    h.passed, h.once, h.begun, same ▸ h.chosen⟩
  · refine .inl ((h.pending (by simp [hp]) u hu m hm hd hle).resolve_right fun ⟨⟨_, ha⟩, _⟩ => ?_)
    rw [hp] at ha
    cases ha
  · obtain ⟨u, hu, hle⟩ := h.upTo (same ▸ hne)
    exact ⟨u, hu, fun m hm => hle m (same ▸ hm)⟩

theorem written {run : RunId} {chosen : List Message} (h : s.Read) (hp : s.phase = .writing run chosen)
    (hs : s' = { s with
      phase := .idle, gleanUntil := none, gleanedRun := some run, gleans := s.gleans + 1
      gleanedUntil := s.gleanUntil.or s.gleanedUntil, passed := chosen.map (·.reading) ++ s.passed }) : s'.Read := by
  subst hs
  have hc : s.phase.chosen = chosen := by simp [hp, Phase.chosen]
  have hor : ∀ u ∈ s.gleanUntil.or s.gleanedUntil, u ∈ s.gleanUntil ∨ u ∈ s.gleanedUntil := by
    intro u hu
    cases hg : s.gleanUntil
    case none   => exact .inr (by simpa [hg] using hu)
    case some _ => exact .inl (by simpa [hg] using hu)
  refine ⟨fun u hu m hm hd hle => ?_, fun hne => absurd rfl hne, nofun, nofun, fun hne => absurd rfl hne, fun r hr => ?_, ?_,
    fun hu => ?_, List.nodup_nil⟩
  · rcases hor u hu with hu | hu
    · refine (h.pending (by simp [hp]) u hu m hm hd hle).resolve_right fun ⟨⟨_, ha⟩, _⟩ => ?_
      rw [hp] at ha
      cases ha
    · exact h.marked u hu m hm hd hle
  · rcases List.mem_append.mp hr with hr | hr
    · obtain ⟨m, hm, rfl⟩ := List.mem_map.mp hr
      obtain ⟨u, hu, hle⟩ := h.upTo (hc.symm ▸ List.ne_nil_of_mem hm)
      exact ⟨u, by simp [Option.mem_def.mp hu], hle m (hc.symm ▸ hm)⟩
    · obtain ⟨u, hu, hle⟩ := h.passed r hr
      cases hg : s.gleanUntil
      case none    => exact ⟨u, by simpa [hg] using hu, hle⟩
      case some u' => exact ⟨u', by simp, hle.trans (h.ahead u' hg u hu).le⟩
  · refine List.nodup_append.mpr ⟨hc ▸ h.chosen, h.once, fun r hr r' hr' heq => ?_⟩
    obtain ⟨m, hm, rfl⟩ := List.mem_map.mp hr
    obtain ⟨u, hu, hle⟩ := h.passed r' hr'
    rw [← heq] at hle
    exact absurd hle (not_le_of_gt (h.later u hu m (hc.symm ▸ hm)))
  · refine h.begun ?_
    rcases hu with hu | hu
    · simpa [Bool.or_eq_true, or_comm] using hu
    · cases hu

-- The review is given up, or the app stops.
theorem stopped {gleanUntil : Option Millis} (h : s.Read) (hs : s' = { s with phase := .idle, gleanUntil }) (hg : gleanUntil = s.gleanUntil ∨
    gleanUntil = none) : s'.Read := by
  subst hs
  refine ⟨h.marked, fun hne => absurd rfl hne, fun u hu => ?_, nofun, fun hne => absurd rfl hne, h.passed, h.once,
    fun hu => ?_, List.nodup_nil⟩
  · rcases hg with rfl | rfl
    · exact h.ahead u hu
    · cases hu
  · rcases hg with rfl | rfl
    · exact h.begun hu
    · exact h.begun (hu.imp_right nofun)

end State.Read

theorem step_read (h : s.Read) (ok : s.onTime a) (hs : s.step a = some s') : s'.Read := by
  cases a <;> simp only [State.step, Option.some.injEq] at hs
  case store m     => exact hs ▸ h.stored m ok
  case remove id   => exact h.mail hs.symm fun x hx => .inl ⟨x, (Table.mem_delete.mp hx).left, rfl, rfl⟩
  case body id text =>
    refine h.mail hs.symm fun x hx => .inl ?_
    rcases Table.mem_update.mp hx with ⟨hx, _⟩ | ⟨x₀, hx₀, _, rfl⟩
    · exact ⟨x, hx, rfl, rfl⟩
    · exact ⟨x₀, hx₀, rfl, rfl⟩
  case glean run startedAt =>
    split at hs <;> cases hs
    case h_1 => exact h.gleaned run startedAt ok
  case answer readable =>
    split at hs <;> cases hs
    case h_1 run chosen hp => exact h.answered hp rfl (by cases readable <;> simp)
  case merge =>
    split at hs <;> cases hs
    case h_1 hp => exact h.merged hp
  case write =>
    split at hs <;> cases hs
    case h_1 hp => exact h.written hp rfl
  case fail  => exact h.stopped hs.symm (.inl rfl)
  case crash => exact h.stopped hs.symm (.inr rfl)

theorem read_start : State.Read {} where
  marked  := nofun
  pending := nofun
  ahead   := nofun
  later   := nofun
  upTo h  := absurd rfl h
  passed  := nofun
  once    := List.nodup_nil
  begun   := nofun
  chosen  := List.nodup_nil

-- The marker does not go back, and a step reads only what is later than the marker.
theorem step_marker (h : s.Read) (hs : s.step a = some s') {u : Millis} (hu : u ∈ s.gleanedUntil) :
    (∃ u' ∈ s'.gleanedUntil, u ≤ u') ∧ ∃ new, s'.read = new ++ s.read ∧ ∀ r ∈ new, u < r.2 := by
  have none' : ∃ new, s.read = new ++ s.read ∧ ∀ r ∈ new, u < r.2 := ⟨[], rfl, nofun⟩
  have some' {cs : List Message} (hcs : ∀ m ∈ cs, u < m.time) :
      ∃ new, readings cs ++ s.read = new ++ s.read ∧ ∀ r ∈ new, u < r.2 := by
    refine ⟨_, rfl, fun r hr => ?_⟩
    obtain ⟨m, hm, rfl⟩ := List.mem_map.mp hr
    exact hcs m (List.mem_filter.mp hm).left
  cases a <;> simp only [State.step, Option.some.injEq] at hs
  case glean run startedAt =>
    split at hs <;> cases hs
    have later : ∀ m ∈ s.chosen startedAt, u < m.time := fun m hm => by
      have := (mem_candidates.mp (List.mem_of_mem_take hm)).right.left
      rwa [since_eq hu] at this
    simp only [State.glean]
    split
    · exact ⟨⟨u, hu, le_rfl⟩, none'⟩
    · split
      · exact ⟨⟨u, hu, le_rfl⟩, none'⟩
      · exact ⟨⟨u, hu, le_rfl⟩, some' later⟩
  case answer readable =>
    split at hs <;> cases hs
    case h_1 hp => exact ⟨⟨u, hu, le_rfl⟩, some' fun m hm => h.later u hu m (by simpa [hp, Phase.chosen] using hm)⟩
  case merge => split at hs <;> cases hs; exact ⟨⟨u, hu, le_rfl⟩, none'⟩
  case write =>
    split at hs <;> cases hs
    refine ⟨?_, none'⟩
    cases hg : s.gleanUntil
    case none    => exact ⟨u, by simpa using hu, le_rfl⟩
    case some u' => exact ⟨u', by simp, (h.ahead u' hg u hu).le⟩
  all_goals exact hs ▸ ⟨⟨u, hu, le_rfl⟩, none'⟩

section Progress

-- The message stays in the store.
def Action.keeps (a : Action) (id : MessageId) : Bool :=
  match a with
  | .remove id' => id' ≠ id
  | _           => true

-- What the marker passed, up to a time.
def State.passedUpTo (s : State) (t : Millis) : Nat :=
  s.passed.countP (·.2 ≤ t)

-- A message that was there when so many reviews had gleaned: it was read, or each of those that gleaned since moved
-- the marker past another message that is no later. The one under way may have begun before.
structure State.Waits (s : State) (m : Message) (gleans : Nat) : Prop where
  stored : ∃ m' ∈ s.messages, m'.reading = m.reading ∧ s.Due m'
  bound  : m.reading ∈ s.read ∨ s.gleans ≤ gleans + s.passedUpTo m.time ∨
    s.gleans ≤ gleans + 1 + s.passedUpTo m.time ∧
    (s.phase = .idle ∨ s.phase.chosen ≠ [] ∧ (∀ x ∈ s.phase.chosen, x.time ≤ m.time) ∨
      (∃ run, s.phase = .asking run s.phase.chosen) ∧ m.reading ∈ readings s.phase.chosen)

variable {gleans : Nat}

theorem State.Waits.glean (h : s.Waits m gleans) (hr : s.Read) (run : RunId) (startedAt : Millis)
    (ok : s.onTime (.glean run startedAt)) : (s.glean run startedAt).Waits m gleans := by
  have after := hr.gleaned run startedAt ok
  rw [State.glean] at after ⊢
  split
  case isTrue => exact h
  case isFalse hnew =>
    simp only [hnew, if_false] at after
    obtain ⟨m', hm', hread, hl, b, hb, hlt⟩ := h.stored
    have htime : m'.time = m.time := congrArg Prod.snd hread
    rw [Option.mem_def] at hb
    have due : s.began.getD startedAt < m'.time := by simpa [hb] using hlt
    have ⟨hfirst, _⟩ := Bool.and_eq_true_iff.mp ok
    have ⟨hday, hbodies⟩ := Bool.and_eq_true_iff.mp hfirst
    have less : s.gleans ≤ gleans + 1 + s.passedUpTo m.time ∨ m.reading ∈ s.read := by
      rcases h.bound with hb | hb | hb
      · exact .inr hb
      · exact .inl (by omega)
      · exact .inl hb.left
    -- It was read, or it is chosen, or what is chosen is no later.
    have cases' : m.reading ∈ s.read ∨ m.reading ∈ readings (s.chosen startedAt) ∨
        s.chosen startedAt ≠ [] ∧ ∀ x ∈ s.chosen startedAt, x.time ≤ m.time := by
      by_cases hsince : s.since startedAt < m'.time
      case neg =>
        have hall := List.all_eq_true.mp hday m' hm'
        cases hg : s.gleanedUntil
        case none      => simp [hl, due, hg, hsince] at hall
        case some mark =>
          exact .inl (hread ▸ hr.marked mark hg m' hm' ⟨hl, b, hb, hlt⟩ (since_eq hg ▸ not_lt.mp hsince))
      case pos =>
        have hc : m' ∈ s.candidates startedAt := mem_candidates.mpr ⟨hm', hsince, hl⟩
        have sorted := candidates_sorted s startedAt
        rw [← List.take_append_drop GLEAN_CAP (s.candidates startedAt)] at hc sorted
        rcases List.mem_append.mp hc with hc | hc
        · refine .inr (.inl (hread ▸ mem_readings hc ?_))
          simpa [hl, due] using List.all_eq_true.mp hbodies m' hc
        · refine .inr (.inr ⟨fun hnil => ?_, fun x hx => ?_⟩)
          · rw [State.chosen, List.take_eq_nil_iff] at hnil
            rw [hnil.resolve_left (by decide)] at hc
            simp at hc
          · exact htime ▸ (List.pairwise_append.mp sorted).right.right x hx m' hc
    dsimp only
    split
    case isTrue =>
      refine ⟨⟨m', hm', hread, hl, b, by simp [hb], hlt⟩, ?_⟩
      rcases less with less | less
      · rcases cases' with hr | hr | hr
        · exact .inl hr
        · exact .inr (.inr ⟨less, .inr (.inr ⟨⟨run, rfl⟩, hr⟩)⟩)
        · exact .inr (.inr ⟨less, .inr (.inl hr)⟩)
      · exact .inl less
    case isFalse =>
      refine ⟨⟨m', hm', hread, hl, b, by simp [hb], hlt⟩, ?_⟩
      rcases less with less | less
      · rcases cases' with hr | hr | hr
        · exact .inl (List.mem_append_right _ hr)
        · exact .inl (List.mem_append_left _ hr)
        · exact .inr (.inr ⟨less, .inr (.inl hr)⟩)
      · exact .inl (List.mem_append_right _ less)

-- A step within a review, or beside it.
theorem State.Waits.frame (h : s.Waits m gleans)
    (stored : ∀ x ∈ s.messages, x.messageId = m.messageId →
      ∃ x' ∈ s'.messages, x'.reading = x.reading ∧ x'.isLocal = x.isLocal)
    (began : s'.began = s.began) (read : s.read ⊆ s'.read) (count : s'.gleans = s.gleans) (passed : s'.passed = s.passed)
    (phase : s'.phase = .idle ∨ s'.phase.chosen = s.phase.chosen ∧ s.phase ≠ .idle ∧
      (m.reading ∈ readings s.phase.chosen → (∃ run, s.phase = .asking run s.phase.chosen) →
        m.reading ∈ s'.read ∨ s'.phase = s.phase)) : s'.Waits m gleans := by
  obtain ⟨m', hm', hread, hl, b, hb, hlt⟩ := h.stored
  obtain ⟨x, hx, hr, hl'⟩ := stored m' hm' (congrArg Prod.fst hread)
  have ht : x.time = m'.time := congrArg Prod.snd hr
  refine ⟨⟨x, hx, hr.trans hread, hl'.trans hl, b, by rwa [began], ht ▸ hlt⟩, ?_⟩
  rw [State.passedUpTo, count, passed]
  rcases h.bound with hread | hb | ⟨hb, hp⟩
  · exact .inl (read hread)
  · exact .inr (.inl hb)
  · rcases phase with hi | ⟨hc, hne, hask⟩
    · exact .inr (.inr ⟨hb, .inl hi⟩)
    · rcases hp with hi | hch | ⟨hrun, hm⟩
      · exact absurd hi hne
      · exact .inr (.inr ⟨hb, .inr (.inl (hc.symm ▸ hch))⟩)
      · rcases hask hm hrun with hr | hs
        · exact .inl hr
        · exact .inr (.inr ⟨hb, .inr (.inr (by rw [hs]; exact ⟨hrun, hm⟩))⟩)

theorem State.Waits.written {run : RunId} {chosen : List Message} (h : s.Waits m gleans)
    (hp : s.phase = .writing run chosen)
    (hs : s' = { s with
      phase := .idle, gleanUntil := none, gleanedRun := some run, gleans := s.gleans + 1
      gleanedUntil := s.gleanUntil.or s.gleanedUntil, passed := chosen.map (·.reading) ++ s.passed }) :
    s'.Waits m gleans := by
  subst hs
  refine ⟨h.stored, ?_⟩
  have hc : s.phase.chosen = chosen := by simp [hp, Phase.chosen]
  have more : State.passedUpTo { s with passed := chosen.map (·.reading) ++ s.passed } m.time =
      (chosen.map (·.reading)).countP (·.2 ≤ m.time) + s.passedUpTo m.time := List.countP_append
  rcases h.bound with hread | hb | ⟨hb, hi | ⟨hne, hle⟩ | ⟨⟨_, ha⟩, _⟩⟩
  · exact .inl hread
  · refine .inr (.inr ⟨?_, .inl rfl⟩)
    change s.gleans + 1 ≤ gleans + 1 + State.passedUpTo { s with passed := chosen.map (·.reading) ++ s.passed } m.time
    omega
  · rw [hp] at hi; cases hi
  · refine .inr (.inr ⟨?_, .inl rfl⟩)
    rw [hc] at hne hle
    have : 0 < (chosen.map (·.reading)).countP (·.2 ≤ m.time) := by
      obtain ⟨x, hx⟩ := List.exists_mem_of_ne_nil chosen hne
      exact List.countP_pos_iff.mpr ⟨x.reading, List.mem_map_of_mem hx, decide_eq_true (hle x hx)⟩
    change s.gleans + 1 ≤ gleans + 1 + State.passedUpTo { s with passed := chosen.map (·.reading) ++ s.passed } m.time
    omega
  · rw [hp] at ha; cases ha

theorem step_waits (h : s.Waits m gleans) (hr : s.Read) (ok : s.onTime a) (keeps : a.keeps m.messageId)
    (hs : s.step a = some s') : s'.Waits m gleans := by
  have beside : s.phase = .idle ∨ s.phase.chosen = s.phase.chosen ∧ s.phase ≠ .idle ∧
      (m.reading ∈ readings s.phase.chosen → (∃ run, s.phase = .asking run s.phase.chosen) →
        m.reading ∈ s.read ∨ s.phase = s.phase) := by
    by_cases hi : s.phase = .idle
    case pos => exact .inl hi
    case neg => exact .inr ⟨rfl, hi, fun _ _ => .inr rfl⟩
  have same : ∀ x ∈ s.messages, x.messageId = m.messageId →
      ∃ x' ∈ s.messages, x'.reading = x.reading ∧ x'.isLocal = x.isLocal := fun x hx _ => ⟨x, hx, rfl, rfl⟩
  cases a <;> simp only [State.step, Option.some.injEq] at hs
  case store x =>
    subst hs
    exact h.frame (fun y hy _ => ⟨y, Table.mem_insertOrIgnore.mpr (.inl hy), rfl, rfl⟩) rfl (List.Subset.refl _) rfl rfl
      beside
  case remove id =>
    subst hs
    refine h.frame (fun y hy hid => ⟨y, Table.mem_delete.mpr ⟨hy, ?_⟩, rfl, rfl⟩) rfl (List.Subset.refl _) rfl rfl beside
    have : id ≠ m.messageId := of_decide_eq_true keeps
    simpa [hid] using this.symm
  case body id text =>
    subst hs
    refine h.frame (fun y hy _ => ?_) rfl (List.Subset.refl _) rfl rfl beside
    refine Table.exists_mem_update (p := (·.messageId = id)) (f := ({ · with text := some text })) (fun _ => rfl) hy
      (P := fun y' => y'.reading = y.reading ∧ y'.isLocal = y.isLocal) ?_
    split <;> exact ⟨rfl, rfl⟩
  case glean run startedAt =>
    split at hs <;> cases hs
    case h_1 => exact h.glean hr run startedAt ok
  case answer readable =>
    split at hs <;> cases hs
    case h_1 run chosen hp =>
      refine h.frame same rfl (List.subset_append_right _ _) rfl rfl (.inr ⟨?_, by simp [hp], fun hm _ => .inl ?_⟩)
      · cases readable <;> simp [hp, Phase.chosen]
      · exact List.mem_append_left _ (by simpa [hp, Phase.chosen] using hm)
  case merge =>
    split at hs <;> cases hs
    case h_1 hp =>
      refine h.frame same rfl (List.Subset.refl _) rfl rfl (.inr ⟨by simp [hp, Phase.chosen], by simp [hp], ?_⟩)
      rintro _ ⟨_, ha⟩
      rw [hp] at ha
      cases ha
  case write =>
    split at hs <;> cases hs
    case h_1 hp => exact h.written hp rfl
  case fail  => exact hs ▸ h.frame same rfl (List.Subset.refl _) rfl rfl (.inl rfl)
  case crash => exact hs ▸ h.frame same rfl (List.Subset.refl _) rfl rfl (.inl rfl)

end Progress

-- Along runs in which nothing is stored behind the marker, and no review cuts what it reads between two messages of
-- one time, what the marker moved past was read, and is not read again; and a message that stays in the store is read
-- by the time that more reviews have gleaned than the marker passed messages no later than it.
theorem reachable_gleaned (h : gleaning.Reachable (fun s a => s.onTime a) s) :
    (∀ u ∈ s.gleanedUntil, ∀ m ∈ s.messages, s.Due m → m.time ≤ u → m.reading ∈ s.read) ∧
    (∀ u ∈ s.gleanedUntil, ∀ s', gleaning.Leads (fun s a => s.onTime a) s s' →
      ∃ new, s'.read = new ++ s.read ∧ ∀ r ∈ new, u < r.2) ∧
    s.passed.Nodup ∧
    ∀ m ∈ s.messages, s.Due m → ∀ s', gleaning.Leads (fun s a => s.onTime a ∧ a.keeps m.messageId) s s' →
      m.reading ∈ s'.read ∨ s'.gleans ≤ s.gleans + 1 + s'.passedUpTo m.time := by
  have hr : s.Read := h.invariant (P := State.Read) (by rintro _ rfl; exact read_start)
    fun _ _ _ ih ok hs => step_read ih ok hs
  refine ⟨hr.marked, fun u hu s' hl => ?_, hr.once, fun m hm hd s' hl => ?_⟩
  · have := hl.invariant (P := fun t => t.Read ∧ (∃ u' ∈ t.gleanedUntil, u ≤ u') ∧
      ∃ new, t.read = new ++ s.read ∧ ∀ r ∈ new, u < r.2) ⟨hr, ⟨u, hu, le_rfl⟩, [], rfl, nofun⟩ ?_
    · exact this.right.right
    · rintro t a t' ⟨ht, ⟨u', hu', hle⟩, new, hnew, hlt⟩ ok hs
      obtain ⟨⟨u'', hu'', hle'⟩, new', hnew', hlt'⟩ := step_marker ht hs hu'
      refine ⟨step_read ht ok hs, ⟨u'', hu'', hle.trans hle'⟩, new' ++ new, ?_, fun r hr => ?_⟩
      · rw [hnew', hnew, List.append_assoc]
      · rcases List.mem_append.mp hr with hr | hr
        · exact lt_of_le_of_lt hle (hlt' r hr)
        · exact hlt r hr
  · have := hl.invariant (P := fun t => t.Read ∧ t.Waits m s.gleans)
      ⟨hr, ⟨m, hm, rfl, hd⟩, .inr (.inl (Nat.le_add_right _ _))⟩
      fun t a t' ⟨ht, hw⟩ ok hs => ⟨step_read ht ok.left hs, step_waits hw ht ok.left ok.right hs⟩
    rcases this.right.bound with hread | hb | hb
    · exact .inl hread
    · exact .inr (by omega)
    · exact .inr hb.left

section PassedOver

def sent (i : Nat) : Message :=
  { messageId := String.ofList (List.replicate i 'm'), time := 1, text := some "Call me on 555." }

-- The agent fails a first time, and the review is resumed.
theorem reachable_gleaned_resumed : ∃ s, gleaning.Reachable (fun s a => s.onTime a) s ∧ s.gleanedUntil = some 1 ∧
    (sent 1).reading ∈ s.read := by
  have run : (gleaning.run (fun s a => s.onTime a) {} [.store (sent 1), .glean 1 0, .fail, .glean 1 0, .answer true,
      .merge, .write]).any fun s => s.gleanedUntil = some 1 ∧ s.began = some 0 ∧ sent 1 ∈ s.messages.rows := by decide
  obtain ⟨s, hs, h⟩ := (Option.any_eq_true _ _).mp run
  obtain ⟨hu, hb, hm⟩ := of_decide_eq_true h
  have hr := System.Reachable.run (.start rfl) hs
  exact ⟨s, hr, hu, (reachable_gleaned hr).left 1 hu (sent 1) hm ⟨rfl, 0, hb, by decide⟩ le_rfl⟩

-- More messages of one time than a review reads.
theorem passed_over : ¬∀ s, gleaning.Reachable (fun _ _ => True) s →
    (∀ u ∈ s.gleanedUntil, ∀ m ∈ s.messages, s.Due m → m.time ≤ u → m.reading ∈ s.read) ∧
    (∀ u ∈ s.gleanedUntil, ∀ s', gleaning.Leads (fun _ _ => True) s s' →
      ∃ new, s'.read = new ++ s.read ∧ ∀ r ∈ new, u < r.2) ∧
    s.passed.Nodup ∧
    ∀ m ∈ s.messages, s.Due m → ∀ s', gleaning.Leads (fun _ a => a.keeps m.messageId) s s' →
      m.reading ∈ s'.read ∨ s'.gleans ≤ s.gleans + 1 + s'.passedUpTo m.time := by
  intro claim
  have run : (gleaning.run (fun _ _ => True) {} ((List.range 31).map (.store ∘ sent) ++
      [.glean 1 0, .answer true, .merge, .write])).any fun s =>
        s.gleanedUntil = some 1 ∧ s.began = some 0 ∧ sent 30 ∈ s.messages.rows ∧ (sent 30).reading ∉ s.read := by
    decide +kernel
  obtain ⟨s, hs, h⟩ := (Option.any_eq_true _ _).mp run
  obtain ⟨hu, hb, hm, hn⟩ := of_decide_eq_true h
  exact hn ((claim s (.run (.start rfl) hs)).left 1 hu (sent 30) hm ⟨rfl, 0, hb, by decide⟩ le_rfl)

end PassedOver

end Kaluta.Review.Glean
