import Kaluta.Agents.Session

-- The powers of an agent session do not widen, and when.
namespace Kaluta.Agents.Session

variable {s s' : State} {c c' : Start} {p f : Powers} {session : Nat}

-- Each tool call was judged with no more powers than its session was first started with.
def State.NeverWiden (s : State) : Prop :=
  ∀ j ∈ s.judged, ∃ f, s.first j.1 = some f ∧ j.2.Within f

-- What is resumed was started for the whole mailbox and not read-only; and the read-only mark of a session that
-- was started with one is not looked at while it is being started, or once it is closed.
def State.Cautious (s : State) : Action → Prop
  | .resume session => s.first session = some ⟨.mailbox, false⟩
  | .judge id       => ∀ call ∈ s.calls.rows, call.id = id → (s.first call.session).any Powers.readOnly →
      (∀ c ∈ s.starts.rows, c.session ≠ call.session) ∧ (s.sessions call.session).isSome
  | _               => True

instance (s : State) : DecidablePred s.Cautious
  | .resume _    => inferInstanceAs (Decidable (_ = _))
  | .judge _     => inferInstanceAs (Decidable (∀ call ∈ s.calls.rows, _ → _ → (∀ c ∈ s.starts.rows, _) ∧ _))
  | .start _ _   => inferInstanceAs (Decidable True)
  | .register _  => inferInstanceAs (Decidable True)
  | .store _ _   => inferInstanceAs (Decidable True)
  | .launch _    => inferInstanceAs (Decidable True)
  | .started _ _ => inferInstanceAs (Decidable True)
  | .mark _      => inferInstanceAs (Decidable True)
  | .prompt _    => inferInstanceAs (Decidable True)
  | .check _     => inferInstanceAs (Decidable True)
  | .close _     => inferInstanceAs (Decidable True)
  | .closed _    => inferInstanceAs (Decidable True)
  | .restart     => inferInstanceAs (Decidable True)

def Phase.launched : Phase → Bool
  | .starting | .marking => true
  | _                    => false

def Scope.Within (a b : Scope) : Prop :=
  ∀ thread, a.allows thread → b.allows thread

-- What is registered for a session that was first started with `f`: a read-only mark that is missing is to come,
-- or no tool call.
structure State.Registered (s : State) (session : Nat) (p f : Powers) : Prop where
  scope    : p.scope.Within f.scope
  readOnly : f.readOnly → p.readOnly ∨ (∃ c ∈ s.starts, c.session = session) ∨ session ∉ s.clis

structure State.Inv (s : State) : Prop where
  registered : ∀ session p, s.sessions session = some p → ∃ f, s.first session = some f ∧ s.Registered session p f
  starting   : ∀ c ∈ s.starts, s.first c.session = some ⟨scopeOf c.selection, c.readOnly⟩ ∧ c.id < s.nextId
  once       : ∀ c ∈ s.starts, ∀ c' ∈ s.starts, c.readOnly → c.session = c'.session → c = c'
  unlaunched : ∀ c ∈ s.starts, c.readOnly → c.phase.launched = false → c.session ∉ s.clis
  calls      : ∀ call ∈ s.calls, call.session ∈ s.clis ∧
    ∀ scope, call.checked = some scope → ∃ f, s.first call.session = some f ∧ scope.Within f.scope
  known      : ∀ session, (session ∈ s.clis ∨ (s.first session).isSome) → session < s.nextSession
  judged     : s.NeverWiden

namespace State

theorem mem_put (mem : c ∈ s.starts) {phase : Phase} : c' ∈ (s.put c phase).starts ↔
    (c' ∈ s.starts ∧ c' ≠ c) ∨ c' = { c with phase } := by
  unfold put
  rw [Table.mem_replace]
  exact or_congr_left (and_congr_right fun mem' => not_congr ⟨fun eq => Table.eq_of_key_eq mem' mem eq, congrArg Start.id⟩)

theorem mem_drop (mem : c ∈ s.starts) : c' ∈ (s.drop c).starts ↔ c' ∈ s.starts ∧ c' ≠ c := by
  unfold drop
  rw [Table.mem_delete, decide_eq_false_iff_not]
  exact and_congr_right fun mem' => not_congr ⟨fun eq => Table.eq_of_key_eq mem' mem eq, congrArg Start.id⟩

variable {t : State}

-- The parts that a step of a starting leaves alone.
structure Frame (s t : State) : Prop where
  first       : t.first = s.first
  calls       : t.calls = s.calls
  judged      : t.judged = s.judged
  nextSession : t.nextSession = s.nextSession
  nextId      : t.nextId = s.nextId

-- A starting goes on in another phase.
theorem Inv.put {phase : Phase} (h : s.Inv) (mem : c ∈ s.starts) (frame : Frame s t) (starts : t.starts = s.starts)
    (clis : ∀ session, session ∈ s.clis → session ∈ t.clis)
    (cli : ∀ session, session ∈ t.clis → session ∈ s.clis ∨ (session = c.session ∧ phase.launched = true))
    (own : phase.launched = false → c.phase.launched = false)
    (sessions : ∀ session p, t.sessions session = some p → s.sessions session = some p ∨
      (session = c.session ∧ p.scope = scopeOf c.selection)) : (t.put c phase).Inv := by
  have starting := h.starting c mem
  have still : ∀ session, (∃ c ∈ s.starts, c.session = session) → ∃ c' ∈ (t.put c phase).starts, c'.session = session := by
    rintro session ⟨c', mem', rfl⟩
    by_cases eq : c' = c
    case pos => exact ⟨_, (mem_put (starts ▸ mem)).mpr (.inr rfl), (congrArg Start.session eq).symm⟩
    case neg => exact ⟨c', (mem_put (starts ▸ mem)).mpr (.inl ⟨starts ▸ mem', eq⟩), rfl⟩
  have mem_iff {c'} : c' ∈ (t.put c phase).starts ↔ (c' ∈ s.starts ∧ c' ≠ c) ∨ c' = { c with phase } := by
    rw [mem_put (starts ▸ mem), starts]
  constructor
  case registered =>
    intro session p registered
    obtain kept | ⟨rfl, scope⟩ := sessions session p registered
    case inl =>
      obtain ⟨f, first, within⟩ := h.registered session p kept
      refine ⟨f, frame.first ▸ first, within.scope, fun marked => ?_⟩
      obtain mark | pending | none := within.readOnly marked
      · exact .inl mark
      · exact .inr (.inl (still session pending))
      · by_cases launched : session ∈ t.clis
        case neg => exact .inr (.inr launched)
        case pos =>
          obtain old | ⟨rfl, _⟩ := cli session launched
          · exact absurd old none
          · exact .inr (.inl (still _ ⟨c, mem, rfl⟩))
    case inr =>
      refine ⟨_, frame.first ▸ starting.1, fun thread => by rw [scope]; exact id, fun _ => ?_⟩
      exact .inr (.inl (still _ ⟨c, mem, rfl⟩))
  case starting =>
    intro c' mem'
    show t.first c'.session = _ ∧ c'.id < t.nextId
    rw [frame.first, frame.nextId]
    obtain ⟨mem', _⟩ | rfl := mem_iff.mp mem'
    · exact h.starting c' mem'
    · exact starting
  case once =>
    intro c₁ mem₁ c₂ mem₂ readOnly same
    obtain ⟨mem₁, ne₁⟩ | rfl := mem_iff.mp mem₁ <;> obtain ⟨mem₂, ne₂⟩ | rfl := mem_iff.mp mem₂
    · exact h.once c₁ mem₁ c₂ mem₂ readOnly same
    · exact absurd (h.once c₁ mem₁ c mem readOnly same) ne₁
    · exact absurd (h.once c mem c₂ mem₂ readOnly same).symm ne₂
    · rfl
  case unlaunched =>
    intro c' mem' readOnly before launched
    obtain ⟨mem', ne⟩ | rfl := mem_iff.mp mem'
    · obtain old | ⟨same, _⟩ := cli _ launched
      · exact h.unlaunched c' mem' readOnly before old
      · exact ne (h.once c' mem' c mem readOnly same)
    · obtain old | ⟨_, now⟩ := cli _ launched
      · exact h.unlaunched c mem readOnly (own before) old
      · exact absurd (before.symm.trans now) (by decide)
  case calls =>
    show ∀ call ∈ t.calls, call.session ∈ t.clis ∧ ∀ scope, call.checked = some scope → ∃ f, t.first _ = some f ∧ _
    rw [frame.calls, frame.first]
    exact fun call mem => ⟨clis _ (h.calls call mem).1, (h.calls call mem).2⟩
  case known =>
    show ∀ session, (session ∈ t.clis ∨ (t.first session).isSome) → session < t.nextSession
    rw [frame.first, frame.nextSession]
    rintro session (launched | first)
    · obtain old | ⟨rfl, _⟩ := cli session launched
      · exact h.known session (.inl old)
      · exact h.known _ (.inr (by rw [starting.1]; rfl))
    · exact h.known session (.inr first)
  case judged =>
    show ∀ j ∈ t.judged, ∃ f, t.first j.1 = some f ∧ _
    rw [frame.judged, frame.first]
    exact h.judged

-- A starting is over: its session is marked as it was started, is gone, or has no CLI.
theorem Inv.drop (h : s.Inv) (mem : c ∈ s.starts) (frame : Frame s t) (starts : t.starts = s.starts)
    (clis : t.clis = s.clis)
    (sessions : ∀ session p, t.sessions session = some p → ∃ p', s.sessions session = some p' ∧ p'.scope = p.scope ∧
      (p'.readOnly → p.readOnly))
    (own : ∀ p, t.sessions c.session = some p → c.readOnly → p.readOnly ∨ c.session ∉ s.clis) : (t.drop c).Inv := by
  have mem_iff {c'} : c' ∈ (t.drop c).starts ↔ c' ∈ s.starts ∧ c' ≠ c := by
    rw [mem_drop (starts ▸ mem), starts]
  constructor
  case registered =>
    intro session p registered
    obtain ⟨p', kept, scope, mark⟩ := sessions session p registered
    obtain ⟨f, first, within⟩ := h.registered session p' kept
    refine ⟨f, frame.first ▸ first, scope ▸ within.scope, fun marked => ?_⟩
    show _ ∨ _ ∨ session ∉ t.clis
    rw [clis]
    by_cases same : c.session = session
    case pos =>
      subst same
      have : f = ⟨scopeOf c.selection, c.readOnly⟩ := Option.some.inj (first.symm.trans (h.starting c mem).1)
      exact (own p registered (by rw [this] at marked; exact marked)).imp_right .inr
    case neg =>
      obtain marked | ⟨c', mem', rfl⟩ | none := within.readOnly marked
      · exact .inl (mark marked)
      · exact .inr (.inl ⟨c', mem_iff.mpr ⟨mem', fun eq => same (congrArg Start.session eq.symm)⟩, rfl⟩)
      · exact .inr (.inr none)
  case starting =>
    intro c' mem'
    show t.first c'.session = _ ∧ c'.id < t.nextId
    rw [frame.first, frame.nextId]
    exact h.starting c' (mem_iff.mp mem').1
  case once =>
    intro c₁ mem₁ c₂ mem₂
    exact h.once c₁ (mem_iff.mp mem₁).1 c₂ (mem_iff.mp mem₂).1
  case unlaunched =>
    intro c' mem' readOnly before
    show c'.session ∉ t.clis
    rw [clis]
    exact h.unlaunched c' (mem_iff.mp mem').1 readOnly before
  case calls =>
    show ∀ call ∈ t.calls, call.session ∈ t.clis ∧ ∀ scope, call.checked = some scope → ∃ f, t.first _ = some f ∧ _
    rw [frame.calls, frame.first, clis]
    exact h.calls
  case known =>
    show ∀ session, (session ∈ t.clis ∨ (t.first session).isSome) → session < t.nextSession
    rw [frame.first, frame.nextSession, clis]
    exact h.known
  case judged =>
    show ∀ j ∈ t.judged, ∃ f, t.first j.1 = some f ∧ _
    rw [frame.judged, frame.first]
    exact h.judged

theorem Inv.act {a : Action} (h : s.Inv) (mem : c ∈ s.starts) (hs : s.act c c.phase a = some s') : s'.Inv := by
  unfold State.act at hs
  split at hs
  case _ _ phase =>
    cases hs
    refine h.put mem ⟨rfl, rfl, rfl, rfl, rfl⟩ rfl (fun _ => id) (fun _ => .inl) (fun _ => by rw [phase]; rfl) ?_
    intro session p registered
    by_cases same : session = c.session
    case pos =>
      subst same
      simp only [setSession, Function.update_self, Option.some.injEq] at registered
      exact .inr ⟨rfl, registered ▸ rfl⟩
    case neg => exact .inl (by simpa [setSession, Function.update_of_ne same] using registered)
  case _ _ ok phase =>
    split at hs
    case isTrue =>
      cases hs
      exact h.put mem ⟨rfl, rfl, rfl, rfl, rfl⟩ rfl (fun _ => id) (fun _ => .inl) (fun _ => by rw [phase]; rfl)
        fun _ _ => .inl
    case isFalse =>
      cases hs
      refine h.drop mem ⟨rfl, rfl, rfl, rfl, rfl⟩ rfl rfl (fun session p kept => ⟨p, kept, rfl, id⟩) ?_
      exact fun p _ readOnly => .inr (h.unlaunched c mem readOnly (by rw [phase]; rfl))
  case _ _ phase =>
    cases hs
    refine h.put mem ⟨rfl, rfl, rfl, rfl, rfl⟩ rfl (fun _ => List.mem_cons_of_mem _) ?_ (fun never => by cases never)
      fun _ _ => .inl
    exact fun session launched => (List.mem_cons.mp launched).symm.imp_right fun same => ⟨same, rfl⟩
  case _ _ ok phase =>
    split at hs
    case isTrue =>
      cases hs
      refine h.drop mem ⟨rfl, rfl, rfl, rfl, rfl⟩ rfl rfl ?_ ?_
      · intro session p registered
        by_cases same : session = c.session
        case pos => subst same; simp [setSession] at registered
        case neg => exact ⟨p, by simpa [setSession, Function.update_of_ne same] using registered, rfl, id⟩
      · intro p registered
        simp [setSession] at registered
    case isFalse =>
      dsimp only at hs
      split at hs
      case isTrue =>
        cases hs
        exact h.put mem ⟨rfl, rfl, rfl, rfl, rfl⟩ rfl (fun _ => id) (fun _ => .inl) (fun never => by cases never)
          fun _ _ => .inl
      case isFalse open_ =>
        cases hs
        exact h.drop mem ⟨rfl, rfl, rfl, rfl, rfl⟩ rfl rfl (fun session p kept => ⟨p, kept, rfl, id⟩)
          fun p _ readOnly => absurd readOnly open_
  case _ _ phase =>
    cases hs
    refine h.drop mem ⟨rfl, rfl, rfl, rfl, rfl⟩ rfl rfl ?_ ?_
    · intro session p registered
      by_cases same : session = c.session
      case pos =>
        subst same
        simp only [setSession, Function.update_self, Option.map_eq_some_iff] at registered
        obtain ⟨p', kept, rfl⟩ := registered
        exact ⟨p', kept, rfl, fun _ => rfl⟩
      case neg => exact ⟨p, by simpa [setSession, Function.update_of_ne same] using registered, rfl, id⟩
    · intro p registered _
      simp only [setSession, Function.update_self, Option.map_eq_some_iff] at registered
      obtain ⟨p', kept, rfl⟩ := registered
      exact .inl rfl
  case _ => cases hs

-- A session starts, or is resumed with what it was first started with.
theorem Inv.begin_ {t : State} (h : s.Inv) (selection : Option (List ThreadId)) (readOnly : Bool)
    (first : t.first session = some ⟨scopeOf selection, readOnly⟩)
    (kept : ∀ session f, s.first session = some f → t.first session = some f)
    (known : ∀ session, (session ∈ t.clis ∨ (t.first session).isSome) → session < t.nextSession)
    (only : readOnly → (∀ c ∈ s.starts, c.session ≠ session) ∧ session ∉ s.clis)
    (same : t.sessions = s.sessions ∧ t.clis = s.clis ∧ t.calls = s.calls ∧ t.judged = s.judged)
    (starts : t.starts = (s.begin_ session selection readOnly).starts) (nextId : t.nextId = s.nextId + 1) : t.Inv := by
  obtain ⟨sessions, clis, calls, judged⟩ := same
  have mem_iff {c'} : c' ∈ t.starts ↔
      (c' ∈ s.starts ∧ c'.id ≠ s.nextId) ∨ c' = { id := s.nextId, session, selection, readOnly } := by
    rw [starts]
    exact Table.mem_replace
  constructor
  case registered =>
    intro session p registered
    obtain ⟨f, first, within⟩ := h.registered session p (sessions ▸ registered)
    refine ⟨f, kept session f first, within.scope, fun marked => ?_⟩
    rw [clis]
    refine (within.readOnly marked).imp_right (Or.imp_left ?_)
    rintro ⟨c, mem, rfl⟩
    exact ⟨c, mem_iff.mpr (.inl ⟨mem, (h.starting c mem).2.ne⟩), rfl⟩
  case starting =>
    intro c mem
    rw [nextId]
    obtain ⟨mem, _⟩ | rfl := mem_iff.mp mem
    · exact ⟨kept _ _ (h.starting c mem).1, Nat.lt_succ_of_lt (h.starting c mem).2⟩
    · exact ⟨first, Nat.lt_succ_self _⟩
  case once =>
    intro c₁ mem₁ c₂ mem₂ marked same
    obtain ⟨mem₁, _⟩ | rfl := mem_iff.mp mem₁ <;> obtain ⟨mem₂, _⟩ | rfl := mem_iff.mp mem₂
    · exact h.once c₁ mem₁ c₂ mem₂ marked same
    · have := Option.some.inj ((kept _ _ (h.starting c₁ mem₁).1).symm.trans ((congrArg t.first same).trans first))
      exact absurd same ((only ((congrArg Powers.readOnly this).symm.trans marked)).1 c₁ mem₁)
    · exact absurd same.symm ((only marked).1 c₂ mem₂)
    · rfl
  case unlaunched =>
    intro c mem marked before
    rw [clis]
    obtain ⟨mem, _⟩ | rfl := mem_iff.mp mem
    · exact h.unlaunched c mem marked before
    · exact (only marked).2
  case calls =>
    intro call mem
    rw [clis]
    have ⟨launched, checked⟩ := h.calls call (calls ▸ mem)
    exact ⟨launched, fun scope eq => (checked scope eq).imp fun f => And.imp_left (kept _ f)⟩
  case known => exact known
  case judged =>
    intro j mem
    exact (h.judged j (judged ▸ mem)).imp fun f => And.imp_left (kept _ f)

-- No starting goes on, and no more is registered.
theorem Inv.of_eq (h : s.Inv) (sessions : ∀ session p, t.sessions session = some p → s.sessions session = some p)
    (calls : ∀ call ∈ t.calls, call ∈ s.calls ∨ (call.session ∈ s.clis ∧
      ∀ scope, call.checked = some scope → ∃ f, s.first call.session = some f ∧ scope.Within f.scope))
    (same : t.clis = s.clis ∧ t.starts = s.starts ∧ t.first = s.first ∧ t.nextSession = s.nextSession)
    (nextId : s.nextId ≤ t.nextId) (judged : t.NeverWiden) : t.Inv := by
  obtain ⟨clis, starts, first, nextSession⟩ := same
  constructor
  case registered =>
    intro session p registered
    obtain ⟨f, started, within⟩ := h.registered session p (sessions session p registered)
    exact ⟨f, first ▸ started, within.scope, by rw [starts, clis]; exact within.readOnly⟩
  case starting =>
    rw [starts, first]
    exact fun c mem => (h.starting c mem).imp_right fun lt => Nat.lt_of_lt_of_le lt nextId
  case once       => rw [starts]; exact h.once
  case unlaunched => rw [starts, clis]; exact h.unlaunched
  case calls      => rw [clis, first]; exact fun call mem => (calls call mem).elim (h.calls call) id
  case known      => rw [clis, first, nextSession]; exact h.known
  case judged     => exact judged

-- A call's judgement, where a mark that its session was started with is there to be read.
theorem Inv.judge {call : Call} {scope : Scope} (h : s.Inv) (mem : call ∈ s.calls)
    (ok : (s.first call.session).any Powers.readOnly →
      (∀ c ∈ s.starts, c.session ≠ call.session) ∧ (s.sessions call.session).isSome)
    (checked : call.checked = some scope) (first : t.first = s.first)
    (judged : t.judged =
      (call.session, ⟨scope, ((s.sessions call.session).map Powers.readOnly).getD false⟩) :: s.judged) :
    t.NeverWiden := by
  unfold NeverWiden
  rw [first, judged]
  intro j mem'
  obtain rfl | mem' := List.mem_cons.mp mem'
  case inr => exact h.judged j mem'
  have ⟨launched, within⟩ := h.calls call mem
  obtain ⟨f, started, within⟩ := within scope checked
  refine ⟨f, started, within, fun marked => ?_⟩
  obtain ⟨apart, registered⟩ := ok (by rw [started]; exact marked)
  obtain ⟨p, registered⟩ := Option.isSome_iff_exists.mp registered
  obtain ⟨f', started', holds⟩ := h.registered _ p registered
  cases started.symm.trans started'
  rw [registered]
  obtain mark | ⟨c, mem, same⟩ | none := holds.readOnly marked
  · exact mark
  · exact absurd same (apart c mem)
  · exact absurd launched none

theorem Inv.step {a : Action} (h : s.Inv) (ok : s.Cautious a) (hs : s.step a = some s') : s'.Inv := by
  cases a
  case start selection readOnly =>
    cases hs
    have unknown : s.first s.nextSession = none := by
      by_contra known
      exact absurd (h.known _ (.inr (Option.ne_none_iff_isSome.mp known))) (Nat.lt_irrefl _)
    refine h.begin_ selection readOnly (Function.update_self ..) ?_ ?_ ?_ ⟨rfl, rfl, rfl, rfl⟩ rfl rfl
    · intro session f started
      have ne : session ≠ s.nextSession := by rintro rfl; rw [unknown] at started; cases started
      exact (Function.update_of_ne ne ..).trans started
    · intro session known
      show session < s.nextSession + 1
      by_cases same : session = s.nextSession
      case pos => omega
      case neg =>
        exact Nat.lt_succ_of_lt (h.known session (known.imp_right fun first =>
          (congrArg Option.isSome (Function.update_of_ne same ..)).symm.trans first))
    · intro _
      constructor
      · intro c mem same
        have := (h.starting c mem).1
        rw [same, unknown] at this
        cases this
      · exact fun launched => absurd (h.known _ (.inl launched)) (Nat.lt_irrefl _)
  case resume session =>
    simp only [State.step] at hs
    split at hs
    case isTrue  => cases hs
    case isFalse =>
      cases hs
      exact h.begin_ none false ok (fun _ _ => id) h.known nofun ⟨rfl, rfl, rfl, rfl⟩ rfl rfl
  case prompt session => cases hs; exact h.of_eq (fun _ _ => id) (fun _ => .inl) ⟨rfl, rfl, rfl, rfl⟩ le_rfl h.judged
  case check session =>
    simp only [State.step] at hs
    split at hs
    case isFalse => cases hs
    case isTrue launched =>
      cases hs
      refine h.of_eq (fun _ _ => id) (fun call mem => ?_) ⟨rfl, rfl, rfl, rfl⟩ (Nat.le_succ _) h.judged
      obtain ⟨mem, _⟩ | rfl := Table.mem_replace.mp mem
      case inl => exact .inl mem
      refine .inr ⟨launched, fun scope checked => ?_⟩
      obtain ⟨p, registered, rfl⟩ := Option.map_eq_some_iff.mp checked
      obtain ⟨f, started, within⟩ := h.registered session p registered
      exact ⟨f, started, within.scope⟩
  case judge id =>
    obtain ⟨call, found, hs⟩ := Option.bind_eq_some_iff.mp hs
    have mem := Table.find?_mem found
    have ok := ok call mem (Table.find?_key_eq found)
    have fewer : ∀ c ∈ s.calls.delete (·.id = id), c ∈ s.calls := fun c mem => (Table.mem_delete.mp mem).1
    dsimp only at hs
    split at hs
    case _ =>
      cases hs
      exact h.of_eq (fun _ _ kept => kept) (fun c mem => .inl (fewer c mem)) ⟨rfl, rfl, rfl, rfl⟩ le_rfl h.judged
    case _ checked =>
      cases hs
      exact h.of_eq (fun _ _ kept => kept) (fun c mem => .inl (fewer c mem)) ⟨rfl, rfl, rfl, rfl⟩ le_rfl
        (h.judge mem ok checked rfl rfl)
  case close session =>
    cases hs
    refine h.of_eq (fun session' p registered => ?_) (fun _ => .inl) ⟨rfl, rfl, rfl, rfl⟩ le_rfl h.judged
    have ne : session' ≠ session := by rintro rfl; simp [setSession] at registered
    simpa [setSession, Function.update_of_ne ne] using registered
  case closed session =>
    simp only [State.step] at hs
    split at hs
    case isTrue  => cases hs; exact h.of_eq (fun _ _ => id) (fun _ => .inl) ⟨rfl, rfl, rfl, rfl⟩ le_rfl h.judged
    case isFalse => cases hs
  case restart =>
    cases hs
    exact ⟨nofun, nofun, nofun, nofun, nofun, fun session known => h.known session (.inr (known.resolve_left nofun)), h.judged⟩
  all_goals
    obtain ⟨c, found, hs⟩ := Option.bind_eq_some_iff.mp hs
    exact h.act (Table.find?_mem found) hs

theorem reachable_never_widen (h : agentSessions.Reachable Cautious s) : s.NeverWiden := by
  have inv : s.Inv := by
    apply h.invariant
    case start =>
      rintro s rfl
      exact ⟨nofun, nofun, nofun, nofun, nofun, fun _ known => known.elim nofun nofun, nofun⟩
    case step => exact fun _ _ _ h ok hs => h.step ok hs
  exact inv.judged

end State

-- A session is started, with all steps of it: `id` is the starting's.
def startAll (id : Nat) : List Action :=
  [.register id, .store id true, .launch id, .started id true]

-- A read-only session for a selection makes a call once it is marked, and one for the mailbox is resumed.
theorem reachable_never_widen_preview : ∃ s : State, s.NeverWiden ∧
    s.judged = [(1, ⟨.mailbox, false⟩), (0, ⟨.selection ["t1"], true⟩)] := by
  have run : (agentSessions.run State.Cautious {} ([.start (some ["t1"]) true] ++ startAll 0 ++ [.mark 0, .check 0, .judge 1,
      .start none false] ++ startAll 2 ++ [.restart, .resume 1] ++ startAll 3 ++ [.check 1, .judge 4])).any
        (·.judged = [(1, ⟨.mailbox, false⟩), (0, ⟨.selection ["t1"], true⟩)]) := by decide
  obtain ⟨s, hs, judged⟩ := (Option.any_eq_true _ _).mp run
  exact ⟨s, State.reachable_never_widen (.run (.start rfl) hs), of_decide_eq_true judged⟩

-- A read-only session for a selection is resumed after a restart, and a call of it is judged with the whole mailbox
-- and without the mark.
theorem resumed_widens : ¬∀ s, agentSessions.Reachable (fun _ _ => True) s → s.NeverWiden := by
  intro claim
  have run : (agentSessions.run (fun _ _ => True) {} ([.start (some ["t1"]) true] ++ startAll 0 ++ [.mark 0, .restart,
      .resume 0] ++ startAll 1 ++ [.check 0, .judge 2])).any fun s =>
        s.judged = [(0, ⟨.mailbox, false⟩)] ∧ s.first 0 = some ⟨.selection ["t1"], true⟩ := by decide
  obtain ⟨s, hs, widened⟩ := (Option.any_eq_true _ _).mp run
  obtain ⟨judged, first⟩ := of_decide_eq_true widened
  obtain ⟨f, started, within⟩ := claim s (.run (.start rfl) hs) (0, ⟨.mailbox, false⟩) (by rw [judged]; exact List.mem_cons_self)
  cases first.symm.trans started
  exact Bool.false_ne_true (within.readOnly rfl)

end Kaluta.Agents.Session
