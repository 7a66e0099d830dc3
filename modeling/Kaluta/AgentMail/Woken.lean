import Kaluta.AgentMail.Socket

-- No wake-up is lost on the shared socket, and when.
namespace Kaluta.AgentMail.Socket

variable {s s' : State} {ps : List Push} {es : List Entry}

-- Live pushes, and the inboxes that they wait for.
structure Fits (ps : List Push) (es : List Entry) : Prop where
  ids   : (ps.map Push.id).Nodup
  entry : ∀ p ∈ ps, ∃ e ∈ es, e.inbox = p.inbox
  count : ∀ e ∈ es, e.pushes = ps.countP (·.inbox = e.inbox) ∧ 0 < e.pushes
  waits : ∀ e ∈ es, ∀ w ∈ e.waiters, ∃ p ∈ ps, p.inbox = e.inbox ∧ w = p.id
  same  : ∀ e ∈ es, ∀ e' ∈ es, e.inbox = e'.inbox → e = e'

theorem countP_map {f : Push → Push} (hf : ∀ p, (f p).inbox = p.inbox) (inbox : Inbox) :
    (ps.map f).countP (·.inbox = inbox) = ps.countP (·.inbox = inbox) := by
  rw [List.countP_map]
  congr 1
  funext p
  simp only [Function.comp_apply, hf]

theorem Fits.map (h : Fits ps es) {f : Push → Push} {g : Entry → Entry}
    (hf : ∀ p, (f p).id = p.id ∧ (f p).inbox = p.inbox) (hg : ∀ e, (g e).inbox = e.inbox ∧ (g e).pushes = e.pushes)
    (hw : ∀ e ∈ es, ∀ w ∈ (g e).waiters, w ∈ e.waiters ∨ ∃ p ∈ ps, p.inbox = e.inbox ∧ w = p.id) :
    Fits (ps.map f) (es.map g) := by
  obtain ⟨ids, entry, count, waits, same⟩ := h
  constructor
  case ids =>
    have : Push.id ∘ f = Push.id := funext fun p => (hf p).1
    rwa [List.map_map, this]
  case entry => grind
  case count =>
    intro e' he'
    obtain ⟨e, he, rfl⟩ := List.mem_map.mp he'
    rw [countP_map fun p => (hf p).2, (hg e).1, (hg e).2]
    exact count e he
  case waits =>
    intro e' he' w hw'
    obtain ⟨e, he, rfl⟩ := List.mem_map.mp he'
    obtain ⟨p, hp, named, rfl⟩ : ∃ p ∈ ps, p.inbox = e.inbox ∧ w = p.id := (hw e he w hw').elim (waits e he w) id
    exact ⟨f p, List.mem_map_of_mem hp, (hf p).2.trans (named.trans (hg e).1.symm), (hf p).1.symm⟩
  case same => grind

theorem Fits.map_pushes (h : Fits ps es) {f : Push → Push} (hf : ∀ p, (f p).id = p.id ∧ (f p).inbox = p.inbox) :
    Fits (ps.map f) es := by
  simpa using h.map (g := fun e => e) hf (fun _ => ⟨rfl, rfl⟩) fun _ _ _ hw => .inl hw

theorem Fits.map_inboxes (h : Fits ps es) {g : Entry → Entry}
    (hg : ∀ e, (g e).inbox = e.inbox ∧ (g e).pushes = e.pushes)
    (hw : ∀ e ∈ es, ∀ w ∈ (g e).waiters, w ∈ e.waiters ∨ ∃ p ∈ ps, p.inbox = e.inbox ∧ w = p.id) :
    Fits ps (es.map g) := by
  simpa using h.map (f := fun p => p) (fun _ => ⟨rfl, rfl⟩) hg hw

theorem map_inbox {g : Entry → Entry} (hg : ∀ e, (g e).inbox = e.inbox) :
    (es.map g).map Entry.inbox = es.map Entry.inbox := by
  rw [List.map_map]
  exact List.map_congr_left fun e _ => hg e

theorem Entry.notifyOne_spec (e : Entry) :
    e.notifyOne.inbox = e.inbox ∧ e.notifyOne.pushes = e.pushes ∧ (∀ w ∈ e.notifyOne.waiters, w ∈ e.waiters) ∧
    (e.permit → e.notifyOne.permit) ∧ (e.waiters = [] → e.notifyOne.permit) := by
  unfold notifyOne
  split <;> simp_all

namespace State

-- A live push's inbox is subscribed, or waits to be.
def Subscribed (s : State) (inbox : Inbox) : Prop :=
  match s.phase with
  | .opening unsent _ => inbox ∈ unsent.flatten ∨ inbox ∈ s.commands ∨ inbox ∈ s.asked.flatten ∨ inbox ∈ s.answered
  | .session _        => inbox ∈ s.commands ∨ inbox ∈ s.asked.flatten ∨ inbox ∈ s.answered
  -- The list is yet to be read.
  | _                 => inbox ∈ s.inboxes.map Entry.inbox

-- A wake-up of a push is to come: everyone's on connecting, a stored one, or its inbox's event.
def ToWake (s : State) (p : Push) : Prop :=
  s.phase ≠ .session true ∨ (∃ e ∈ s.inboxes, e.inbox = p.inbox ∧ e.permit) ∨ .event (some p.inbox) ∈ s.frames

theorem Subscribed.of_eq (h : s.Subscribed inbox) (phase : s'.phase = s.phase)
    (named : inbox ∈ s.inboxes.map Entry.inbox → inbox ∈ s'.inboxes.map Entry.inbox)
    (commands : inbox ∈ s.commands → inbox ∈ s'.commands) (asked : s'.asked = s.asked)
    (answered : s'.answered = s.answered) : s'.Subscribed inbox := by
  unfold Subscribed at *
  rw [phase, asked, answered]
  split <;> grind

-- A push that is owed a wake-up is its inbox's only one.
def Alone (ps : List Push) : Prop :=
  ∀ p ∈ ps, p.owed → ∀ q ∈ ps, q.inbox = p.inbox → q = p

theorem Alone.map {f : Push → Push} (h : Alone ps) (hf : ∀ p, (f p).inbox = p.inbox ∧ ((f p).owed → p.owed)) :
    Alone (ps.map f) := by
  intro p' hp' owed q' hq' same
  obtain ⟨p, hp, rfl⟩ := List.mem_map.mp hp'
  obtain ⟨q, hq, rfl⟩ := List.mem_map.mp hq'
  rw [h p hp ((hf p).2 owed) q hq ((hf q).1.symm.trans (same.trans (hf p).1))]

structure Inv (s : State) : Prop where
  fits       : Fits s.pushes s.inboxes
  alone      : Alone s.pushes
  subscribed : ∀ p ∈ s.pushes, s.Subscribed p.inbox
  woken      : ∀ p ∈ s.pushes, p.owed → s.ToWake p

theorem Fits.wake (h : Fits s.pushes s.inboxes) (inbox : Option Inbox) :
    Fits (s.wake inbox).pushes (s.wake inbox).inboxes := by
  apply h.map
  case hf => intro p; split <;> exact ⟨rfl, rfl⟩
  case hg => intro e; split <;> simp [Entry.notifyOne_spec]
  case hw =>
    intro e _ w hw
    split at hw
    case isTrue  => exact .inl (e.notifyOne_spec.2.2.1 w hw)
    case isFalse => exact .inl hw

-- A push that is still owed a wake-up after its inbox was notified finds a permit.
theorem owed_wake (h : Fits s.pushes s.inboxes) (alone : Alone s.pushes) (hp : p ∈ (s.wake inbox).pushes)
    (owed : p.owed) :
    ∃ q ∈ s.pushes, q.owed ∧ q.inbox = p.inbox ∧
      ∀ e ∈ s.inboxes, e.inbox = p.inbox → names inbox e → e.notifyOne.permit := by
  obtain ⟨q, hq, rfl⟩ := List.mem_map.mp hp
  split at owed
  case isTrue => cases owed
  case isFalse asleep =>
    rw [if_neg asleep]
    refine ⟨q, hq, owed, rfl, ?_⟩
    intro e he same notified
    apply e.notifyOne_spec.2.2.2.2
    cases waits : e.waiters with
    | nil       => rfl
    | cons w ws =>
      have ⟨p, hp, named, id⟩ := h.waits e he w (by simp [waits])
      have : w = q.id := id.trans (congrArg Push.id (alone q hq owed p hp (named.trans same)))
      exact absurd (List.mem_filterMap.mpr ⟨e, List.mem_filter.mpr ⟨he, notified⟩, by simp [waits, this]⟩) asleep

theorem Inv.wake {inbox : Option Inbox} (fits : Fits s.pushes s.inboxes) (alone : Alone s.pushes)
    (subscribed : ∀ p ∈ s.pushes, s.Subscribed p.inbox)
    (woken : ∀ p ∈ s.pushes, p.owed → s.ToWake p ∨ inbox = none ∨ inbox = some p.inbox) : (s.wake inbox).Inv := by
  constructor
  case fits  => exact Fits.wake fits inbox
  case alone => exact alone.map fun p => by split <;> simp
  case subscribed =>
    intro p hp
    obtain ⟨q, hq, rfl⟩ := List.mem_map.mp hp
    have named : (s.inboxes.map fun e => if names inbox e then e.notifyOne else e).map Entry.inbox =
        s.inboxes.map Entry.inbox := by
      apply map_inbox
      intro e
      split
      case isTrue  => exact e.notifyOne_spec.1
      case isFalse => rfl
    have same : (if q.id ∈ (s.inboxes.filter (names inbox)).filterMap (·.waiters.head?) then { q with owed := false }
      else q).inbox = q.inbox := by split <;> rfl
    rw [same]
    exact (subscribed q hq).of_eq rfl (fun h => named ▸ h) (fun h => h) rfl rfl
  case woken =>
    intro p hp owed
    have ⟨q, hq, owed', same, permit⟩ := owed_wake fits alone hp owed
    have ⟨e, he, hep⟩ := fits.entry q hq
    have mem : (if names inbox e then e.notifyOne else e) ∈ (s.wake inbox).inboxes := List.mem_map_of_mem he
    by_cases notified : names inbox e
    case pos =>
      rw [if_pos notified] at mem
      exact .inr (.inl ⟨_, mem, e.notifyOne_spec.1.trans (hep.trans same), permit e he (hep.trans same) notified⟩)
    case neg =>
      rw [if_neg notified] at mem
      have unnamed : ¬(inbox = none ∨ inbox = some q.inbox) := by simpa [names, hep] using notified
      have toWake := (woken q hq owed').resolve_right unnamed
      obtain other | ⟨e', he', named, stored⟩ | coming := toWake
      case inl     => exact .inl other
      case inr.inl =>
        rw [fits.same e' he' e he (named.trans hep.symm)] at stored
        exact .inr (.inl ⟨e, mem, hep.trans same, stored⟩)
      case inr.inr => exact .inr (.inr (same ▸ coming))

theorem flatten_chunksOf {inboxes : List Inbox} (h : inboxes.length ≤ k) : (chunksOf k inboxes).flatten = inboxes := by
  induction k generalizing inboxes
  case zero => rw [List.eq_nil_of_length_eq_zero (Nat.le_zero.mp h)]; rfl
  case succ k ih =>
    cases inboxes with
    | nil            => rfl
    | cons inbox ins =>
      have rest : ((inbox :: ins).drop INBOXES_PER_SUBSCRIBE).length ≤ k := by
        simp only [List.length_drop, List.length_cons, INBOXES_PER_SUBSCRIBE] at h ⊢
        omega
      rw [chunksOf, List.flatten_cons, ih rest, List.take_append_drop]
      exact nofun

-- One push to an inbox while mail waits there for its wake-up; and no mail to an inbox after the connection's first
-- answer and before its own.
def Undisturbed (s : State) : Action → Prop
  | .new _ inbox  => ∀ p ∈ s.pushes, p.inbox = inbox → ¬p.owed
  | .arrive inbox => (∀ p ∈ s.pushes, p.inbox = inbox → ∀ q ∈ s.pushes, q.inbox = inbox → q = p) ∧
    (s.phase = .session true → (∃ p ∈ s.pushes, p.inbox = inbox) → inbox ∈ s.answered)
  | _             => True

instance : ∀ a, Decidable (s.Undisturbed a)
  | .new _ inbox  => inferInstanceAs (Decidable (∀ p ∈ s.pushes, p.inbox = inbox → ¬p.owed))
  | .arrive _     => inferInstanceAs (Decidable (_ ∧ (_ → _ → _)))
  | .drop _ | .watch _ | .giveUp _ | .discard | .handshake | .readInboxes | .subscribe | .opened | .command | .frame |
    .fail _ | .rested | .answer | .event _ => inferInstanceAs (Decidable True)

-- Steps of the connection task and of AgentMail.
theorem Inv.of_eq (h : s.Inv) (pushes : s'.pushes = s.pushes) (inboxes : s'.inboxes = s.inboxes)
    (subscribed : ∀ inbox ∈ s.inboxes.map Entry.inbox, s.Subscribed inbox → s'.Subscribed inbox)
    (woken : ∀ p, s.ToWake p → s'.ToWake p) : s'.Inv := by
  constructor
  case fits       => rw [pushes, inboxes]; exact h.fits
  case alone      => rw [pushes]; exact h.alone
  case subscribed =>
    intro p hp
    rw [pushes] at hp
    have ⟨e, he, named⟩ := h.fits.entry p hp
    exact subscribed _ (List.mem_map.mpr ⟨e, he, named⟩) (h.subscribed p hp)
  case woken => intro p hp owed; exact woken p (h.woken p (pushes ▸ hp) owed)

theorem Fits.named (h : Fits ps es) (he : e ∈ es) : ∃ p ∈ ps, p.inbox = e.inbox := by
  have ⟨count, some_⟩ := h.count e he
  have ⟨p, hp, found⟩ := List.countP_pos_iff.mp (count ▸ some_)
  exact ⟨p, hp, by simpa using found⟩

theorem mem_addInbox (h : Fits s.pushes s.inboxes) (inbox : Inbox) (e' : Entry) : e' ∈ (s.addInbox inbox).inboxes ↔
    (∃ e ∈ s.inboxes, e' = if e.inbox = inbox then { e with pushes := e.pushes + 1 } else e) ∨
    e' = { inbox } ∧ ∀ p ∈ s.pushes, p.inbox ≠ inbox := by
  unfold addInbox
  split
  case isTrue named =>
    have ⟨e, he, same⟩ := List.mem_map.mp named
    have ⟨p, hp, named⟩ := Fits.named h he
    grind
  case isFalse unnamed =>
    have apart : ∀ p ∈ s.pushes, p.inbox ≠ inbox := by
      intro p hp same
      have ⟨e, he, named⟩ := h.entry p hp
      exact unnamed (List.mem_map.mpr ⟨e, he, named.trans same⟩)
    grind

theorem addInbox_frame (s : State) (inbox : Inbox) :
    (s.addInbox inbox).phase = s.phase ∧ (s.addInbox inbox).asked = s.asked ∧ (s.addInbox inbox).answered = s.answered ∧
    (s.addInbox inbox).frames = s.frames ∧ ∀ i ∈ s.commands, i ∈ (s.addInbox inbox).commands := by
  unfold addInbox
  split <;> simp +contextual

theorem Inv.new (h : s.Inv) (fresh : push ∉ s.pushes.map Push.id) (free : ∀ p ∈ s.pushes, p.inbox = inbox → ¬p.owed) :
    Inv { s.addInbox inbox with pushes := { id := push, inbox } :: s.pushes } := by
  obtain ⟨fits, alone, subscribed, woken⟩ := h
  have mem := mem_addInbox fits inbox
  have ⟨phase, asked, answered, frames, commands⟩ := s.addInbox_frame inbox
  -- An inbox keeps its entry, with the permit.
  have kept : ∀ e ∈ s.inboxes, ∃ e' ∈ (s.addInbox inbox).inboxes, e'.inbox = e.inbox ∧ e'.permit = e.permit := by
    intro e he
    refine ⟨_, (mem _).mpr (.inl ⟨e, he, rfl⟩), ?_⟩
    split <;> exact ⟨rfl, rfl⟩
  constructor
  case fits =>
    constructor
    case ids   => exact List.nodup_cons.mpr ⟨fresh, fits.ids⟩
    case entry =>
      intro p hp
      cases List.mem_cons.mp hp with
      | inr hp =>
        have ⟨e, he, named⟩ := fits.entry p hp
        have ⟨e', he', same, _⟩ := kept e he
        exact ⟨e', he', same.trans named⟩
      | inl hp =>
        subst hp
        by_cases shared : ∀ p ∈ s.pushes, p.inbox ≠ inbox
        case pos => exact ⟨_, (mem _).mpr (.inr ⟨rfl, shared⟩), rfl⟩
        case neg =>
          have ⟨p, hp, same⟩ : ∃ p ∈ s.pushes, p.inbox = inbox := by simpa using shared
          have ⟨e, he, named⟩ := fits.entry p hp
          have ⟨e', he', same', _⟩ := kept e he
          exact ⟨e', he', same'.trans (named.trans same)⟩
    case count =>
      intro e' he'
      rw [List.countP_cons]
      obtain ⟨e, he, rfl⟩ | ⟨rfl, none_⟩ := (mem e').mp he'
      case inl => have := fits.count e he; grind
      case inr =>
        have : s.pushes.countP (·.inbox = inbox) = 0 := List.countP_eq_zero.mpr (by simpa using none_)
        simp [this]
    case waits =>
      intro e' he' w hw
      obtain ⟨e, he, rfl⟩ | ⟨rfl, _⟩ := (mem e').mp he'
      case inl => have := fits.waits e he w; grind
      case inr => cases hw
    case same =>
      intro e he e' he' named
      have same := fits.same
      have shared : ∀ e ∈ s.inboxes, ∃ p ∈ s.pushes, p.inbox = e.inbox := fun e he => Fits.named fits he
      obtain ⟨d, hd, rfl⟩ | ⟨rfl, none_⟩ := (mem e).mp he <;> obtain ⟨d', hd', rfl⟩ | ⟨rfl, none_'⟩ := (mem e').mp he'
      all_goals grind
  case alone =>
    intro p hp owed q hq same
    cases List.mem_cons.mp hp with
    | inl hp => subst hp; cases owed
    | inr hp =>
      cases List.mem_cons.mp hq with
      | inl hq => subst hq; exact absurd owed (free p hp same.symm)
      | inr hq => exact alone p hp owed q hq same
  case subscribed =>
    have old : ∀ p ∈ s.pushes,
        Subscribed { s.addInbox inbox with pushes := { id := push, inbox } :: s.pushes } p.inbox := by
      intro p hp
      apply (subscribed p hp).of_eq phase ?_ (commands _) asked answered
      intro named
      have ⟨e, he, same⟩ := List.mem_map.mp named
      have ⟨e', he', same', _⟩ := kept e he
      exact List.mem_map.mpr ⟨e', he', same'.trans same⟩
    intro p hp
    cases List.mem_cons.mp hp with
    | inr hp => exact old p hp
    | inl hp =>
      subst hp
      by_cases shared : ∃ p ∈ s.pushes, p.inbox = inbox
      case pos => have ⟨p, hp, same⟩ := shared; exact same ▸ old p hp
      case neg =>
        have unnamed : inbox ∉ s.inboxes.map Entry.inbox := by
          intro named
          have ⟨e, he, same⟩ := List.mem_map.mp named
          have ⟨p, hp, named⟩ := Fits.named fits he
          exact shared ⟨p, hp, named.trans same⟩
        rw [addInbox, if_neg unnamed]
        unfold Subscribed
        split <;> simp
  case woken =>
    intro p hp owed
    cases List.mem_cons.mp hp with
    | inl hp => subst hp; cases owed
    | inr hp =>
      obtain other | ⟨e, he, named, stored⟩ | coming := woken p hp owed
      case inl     => exact .inl (phase ▸ other)
      case inr.inl =>
        have ⟨e', he', same, permit⟩ := kept e he
        exact .inr (.inl ⟨e', he', same.trans named, permit.trans stored⟩)
      case inr.inr => exact .inr (.inr (frames ▸ coming))

theorem countP_drop (ids : (ps.map Push.id).Nodup) (hp : p ∈ ps) (inbox : Inbox) :
    ps.countP (·.inbox = inbox) =
      (ps.filter (·.id ≠ p.id)).countP (·.inbox = inbox) + if p.inbox = inbox then 1 else 0 := by
  induction ps
  case nil => cases hp
  case cons q ps ih =>
    have ⟨fresh, ids⟩ := List.nodup_cons.mp ids
    cases List.mem_cons.mp hp with
    | inl hp =>
      subst hp
      have others : ps.filter (·.id ≠ p.id) = ps := by
        apply List.filter_eq_self.mpr
        intro q hq
        exact decide_eq_true fun same => fresh (List.mem_map.mpr ⟨q, hq, same⟩)
      rw [List.filter_cons_of_neg (by simp), others, List.countP_cons]
      simp
    | inr hp =>
      have other : q.id ≠ p.id := fun same => fresh (List.mem_map.mpr ⟨p, hp, same.symm⟩)
      rw [List.filter_cons_of_pos (by simpa using other), List.countP_cons, List.countP_cons, ih ids hp]
      omega

theorem Inv.drop (h : s.Inv) (found : s.pushes.find? (·.id = push) = some p) :
    Inv { (s.leave push).removeInbox p.inbox with pushes := s.pushes.filter (·.id ≠ push) } := by
  have hp := List.mem_of_find?_eq_some found
  obtain rfl : p.id = push := by simpa using List.find?_some found
  obtain ⟨fits, alone, subscribed, woken⟩ := h
  have left : ∀ e', e' ∈ ((s.leave p.id).removeInbox p.inbox).inboxes ↔ ∃ e ∈ s.inboxes,
      e.inbox ≠ p.inbox ∧ e' = { e with waiters := e.waiters.filter (· ≠ p.id) } ∨
      e.inbox = p.inbox ∧ e.pushes ≠ 1 ∧
        e' = { e with waiters := e.waiters.filter (· ≠ p.id), pushes := e.pushes - 1 } := by
    intro e'
    simp only [removeInbox, leave, List.mem_filterMap, List.mem_map]
    grind
  have stays : ∀ q ∈ s.pushes.filter (·.id ≠ p.id), ∀ e ∈ s.inboxes, e.inbox = q.inbox →
      ∃ e' ∈ ((s.leave p.id).removeInbox p.inbox).inboxes, e'.inbox = e.inbox ∧ e'.permit = e.permit := by
    intro q hq e he named
    by_cases same : e.inbox = p.inbox
    case neg => exact ⟨_, (left _).mpr ⟨e, he, .inl ⟨same, rfl⟩⟩, rfl, rfl⟩
    case pos =>
      have several : 0 < (s.pushes.filter (·.id ≠ p.id)).countP (·.inbox = e.inbox) :=
        List.countP_pos_iff.mpr ⟨q, hq, by simp [named]⟩
      have count := (fits.count e he).1
      rw [countP_drop fits.ids hp, if_pos same.symm] at count
      exact ⟨_, (left _).mpr ⟨e, he, .inr ⟨same, by omega, rfl⟩⟩, rfl, rfl⟩
  constructor
  case fits =>
    constructor
    case ids   => exact fits.ids.sublist (List.filter_sublist.map _)
    case entry =>
      intro q hq
      have ⟨e, he, named⟩ := fits.entry q (List.mem_of_mem_filter hq)
      have ⟨e', he', same, _⟩ := stays q hq e he named
      exact ⟨e', he', same.trans named⟩
    case count =>
      intro e' he'
      obtain ⟨e, he, ⟨other, rfl⟩ | ⟨same, several, rfl⟩⟩ := (left e').mp he'
      all_goals
        have := fits.count e he
        rw [countP_drop fits.ids hp] at this
        grind
    case waits =>
      intro e' he' w hw
      obtain ⟨e, he, ⟨other, rfl⟩ | ⟨same, several, rfl⟩⟩ := (left e').mp he'
      all_goals
        have := fits.waits e he w
        grind
    case same =>
      intro e he e' he' named
      have := fits.same
      grind
  case alone =>
    intro q hq owed r hr same
    exact alone q (List.mem_of_mem_filter hq) owed r (List.mem_of_mem_filter hr) same
  case subscribed =>
    intro q hq
    have ⟨e, he, named⟩ := fits.entry q (List.mem_of_mem_filter hq)
    have ⟨e', he', same, _⟩ := stays q hq e he named
    exact (subscribed q (List.mem_of_mem_filter hq)).of_eq rfl (fun _ => List.mem_map.mpr ⟨e', he', same.trans named⟩)
      (fun h => h) rfl rfl
  case woken =>
    intro q hq owed
    obtain elsewhere | ⟨e, he, named, stored⟩ | coming := woken q (List.mem_of_mem_filter hq) owed
    case inl     => exact .inl elsewhere
    case inr.inl =>
      have ⟨e', he', same, permit⟩ := stays q hq e he named
      exact .inr (.inl ⟨e', he', same.trans named, permit.trans stored⟩)
    case inr.inr => exact .inr (.inr coming)

theorem Inv.map_inboxes (h : s.Inv) {g : Entry → Entry}
    (hg : ∀ e, (g e).inbox = e.inbox ∧ (g e).pushes = e.pushes ∧ (g e).permit = e.permit)
    (hw : ∀ e ∈ s.inboxes, ∀ w ∈ (g e).waiters, w ∈ e.waiters ∨ ∃ p ∈ s.pushes, p.inbox = e.inbox ∧ w = p.id) :
    Inv { s with inboxes := s.inboxes.map g } := by
  constructor
  case fits  => exact h.fits.map_inboxes (fun e => ⟨(hg e).1, (hg e).2.1⟩) hw
  case alone => exact h.alone
  case subscribed =>
    intro p hp
    have named := (map_inbox fun e => (hg e).1 : (s.inboxes.map g).map Entry.inbox = _)
    exact (h.subscribed p hp).of_eq rfl (fun h => named ▸ h) (fun h => h) rfl rfl
  case woken =>
    intro p hp owed
    obtain elsewhere | ⟨e, he, named, stored⟩ | coming := h.woken p hp owed
    case inl     => exact .inl elsewhere
    case inr.inl => exact .inr (.inl ⟨g e, List.mem_map_of_mem he, (hg e).1.trans named, (hg e).2.2.trans stored⟩)
    case inr.inr => exact .inr (.inr coming)

theorem Inv.leave (h : s.Inv) (push : PushId) : (s.leave push).Inv :=
  h.map_inboxes (fun _ => ⟨rfl, rfl, rfl⟩) fun _ _ _ hw => .inl (List.mem_of_mem_filter hw)

theorem Inv.watch (h : s.Inv) (hp : p ∈ s.pushes) : (s.watch p).Inv := by
  unfold State.watch
  split
  case isFalse =>
    apply h.map_inboxes
    case hg => intro e; split <;> exact ⟨rfl, rfl, rfl⟩
    case hw =>
      intro e _ w hw
      split at hw
      case isFalse => exact .inl hw
      case isTrue same =>
        cases List.mem_append.mp hw with
        | inl hw => exact .inl (List.mem_of_mem_filter hw)
        | inr hw => exact .inr ⟨p, hp, same.symm, List.mem_singleton.mp hw⟩
  case isTrue =>
    have other : ∀ q ∈ s.pushes, q.owed → q.id ∉ [p.id] → q.inbox ≠ p.inbox := by
      intro q hq owed apart same
      exact apart (List.mem_singleton.mpr (congrArg Push.id (h.alone q hq owed p hp same.symm).symm))
    constructor
    case fits =>
      apply h.fits.map
      case hf => intro q; split <;> exact ⟨rfl, rfl⟩
      case hg => intro e; split <;> exact ⟨rfl, rfl⟩
      case hw => intro e _ w hw; split at hw <;> exact .inl hw
    case alone => exact h.alone.map fun q => by split <;> simp
    case subscribed =>
      intro q' hq'
      obtain ⟨q, hq, rfl⟩ := List.mem_map.mp hq'
      have same : (if q.id ∈ [p.id] then { q with owed := false } else q).inbox = q.inbox := by split <;> rfl
      have named : (s.inboxes.map fun e => if e.inbox = p.inbox then { e with permit := false } else e).map
          Entry.inbox = s.inboxes.map Entry.inbox := map_inbox fun e => by split <;> rfl
      rw [same]
      exact (h.subscribed q hq).of_eq rfl (fun h => named ▸ h) (fun h => h) rfl rfl
    case woken =>
      intro q' hq' owed
      obtain ⟨q, hq, rfl⟩ := List.mem_map.mp hq'
      split at owed
      case isTrue => cases owed
      case isFalse apart =>
        rw [if_neg apart]
        obtain elsewhere | ⟨e, he, named, stored⟩ | coming := h.woken q hq owed
        case inl     => exact .inl elsewhere
        case inr.inl =>
          refine .inr (.inl ⟨e, List.mem_map.mpr ⟨e, he, ?_⟩, named, stored⟩)
          exact if_neg (named ▸ other q hq owed apart)
        case inr.inr => exact .inr (.inr coming)

theorem Inv.arrive (h : s.Inv)
    (one : ∀ p ∈ s.pushes, p.inbox = inbox → ∀ q ∈ s.pushes, q.inbox = inbox → q = p)
    (answered : s.phase = .session true → (∃ p ∈ s.pushes, p.inbox = inbox) → inbox ∈ s.answered) :
    Inv { s with
      pushes := s.pushes.map fun p => if p.inbox = inbox then { p with owed := true } else p
      frames := if inbox ∈ s.answered then s.frames ++ [.event (some inbox)] else s.frames } := by
  constructor
  case fits => apply h.fits.map_pushes; intro p; split <;> exact ⟨rfl, rfl⟩
  case alone =>
    intro p' hp' owed q' hq' same
    obtain ⟨p, hp, rfl⟩ := List.mem_map.mp hp'
    obtain ⟨q, hq, rfl⟩ := List.mem_map.mp hq'
    have := h.alone p hp
    grind
  case subscribed =>
    intro p' hp'
    obtain ⟨p, hp, rfl⟩ := List.mem_map.mp hp'
    have same : (if p.inbox = inbox then { p with owed := true } else p).inbox = p.inbox := by split <;> rfl
    rw [same]
    exact (h.subscribed p hp).of_eq rfl (fun h => h) (fun h => h) rfl rfl
  case woken =>
    intro p' hp' owed
    obtain ⟨p, hp, rfl⟩ := List.mem_map.mp hp'
    by_cases named : p.inbox = inbox
    case pos =>
      rw [if_pos named]
      by_cases connected : s.phase = .session true
      case neg => exact .inl connected
      case pos =>
        refine .inr (.inr ?_)
        simp only [if_pos (answered connected ⟨p, hp, named⟩)]
        exact List.mem_append_right _ (List.mem_singleton.mpr (congrArg (fun i => Frame.event (some i)) named))
    case neg =>
      rw [if_neg named] at owed ⊢
      obtain elsewhere | stored | coming := h.woken p hp owed
      case inl     => exact .inl elsewhere
      case inr.inl => exact .inr (.inl stored)
      case inr.inr =>
        refine .inr (.inr ?_)
        dsimp only
        split
        case isTrue  => exact List.mem_append_left _ coming
        case isFalse => exact coming

-- Not subscribed on a connection, everything is yet to be read and woken.
theorem Inv.disconnected (h : s.Inv) (pushes : s'.pushes = s.pushes) (inboxes : s'.inboxes = s.inboxes)
    (phase : s'.phase = .idle ∨ s'.phase = .resting ∨ s'.phase = .drained) : s'.Inv := by
  apply h.of_eq pushes inboxes
  case subscribed =>
    intro inbox named _
    unfold Subscribed
    obtain phase | phase | phase := phase <;> simpa [phase, inboxes] using named
  case woken => exact fun p _ => .inl (by obtain phase | phase | phase := phase <;> simp [phase])

theorem Inv.receive (h : s.Inv) (frames : s.frames = frame :: rest) :
    ({ s with frames := rest }.receive frame).Inv := by
  have named : ∀ p ∈ s.pushes, { s with frames := rest }.Subscribed p.inbox :=
    fun p hp => (h.subscribed p hp).of_eq rfl (fun h => h) (fun h => h) rfl rfl
  have woken : ∀ p ∈ s.pushes, p.owed → { s with frames := rest }.ToWake p ∨ frame = .event (some p.inbox) := by
    intro p hp owed
    obtain elsewhere | stored | coming := h.woken p hp owed
    case inl     => exact .inl (.inl elsewhere)
    case inr.inl => exact .inl (.inr (.inl stored))
    case inr.inr =>
      rw [frames] at coming
      cases List.mem_cons.mp coming with
      | inl coming => exact .inr coming.symm
      | inr coming => exact .inl (.inr (.inr coming))
  cases frame with
  | event inbox =>
    refine Inv.wake (s := { s with frames := rest }) h.fits h.alone named ?_
    intro p hp owed
    cases woken p hp owed with
    | inl woken => exact .inl woken
    | inr event => exact .inr (.inr (Frame.event.inj event))
  | subscribed =>
    simp only [State.receive]
    split
    case isTrue none_ =>
      apply Inv.wake
      case fits  => exact h.fits
      case alone => exact h.alone
      case subscribed =>
        intro p hp
        have := h.subscribed p hp
        rw [Subscribed, none_] at this
        exact this
      case woken => exact fun _ _ _ => .inr (.inl rfl)
    case isFalse =>
      exact ⟨h.fits, h.alone, named, fun p hp owed => (woken p hp owed).resolve_right nofun⟩

theorem Inv.step (h : s.Inv) (ok : s.Undisturbed a) (hs : s.step a = some s') : s'.Inv := by
  cases a <;> simp only [State.step] at hs
  case new push inbox =>
    split at hs
    case isTrue        => cases hs
    case isFalse fresh => cases hs; exact h.new fresh ok
  case drop push =>
    split at hs
    case _         => cases hs
    case _ p found => cases hs; exact h.drop found
  case watch push =>
    split at hs
    case _         => cases hs
    case _ p found =>
      split at hs
      case isTrue  => cases hs
      case isFalse => cases hs; exact h.watch (List.mem_of_find?_eq_some found)
  case giveUp push => cases hs; exact h.leave push
  case discard =>
    split at hs
    case isTrue idle => cases hs; exact h.disconnected rfl rfl (idle.imp_right .inl)
    case isFalse     => cases hs
  case handshake =>
    split at hs
    case isTrue  => cases hs; exact h.disconnected rfl rfl (.inr (.inr rfl))
    case isFalse => cases hs
  case readInboxes =>
    split at hs
    case isFalse => cases hs
    case isTrue  =>
      cases hs
      refine h.of_eq rfl rfl ?subscribed ?woken
      case subscribed => intro inbox named _; exact .inl (by rw [chunks, flatten_chunksOf (Nat.le_refl _)]; exact named)
      case woken      => exact fun _ _ => .inl nofun
  case subscribe =>
    split at hs
    case _ chunk unsent alone opening =>
      cases hs
      refine h.of_eq rfl rfl ?subscribed ?woken
      case subscribed =>
        intro inbox _ h
        simp only [Subscribed, opening, List.flatten_append, List.flatten_cons, List.flatten_nil,
          List.mem_append] at h ⊢
        grind
      case woken => exact fun _ _ => .inl nofun
    case _ => cases hs
  case opened =>
    split at hs
    case _ opening =>
      cases hs
      apply Inv.wake
      case fits  => exact h.fits
      case alone => exact h.alone
      case subscribed =>
        intro p hp
        have := h.subscribed p hp
        simpa [Subscribed, opening] using this
      case woken => exact fun _ _ _ => .inr (.inl rfl)
    case _ opening =>
      cases hs
      refine h.of_eq rfl rfl ?subscribed ?woken
      case subscribed => intro inbox _ h; simpa [Subscribed, opening] using h
      case woken      => exact fun _ _ => .inl (by simp)
    case _ => cases hs
  case command =>
    split at hs
    case _ subscribed inbox commands connected queue =>
      cases hs
      refine h.of_eq rfl rfl ?subscribed ?woken
      case subscribed =>
        intro inbox _ h
        simp only [Subscribed, connected, queue, List.flatten_append, List.flatten_cons, List.flatten_nil,
          List.mem_append, List.mem_cons] at h ⊢
        grind
      case woken => exact fun p h => h
    case _ => cases hs
  case frame =>
    split at hs
    case _ subscribed frame frames connected queue => cases hs; exact h.receive queue
    case _ => cases hs
  case fail rests =>
    split at hs
    case isTrue  => cases hs
    case isFalse => cases hs; exact h.disconnected rfl rfl (by cases rests <;> simp)
  case rested =>
    split at hs
    case isTrue  => cases hs; exact h.disconnected rfl rfl (.inl rfl)
    case isFalse => cases hs
  case answer =>
    split at hs
    case _ => cases hs
    case _ chunk asked asking =>
      cases hs
      refine h.of_eq rfl rfl ?subscribed ?woken
      case subscribed =>
        intro inbox _ h
        unfold Subscribed at *
        dsimp only
        split <;> simp_all <;> grind
      case woken =>
        intro p h
        obtain elsewhere | stored | coming := h
        case inl     => exact .inl elsewhere
        case inr.inl => exact .inr (.inl stored)
        case inr.inr => exact .inr (.inr (List.mem_append_left _ coming))
  case arrive inbox => cases hs; exact h.arrive ok.1 ok.2
  case event inbox =>
    split at hs
    case isTrue  => cases hs
    case isFalse =>
      cases hs
      refine h.of_eq rfl rfl ?subscribed ?woken
      case subscribed => exact fun inbox _ h => h.of_eq rfl (fun h => h) (fun h => h) rfl rfl
      case woken =>
        intro p h
        obtain elsewhere | stored | coming := h
        case inl     => exact .inl elsewhere
        case inr.inl => exact .inr (.inl stored)
        case inr.inr => exact .inr (.inr (List.mem_append_left _ coming))

-- Each live push's inbox is subscribed or waits to be, and a message that arrived is followed by a wake-up.
structure LosesNoWakeUp (s : State) : Prop where
  subscribed : ∀ p ∈ s.pushes, s.Subscribed p.inbox
  woken      : ∀ p ∈ s.pushes, p.owed → s.ToWake p

theorem reachable_losesNoWakeUp (h : pushing.Reachable Undisturbed s) : s.LosesNoWakeUp := by
  have inv : s.Inv := by
    apply h.invariant
    case start => rintro s rfl; exact ⟨⟨List.nodup_nil, nofun, nofun, nofun, nofun⟩, nofun, nofun, nofun⟩
    case step  => exact fun _ _ _ h ok hs => h.step ok hs
  exact ⟨inv.subscribed, inv.woken⟩

end State

-- The socket connects for one agent, which is woken and waits.
def connect : List Action :=
  [.new 1 "scout", .handshake, .readInboxes, .subscribe, .opened, .answer, .frame, .watch 1, .watch 1]

theorem reachable_losesNoWakeUp_scout :
    ∃ s : State, s.LosesNoWakeUp ∧ s.frames = [.event (some "scout")] ∧ s.pushes = [⟨1, "scout", true⟩] :=
  have run : pushing.run State.Undisturbed {} (connect ++ [.arrive "scout"]) = some _ := rfl
  ⟨_, State.reachable_losesNoWakeUp ((System.Reachable.start rfl).run run), rfl, rfl⟩

-- Mail that arrives at an inbox added while the socket is connected, before its subscription is answered, wakes nobody.
theorem wakeUp_lost : ¬∀ s, pushing.Reachable (fun _ _ => True) s → s.LosesNoWakeUp := by
  intro h
  have run : pushing.run (fun _ _ => True) {}
      (connect ++ [.new 2 "clerk", .watch 2, .arrive "clerk", .command, .answer, .frame]) = some _ := rfl
  have woken := (h _ ((System.Reachable.start rfl).run run)).woken ⟨2, "clerk", true⟩ List.mem_cons_self rfl
  revert woken
  unfold State.ToWake
  decide

end Kaluta.AgentMail.Socket
