import Kaluta.Outside.Calls

-- A one-call send goes out once or leaves nothing.
namespace Kaluta.Outside

open Guide (Unicode)

section Runs

variable [Unicode] [Mime] {s s' : State} {c : Call}

-- What holds of each answer: an error leaves nothing of the call, now or later, and a success has queued one send
-- with what the call asks for.
structure State.AllOrNothing (s : State) : Prop where
  error : ∀ c ∈ s.calls, ∀ failure sends, c.phase = .answered (.error failure) sends →
    s.sendsOf c.id = [] ∧ (∀ o ∈ s.opened, o.author ≠ some c.id) ∧ ∀ row ∈ s.db.drafts, s.authors row.id ≠ some c.id
  sent  : ∀ c ∈ s.calls, ∀ d queued sends, c.phase = .answered (.sent d queued) sends →
    ∃ op content, sends = [op] ∧ OutboxCarries op content ∧ Wants c.arguments content

namespace State

-- A change of the app leaves the calls that are not answered as they were, and those that failed.
theorem Leaves.change {change : Change} {db : Db} (applied : change.apply s.db = .ok db)
    (ok : ∀ d, change.saves s.db = some d → c.phase.draftId ≠ some d)
    (hs : s.step (.change change) = some s') : s.Leaves s' c := by
  have keeps := change.keeps applied
  simp only [step, applied] at hs
  cases hs
  cases change
  case save draft now =>
    obtain ⟨⟨_, id⟩, saved, rfl⟩ := Except.map_eq_ok.mp applied
    obtain ⟨is, keeps, there, _⟩ := saveDraft_ok saved
    have free : c.phase.draftId ≠ some id := ok id (congrArg some is.symm)
    by_cases new : draft.id = 0
    case pos =>
      rw [if_pos new] at is
      have authors : (if draft.id = 0 then Function.update s.authors s.db.drafts.nextRowid none else s.authors) =
          Function.update s.authors id none := by rw [is, if_pos new]
      exact .saved keeps authors rfl rfl nofun free
    case neg => exact .edited keeps (there new) (if_neg new) rfl rfl free
  all_goals exact .keeps keeps rfl rfl fun _ mem _ => mem

theorem Inv.step {a : Action} (h : s.Inv) (ok : s.undisturbed a = true) (hs : s.step a = some s') : s'.Inv := by
  cases a
  case env env => cases hs; exact h.env env
  case change change =>
    cases applied : change.apply s.db
    case error => simp [State.step, applied] at hs
    case ok db =>
      have leaves := fun c mem => Leaves.change (c := c) applied
        (fun d is => leftAlone_iff.mp (by simpa [undisturbed, is] using ok) c mem) hs
      simp only [State.step, applied] at hs
      cases hs
      refine ⟨⟨fun d id is => ?_, h.known.queued, h.known.opened⟩, fun c mem => (h.holds c mem).leave fun _ => leaves c mem⟩
      refine h.known.author d id ?_
      dsimp only at is
      split at is
      case _ =>
        split at is
        case isTrue =>
          by_cases same : d = s.db.drafts.nextRowid
          case pos => rw [same, Function.update_self] at is; cases is
          case neg => rwa [Function.update_of_ne same] at is
        case isFalse => exact is
      case _ => exact is
  case open_ d route drawn =>
    simp only [State.step] at hs
    split at hs <;> cases hs
    case _ f frozen =>
      obtain ⟨_, _, row, mem, same, _⟩ := freeze_ok frozen
      refine ⟨⟨h.known.author, h.known.queued, fun o mem id is => ?_⟩, fun c mem' => ?_⟩
      case refine_1 =>
        obtain old | new := List.mem_append.mp mem
        case inl => exact h.known.opened o old id is
        case inr => cases List.mem_singleton.mp new; exact h.known.author d id is
      case refine_2 =>
        have holds := h.holds c mem'
        refine holds.leave fun unsent => .keeps (.of_eq rfl) rfl rfl fun o mem is => ?_
        obtain old | new := List.mem_append.mp mem
        case inl => exact old
        case inr =>
          cases List.mem_singleton.mp new
          exact absurd is (holds.foreign unsent ⟨row, ‹_›, same⟩ (leftAlone_iff.mp ok c mem'))
  case push n =>
    obtain ⟨o, opened, hs⟩ := Option.bind_eq_some_iff.mp hs
    obtain ⟨db, pushed, hs⟩ := Option.bind_eq_some_iff.mp hs
    cases hs
    have keeps := keeps_push (Except.ok_of_toOption pushed)
    have mem := List.mem_of_getElem? opened
    refine ⟨⟨h.known.author, fun e mem' id is => ?_, fun o' mem' => ?_⟩, fun c mem' => ?_⟩
    case refine_1 =>
      dsimp only at mem'
      split at mem'
      case isTrue =>
        obtain old | new := List.mem_append.mp mem'
        case inl => exact h.known.queued e old id is
        case inr => cases List.mem_singleton.mp new; exact h.known.opened o mem id is
      case isFalse => exact h.known.queued e mem' id is
    case refine_2 => exact h.known.opened o' (List.mem_of_mem_eraseIdx mem')
    case refine_3 =>
      have holds := h.holds c mem'
      refine holds.leave fun unsent => .keeps keeps rfl ?_ fun o' mem'' _ => List.mem_of_mem_eraseIdx mem''
      by_cases queue : o.frozen.queue = true
      case pos =>
        rw [sendsOf_append (if_pos queue), if_neg (holds.opened unsent o mem), List.append_nil]
      case neg => rw [sendsOf, sendsOf, if_neg queue]
  case call id session headless arguments =>
    obtain ⟨calls, inserted, hs⟩ := Option.bind_eq_some_iff.mp hs
    cases hs
    have still : ∀ id, (∃ c ∈ s.calls, c.id = id) → ∃ c ∈ calls, c.id = id := by
      rintro id ⟨c, mem, same⟩
      exact ⟨c, (Table.mem_insert? inserted).mpr (.inl mem), same⟩
    obtain ⟨fresh, _⟩ := Table.insert?_eq_some.mp inserted
    have new : ¬∃ c ∈ s.calls, c.id = id := by
      rintro ⟨c, mem, same⟩
      exact fresh c mem same
    refine ⟨⟨fun d id is => ?_, fun e mem id is => ?_, fun o mem id is => ?_⟩, fun c mem => ?_⟩
    case refine_1 => exact still id (h.known.author d id is)
    case refine_2 => exact still id (h.known.queued e mem id is)
    case refine_3 => exact still id (h.known.opened o mem id is)
    case refine_4 =>
      obtain old | rfl := (Table.mem_insert? inserted).mp mem
      case inl => exact (h.holds c old).leave fun _ => .same rfl rfl rfl rfl
      case inr =>
        refine ⟨fun d is => new (h.known.author d id is), ?_, fun o mem is => new (h.known.opened o mem id is)⟩
        rw [sendsOf, List.map_eq_nil_iff, List.filter_eq_nil_iff]
        exact fun e mem is => new (h.known.queued e mem id (of_decide_eq_true is))
  case go id given =>
    obtain ⟨c, found, gone⟩ := Option.bind_eq_some_iff.mp hs
    obtain rfl := Table.find?_key_eq found
    exact h.go (Table.find?_mem found) ok gone

theorem reachable_allOrNothing (h : outside.Reachable (fun s a => s.undisturbed a = true) s) : s.AllOrNothing := by
  have inv : s.Inv := by
    apply h.invariant
    case start =>
      rintro s ⟨calls, opened, queued, authors⟩
      refine ⟨⟨by simp [authors], by simp [queued], by simp [opened]⟩, by simp [calls]⟩
    case step => exact fun _ _ _ inv ok hs => inv.step ok hs
  constructor
  case error =>
    intro c mem failure sends phase
    have holds := inv.holds c mem
    unfold Holds at holds
    rw [phase] at holds
    exact ⟨holds.queued, holds.opened, holds.draft⟩
  case sent =>
    intro c mem d queued sends phase
    have holds := inv.holds c mem
    unfold Holds at holds
    rw [phase] at holds
    exact holds

end State

end Runs

-- Where nothing is changed into HTML, and every message can be built.
abbrev plain : Mime where
  markdownToHtml   := id
  textToHtml       := id
  htmlToQuotedText := id
  sanitizeHtml     := id
  builds _         := true

namespace State

attribute [local instance] Guide.ascii plain

-- A mailbox that asks before each send, with one session.
def asking : State where
  env := {
    sessions := fun session => if session = 1 then some { guard := { scope := .mailbox } } else none
    agent    := some { address := "scout@example.com", name := "Scout", sendMode := .ask, service := .agentMail }
    own      := ["scout@example.com"] }

theorem asking_start : outside.Start asking :=
  ⟨rfl, rfl, rfl, rfl⟩

def lunch : Arguments :=
  .send ["Ann <ann@example.com>"] [] "Lunch" "At noon?"

-- A call up to where it asks.
def proposed : List Action :=
  .call 1 1 false (.ok lunch) :: List.replicate 6 (.go 1 {})

-- What each call answered.
def answers (s : State) : List Outcome :=
  s.calls.rows.filterMap fun c =>
    match c.phase with
    | .answered outcome _ => some outcome
    | _                   => none

theorem mem_answers {s : State} {outcome : Outcome} (h : outcome ∈ s.answers) :
    ∃ c ∈ s.calls, ∃ sends, c.phase = .answered outcome sends := by
  obtain ⟨c, mem, is⟩ := List.mem_filterMap.mp h
  split at is
  case _ sends phase =>
    cases is
    exact ⟨c, mem, sends, phase⟩
  case _ => cases is

theorem approved_allOrNothing :
    ∃ s, outside.run (fun s a => s.undisturbed a = true) asking (proposed ++ List.replicate 5 (.go 1 {})) = some s ∧
      s.answers = [.sent 1 false] ∧ s.AllOrNothing := by
  have run : ((outside.run (fun s a => s.undisturbed a = true) asking (proposed ++ List.replicate 5 (.go 1 {}))).any
      fun s => s.answers = [.sent 1 false]) = true := by decide
  obtain ⟨s, hs, is⟩ := (Option.any_eq_true _ _).mp run
  exact ⟨s, hs, of_decide_eq_true is, reachable_allOrNothing ((System.Reachable.start asking_start).run hs)⟩

-- The user sends the draft while asked about it, and then declines.
def sentMeanwhile : List Action :=
  proposed ++ [.open_ 1 { sender := ⟨none, "scout@example.com"⟩ } { rfc822Id := "r1", token := "t1" }, .push 0,
    .go 1 { approval := .rejected }, .go 1 {}]

theorem declined_but_sent : ∃ s, outside.Reachable (fun _ _ => True) s ∧
    s.answers = [.error ⟨"rejected_by_user", "The user declined this action."⟩] ∧
    s.db.outbox.rows.map (·.op.isSend) = [true] ∧ ¬s.AllOrNothing := by
  have run : ((outside.run (fun _ _ => True) asking sentMeanwhile).any fun s =>
      s.answers = [.error ⟨"rejected_by_user", "The user declined this action."⟩] ∧
        s.db.outbox.rows.map (·.op.isSend) = [true] ∧ (s.sendsOf 1).length = 1 ∧
          s.calls.rows.map (·.id) = [1]) = true := by decide
  obtain ⟨s, hs, is⟩ := (Option.any_eq_true _ _).mp run
  obtain ⟨answers, outbox, sends, calls⟩ := of_decide_eq_true is
  refine ⟨s, (System.Reachable.start asking_start).run hs, answers, outbox, fun whole => ?_⟩
  obtain ⟨c, mem, _, phase⟩ := mem_answers (answers ▸ List.mem_singleton_self _)
  have same : c.id = 1 := List.mem_singleton.mp (calls ▸ List.mem_map_of_mem mem)
  have none_ := (whole.error c mem _ _ phase).1
  rw [same] at none_
  rw [none_] at sends
  cases sends

end State

end Kaluta.Outside
