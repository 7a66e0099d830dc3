import Kaluta.AgentMail.Poll
import Mathlib.Data.List.TakeWhile

-- What polling AgentMail reports: each message that arrives, once, and each label event, in order.
namespace Kaluta.AgentMail.Polling

section Pages

variable {service : Service} {fails : Request → Bool}

theorem Service.take_page (all : List α) (n : Nat) :
    all.take (n * service.pageSize) ++ (service.page all n).1 = all.take ((n + 1) * service.pageSize) := by
  rw [Nat.succ_mul, List.take_add]
  rfl

theorem Service.take_lastPage {all : List α} (h : (service.page all n).2 = false) :
    all.take ((n + 1) * service.pageSize) = all := by
  have : all.length - n * service.pageSize ≤ service.pageSize := by simpa [Service.page] using h
  apply List.take_of_length_le
  rw [Nat.succ_mul]
  omega

theorem listPages_ok (h : listPages service fails all k n (all.take (n * service.pageSize)) = .ok listed) :
    listed = all := by
  induction k generalizing n
  case zero => cases h
  case succ k ih =>
    rw [listPages, Service.take_page] at h
    split at h
    case isTrue => cases h
    case isFalse =>
      split at h
      case isTrue  => exact ih h
      case isFalse last =>
        cases h
        exact Service.take_lastPage (by simpa using last)

theorem listSince_ok (h : listSince service fails after now = .ok listed) : listed = service.since after now :=
  listPages_ok (n := 0) (by simpa [listSince] using h)

-- What `eventPages` returns once it reaches the cursor or the end of the list.
def Cursor.readTo (cursor : Cursor) (all : List Event) : List Event × Option (String × Int) :=
  ((all.takeWhile (!cursor.reached ·)).reverse, newestOf none all)

theorem newestOf_append (es es' : List Event) : newestOf (newestOf none es) es' = newestOf none (es ++ es') := by
  cases es <;> simp [newestOf]

theorem Cursor.readTo_append {cursor : Cursor} {es : List Event} (h : es.any cursor.reached) (es' : List Event) :
    cursor.readTo (es ++ es') = cursor.readTo es := by
  have ⟨e, he, hr⟩ := List.any_eq_true.mp h
  have stops : (es.takeWhile (!cursor.reached ·)).length ≠ es.length := by
    intro whole
    have := List.mem_takeWhile_imp ((List.takeWhile_prefix _).eq_of_length whole ▸ he)
    simp [hr] at this
  have first : newestOf none (es ++ es') = newestOf none es := by cases es <;> simp_all [newestOf]
  rw [Cursor.readTo, Cursor.readTo, List.takeWhile_append, if_neg stops, first]

theorem eventPages_ok {cursor : Cursor} {read : List Event} (unread : ∀ e ∈ read, ¬cursor.reached e)
    (at_ : read = all.take (n * service.pageSize))
    (h : eventPages service fails cursor all k n read (newestOf none read) = .ok result) :
    result = cursor.readTo all := by
  induction k generalizing n read
  case zero => cases h
  case succ k ih =>
    have next : read ++ (service.page all n).1 = all.take ((n + 1) * service.pageSize) :=
      at_ ▸ Service.take_page all n
    have readOn : (read ++ (service.page all n).1).takeWhile (!cursor.reached ·) =
        read ++ (service.page all n).1.takeWhile (!cursor.reached ·) :=
      List.takeWhile_append_of_pos (by simpa using unread)
    unfold eventPages at h
    simp only [newestOf_append] at h
    split at h
    case isTrue => cases h
    case isFalse =>
      split at h
      case isTrue done =>
        rw [← readOn] at h
        cases h
        by_cases any : (service.page all n).1.any cursor.reached
        case pos =>
          have found : (read ++ (service.page all n).1).any cursor.reached := by rw [List.any_append, any, Bool.or_true]
          have := Cursor.readTo_append found (all.drop ((n + 1) * service.pageSize))
          rw [next, List.take_append_drop] at this
          rw [this, next]
          rfl
        case neg =>
          have last : (service.page all n).2 = false := by simpa [any] using done
          rw [next, Service.take_lastPage last]
          rfl
      case isFalse more =>
        have none_ : ∀ e ∈ (service.page all n).1, ¬cursor.reached e := by simp_all
        have whole : (service.page all n).1.takeWhile (!cursor.reached ·) = (service.page all n).1 :=
          List.takeWhile_eq_self_iff.mpr (by simpa using none_)
        rw [whole] at h
        refine ih ?_ next h
        intro e he
        cases List.mem_append.mp he with
        | inl he => exact unread e he
        | inr he => exact none_ e he

theorem eventsSince_ok {cursor : Cursor} (h : eventsSince service fails cursor now = .ok result) :
    result = cursor.readTo (service.events now) :=
  eventPages_ok (List.forall_mem_nil _) (by simp) h

end Pages

section Events

variable {service : Service}

-- The events from one position of the list on to another.
def Service.between (service : Service) (k n : Nat) : List Event :=
  (service.log.take n).drop k

-- A cursor whose last event is the last of so many.
structure Cursor.UpTo (service : Service) (cursor : Cursor) (k : Nat) : Prop where
  event   : cursor.event = ((service.log.take k).getLast?).map Event.eventId
  eventAt : cursor.eventAt = (((service.log.take k).getLast?).map Event.eventAt).getD 0

theorem Service.take_between (h : k ≤ n) : service.log.take k ++ service.between k n = service.log.take n := by
  have first : (service.log.take n).take k = service.log.take k := by rw [List.take_take, Nat.min_eq_left h]
  rw [← first, Service.between, List.take_append_drop]

theorem Service.between_append (hk : k ≤ n) (hn : n ≤ n') :
    service.between k n ++ service.between n n' = service.between k n' := by
  apply List.append_cancel_left
  rw [← List.append_assoc, take_between hk, take_between hn, take_between (hk.trans hn)]

-- An event after the cursor's is not taken for it or for one before it.
theorem Cursor.UpTo.unreached {cursor : Cursor} (h : cursor.UpTo service k) (hk : k ≤ n)
    (he : e ∈ service.between k n) : ¬cursor.reached e := by
  cases last : (service.log.take k).getLast? with
  | none   => simp [Cursor.reached, h.event, h.eventAt, last]
  | some c =>
    have before : c ∈ service.log.take k := List.mem_of_getLast? last
    have split : service.log = service.log.take k ++ service.between k n ++ service.log.drop n := by
      rw [Service.take_between hk, List.take_append_drop]
    have ids := service.eventIds
    have times := service.inTime
    rw [split] at times
    rw [split, List.Nodup, List.pairwise_map] at ids
    have id := (List.pairwise_append.mp (List.pairwise_append.mp ids).1).2.2 c before e he
    have time := (List.pairwise_append.mp (List.pairwise_append.mp times).1).2.2 c before e he
    simp [Cursor.reached, h.event, h.eventAt, last, id]
    omega

theorem Cursor.UpTo.reached_last {cursor : Cursor} (h : cursor.UpTo service k) :
    (service.log.take k).reverse.takeWhile (!cursor.reached ·) = [] := by
  cases last : (service.log.take k).reverse with
  | nil       => rfl
  | cons c es =>
    have : (service.log.take k).getLast? = some c := by simp [← List.head?_reverse, last]
    simp [Cursor.reached, h.event, this]

-- Reading down to the cursor gives the events after it, and no others.
theorem Cursor.UpTo.readTo {cursor : Cursor} (h : cursor.UpTo service k) (hk : k ≤ service.logged now) :
    (cursor.readTo (service.events now)).1 = service.between k (service.logged now) := by
  have unread : ∀ e ∈ (service.between k (service.logged now)).reverse, !cursor.reached e :=
    fun e he => by simpa using h.unreached hk (List.mem_reverse.mp he)
  rw [Cursor.readTo, Service.events, ← Service.take_between hk, List.reverse_append, List.takeWhile_append_of_pos unread,
    h.reached_last, List.append_nil, List.reverse_reverse]

theorem newestOf_events (now : Int) :
    newestOf none (service.events now) =
      (service.log.take (service.logged now)).getLast?.map fun e => (e.eventId, e.eventAt) := by
  simp [newestOf, Service.events]

end Events

section Calls

variable {service : Service}

def Change.reports : Change → Option String
  | .messageAdded messageId _ _ => some messageId
  | _                           => none

def Change.ofLabels (c : Change) : Bool :=
  c.reports = none

theorem Event.changes_ofLabels (hc : c ∈ Event.changes inInbox e) : c.reports = none := by
  unfold Event.changes at hc
  repeat' split at hc
  all_goals simp_all [Change.reports]
  all_goals obtain rfl | rfl | rfl := hc <;> rfl

-- The mail that a poll from a cursor has not seen.
def Service.unseen (service : Service) (cursor : Cursor) (now : Int) : List Arrival :=
  (service.since (cursor.at_ - OVERLAP_MS) now).reverse.filter fun m => m.messageId ∉ cursor.seen

-- The newest time that a poll from a cursor has seen.
def Service.newestTime (service : Service) (cursor : Cursor) (now : Int) : Int :=
  max ((((service.since (cursor.at_ - OVERLAP_MS) now).map Arrival.time).max?).getD 0) cursor.at_

-- What a poll that succeeds reports.
def Service.changesFrom (service : Service) (listedAt eventsAt lookedAt : Int) (cursor : Cursor) : List Change :=
  (service.unseen cursor listedAt).map (fun m => .messageAdded m.messageId m.threadId (toLocal (m.labels listedAt))) ++
    (cursor.readTo (service.events eventsAt)).1.flatMap (Event.changes (service.inInbox lookedAt))

-- Where a poll that succeeds leaves the cursor.
def Service.cursorFrom (service : Service) (listedAt eventsAt : Int) (cursor : Cursor) : Cursor :=
  let near := seenNear (service.since (cursor.at_ - OVERLAP_MS) listedAt) (service.newestTime cursor listedAt)
  let newest := (cursor.readTo (service.events eventsAt)).2
  { at_     := service.newestTime cursor listedAt
    seen    := if service.newestTime cursor listedAt = cursor.at_ then (near ++ cursor.seen).dedup else near
    event   := (newest.map Prod.fst).or cursor.event
    eventAt := (newest.map Prod.snd).getD cursor.eventAt }

theorem changesSince_ok {fails : Request → Bool}
    (h : changesSince service fails listedAt eventsAt lookedAt cursor = .ok (changes, cursor')) :
    changes = service.changesFrom listedAt eventsAt lookedAt cursor ∧
    cursor' = service.cursorFrom listedAt eventsAt cursor := by
  unfold changesSince at h
  cases hl : listSince service fails (cursor.at_ - OVERLAP_MS) listedAt with
  | error e  => rw [hl] at h; cases h
  | ok listed =>
    cases he : eventsSince service fails cursor eventsAt with
    | error e => rw [hl] at h; simp only [he] at h; cases h
    | ok read =>
      rw [hl] at h
      simp only [he, bind, Except.bind] at h
      split at h
      case isTrue => cases h
      case isFalse =>
        cases listSince_ok hl
        cases eventsSince_ok he
        cases h
        exact ⟨rfl, rfl⟩

end Calls

section Reports

variable {service : Service} {cursor : Cursor} {id : String}

theorem Service.mem_since : m ∈ service.since after now ↔ m ∈ service.arrivals ∧ m.visible ≤ now ∧ after ≤ m.time := by
  simp only [Service.since, Service.mail, List.mem_filter, List.mem_reverse, decide_eq_true_eq, and_assoc]

theorem Service.mem_unseen : m ∈ service.unseen cursor now ↔
    m ∈ service.since (cursor.at_ - OVERLAP_MS) now ∧ m.messageId ∉ cursor.seen := by
  simp [Service.unseen]

theorem Service.unseen_ids : ((service.unseen cursor now).map Arrival.messageId).Nodup := by
  rw [unseen, since, mail, ← List.filter_reverse, List.reverse_reverse]
  exact service.ids.sublist (((List.filter_sublist.trans List.filter_sublist).trans List.filter_sublist).map _)

theorem Service.same_id (hm : m ∈ service.arrivals) (hm' : m' ∈ service.arrivals) (h : m.messageId = m'.messageId) :
    m = m' :=
  List.inj_on_of_nodup_map service.ids hm hm' h

theorem mem_seenNear {messages : List Arrival} :
    id ∈ seenNear messages at_ ↔ ∃ m ∈ messages, at_ - OVERLAP_MS ≤ m.time ∧ m.messageId = id := by
  simp [seenNear, and_assoc]

-- The ids that changes report as added.
def reported (changes : List Change) : List String :=
  changes.filterMap Change.reports

@[simp] theorem reported_append : reported (changes ++ changes') = reported changes ++ reported changes' :=
  List.filterMap_append ..

theorem reported_labels (es : List Event) (inInbox : Event → String → Bool) :
    reported (es.flatMap fun e => e.changes (inInbox e)) = [] := by
  apply List.filterMap_eq_nil_iff.mpr
  intro c hc
  have ⟨e, _, hc⟩ := List.mem_flatMap.mp hc
  exact Event.changes_ofLabels hc

theorem reported_changesFrom :
    reported (service.changesFrom listedAt eventsAt lookedAt cursor) =
      (service.unseen cursor listedAt).map Arrival.messageId := by
  rw [Service.changesFrom, reported_append, reported_labels _ fun _ => service.inInbox lookedAt, List.append_nil, reported,
    List.filterMap_map]
  exact congrFun List.filterMap_eq_map _

theorem labels_changesFrom :
    (service.changesFrom listedAt eventsAt lookedAt cursor).filter Change.ofLabels =
      (cursor.readTo (service.events eventsAt)).1.flatMap (Event.changes (service.inInbox lookedAt)) := by
  have added : ∀ m : Arrival, ¬(Change.messageAdded m.messageId m.threadId (toLocal (m.labels listedAt))).ofLabels := by
    simp [Change.ofLabels, Change.reports]
  rw [Service.changesFrom, List.filter_append, List.filter_eq_nil_iff.mpr, List.filter_eq_self.mpr, List.nil_append]
  case _ =>
    intro c hc
    have ⟨e, _, hc⟩ := List.mem_flatMap.mp hc
    simpa [Change.ofLabels] using Event.changes_ofLabels hc
  case _ =>
    intro c hc
    obtain ⟨m, _, rfl⟩ := List.mem_map.mp hc
    exact added m

theorem Service.at_le_newestTime : cursor.at_ ≤ service.newestTime cursor now :=
  le_max_right ..

-- The newest time is not ahead where no listed message is.
theorem Service.newestTime_le (h : cursor.at_ ≤ now) (hn : 0 ≤ now) (stamped : ∀ m ∈ service.mail now, m.time ≤ now) :
    service.newestTime cursor now ≤ now := by
  apply max_le _ h
  cases newest : ((service.since (cursor.at_ - OVERLAP_MS) now).map Arrival.time).max? with
  | none   => exact hn
  | some t =>
    have ⟨m, hm, ht⟩ := List.mem_map.mp (List.max?_mem newest)
    exact ht ▸ stamped m (List.mem_filter.mp hm).left

theorem Service.mem_seen (hid : id ∈ (service.cursorFrom listedAt eventsAt cursor).seen) :
    (∃ m ∈ service.since (cursor.at_ - OVERLAP_MS) listedAt, m.messageId = id) ∨ id ∈ cursor.seen := by
  simp only [Service.cursorFrom] at hid
  split at hid
  case isTrue  =>
    cases List.mem_append.mp (List.mem_dedup.mp hid) with
    | inl hid => have ⟨m, hm, _, h⟩ := mem_seenNear.mp hid; exact .inl ⟨m, hm, h⟩
    | inr hid => exact .inr hid
  case isFalse => have ⟨m, hm, _, h⟩ := mem_seenNear.mp hid; exact .inl ⟨m, hm, h⟩

-- Mail that the next poll lists again is in its cursor.
theorem Service.seen_near (hm : m ∈ service.since (cursor.at_ - OVERLAP_MS) listedAt)
    (near : (service.cursorFrom listedAt eventsAt cursor).at_ - OVERLAP_MS ≤ m.time) :
    m.messageId ∈ (service.cursorFrom listedAt eventsAt cursor).seen := by
  have := mem_seenNear.mpr ⟨m, hm, near, rfl⟩
  simp only [Service.cursorFrom]
  split
  case isTrue  => exact List.mem_dedup.mpr (List.mem_append_left _ this)
  case isFalse => exact this

theorem Cursor.UpTo.next (h : cursor.UpTo service k) (hk : k ≤ service.logged eventsAt) :
    (service.cursorFrom listedAt eventsAt cursor).UpTo service (service.logged eventsAt) := by
  cases newest : (service.log.take (service.logged eventsAt)).getLast? with
  | none   =>
    have all : service.log.take (service.logged eventsAt) = [] := List.getLast?_eq_none_iff.mp newest
    have : service.log.take k = [] := List.append_eq_nil_iff.mp ((Service.take_between hk).trans all) |>.1
    constructor <;> simp [Service.cursorFrom, Cursor.readTo, newestOf_events, newest, h.event, h.eventAt, this]
  | some e => constructor <;> simp [Service.cursorFrom, Cursor.readTo, newestOf_events, newest]

end Reports

section Runs

variable {service : Service} {s s' : State}

-- Nothing that a call goes by is ahead of AgentMail's time: no mail that it lists, and where `profile` lists none, not
-- this Mac's clock.
def Call.inTime (service : Service) : Call → Prop
  | .profile _ clock listedAt _  =>
    (∀ m ∈ service.newest listedAt, m.time ≤ listedAt) ∧ (service.newest listedAt = [] → clock ≤ listedAt)
  | .changesSince _ listedAt _ _ => ∀ m ∈ service.mail listedAt, m.time ≤ listedAt

namespace State

-- The ids reported as added since the cursor's profile.
def reported (s : State) : List String :=
  Polling.reported s.changes

-- The invariant: how far a cursor is, and what was reported on the way.
structure Keeps (service : Service) (s : State) (cursor : Cursor) : Prop where
  listedAt : 0 ≤ s.listedAt ∧ s.listedAt ≤ s.now
  counted  : s.start ≤ s.counted ∧ s.counted ≤ service.logged s.now
  at_      : cursor.at_ ≤ s.listedAt
  upTo     : cursor.UpTo service s.counted
  seen     : ∀ id ∈ cursor.seen, ∃ m ∈ service.arrivals, m.visible ≤ s.listedAt ∧ m.messageId = id
  told     : ∀ m ∈ service.arrivals, s.first < m.visible → m.visible ≤ s.listedAt → m.messageId ∈ s.reported
  known    : ∀ id ∈ s.reported, ∃ m ∈ service.arrivals, m.visible ≤ s.listedAt ∧ m.messageId = id
  near     : ∀ m ∈ service.arrivals, m.messageId ∈ s.reported → cursor.at_ - OVERLAP_MS ≤ m.time →
    m.messageId ∈ cursor.seen
  once     : s.reported.Nodup
  inOrder  : s.applied.map Prod.fst = service.between s.start s.counted
  labels   : s.changes.filter Change.ofLabels =
    s.applied.flatMap fun (e, lookedAt) => e.changes (service.inInbox lookedAt)

section Steps

variable {cursor : Cursor} {fails : Request → Bool} {clock listedAt eventsAt lookedAt : Int}

theorem Keeps.later (h : s.Keeps service cursor) (ht : s.now ≤ t) : { s with now := t }.Keeps service cursor :=
  { h with
    listedAt := ⟨h.listedAt.1, h.listedAt.2.trans ht⟩
    counted  := ⟨h.counted.1, h.counted.2.trans (service.grows ht)⟩ }

theorem Keeps.profile (h : Polling.profile service fails clock listedAt eventsAt = .ok cursor)
    (stamped : ∀ m ∈ service.newest listedAt, m.time ≤ listedAt)
    (right : service.newest listedAt = [] → clock ≤ listedAt) (hl : 0 ≤ listedAt) (he : listedAt ≤ eventsAt) :
    Keeps service {
      now := eventsAt, cursor := some cursor, first := listedAt, listedAt
      start := service.logged eventsAt, counted := service.logged eventsAt } cursor := by
  have mail : ∀ m ∈ service.newest listedAt, m ∈ service.arrivals ∧ m.visible ≤ listedAt := by
    intro m hm
    have : m ∈ service.mail listedAt := List.mem_of_mem_drop (List.mem_of_mem_take hm)
    simpa [Service.mail] using this
  unfold Polling.profile at h
  simp only at h
  split at h
  case isTrue  => cases h
  case isFalse =>
    cases h
    constructor
    case listedAt => exact ⟨hl, he⟩
    case counted  => exact ⟨le_refl _, le_refl _⟩
    case at_ =>
      cases newest : ((service.newest listedAt).map Arrival.time).max? with
      | none   => simpa [newest] using right (by simpa using newest)
      | some t =>
        have ⟨m, hm, ht⟩ := List.mem_map.mp (List.max?_mem newest)
        exact ht ▸ stamped m hm
    case upTo => constructor <;> simp [Service.events]
    case seen =>
      intro id hid
      have ⟨m, hm, _, hid⟩ := mem_seenNear.mp hid
      exact ⟨m, (mail m hm).1, (mail m hm).2, hid⟩
    case told    => intro m _ after before; exact absurd before (not_le.mpr after)
    case known   => intro id hid; cases hid
    case near    => intro m _ hm; cases hm
    case once    => exact List.nodup_nil
    case inOrder => simp [Service.between]
    case labels  => rfl

theorem Keeps.changesSince (h : s.Keeps service cursor) (stamped : ∀ m ∈ service.mail listedAt, m.time ≤ listedAt)
    (hl : s.now ≤ listedAt) (he : listedAt ≤ eventsAt) (hk : eventsAt ≤ lookedAt) :
    Keeps service { s with
      now     := lookedAt
      cursor  := some (service.cursorFrom listedAt eventsAt cursor)
      listedAt
      counted := service.logged eventsAt
      changes := s.changes ++ service.changesFrom listedAt eventsAt lookedAt cursor
      applied := s.applied ++ (service.between s.counted (service.logged eventsAt)).map fun e => (e, lookedAt) }
      (service.cursorFrom listedAt eventsAt cursor) := by
  have reached : s.listedAt ≤ listedAt := h.listedAt.2.trans hl
  have counted : s.counted ≤ service.logged eventsAt := h.counted.2.trans (service.grows (hl.trans he))
  have read := h.upTo.readTo counted
  have further : cursor.at_ ≤ (service.cursorFrom listedAt eventsAt cursor).at_ := Service.at_le_newestTime
  have all : Polling.reported (s.changes ++ service.changesFrom listedAt eventsAt lookedAt cursor) =
      s.reported ++ (service.unseen cursor listedAt).map Arrival.messageId := by
    rw [reported_append, reported_changesFrom]
    rfl
  -- What the poll adds was not reported before: it would be in the cursor.
  have fresh : ∀ m ∈ service.unseen cursor listedAt, m.messageId ∉ s.reported := by
    intro m hm was
    have ⟨hm, unseen⟩ := Service.mem_unseen.mp hm
    have ⟨arrived, _, near⟩ := Service.mem_since.mp hm
    exact unseen (h.near m arrived was near)
  have known : ∀ id ∈ s.reported ++ (service.unseen cursor listedAt).map Arrival.messageId,
      ∃ m ∈ service.arrivals, m.visible ≤ listedAt ∧ m.messageId = id := by
    intro id hid
    cases List.mem_append.mp hid with
    | inl hid =>
      have ⟨m, hm, visible, hid⟩ := h.known id hid
      exact ⟨m, hm, visible.trans reached, hid⟩
    | inr hid =>
      have ⟨m, hm, hid⟩ := List.mem_map.mp hid
      have ⟨hm, visible, _⟩ := Service.mem_since.mp (Service.mem_unseen.mp hm).1
      exact ⟨m, hm, visible, hid⟩
  constructor
  case listedAt => exact ⟨h.listedAt.1.trans reached, he.trans hk⟩
  case counted  => exact ⟨h.counted.1.trans counted, service.grows hk⟩
  case at_      => exact Service.newestTime_le (h.at_.trans reached) (h.listedAt.1.trans reached) stamped
  case upTo     => exact h.upTo.next counted
  case seen =>
    intro id hid
    cases Service.mem_seen hid with
    | inl hid =>
      have ⟨m, hm, hid⟩ := hid
      have ⟨hm, visible, _⟩ := Service.mem_since.mp hm
      exact ⟨m, hm, visible, hid⟩
    | inr hid =>
      have ⟨m, hm, visible, hid⟩ := h.seen id hid
      exact ⟨m, hm, visible.trans reached, hid⟩
  case told =>
    intro m hm after visible
    rw [State.reported, all]
    by_cases before : m.visible ≤ s.listedAt
    case pos => exact List.mem_append_left _ (h.told m hm after before)
    case neg =>
      apply List.mem_append_right
      apply List.mem_map_of_mem
      apply Service.mem_unseen.mpr
      constructor
      case left =>
        have := service.listed m hm
        have := h.at_
        exact Service.mem_since.mpr ⟨hm, visible, by omega⟩
      case right =>
        intro seen
        have ⟨m', hm', visible', same⟩ := h.seen _ seen
        cases Service.same_id hm hm' same.symm
        exact before visible'
  case known => rw [State.reported, all]; exact known
  case near =>
    intro m hm hr near
    rw [State.reported, all] at hr
    have ⟨m', hm', visible, same⟩ := known _ hr
    cases Service.same_id hm hm' same.symm
    exact Service.seen_near (Service.mem_since.mpr ⟨hm, visible, by omega⟩) near
  case once =>
    rw [State.reported, all]
    apply List.Nodup.append h.once
    case _ =>
      exact service.unseen_ids
    case _ =>
      intro id was new
      have ⟨m, hm, hid⟩ := List.mem_map.mp new
      exact fresh m hm (hid ▸ was)
  case inOrder =>
    have events : ((service.between s.counted (service.logged eventsAt)).map fun e => (e, lookedAt)).map Prod.fst =
        service.between s.counted (service.logged eventsAt) := by simp [Function.comp_def]
    rw [List.map_append, h.inOrder, events, Service.between_append h.counted.1 counted]
  case labels =>
    rw [List.filter_append, h.labels, labels_changesFrom, read, List.flatMap_append, List.flatMap_map]

-- Mail that became listed since the profile is reported, each message once and none that the cursor has; the events
-- since then are applied, each once and in order. A poll that fails leaves everything as it was.
structure LosesNothing (service : Service) (s : State) : Prop where
  told     : ∀ m ∈ service.arrivals, s.first < m.visible → m.visible ≤ s.listedAt → m.messageId ∈ s.reported
  once     : s.reported.Nodup
  notAgain : ∀ cursor fails listedAt eventsAt lookedAt changes cursor', s.cursor = some cursor →
    Polling.changesSince service fails listedAt eventsAt lookedAt cursor = .ok (changes, cursor') →
    ∀ id ∈ cursor.seen, id ∉ Polling.reported changes
  inOrder  : s.applied.map Prod.fst = service.between s.start s.counted
  labels   : s.changes.filter Change.ofLabels =
    s.applied.flatMap fun (e, lookedAt) => e.changes (service.inInbox lookedAt)
  polled   : ∀ fails listedAt eventsAt lookedAt s',
    s.step service (.changesSince fails listedAt eventsAt lookedAt) = some s' →
    s' = { s with now := lookedAt } ∨
    s'.first = s.first ∧ s'.listedAt = listedAt ∧ s'.start = s.start ∧ s'.counted = service.logged eventsAt

-- What holds before the first profile, and of a cursor after it.
def Sound (service : Service) (s : State) : Prop :=
  0 ≤ s.now ∧ match s.cursor with
    | none        => ∃ now, s = { now }
    | some cursor => s.Keeps service cursor

theorem step_changesSince (h : s.step service (.changesSince fails listedAt eventsAt lookedAt) = some s') :
    s.now ≤ listedAt ∧ listedAt ≤ eventsAt ∧ eventsAt ≤ lookedAt ∧ ∃ cursor, s.cursor = some cursor ∧
    (s' = { s with now := lookedAt } ∨ s' = { s with
      now     := lookedAt
      cursor  := some (service.cursorFrom listedAt eventsAt cursor)
      listedAt
      counted := service.logged eventsAt
      changes := s.changes ++ service.changesFrom listedAt eventsAt lookedAt cursor
      applied := s.applied ++ (service.between s.counted (service.logged eventsAt)).map fun e => (e, lookedAt) }) := by
  simp only [step] at h
  split at h
  case isFalse => cases h
  case isTrue times =>
    refine ⟨times.1, times.2.1, times.2.2, ?_⟩
    split at h
    case _ => cases h
    case _ cursor hc =>
      refine ⟨cursor, hc, ?_⟩
      split at h
      case _ => cases h; exact .inl rfl
      case _ ok =>
        obtain ⟨rfl, rfl⟩ := changesSince_ok ok
        cases h
        exact .inr rfl

theorem step_profile (h : s.step service (.profile fails clock listedAt eventsAt) = some s') :
    s.now ≤ listedAt ∧ listedAt ≤ eventsAt ∧ (s' = { s with now := eventsAt } ∨ ∃ cursor,
      Polling.profile service fails clock listedAt eventsAt = .ok cursor ∧ s' = {
        now := eventsAt, cursor := some cursor, first := listedAt, listedAt
        start := service.logged eventsAt, counted := service.logged eventsAt }) := by
  simp only [step] at h
  split at h
  case isFalse => cases h
  case isTrue times =>
    refine ⟨times.1, times.2, ?_⟩
    split at h
    case _           => cases h; exact .inl rfl
    case _ cursor ok => cases h; exact .inr ⟨cursor, ok, rfl⟩

theorem Sound.later (h : s.Sound service) (ht : s.now ≤ t) : { s with now := t }.Sound service := by
  refine ⟨h.1.trans ht, ?_⟩
  have := h.2
  cases hc : s.cursor with
  | none        => rw [hc] at this; obtain ⟨now, rfl⟩ := this; exact ⟨t, rfl⟩
  | some cursor => rw [hc] at this; simpa [hc] using this.later ht

theorem Sound.step (h : s.Sound service) (inTime : call.inTime service) (hs : s.step service call = some s') :
    s'.Sound service := by
  cases call
  case profile fails clock listedAt eventsAt =>
    have ⟨hl, he, hs⟩ := step_profile hs
    obtain rfl | ⟨cursor, ok, rfl⟩ := hs
    case inl => exact h.later (hl.trans he)
    case inr => exact ⟨h.1.trans (hl.trans he), .profile ok inTime.left inTime.right (h.1.trans hl) he⟩
  case changesSince fails listedAt eventsAt lookedAt =>
    have ⟨hl, he, hk, cursor, hc, hs⟩ := step_changesSince hs
    obtain rfl | rfl := hs
    case inl => exact h.later (hl.trans (he.trans hk))
    case inr =>
      have := h.2
      rw [hc] at this
      exact ⟨h.1.trans (hl.trans (he.trans hk)), this.changesSince inTime hl he hk⟩

theorem Sound.kept (h : s.Sound service) : (∃ now, s = { now }) ∨ ∃ cursor, s.Keeps service cursor := by
  have := h.2
  split at this
  case _          => exact .inl this
  case _ cursor _ => exact .inr ⟨cursor, this⟩

theorem Sound.losesNothing (h : s.Sound service) : s.LosesNothing service where
  told m hm after before := by
    obtain ⟨now, rfl⟩ | ⟨cursor, keeps⟩ := h.kept
    case inl => exact absurd before (not_le.mpr after)
    case inr => exact keeps.told m hm after before
  once := by
    obtain ⟨now, rfl⟩ | ⟨cursor, keeps⟩ := h.kept
    case inl => exact List.nodup_nil
    case inr => exact keeps.once
  notAgain cursor fails listedAt eventsAt lookedAt changes cursor' _ ok id seen again := by
    rw [(changesSince_ok ok).1, reported_changesFrom] at again
    have ⟨m, hm, hid⟩ := List.mem_map.mp again
    exact (Service.mem_unseen.mp hm).2 (hid ▸ seen)
  inOrder := by
    obtain ⟨now, rfl⟩ | ⟨cursor, keeps⟩ := h.kept
    case inl => simp [Service.between]
    case inr => exact keeps.inOrder
  labels := by
    obtain ⟨now, rfl⟩ | ⟨cursor, keeps⟩ := h.kept
    case inl => rfl
    case inr => exact keeps.labels
  polled fails listedAt eventsAt lookedAt s' hs := by
    have ⟨_, _, _, _, _, hs⟩ := step_changesSince hs
    obtain rfl | rfl := hs
    case inl => exact .inl rfl
    case inr => exact .inr ⟨rfl, rfl, rfl, rfl⟩

theorem reachable_losesNothing (h : (polling service).Reachable (fun _ call => call.inTime service) s) :
    s.LosesNothing service := by
  apply Sound.losesNothing
  apply h.invariant
  case start => rintro s rfl; exact ⟨le_refl _, 0, rfl⟩
  case step  => exact fun s call s' h inTime hs => h.step inTime hs

end Steps

end State

end Runs

-- A message received ten minutes after the inbox was first read, and starred soon after.
def morning : Service where
  arrivals := [{ messageId := "m1", time := 600000, visible := 600000 }]
  log      := [⟨"e1", "label.added", some "m1", some "starred", 700000⟩]
  logged t := if t < 700000 then 0 else 1
  pageSize := 100
  ids      := by decide
  listed   := by decide
  eventIds := by decide
  inTime   := by decide
  grows    := by
    intro t t' h
    simp only
    split <;> split <;> omega

theorem reachable_losesNothing_morning :
    ∃ s : State, s.LosesNothing morning ∧ s.reported = ["m1"] ∧ s.applied.map Prod.fst = morning.log :=
  have profiled : Call.inTime morning (.profile (fun _ => false) 0 0 0) := ⟨by decide, fun _ => le_refl _⟩
  have polled : Call.inTime morning (.changesSince (fun _ => false) 800000 800000 800000) := by
    simp [Call.inTime, Service.mail, morning]
  have h : (polling morning).Reachable (fun _ call => call.inTime morning) _ :=
    .step (.step (.start rfl) profiled rfl) polled rfl
  ⟨_, State.reachable_losesNothing h, rfl, rfl⟩

-- Two hours fast when the inbox is first read, this Mac's clock puts the cursor past mail that has yet to arrive.
theorem mail_lost : ¬∀ service s, (polling service).Reachable (fun _ _ => True) s → s.LosesNothing service := by
  intro h
  have run : (polling morning).Reachable (fun _ _ => True) _ :=
    .step (.step (a := .profile (fun _ => false) 7200000 0 0) (.start rfl) trivial rfl)
      (a := .changesSince (fun _ => false) 800000 800000 800000) trivial rfl
  have told := (h _ _ run).told { messageId := "m1", time := 600000, visible := 600000 } (by simp [morning])
    (by decide) (by decide)
  exact absurd told (by decide)

end Kaluta.AgentMail.Polling
