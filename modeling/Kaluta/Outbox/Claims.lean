import Kaluta.Lib.Execution
import Kaluta.Lib.Fallible
import Kaluta.Store.Outbox

namespace Kaluta

-- Drops failed ops the user has acknowledged.
def Db.clearFailed (db : Db) : Db := { db with
  outbox := db.outbox.delete (·.state = .failed)
}

end Kaluta

-- An outbox that several processes drain at once.
namespace Kaluta.Outbox.Claims

-- An op that a drainer took, and the sends that were held for Undo Send then. Ops are named by the write that queued
-- them, since row ids are used again.
structure Taken where
  ticket : Nat
  passed : List Nat

structure State where
  db      : Db := {}
  ticket  : Rowid → Nat := fun _ => 0
  next    : Nat := 0
  -- The last one is the head.
  log     : List Taken := []
  undone  : List Nat := []

-- What a drainer's call came to.
inductive Outcome
  | done
  | retry (nextAttemptAt : Millis) (error : String)
  | failed (error : String)

inductive Action
  | enqueue (op : OutboxOp) (now : Millis) (notBefore : Option Millis)
  | claim (claimant : String) (now : Millis)
  | renew (id : Rowid) (claimant : String) (now : Millis)
  | record (id : Rowid) (claimant : String) (outcome : Outcome)
  | recover (me : Claimant) (now : Millis)
  | cancelSend (draftId : Rowid) (now : Millis)
  | releaseHeldSends (now : Millis)
  | clearFailed
  -- What else the app writes to its store.
  | other (db : Db)

-- The outcome of a call, while the claim is still the drainer's.
def record (db : Db) (id : Rowid) (claimant : String) (outcome : Outcome) : StoreResult Db :=
  if db.holds id claimant then
    match outcome with
    | .done           => .ok (db.complete id)
    | .retry at' error => .ok (db.retryLater id at' error)
    | .failed error   => (db.fail id error).map Prod.fst
  else .ok db

namespace State

variable (s : State)

-- A row that a write inserts gets the next ticket.
def write (db : Db) : State := { s with
  db
  ticket := fun id => if (s.db.outbox.find? id).isSome then s.ticket id else s.next
  next   := s.next + 1
}

def held (now : Millis) : List Nat :=
  (s.db.outbox.rows.filter (·.isHeld now)).map fun row => s.ticket row.id

def step : Action → Option State
  | .enqueue op now notBefore => some (s.write (s.db.enqueueHeld op now notBefore))
  | .claim claimant now       =>
    match s.db.claimNext claimant now (now + LEASE_MS) with
    | (db, .ready op) => some { s.write db with log := ⟨s.ticket op.id, s.held now⟩ :: s.log }
    | _               => none
  | .renew id claimant now    => some (s.write (s.db.renew id claimant (now + LEASE_MS)).1)
  | .record id claimant out   => (record s.db id claimant out).toOption.map s.write
  | .recover me now           => some (s.write (s.db.recoverInFlight me now))
  | .cancelSend draftId now   =>
    let held := s.db.outbox.rows.find? fun row => row.isHeld now && row.draftId = some draftId
    match s.db.cancelSend draftId now, held with
    | .ok (db, some _), some row => some { s.write db with undone := s.ticket row.id :: s.undone }
    | _               , _        => none
  | .releaseHeldSends now     => some (s.write (s.db.releaseHeldSends now))
  | .clearFailed              => some (s.write s.db.clearFailed)
  | .other db                 => if db.outbox.rows = s.db.outbox.rows then some (s.write db) else none

end State

def draining : System State Action where
  Start s := s.db.outbox = ∅ ∧ s.log = [] ∧ s.undone = []
  step    := State.step

variable {s s' : State} {db db' : Db} {row row' a b : OutboxRow} {id : Rowid} {now : Millis}

section Rows

-- What becomes of an op by a write by which no drainer takes one.
structure Carried (row row' : OutboxRow) : Prop where
  id       : row'.id = row.id
  failed   : row.state = .failed → row'.state = .failed
  untried  : row'.op.isSend → row'.state = .pending → row'.attempts = 0 →
    row.op.isSend ∧ row.state = .pending ∧ row.attempts = 0
  inFlight : row'.state = .inFlight → row.state = .inFlight

def Quiet (db db' : Db) : Prop :=
  ∀ row' ∈ db'.outbox,
    (∃ row ∈ db.outbox, Carried row row') ∨ row'.id = db.outbox.nextRowid ∧ row'.state = .pending

theorem Carried.refl : Carried row row :=
  ⟨rfl, fun h => h, fun send pending first => ⟨send, pending, first⟩, fun h => h⟩

theorem Quiet.of_subset (h : ∀ row ∈ db'.outbox, row ∈ db.outbox) : Quiet db db' :=
  fun row mem => .inl ⟨row, h row mem, .refl⟩

theorem Quiet.of_update {p : OutboxRow → Bool} {f : OutboxRow → OutboxRow}
    (eq : db'.outbox.rows = db.outbox.rows.map fun row => if p row then f row else row)
    (carried : ∀ row ∈ db.outbox, p row = true → Carried row (f row)) : Quiet db db' := by
  intro row' mem
  obtain ⟨row, old, rfl⟩ := List.mem_map.mp (eq ▸ Table.mem_rows.mpr mem)
  refine .inl ⟨row, old, ?_⟩
  split
  case isTrue hp => exact carried row old hp
  case isFalse   => exact .refl

theorem Quiet.delete (h : Quiet db db') (p : OutboxRow → Bool) (eq : db''.outbox = db'.outbox.delete p) :
    Quiet db db'' :=
  fun row mem => h row (Table.mem_delete.mp (eq ▸ mem)).1

theorem quiet_enqueueHeld (op : OutboxOp) (notBefore : Option Millis) : Quiet db (db.enqueueHeld op now notBefore) := by
  intro row mem
  obtain mem | rfl := Table.mem_insertRow.mp mem
  case inl => exact .inl ⟨row, mem, .refl⟩
  case inr => exact .inr ⟨rfl, rfl⟩

theorem quiet_discardDraft : Quiet db (db.discardDraft id now) := by
  unfold Db.discardDraft
  split
  case _ => exact .of_subset fun _ h => h
  case _ =>
    split
    case _ => exact quiet_enqueueHeld _ _
    case _ => exact .of_subset fun _ h => h

theorem holds_iff {claimant : String} : db.holds id claimant = true ↔
    ∃ row ∈ db.outbox, row.id = id ∧ row.state = .inFlight ∧ row.claimedBy = some claimant := by
  unfold Db.holds
  constructor
  · intro h
    split at h
    case _ row found =>
      rw [Bool.and_eq_true, decide_eq_true_eq, decide_eq_true_eq] at h
      exact ⟨row, Table.find?_mem found, Table.find?_key_eq found, h⟩
    case _ => cases h
  · rintro ⟨row, mem, rfl, state, by_⟩
    rw [Table.find?_key mem]
    simp [state, by_]

-- Giving up on an op writes its row, whatever it undoes.
theorem fail_outbox {error : String} {changes : ThreadChanges} (h : db.fail id error = .ok (db', changes)) :
    db'.outbox = (db.setOp id
      ({ · with state := .failed, lastError := some error, claimedBy := none, leaseUntil := none })
      (fun _ => rfl)).outbox := by
  unfold Db.fail at h
  split at h
  case _ => cases h
  case _ row _ =>
    obtain ⟨w, _, h⟩ := Except.bind_eq_ok.mp h
    obtain ⟨⟨mail, changes'⟩, _, h⟩ := Except.bind_eq_ok.mp h
    cases h
    split <;> rfl

theorem quiet_record {claimant : String} {outcome : Outcome} (h : record db id claimant outcome = .ok db') :
    Quiet db db' := by
  unfold record at h
  split at h
  case isFalse => cases h; exact .of_subset fun _ h => h
  case isTrue holds =>
    obtain ⟨held, mem, rfl, inFlight, -⟩ := holds_iff.mp holds
    have only {row : OutboxRow} (hm : row ∈ db.outbox) (hid : decide (row.id = held.id) = true) :
        row.state = .inFlight := by
      rw [Table.eq_of_key_eq hm mem (of_decide_eq_true hid)]
      exact inFlight
    split at h
    case _ =>
      cases h
      unfold Db.complete
      split
      case _ => exact .of_subset fun _ h => h
      case _ found _ =>
        dsimp only
        split
        case _ => exact (quiet_discardDraft).delete _ rfl
        case _ => exact (Quiet.of_subset fun _ h => h).delete _ rfl
    case _ =>
      cases h
      refine .of_update rfl fun row hm hid => ⟨rfl, fun failed => ?_, fun _ _ first => ?_, fun state => ?_⟩
      · rw [only hm hid] at failed; cases failed
      · cases first
      · cases state
    case _ error =>
      obtain ⟨⟨_, changes⟩, failed, rfl⟩ := Except.map_eq_ok.mp h
      refine .of_update (congrArg Table.rows (fail_outbox failed)) fun row hm hid => ?_
      refine ⟨rfl, fun _ => rfl, fun _ state => ?_, fun state => ?_⟩
      · cases state
      · cases state

theorem quiet_renew {claimant : String} {leaseUntil : Millis} : Quiet db (db.renew id claimant leaseUntil).1 := by
  unfold Db.renew
  split
  case isTrue  =>
    refine .of_update rfl fun row _ _ => ?_
    exact ⟨rfl, fun h => h, fun send pending first => ⟨send, pending, first⟩, fun h => h⟩
  case isFalse => exact .of_subset fun _ h => h

theorem quiet_recoverInFlight {me : Claimant} : Quiet db (db.recoverInFlight me now) := by
  refine .of_update rfl fun row _ hp => ⟨rfl, fun failed => ?_, fun send _ first => ?_, fun state => ?_⟩
  · rw [Db.releases, failed] at hp
    cases hp
  · rw [if_pos send] at first
    cases first
  · cases state

theorem quiet_releaseHeldSends : Quiet db (db.releaseHeldSends now) :=
  .of_update rfl fun _ _ _ => ⟨rfl, fun h => h, fun send pending first => ⟨send, pending, first⟩, fun h => h⟩

theorem setDraftState_state {draft : DraftRow} {state : Kaluta.DraftState} {error : Option String}
    (mem : draft ∈ (db.setDraftState id state error).drafts) (is : draft.id = id) : draft.record.state = state := by
  obtain ⟨row, _, rfl⟩ := List.mem_map.mp (Table.mem_rows.mpr mem)
  split at is
  case isTrue here    => rw [if_pos here]
  case isFalse elsewhere => exact absurd (decide_eq_true is) elsewhere

-- A send is taken back only while it is held and was never tried.
theorem cancelSend_ok {draftId : Rowid} {changes : ThreadChanges}
    (h : db.cancelSend draftId now = .ok (db', some changes)) :
    ∃ row ∈ db.outbox, (db.outbox.rows.find? fun row => row.isHeld now && row.draftId = some draftId) = some row ∧
      row.isHeld now = true ∧ db'.outbox = db.outbox.delete (·.id = row.id) ∧
      ∀ draft ∈ db'.drafts, draft.id = draftId → draft.record.state = .editing := by
  unfold Db.cancelSend at h
  split at h
  case _ => cases h
  case _ row found =>
    split at h
    case _ =>
      obtain ⟨⟨mail, changes'⟩, _, h⟩ := Except.bind_eq_ok.mp h
      cases h
      have held := List.find?_some found
      rw [Bool.and_eq_true] at held
      exact ⟨row, List.mem_of_find?_eq_some found, found, held.1, rfl, fun draft mem is => setDraftState_state mem is⟩
    case _ => cases h

-- The op that is taken is the oldest one that is pending and not held, and nothing is in flight.
theorem claimNext_ready {claimant : String} {leaseUntil : Millis} {op : QueuedOp}
    (h : db.claimNext claimant now leaseUntil = (db', .ready op)) :
    (∃ row ∈ db.outbox, row.id = op.id ∧ row.state = .pending ∧ row.isHeld now = false ∧
      ∀ b ∈ db.outbox, b.state = .pending → b.isHeld now = false → row.id ≤ b.id) ∧
    (∀ b ∈ db.outbox, b.state ≠ .inFlight) ∧
    db'.outbox = (db.setOp op.id
      ({ · with state := .inFlight, claimedBy := some claimant, leaseUntil := some leaseUntil })
      (fun _ => rfl)).outbox := by
  unfold Db.claimNext at h
  split at h
  case isTrue => cases h
  case isFalse idle =>
    have free : ∀ b ∈ db.outbox, b.state ≠ .inFlight := by
      intro b mem busy
      exact idle (List.any_eq_true.mpr ⟨b, mem, decide_eq_true busy⟩)
    split at h
    case _ => cases h
    case _ queued ready =>
      cases h
      refine ⟨?_, free, rfl⟩
      unfold Db.nextReady at ready
      split at ready
      case _ => cases ready
      case _ row oldest =>
        split at ready
        case isTrue  => cases ready
        case isFalse =>
          cases ready
          have mem := List.argmin_mem oldest
          rw [List.mem_filter, Bool.and_eq_true, decide_eq_true_eq, Bool.not_eq_true'] at mem
          refine ⟨row, mem.1, rfl, mem.2.1, mem.2.2, fun b hb pending notHeld => ?_⟩
          refine List.le_of_mem_argmin (List.mem_filter.mpr ⟨hb, ?_⟩) oldest
          rw [Bool.and_eq_true, decide_eq_true_eq, Bool.not_eq_true']
          exact ⟨pending, notHeld⟩

end Rows

section Runs

namespace State

structure Inv (s : State) : Prop where
  single  : ∀ a ∈ s.db.outbox, ∀ b ∈ s.db.outbox, a.state = .inFlight → b.state = .inFlight → a.id = b.id
  below   : ∀ a ∈ s.db.outbox, s.ticket a.id < s.next
  ordered : ∀ a ∈ s.db.outbox, ∀ b ∈ s.db.outbox, a.id < b.id → s.ticket a.id < s.ticket b.id
  logged  : ∀ x ∈ s.log, x.ticket < s.next
  fresh   : ∀ a ∈ s.db.outbox, a.op.isSend → a.state = .pending → a.attempts = 0 → ∀ x ∈ s.log, x.ticket ≠ s.ticket a.id
  passed  : ∀ a ∈ s.db.outbox, a.state ≠ .failed → ∀ x ∈ s.log, s.ticket a.id < x.ticket → s.ticket a.id ∈ x.passed
  order   : s.log.Pairwise fun later earlier => later.ticket < earlier.ticket → later.ticket ∈ earlier.passed
  undone  : ∀ t ∈ s.undone, t < s.next ∧ (∀ x ∈ s.log, x.ticket ≠ t) ∧ ∀ a ∈ s.db.outbox, s.ticket a.id ≠ t

theorem Inv.start (h : draining.Start s) : s.Inv := by
  obtain ⟨outbox, log, undone⟩ := h
  have none : ∀ a, a ∉ s.db.outbox := fun a mem => absurd (outbox ▸ mem) Table.not_mem_empty
  exact {
    single  := fun a mem => absurd mem (none a)
    below   := fun a mem => absurd mem (none a)
    ordered := fun a mem => absurd mem (none a)
    logged  := fun x mem => absurd (log ▸ mem) List.not_mem_nil
    fresh   := fun a mem => absurd mem (none a)
    passed  := fun a mem => absurd mem (none a)
    order   := log ▸ .nil
    undone  := fun t mem => absurd (undone ▸ mem) List.not_mem_nil }

theorem Inv.id_eq (h : s.Inv) (ha : a ∈ s.db.outbox) (hb : b ∈ s.db.outbox)
    (eq : s.ticket a.id = s.ticket b.id) : a.id = b.id := by
  rcases Nat.lt_trichotomy a.id b.id with lt | same | gt
  · exact absurd eq (h.ordered a ha b hb lt).ne
  · exact same
  · exact absurd eq.symm (h.ordered b hb a ha gt).ne

theorem ticket_write (mem : row ∈ s.db.outbox) : (s.write db).ticket row.id = s.ticket row.id := by
  rw [write]
  simp only [Table.find?_key mem, Option.isSome_some, if_true]

theorem ticket_new : (s.write db).ticket s.db.outbox.nextRowid = s.next := by
  have unused : s.db.outbox.find? s.db.outbox.nextRowid = none :=
    Table.find?_eq_none_iff.mpr fun a mem => (Table.lt_nextRowid mem).ne
  rw [write]
  simp only [unused, Option.isSome_none, Bool.false_eq_true, if_false]

-- An op of the written store: one that was there, or the one that is new.
theorem mem_write (q : Quiet s.db db) (mem : row' ∈ db.outbox) :
    (∃ row ∈ s.db.outbox, Carried row row' ∧ (s.write db).ticket row'.id = s.ticket row.id) ∨
      row'.id = s.db.outbox.nextRowid ∧ row'.state = .pending ∧ (s.write db).ticket row'.id = s.next := by
  obtain ⟨row, old, carried⟩ | ⟨new, pending⟩ := q row' mem
  case inl => exact .inl ⟨row, old, carried, by rw [carried.id, ticket_write old]⟩
  case inr => exact .inr ⟨new, pending, by rw [new, ticket_new]⟩

theorem Inv.write (h : s.Inv) (q : Quiet s.db db) : (s.write db).Inv where
  single := by
    intro a ha b hb busy busy'
    obtain ⟨a₀, ha₀, ca, -⟩ | ⟨-, pending, -⟩ := mem_write q ha
    case inr => rw [pending] at busy; cases busy
    obtain ⟨b₀, hb₀, cb, -⟩ | ⟨-, pending, -⟩ := mem_write q hb
    case inr => rw [pending] at busy'; cases busy'
    rw [ca.id, cb.id]
    exact h.single a₀ ha₀ b₀ hb₀ (ca.inFlight busy) (cb.inFlight busy')
  below := by
    intro a ha
    obtain ⟨a₀, ha₀, -, eq⟩ | ⟨-, -, eq⟩ := mem_write q ha
    case inl => exact eq ▸ Nat.lt_succ_of_lt (h.below a₀ ha₀)
    case inr => exact eq ▸ Nat.lt_succ_self _
  ordered := by
    intro a ha b hb lt
    obtain ⟨a₀, ha₀, ca, ea⟩ | ⟨new, -, ea⟩ := mem_write q ha
    case inl =>
      obtain ⟨b₀, hb₀, cb, eb⟩ | ⟨-, -, eb⟩ := mem_write q hb
      case inl =>
        rw [ea, eb]
        exact h.ordered a₀ ha₀ b₀ hb₀ (ca.id ▸ cb.id ▸ lt)
      case inr =>
        rw [ea, eb]
        exact h.below a₀ ha₀
    case inr =>
      obtain ⟨b₀, hb₀, cb, -⟩ | ⟨new', -, -⟩ := mem_write q hb
      case inl =>
        have before := Table.lt_nextRowid hb₀
        rw [new, cb.id] at lt
        exact absurd lt before.asymm
      case inr =>
        rw [new, new'] at lt
        exact absurd lt (Nat.lt_irrefl _)
  logged := fun x mem => Nat.lt_succ_of_lt (h.logged x mem)
  fresh := by
    intro a ha send pending first x mem
    obtain ⟨a₀, ha₀, ca, eq⟩ | ⟨-, -, eq⟩ := mem_write q ha
    case inl =>
      obtain ⟨send, pending, first⟩ := ca.untried send pending first
      exact eq ▸ h.fresh a₀ ha₀ send pending first x mem
    case inr => exact eq ▸ (h.logged x mem).ne
  passed := by
    intro a ha alive x mem lt
    obtain ⟨a₀, ha₀, ca, eq⟩ | ⟨-, -, eq⟩ := mem_write q ha
    case inl =>
      rw [eq] at lt ⊢
      exact h.passed a₀ ha₀ (fun failed => alive (ca.failed failed)) x mem lt
    case inr =>
      rw [eq] at lt
      exact absurd lt (Nat.not_lt.mpr (h.logged x mem).le)
  order := h.order
  undone := by
    intro t mem
    obtain ⟨below, untaken, gone⟩ := h.undone t mem
    refine ⟨Nat.lt_succ_of_lt below, untaken, fun a ha => ?_⟩
    obtain ⟨a₀, ha₀, -, eq⟩ | ⟨-, -, eq⟩ := mem_write q ha
    case inl => exact eq ▸ gone a₀ ha₀
    case inr => exact eq ▸ below.ne'

theorem Inv.claim {claimant : String} {leaseUntil : Millis} {op : QueuedOp} (h : s.Inv)
    (ready : s.db.claimNext claimant now leaseUntil = (db, .ready op)) :
    State.Inv { s.write db with log := ⟨s.ticket op.id, s.held now⟩ :: s.log } := by
  obtain ⟨⟨row, mem, is, pending, notHeld, oldest⟩, free, outbox⟩ := claimNext_ready ready
  -- A row of the written store was there, and is as it was unless it is the one that is taken.
  have rows : ∀ a' ∈ db.outbox, ∃ a ∈ s.db.outbox, a'.id = a.id ∧ (s.write db).ticket a'.id = s.ticket a.id ∧
      (a.id = op.id ∧ a'.state = .inFlight ∨ a.id ≠ op.id ∧ a' = a) := by
    intro a' ha'
    rw [outbox] at ha'
    obtain ⟨a, ha, rfl⟩ := List.mem_map.mp (Table.mem_rows.mpr ha')
    have ticket : (s.write db).ticket a.id = s.ticket a.id := ticket_write ha
    refine ⟨a, ha, ?_⟩
    split
    case isTrue here      => exact ⟨rfl, ticket, .inl ⟨of_decide_eq_true here, rfl⟩⟩
    case isFalse elsewhere => exact ⟨rfl, ticket, .inr ⟨fun here => elsewhere (decide_eq_true here), rfl⟩⟩
  -- Whatever is older than the op that is taken is held, or has failed.
  have older : ∀ a ∈ s.db.outbox, a.state ≠ .failed → s.ticket a.id < s.ticket op.id → s.ticket a.id ∈ s.held now := by
    intro a ha alive lt
    have before : a.id < row.id := by
      rcases Nat.lt_trichotomy a.id row.id with lt' | same | gt
      · exact lt'
      · rw [same, is] at lt
        exact absurd lt (Nat.lt_irrefl _)
      · exact absurd (is ▸ h.ordered row mem a ha gt) lt.asymm
    have waits : a.state = .pending := by
      cases state : a.state
      case pending  => rfl
      case inFlight => exact absurd state (free a ha)
      case failed   => exact absurd state alive
    have held : a.isHeld now = true := by
      by_contra notHeld
      exact absurd (oldest a ha waits (by simpa using notHeld)) (Nat.not_le.mpr before)
    exact List.mem_map.mpr ⟨a, List.mem_filter.mpr ⟨ha, held⟩, rfl⟩
  constructor
  case single =>
    have only : ∀ a ∈ db.outbox, a.state = .inFlight → a.id = op.id := by
      intro a ha busy
      obtain ⟨a₀, ha₀, eq, -, ⟨here, -⟩ | ⟨-, rfl⟩⟩ := rows a ha
      case inl => exact eq ▸ here
      case inr => exact absurd busy (free a ha₀)
    exact fun a ha b hb busy busy' => (only a ha busy).trans (only b hb busy').symm
  case below =>
    intro a ha
    obtain ⟨a₀, ha₀, -, eq, -⟩ := rows a ha
    exact eq ▸ Nat.lt_succ_of_lt (h.below a₀ ha₀)
  case ordered =>
    intro a ha b hb lt
    obtain ⟨a₀, ha₀, ida, ea, -⟩ := rows a ha
    obtain ⟨b₀, hb₀, idb, eb, -⟩ := rows b hb
    show (s.write db).ticket a.id < (s.write db).ticket b.id
    rw [ea, eb]
    exact h.ordered a₀ ha₀ b₀ hb₀ (ida ▸ idb ▸ lt)
  case logged =>
    intro x hx
    rcases List.mem_cons.mp hx with rfl | hx
    · exact Nat.lt_succ_of_lt (is ▸ h.below row mem)
    · exact Nat.lt_succ_of_lt (h.logged x hx)
  case fresh =>
    intro a ha send state first x hx
    obtain ⟨a₀, ha₀, -, ea, ⟨-, busy⟩ | ⟨other, rfl⟩⟩ := rows a ha
    case inl => rw [busy] at state; cases state
    show x.ticket ≠ (s.write db).ticket a.id
    rw [ea]
    rcases List.mem_cons.mp hx with rfl | hx
    · exact fun eq => other ((h.id_eq mem ha₀ (is ▸ eq)).symm.trans is)
    · exact h.fresh _ ha₀ send state first x hx
  case passed =>
    intro a ha alive x hx lt
    obtain ⟨a₀, ha₀, -, ea, same⟩ := rows a ha
    have alive₀ : a₀.state ≠ .failed := by
      obtain ⟨here, -⟩ | ⟨-, rfl⟩ := same
      case inl =>
        rw [Table.eq_of_key_eq ha₀ mem (here.trans is.symm), pending]
        exact fun failed => by cases failed
      case inr => exact alive
    change (s.write db).ticket a.id < x.ticket at lt
    show (s.write db).ticket a.id ∈ x.passed
    rw [ea] at lt ⊢
    rcases List.mem_cons.mp hx with rfl | hx
    · exact older a₀ ha₀ alive₀ lt
    · exact h.passed a₀ ha₀ alive₀ x hx lt
  case order =>
    refine List.pairwise_cons.mpr ⟨fun x hx lt => ?_, h.order⟩
    have := h.passed row mem (by rw [pending]; exact fun failed => by cases failed) x hx
    rw [is] at this
    exact this lt
  case undone =>
    intro t ht
    obtain ⟨below, untaken, gone⟩ := h.undone t ht
    refine ⟨Nat.lt_succ_of_lt below, fun x hx => ?_, fun a ha => ?_⟩
    · rcases List.mem_cons.mp hx with rfl | hx
      · exact is ▸ gone row mem
      · exact untaken x hx
    · obtain ⟨a₀, ha₀, -, eq, -⟩ := rows a ha
      exact eq ▸ gone a₀ ha₀

theorem Inv.cancel {draftId : Rowid} {changes : ThreadChanges} (h : s.Inv)
    (ok : s.db.cancelSend draftId now = .ok (db, some changes))
    (found : (s.db.outbox.rows.find? fun row => row.isHeld now && row.draftId = some draftId) = some row) :
    State.Inv { s.write db with undone := s.ticket row.id :: s.undone } := by
  obtain ⟨row', mem, found', held, outbox, -⟩ := cancelSend_ok ok
  obtain rfl : row' = row := Option.some.inj (found'.symm.trans found)
  have written : (s.write db).Inv := h.write (Quiet.of_subset fun a ha => (Table.mem_delete.mp (outbox ▸ ha)).1)
  obtain ⟨send, pending, first⟩ : row'.op.isSend = true ∧ row'.state = .pending ∧ row'.attempts = 0 := by
    simp only [OutboxRow.isHeld, Bool.and_eq_true, decide_eq_true_eq] at held
    exact ⟨held.1.1.1, held.1.1.2, held.1.2⟩
  refine { written with undone := fun t ht => ?_ }
  rcases List.mem_cons.mp ht with rfl | ht
  · refine ⟨Nat.lt_succ_of_lt (h.below _ mem), h.fresh _ mem send pending first, fun a ha eq => ?_⟩
    obtain ⟨old, other⟩ := Table.mem_delete.mp (outbox ▸ ha)
    have ticket : (s.write db).ticket a.id = s.ticket a.id := ticket_write old
    exact of_decide_eq_false other (h.id_eq old mem (ticket.symm.trans eq))
  · exact written.undone t ht

theorem Inv.step {action : Action} (h : s.Inv) (hs : s.step action = some s') : s'.Inv := by
  cases action <;> simp only [State.step] at hs
  case enqueue op now notBefore => cases hs; exact h.write (quiet_enqueueHeld _ _)
  case claim claimant now =>
    split at hs
    case _ ready => cases hs; exact h.claim ready
    case _       => cases hs
  case renew => cases hs; exact h.write quiet_renew
  case record id claimant outcome =>
    cases ok : record s.db id claimant outcome <;> rw [ok] at hs
    case error => cases hs
    case ok    => cases hs; exact h.write (quiet_record ok)
  case recover => cases hs; exact h.write quiet_recoverInFlight
  case cancelSend draftId now =>
    split at hs
    case _ ok found => cases hs; exact h.cancel ok found
    case _          => cases hs
  case releaseHeldSends => cases hs; exact h.write quiet_releaseHeldSends
  case clearFailed => cases hs; exact h.write (.of_subset fun a ha => (Table.mem_delete.mp ha).1)
  case other db =>
    split at hs
    case isTrue same =>
      cases hs
      exact h.write (.of_subset fun a ha => Table.mem_rows.mp (same ▸ Table.mem_rows.mpr ha))
    case isFalse     => cases hs

theorem inv_of_reachable {ok : State → Action → Prop} (h : draining.Reachable ok s) : s.Inv :=
  h.invariant (fun _ => Inv.start) fun _ _ _ inv _ step => inv.step step

end State

variable {ok : State → Action → Prop}

-- At no time do two drainers hold ops, or one drainer two.
theorem reachable_exclusive {id id' : Rowid} {claimant claimant' : String} (h : draining.Reachable ok s)
    (holds : s.db.holds id claimant = true) (holds' : s.db.holds id' claimant' = true) :
    id = id' ∧ claimant = claimant' := by
  obtain ⟨a, ha, rfl, busy, by_⟩ := holds_iff.mp holds
  obtain ⟨b, hb, rfl, busy', by'⟩ := holds_iff.mp holds'
  have same : a.id = b.id := (State.inv_of_reachable h).single a ha b hb busy busy'
  obtain rfl := Table.eq_of_key_eq ha hb same
  exact ⟨rfl, Option.some.inj (by_.symm.trans by')⟩

def star : Action := .enqueue (.modifyLabels ["m"] ["STARRED"] []) 0 none

def letter : OutgoingMessage :=
  { sender := ⟨none, "a@x.example"⟩, «to» := [], cc := [], bcc := [], subject := "Lunch", html := "", messageId := "<1>"
    inReplyTo := none, attachments := [], date := 0 }

def heldSend : Action := .enqueue (.send 1 letter none "out") 0 (some 10)

theorem draining_start : draining.Start {} :=
  ⟨rfl, rfl, rfl⟩

-- A drainer that is late loses the op it took to another one.
theorem reachable_exclusive_lapsed : ∃ s, draining.Reachable (fun _ _ => True) s ∧ s.db.holds 1 "b" = true ∧
    ∀ id claimant, s.db.holds id claimant = true → 1 = id ∧ "b" = claimant := by
  have run : (draining.run (fun _ _ => True) {} [star, .claim "a" 5,
      .recover { id := "b", isGone := fun _ => false } 60005, .claim "b" 60006]).any
        fun s => s.db.holds 1 "b" := by decide
  obtain ⟨s, hs, holds⟩ := (Option.any_eq_true _ _).mp run
  have reached := System.Reachable.run (.start draining_start) hs
  exact ⟨s, reached, holds, fun id claimant holds' => reachable_exclusive reached holds holds'⟩

-- No op is taken after one that was queued later, except a send that was held then.
theorem reachable_in_order (h : draining.Reachable ok s) :
    s.log.Pairwise fun later earlier => later.ticket < earlier.ticket → later.ticket ∈ earlier.passed :=
  (State.inv_of_reachable h).order

theorem reachable_in_order_held : ∃ s, draining.Reachable (fun _ _ => True) s ∧
    s.log.map Taken.ticket = [0, 1] ∧
      s.log.Pairwise fun later earlier => later.ticket < earlier.ticket → later.ticket ∈ earlier.passed := by
  have run : (draining.run (fun _ _ => True) {}
      [heldSend, star, .claim "a" 5, .record 2 "a" .done, .claim "a" 20]).any
        fun s => s.log.map Taken.ticket = [0, 1] := by decide
  obtain ⟨s, hs, log⟩ := (Option.any_eq_true _ _).mp run
  have reached := System.Reachable.run (.start draining_start) hs
  exact ⟨s, reached, of_decide_eq_true log, reachable_in_order reached⟩

-- A send that was taken back was taken by no drainer, before or after, and its draft is edited again; one that a
-- drainer took cannot be taken back.
theorem reachable_undo (h : draining.Reachable ok s) :
    (∀ t ∈ s.undone, ∀ x ∈ s.log, x.ticket ≠ t) ∧
      ∀ draftId now,
        (∀ db changes, s.db.cancelSend draftId now = .ok (db, some changes) →
          ∀ draft ∈ db.drafts, draft.id = draftId → draft.record.state = .editing) ∧
        ((∀ row ∈ s.db.outbox, row.op.isSend → row.draftId = some draftId → ∃ x ∈ s.log, x.ticket = s.ticket row.id) →
          s.db.cancelSend draftId now = .ok (s.db, none)) := by
  have inv := State.inv_of_reachable h
  refine ⟨fun t ht => (inv.undone t ht).2.1, fun draftId now => ⟨fun db changes cancelled => ?_, fun taken => ?_⟩⟩
  · obtain ⟨_, _, _, _, _, editing⟩ := cancelSend_ok cancelled
    exact editing
  · unfold Db.cancelSend
    split
    case _ => rfl
    case _ row found =>
      have held := List.find?_some found
      simp only [OutboxRow.isHeld, Bool.and_eq_true, decide_eq_true_eq] at held
      obtain ⟨⟨⟨⟨send, pending⟩, first⟩, -⟩, draft⟩ := held
      have mem : row ∈ s.db.outbox := List.mem_of_find?_eq_some found
      obtain ⟨x, hx, eq⟩ := taken row mem send draft
      exact absurd eq (inv.fresh row mem send pending first x hx)

def drafting : Action :=
  .other { drafts := { rows := [{ record := { id := 1, state := .sending } }], nodup := by decide } }

-- A send is taken back, and sent again.
theorem reachable_undo_again : ∃ s, draining.Reachable (fun _ _ => True) s ∧ s.undone = [1] ∧
    (∀ x ∈ s.log, x.ticket ≠ 1) ∧ s.db.outbox.rows.map (·.draftId) = [some 1] ∧
      s.db.cancelSend 1 21 = .ok (s.db, none) := by
  have run : (draining.run (fun _ _ => True) {} [drafting, heldSend, .cancelSend 1 5, heldSend, .claim "a" 20]).any
      fun s => s.undone = [1] ∧ s.db.outbox.rows.map (·.draftId) = [some 1] ∧
        ∀ row ∈ s.db.outbox.rows, row.op.isSend → row.draftId = some 1 → ∃ x ∈ s.log, x.ticket = s.ticket row.id := by
    decide
  obtain ⟨s, hs, h⟩ := (Option.any_eq_true _ _).mp run
  obtain ⟨undone, rows, taken⟩ := of_decide_eq_true h
  have reached := System.Reachable.run (.start draining_start) hs
  obtain ⟨apart, cancel⟩ := reachable_undo reached
  exact ⟨s, reached, undone, apart 1 (undone ▸ List.mem_singleton_self 1), rows, (cancel 1 21).2 taken⟩

end Runs

section Lease

variable {claimant : String} {until' : Millis}

-- A drainer's claim on an op, which lasts until some time at least.
def State.Leased (s : State) (id : Rowid) (claimant : String) (until' : Millis) : Prop :=
  ∃ row ∈ s.db.outbox, row.id = id ∧ row.state = .inFlight ∧ row.claimedBy = some claimant ∧
    ∃ lease, row.leaseUntil = some lease ∧ until' ≤ lease

-- The drainer is alive and does not answer, and nobody's clock is past its lease.
def Meanwhile (id : Rowid) (claimant : String) (until' : Millis) (_ : State) : Action → Prop
  | .recover me now           => now < until' ∧ me.id ≠ claimant ∧ me.isGone claimant = false
  | .record id' claimant' _   => ¬(id' = id ∧ claimant' = claimant)
  | .renew id' claimant' now  => id' = id → claimant' = claimant → until' ≤ now + LEASE_MS
  | _                         => True

theorem State.Leased.of_mem {s' : State} (h : s.Leased id claimant until')
    (kept : ∀ row ∈ s.db.outbox, row.id = id → row.state = .inFlight → row.claimedBy = some claimant →
      row ∈ s'.db.outbox) :
    s'.Leased id claimant until' := by
  obtain ⟨row, mem, is, busy, by_, lease⟩ := h
  exact ⟨row, kept row mem is busy by_, is, busy, by_, lease⟩

theorem State.Leased.holds (h : s.Leased id claimant until') : s.db.holds id claimant = true := by
  obtain ⟨row, mem, is, busy, by_, -⟩ := h
  exact holds_iff.mpr ⟨row, mem, is, busy, by_⟩

-- One claimant holds an op at a time.
theorem claimant_eq {claimant' : String} (h : db.holds id claimant = true) (h' : db.holds id claimant' = true) :
    claimant' = claimant := by
  obtain ⟨a, ha, ida, -, by_⟩ := holds_iff.mp h
  obtain ⟨b, hb, idb, -, by'⟩ := holds_iff.mp h'
  rw [Table.eq_of_key_eq ha hb (ida.trans idb.symm)] at by_
  exact Option.some.inj (by'.symm.trans by_)

theorem mem_setOp {f : OutboxRow → OutboxRow} {hf : ∀ row, (f row).id = row.id} {id' : Rowid} (mem : row ∈ db.outbox)
    (other : row.id ≠ id') : row ∈ (db.setOp id' f hf).outbox := by
  rw [Db.setOp, Table.mem_update]
  exact .inl ⟨mem, decide_eq_false other⟩

theorem mem_record {id' : Rowid} {outcome : Outcome} (h : record db id' claimant outcome = .ok db')
    (mem : row ∈ db.outbox) (other : row.id ≠ id') : row ∈ db'.outbox := by
  unfold record at h
  split at h
  case isFalse => cases h; exact mem
  case isTrue =>
    split at h
    case _ =>
      cases h
      unfold Db.complete
      split
      case _ => exact mem
      case _ =>
        refine Table.mem_delete.mpr ⟨?_, decide_eq_false other⟩
        split
        case _ =>
          unfold Db.discardDraft
          split
          case _ => exact mem
          case _ =>
            split
            case _ => exact Table.mem_insertRow.mpr (.inl mem)
            case _ => exact mem
        case _ => exact mem
    case _ =>
      cases h
      exact mem_setOp mem other
    case _ error =>
      obtain ⟨⟨_, changes⟩, failed, rfl⟩ := Except.map_eq_ok.mp h
      exact fail_outbox failed ▸ mem_setOp mem other

theorem State.Leased.renew {id' : Rowid} {claimant' : String} (h : s.Leased id claimant until')
    (far : id' = id → claimant' = claimant → until' ≤ now + LEASE_MS) :
    (s.write (s.db.renew id' claimant' (now + LEASE_MS)).1).Leased id claimant until' := by
  unfold Db.renew
  split
  case isFalse => exact h.of_mem fun row mem _ _ _ => mem
  case isTrue holds' =>
    by_cases same : id' = id
    case neg => exact h.of_mem fun row mem is _ _ => mem_setOp mem fun eq => same (eq.symm.trans is)
    case pos =>
      subst same
      obtain ⟨row, mem, is, busy, by_, -⟩ := id h
      refine ⟨{ row with leaseUntil := some (now + LEASE_MS) }, ?_, is, busy, by_, _, rfl, ?_⟩
      · rw [State.write, Db.setOp, Table.mem_update]
        exact .inr ⟨row, mem, decide_eq_true is, rfl⟩
      · exact far rfl (claimant_eq h.holds holds')

theorem State.Leased.step {action : Action} (h : s.Leased id claimant until')
    (meanwhile : Meanwhile id claimant until' s action) (hs : s.step action = some s') :
    s'.Leased id claimant until' := by
  cases action <;> simp only [State.step] at hs
  case enqueue op now notBefore =>
    cases hs
    exact h.of_mem fun row mem _ _ _ => Table.mem_insertRow.mpr (.inl mem)
  case claim claimant' now =>
    obtain ⟨row, mem, -, busy, -⟩ := h
    split at hs
    case _ ready => exact absurd busy ((claimNext_ready ready).2.1 row mem)
    case _       => cases hs
  case renew id' claimant' now =>
    cases hs
    exact h.renew meanwhile
  case record id' claimant' outcome =>
    cases ok : record s.db id' claimant' outcome <;> rw [ok] at hs
    case error => cases hs
    case ok db =>
      cases hs
      refine h.of_mem fun row mem is busy by_ => ?_
      by_cases other : row.id = id'
      case neg => exact mem_record ok mem other
      case pos =>
        -- Another drainer's answer to this op is let go.
        have lost : ¬s.db.holds id' claimant' = true := by
          intro holds'
          rw [← other, is] at holds'
          exact meanwhile ⟨other.symm.trans is, claimant_eq h.holds holds'⟩
        unfold record at ok
        rw [if_neg lost] at ok
        cases ok
        exact mem
  case recover me now =>
    cases hs
    obtain ⟨row, mem, is, busy, by_, lease, leased, le⟩ := h
    obtain ⟨early, another, there⟩ := meanwhile
    refine ⟨row, ?_, is, busy, by_, lease, leased, le⟩
    rw [State.write, Db.recoverInFlight, Table.mem_update]
    refine .inl ⟨mem, ?_⟩
    have valid : ¬lease ≤ now := Int.not_le.mpr (Int.lt_of_lt_of_le early le)
    simp [Db.releases, by_, leased, another.symm, there, valid]
  case cancelSend draftId now =>
    split at hs
    case _ cancelled _ =>
      cases hs
      obtain ⟨held, mem', -, isHeld, outbox, -⟩ := cancelSend_ok cancelled
      refine h.of_mem fun row mem _ busy _ => ?_
      refine outbox ▸ Table.mem_delete.mpr ⟨mem, decide_eq_false fun eq => ?_⟩
      rw [Table.eq_of_key_eq mem mem' eq] at busy
      simp [OutboxRow.isHeld, busy] at isHeld
    case _ => cases hs
  case releaseHeldSends now =>
    cases hs
    refine h.of_mem fun row mem _ busy _ => ?_
    rw [State.write, Db.releaseHeldSends, Table.mem_update]
    exact .inl ⟨mem, by simp [OutboxRow.isHeld, busy]⟩
  case clearFailed =>
    cases hs
    exact h.of_mem fun row mem _ busy _ => Table.mem_delete.mpr ⟨mem, by simp [busy]⟩
  case other db =>
    split at hs
    case isTrue same =>
      cases hs
      exact h.of_mem fun row mem _ _ _ => Table.mem_rows.mp (same ▸ Table.mem_rows.mpr mem)
    case isFalse     => cases hs

-- Until its lease ends, a drainer keeps the op it took, and nobody takes any op meanwhile.
theorem leads_leased (h : s.Leased id claimant until') (run : draining.Leads (Meanwhile id claimant until') s s') :
    s'.db.holds id claimant = true ∧ s'.log = s.log := by
  have kept : s'.Leased id claimant until' ∧ s'.log = s.log := by
    refine run.invariant (P := fun s' => s'.Leased id claimant until' ∧ s'.log = s.log) ⟨h, rfl⟩ ?_
    rintro s₁ action s₂ ⟨leased, log⟩ meanwhile step
    refine ⟨leased.step meanwhile step, ?_⟩
    rw [← log]
    cases action <;> simp only [draining, State.step] at step
    case claim claimant' now =>
      obtain ⟨row, mem, -, busy, -⟩ := leased
      split at step
      case _ ready => exact absurd busy ((claimNext_ready ready).2.1 row mem)
      case _       => cases step
    case record id' claimant' outcome =>
      obtain ⟨db, -, rfl⟩ := Option.map_eq_some_iff.mp step
      rfl
    case cancelSend draftId now =>
      split at step
      case _ => cases step; rfl
      case _ => cases step
    case other db =>
      split at step
      case isTrue  => cases step; rfl
      case isFalse => cases step
    all_goals cases step; rfl
  exact ⟨kept.1.holds, kept.2⟩

-- Another process looks for ops left in flight, and takes none back.
theorem leads_leased_recovered : ∃ s s', draining.Reachable (fun _ _ => True) s ∧
    draining.Leads (Meanwhile 1 "a" 60005) s s' ∧ s'.db.holds 1 "a" = true ∧ s'.log = s.log := by
  have run : (draining.run (fun _ _ => True) {} [star, .claim "a" 5]).any fun s =>
      s.db.outbox.rows.any fun row =>
        row.id = 1 && row.state = .inFlight && row.claimedBy = some "a" && row.leaseUntil = some 60005 := by
    decide
  obtain ⟨s, hs, h⟩ := (Option.any_eq_true _ _).mp run
  obtain ⟨row, mem, is⟩ := List.any_eq_true.mp h
  simp only [Bool.and_eq_true, decide_eq_true_eq] at is
  have leased : s.Leased 1 "a" 60005 := ⟨row, mem, is.1.1.1, is.1.1.2, is.1.2, 60005, is.2, le_rfl⟩
  let other : Claimant := { id := "b", isGone := fun _ => false }
  have later : draining.Leads (Meanwhile 1 "a" 60005) s (s.write (s.db.recoverInFlight other 40000)) :=
    .single ⟨.recover _ _, ⟨by decide, by decide, rfl⟩, rfl⟩
  exact ⟨s, _, .run (.start draining_start) hs, later, leads_leased leased later⟩

end Lease

end Kaluta.Outbox.Claims
