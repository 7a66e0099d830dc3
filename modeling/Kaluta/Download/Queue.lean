import Kaluta.Lib.Table

-- The backfill queue, what of the mailbox is listed into it, and what is stored.
namespace Kaluta.Download

-- Queue priorities at or above this want headers only.
def HEADERS_ONLY : Nat := 10

-- The first priority of the window's own phases.
def WINDOW_PRIORITY : Nat := 3

def INBOX_PHASES : Nat := 2
def FIXED_PHASES : Nat := 5

-- How far back mail is downloaded.
inductive SyncWindow
  | month
  | halfYear
  | year
  | everything
  deriving DecidableEq

-- How much of the window comes down as full messages when headers are cheap.
inductive BodyWindow
  | month
  | halfYear
  | year
  -- Everything in the sync window.
  | window
  deriving DecidableEq

namespace BodyWindow

-- The first phase priority listed for headers only.
def headersFrom : BodyWindow → Option Nat
  | .month    => some 3
  | .halfYear => some 4
  | .year     => some 5
  | .window   => none

-- The body window that keeps bodies where they are when the window widens from `w` to everything.
def keptFrom : BodyWindow → SyncWindow → BodyWindow
  | .window, .month    => .month
  | .window, .halfYear => .halfYear
  | .window, .year     => .year
  | body   , _         => body

theorem keptFrom_of_ne {body : BodyWindow} {w : SyncWindow} (h : body ≠ .window) : body.keptFrom w = body := by
  cases body
  case window => exact absurd rfl h
  all_goals rfl

theorem keptFrom_ne {body : BodyWindow} {w : SyncWindow} (h : w ≠ .everything) : body.keptFrom w ≠ .window := by
  cases body
  case window =>
    cases w
    case everything => exact absurd rfl h
    all_goals nofun
  all_goals nofun

end BodyWindow

structure Phase where
  priority : Nat
  labels   : List String
  query    : Option String
  deriving DecidableEq

-- The phases of a window, most urgent first.
def phasesFor (window : SyncWindow) : List Phase :=
  let fixed : List Phase := [
    { priority := 0, labels := ["INBOX"], query := some "is:unread" },
    { priority := 1, labels := ["INBOX"], query := none },
    { priority := 2, labels := [], query := some "newer_than:30d" },
    { priority := 2, labels := ["SPAM"], query := none },
    { priority := 2, labels := ["TRASH"], query := none }]
  let half : Phase := { priority := 3, labels := [], query := some "newer_than:180d" }
  let year : Phase := { priority := 4, labels := [], query := some "newer_than:365d" }
  match window with
  | .month      => fixed
  | .halfYear   => fixed ++ [half]
  | .year       => fixed ++ [half, year]
  | .everything => fixed ++ [half, year, { priority := 5, labels := [], query := none }]

theorem phasesFor_everything {window : SyncWindow} {phase : Phase} (h : phase ∈ phasesFor window) :
    phase ∈ phasesFor .everything := by
  have sub : ∀ p ∈ phasesFor window, p ∈ phasesFor .everything := by cases window <;> decide
  exact sub phase h

-- Headers only from `headersFrom` on.
def queuePriority (phase : Phase) (headersFrom : Option Nat) : Nat :=
  match headersFrom with
  | some cut => if phase.priority ≥ cut then phase.priority + HEADERS_ONLY else phase.priority
  | none     => phase.priority

-- Which tiering a queue was listed under.
def tiersTag : Option Nat → String
  | none     => "flat"
  | some cut => "headers-from-" ++ toString cut

structure Queued where
  id       : String
  priority : Nat
  deriving DecidableEq

-- A stored message, with its body or its headers only.
structure Stored where
  id   : String
  full : Bool
  deriving DecidableEq

-- Whether the older mail's headers are Clean Up's.
inductive CleanupHeaders
  | ask
  | no
  deriving DecidableEq

structure Db where
  window       : Option SyncWindow := none
  bodyWindow   : Option BodyWindow := none
  cleanup      : Option CleanupHeaders := none
  tiers        : Option String := none
  bootstrapped : Bool := false
  queue        : Table Queued Queued.id := ∅
  messages     : Table Stored Stored.id := ∅

namespace Db

variable (db : Db)

-- Whether a message needs no place in the queue at a priority.
def has (priority : Nat) (id : String) : Bool :=
  db.messages.rows.any fun m => m.id = id ∧ (priority ≥ HEADERS_ONLY ∨ m.full)

def enqueueOne (priority : Nat) (refetch : Bool) (queue : Table Queued Queued.id) (id : String) : Table Queued Queued.id :=
  if !refetch && db.has priority id then queue
  else match queue.find? id with
    | none   => queue.replace { id, priority }
    | some q => if priority < q.priority then queue.replace { id, priority } else queue

-- Queues ids at a priority, keeping the more urgent one if an id is queued.
def enqueue (priority : Nat) (ids : List String) (refetch : Bool) : Db :=
  { db with queue := ids.foldl (db.enqueueOne priority refetch) db.queue }

def enqueueUrgent (ids : List String) : Db :=
  { db with queue := (ids.filter (!db.has 0 ·)).foldl (fun queue id => queue.replace { id, priority := 0 }) db.queue }

def removeHeadersOnly (ids : List String) : Db :=
  { db with queue := db.queue.delete fun q => q.id ∈ ids ∧ q.priority ≥ HEADERS_ONLY }

def promoteHeadersOnly : Db :=
  let promote (q : Queued) : Queued := { q with priority := q.priority - HEADERS_ONLY }
  { db with queue := db.queue.update (·.priority ≥ HEADERS_ONLY) promote fun _ => rfl }

def remove (ids : List String) : Db :=
  { db with queue := db.queue.delete (·.id ∈ ids) }

def clearFromPriority (priority : Nat) : Db :=
  { db with queue := db.queue.delete (·.priority ≥ priority) }

-- Stores messages, whole or their headers. A whole one stays whole.
def store (full : Bool) (ids : List String) : Db :=
  let put (messages : Table Stored Stored.id) (id : String) : Table Stored Stored.id :=
    messages.upsert { id, full } (fun m => { m with full := m.full || full }) fun _ => rfl
  { db with messages := ids.foldl put db.messages }

theorem mem_enqueueOne {queue : Table Queued Queued.id} {priority : Nat} {refetch : Bool} {id : String} {q : Queued}
    (h : q ∈ db.enqueueOne priority refetch queue id) : q ∈ queue ∨ q.id = id ∧ q.priority = priority := by
  have replaced (h : q ∈ queue.replace { id, priority }) : q ∈ queue ∨ q.id = id ∧ q.priority = priority := by
    rcases Table.mem_replace.mp h with ⟨old, _⟩ | rfl
    · exact .inl old
    · exact .inr ⟨rfl, rfl⟩
  rw [enqueueOne] at h
  split at h
  case isTrue => exact .inl h
  case isFalse =>
    split at h
    case h_1 => exact replaced h
    case h_2 =>
      split at h
      · exact replaced h
      · exact .inl h

-- What is queued was queued, or is one of the ids at their priority.
theorem mem_enqueue {priority : Nat} {ids : List String} {refetch : Bool} {q : Queued}
    (h : q ∈ (db.enqueue priority ids refetch).queue) : q ∈ db.queue ∨ q.id ∈ ids ∧ q.priority = priority := by
  simp only [enqueue] at h
  generalize db.queue = queue at h ⊢
  induction ids generalizing queue
  case nil            => exact .inl h
  case cons id ids ih =>
    rcases ih _ h with old | ⟨mem, e⟩
    · refine (db.mem_enqueueOne old).imp_right fun ⟨eq, e⟩ => ⟨eq ▸ List.mem_cons_self, e⟩
    · exact .inr ⟨List.mem_cons_of_mem id mem, e⟩

theorem mem_promoteHeadersOnly {q : Queued} (h : q ∈ db.promoteHeadersOnly.queue) :
    q ∈ db.queue ∨ ∃ old ∈ db.queue, old.id = q.id := by
  simp only [promoteHeadersOnly, Table.mem_update] at h
  rcases h with ⟨old, _⟩ | ⟨old, ho, _, rfl⟩
  · exact .inl old
  · exact .inr ⟨old, ho, rfl⟩

theorem mem_enqueueUrgent {ids : List String} {q : Queued} (h : q ∈ (db.enqueueUrgent ids).queue) :
    q ∈ db.queue ∨ q.id ∈ ids := by
  simp only [enqueueUrgent] at h
  have sub : ∀ id ∈ ids.filter (!db.has 0 ·), id ∈ ids := fun _ mem => List.mem_of_mem_filter mem
  generalize ids.filter (!db.has 0 ·) = new, db.queue = queue at h sub ⊢
  induction new generalizing queue
  case nil            => exact .inl h
  case cons id new ih =>
    rcases ih _ h fun id mem => sub id (List.mem_cons_of_mem _ mem) with old | mem
    · rcases Table.mem_replace.mp old with ⟨old, _⟩ | rfl
      · exact .inl old
      · exact .inr (sub id List.mem_cons_self)
    · exact .inr mem

end Db

end Kaluta.Download

-- What a queue and a store keep of a message, and what each of their writes leaves of it.
namespace Kaluta.Download

namespace Db

variable (db : Db)

-- Stored as a priority asks, or queued at it or more urgently.
def keeps (priority : Nat) (id : String) : Bool :=
  db.has priority id || (db.queue.find? id).any (·.priority ≤ priority)

variable {db} {n : Nat} {id : String} {ids : List String}

theorem has_iff : db.has n id = true ↔ ∃ m, db.messages.find? id = some m ∧ (n ≥ HEADERS_ONLY ∨ m.full = true) := by
  simp only [has, List.any_eq_true, decide_eq_true_eq, Table.find?_eq_some_iff, Table.mem_rows, and_assoc]

theorem keeps_iff : db.keeps n id = true ↔ db.has n id = true ∨ ∃ q ∈ db.queue, q.id = id ∧ q.priority ≤ n := by
  simp only [keeps, Bool.or_eq_true, Option.any_eq_true, Table.find?_eq_some_iff, decide_eq_true_eq, and_assoc]

theorem keeps_mono {n' : Nat} (h : db.keeps n id = true) (le : n ≤ n') : db.keeps n' id = true := by
  rcases keeps_iff.mp h with stored | ⟨q, hq, eq, less⟩
  · obtain ⟨m, hm, enough⟩ := has_iff.mp stored
    exact keeps_iff.mpr (.inl (has_iff.mpr ⟨m, hm, enough.imp_left fun h => h.trans le⟩))
  · exact keeps_iff.mpr (.inr ⟨q, hq, eq, less.trans le⟩)

section Enqueue

variable {priority : Nat} {refetch : Bool} {queue : Table Queued Queued.id}

-- The more urgent place is kept.
theorem enqueueOne_keeps {q : Queued} {new : String} (h : q ∈ queue) :
    ∃ q' ∈ db.enqueueOne priority refetch queue new, q'.id = q.id ∧ q'.priority ≤ q.priority := by
  rw [enqueueOne]
  split
  case isTrue => exact ⟨q, h, rfl, le_rfl⟩
  case isFalse =>
    split
    case h_1 none_ =>
      exact ⟨q, Table.mem_replace.mpr (.inl ⟨h, Table.find?_eq_none_iff.mp none_ q h⟩), rfl, le_rfl⟩
    case h_2 old found =>
      split
      case isTrue less =>
        by_cases eq : q.id = new
        case pos =>
          have same : q = old := queue.eq_of_key_eq h (Table.find?_mem found) (eq.trans (Table.find?_key_eq found).symm)
          exact ⟨_, Table.mem_replace.mpr (.inr rfl), eq.symm, same ▸ less.le⟩
        case neg => exact ⟨q, Table.mem_replace.mpr (.inl ⟨h, eq⟩), rfl, le_rfl⟩
      case isFalse => exact ⟨q, h, rfl, le_rfl⟩

theorem enqueueOne_new (new : String) : db.has priority new = true ∨
    ∃ q ∈ db.enqueueOne priority refetch queue new, q.id = new ∧ q.priority ≤ priority := by
  rw [enqueueOne]
  split
  case isTrue has => exact .inl (Bool.and_eq_true_iff.mp has).right
  case isFalse =>
    right
    split
    case h_1 => exact ⟨_, Table.mem_replace.mpr (.inr rfl), rfl, le_rfl⟩
    case h_2 old found =>
      split
      case isTrue      => exact ⟨_, Table.mem_replace.mpr (.inr rfl), rfl, le_rfl⟩
      case isFalse not => exact ⟨old, Table.find?_mem found, Table.find?_key_eq found, not_lt.mp not⟩

theorem foldl_enqueueOne_keeps {q : Queued} (h : q ∈ queue) :
    ∃ q' ∈ ids.foldl (db.enqueueOne priority refetch) queue, q'.id = q.id ∧ q'.priority ≤ q.priority := by
  induction ids generalizing queue q
  case nil             => exact ⟨q, h, rfl, le_rfl⟩
  case cons new ids ih =>
    obtain ⟨q₁, h₁, eq₁, le₁⟩ := db.enqueueOne_keeps h
    obtain ⟨q₂, h₂, eq₂, le₂⟩ := ih h₁
    exact ⟨q₂, h₂, eq₂.trans eq₁, le₂.trans le₁⟩

theorem keeps_enqueue (h : db.keeps n id = true) : (db.enqueue priority ids refetch).keeps n id = true := by
  rcases keeps_iff.mp h with stored | ⟨q, hq, eq, le⟩
  · exact keeps_iff.mpr (.inl stored)
  · obtain ⟨q', hq', eq', le'⟩ := db.foldl_enqueueOne_keeps hq
    exact keeps_iff.mpr (.inr ⟨q', hq', eq'.trans eq, le'.trans le⟩)

-- Each id of a page is stored as the priority asks, or queued.
theorem keeps_enqueue_new (mem : id ∈ ids) : (db.enqueue priority ids refetch).keeps priority id = true := by
  have queued : db.has priority id = true ∨
      ∃ q ∈ ids.foldl (db.enqueueOne priority refetch) db.queue, q.id = id ∧ q.priority ≤ priority := by
    generalize db.queue = queue
    induction ids generalizing queue
    case nil             => cases mem
    case cons new ids ih =>
      rcases List.mem_cons.mp mem with rfl | mem
      · rcases db.enqueueOne_new id with stored | ⟨q, hq, eq, le⟩
        · exact .inl stored
        · obtain ⟨q', hq', eq', le'⟩ := db.foldl_enqueueOne_keeps hq
          exact .inr ⟨q', hq', eq'.trans eq, le'.trans le⟩
      · exact ih mem _
  exact keeps_iff.mpr queued

end Enqueue

section Store

variable {full : Bool}

theorem has_store (h : db.has n id = true) : (db.store full ids).has n id = true := by
  obtain ⟨m, hm, enough⟩ := has_iff.mp h
  suffices ∃ m, (db.store full ids).messages.find? id = some m ∧ (n ≥ HEADERS_ONLY ∨ m.full = true) from has_iff.mpr this
  simp only [store]
  generalize db.messages = messages at hm
  induction ids generalizing messages m
  case nil             => exact ⟨m, hm, enough⟩
  case cons new ids ih =>
    by_cases eq : id = new
    case pos =>
      refine ih { m with full := m.full || full } (enough.imp_right fun h => by simp [h]) _ ?_
      rw [Table.find?_upsert, if_pos eq, hm]
      rfl
    case neg =>
      refine ih m enough _ ?_
      simpa [Table.find?_upsert, eq] using hm

theorem has_store_new (mem : id ∈ ids) (enough : n ≥ HEADERS_ONLY ∨ full = true) : (db.store full ids).has n id = true := by
  have first (db : Db) : (db.store full [id]).has n id = true := by
    rw [has_iff]
    simp only [store, List.foldl_cons, List.foldl_nil, Table.find?_upsert, if_true]
    refine ⟨_, rfl, enough.imp_right fun h => ?_⟩
    cases db.messages.find? id <;> simp [h]
  induction ids generalizing db
  case nil             => cases mem
  case cons new ids ih =>
    have split : db.store full (new :: ids) = (db.store full [new]).store full ids := rfl
    rw [split]
    rcases List.mem_cons.mp mem with rfl | mem
    · exact has_store (first db)
    · exact ih mem

end Store

-- A backfill batch takes from the queue what it stores.
theorem keeps_stored {known : String → Bool} (h : db.keeps n id = true) (hid : known id = true) :
    ((db.store true (ids.filter known)).remove ids).keeps n id = true := by
  by_cases mem : id ∈ ids
  case pos =>
    have : (db.store true (ids.filter known)).has n id = true := has_store_new (List.mem_filter.mpr ⟨mem, hid⟩) (.inr rfl)
    exact keeps_iff.mpr (.inl this)
  case neg =>
    rcases keeps_iff.mp h with stored | ⟨q, hq, eq, le⟩
    · have : (db.store true (ids.filter known)).has n id = true := has_store stored
      exact keeps_iff.mpr (.inl this)
    · exact keeps_iff.mpr (.inr ⟨q, Table.mem_delete.mpr ⟨hq, by simpa [eq] using mem⟩, eq, le⟩)

-- A headers pass takes what is queued for headers only.
theorem keeps_headers {known : String → Bool} (h : db.keeps n id = true) (hid : known id = true) :
    ((db.store false (ids.filter known)).removeHeadersOnly ids).keeps n id = true := by
  have stored (h : db.has n id = true) : (db.store false (ids.filter known)).has n id = true := has_store h
  rcases keeps_iff.mp h with was | ⟨q, hq, eq, le⟩
  · exact keeps_iff.mpr (.inl (stored was))
  · by_cases taken : q.id ∈ ids ∧ q.priority ≥ HEADERS_ONLY
    case pos =>
      have : (db.store false (ids.filter known)).has n id = true :=
        has_store_new (List.mem_filter.mpr ⟨eq ▸ taken.left, hid⟩) (.inl (taken.right.trans le))
      exact keeps_iff.mpr (.inl this)
    case neg => exact keeps_iff.mpr (.inr ⟨q, Table.mem_delete.mpr ⟨hq, decide_eq_false taken⟩, eq, le⟩)

theorem keeps_promote (h : db.keeps n id = true) : db.promoteHeadersOnly.keeps n id = true := by
  rcases keeps_iff.mp h with stored | ⟨q, hq, eq, le⟩
  · exact keeps_iff.mpr (.inl stored)
  · by_cases high : q.priority ≥ HEADERS_ONLY
    case pos =>
      refine keeps_iff.mpr (.inr ⟨{ q with priority := q.priority - HEADERS_ONLY }, ?_, eq, (Nat.sub_le _ _).trans le⟩)
      simp only [promoteHeadersOnly, Table.mem_update]
      exact .inr ⟨q, hq, decide_eq_true high, rfl⟩
    case neg =>
      refine keeps_iff.mpr (.inr ⟨q, ?_, eq, le⟩)
      simp only [promoteHeadersOnly, Table.mem_update]
      exact .inl ⟨hq, decide_eq_false high⟩

-- What is queued more urgently than the window's own phases stays queued.
theorem keeps_clear (h : db.keeps n id = true) (less : n < WINDOW_PRIORITY) :
    (db.clearFromPriority WINDOW_PRIORITY).keeps n id = true := by
  rcases keeps_iff.mp h with stored | ⟨q, hq, eq, le⟩
  · exact keeps_iff.mpr (.inl stored)
  · exact keeps_iff.mpr (.inr ⟨q, Table.mem_delete.mpr ⟨hq, decide_eq_false (by omega)⟩, eq, le⟩)

theorem mem_store {full : Bool} {row : Stored} (h : row ∈ (db.store full ids).messages) :
    (∃ old ∈ db.messages, old.id = row.id) ∨ row.id ∈ ids := by
  simp only [store] at h
  generalize db.messages = messages at h ⊢
  induction ids generalizing messages
  case nil             => exact .inl ⟨row, h, rfl⟩
  case cons new ids ih =>
    rcases ih _ h with ⟨old, ho, eq⟩ | mem
    · have found := eq ▸ Table.find?_key ho
      rw [Table.find?_upsert] at found
      split at found
      case isTrue same => exact .inr (same ▸ List.mem_cons_self)
      case isFalse     => exact .inl ⟨old, Table.find?_mem found, eq⟩
    · exact .inr (List.mem_cons_of_mem new mem)

-- What is fetched anew is queued.
theorem queued_enqueue {priority : Nat} (mem : id ∈ ids) : ∃ q ∈ (db.enqueue priority ids true).queue, q.id = id := by
  have one (queue : Table Queued Queued.id) : ∃ q ∈ db.enqueueOne priority true queue id, q.id = id := by
    rw [enqueueOne]
    split
    case isTrue h => cases h
    case isFalse =>
      split
      case h_1 => exact ⟨_, Table.mem_replace.mpr (.inr rfl), rfl⟩
      case h_2 old found =>
        split
        · exact ⟨_, Table.mem_replace.mpr (.inr rfl), rfl⟩
        · exact ⟨old, Table.find?_mem found, Table.find?_key_eq found⟩
  simp only [enqueue]
  generalize db.queue = queue
  induction ids generalizing queue
  case nil             => cases mem
  case cons new ids ih =>
    rcases List.mem_cons.mp mem with rfl | mem
    · obtain ⟨q, hq, eq⟩ := one queue
      obtain ⟨q', hq', eq', _⟩ := db.foldl_enqueueOne_keeps hq
      exact ⟨q', hq', eq'.trans eq⟩
    · exact ih mem _

end Db

end Kaluta.Download
