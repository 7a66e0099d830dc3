import Mathlib.Data.List.Intervals
import Kaluta.Lib.Execution
import Kaluta.Sync.LocalChange

-- The Inbox's categories: how they are listed and applied while incremental sync applies the history.
namespace Kaluta

open SystemLabels

-- Whether a message is in the Inbox and lacks a label.
def Store.inboxMessageMissing (s : Store) (id : MessageId) (label : LabelId) : Bool :=
  (s.message? id).any fun row => s.hasLabel row.id INBOX && !s.hasLabel row.id label

-- A transaction that changes labels.
def Store.modify (s : Store) (diffs : List MessageDiff) : StoreResult Store := do
  let w ← { tx := s : MailWriter }.modifyEach diffs
  let (mail, _) ← w.finish
  return mail

section Writes

variable {mail mail' : Store} {diffs diffs' : List MessageDiff} {m : MessageId}

theorem diffWrite_append : diffWrite (diffs ++ diffs') m = diffWrite diffs m * diffWrite diffs' m := by
  rw [diffWrite, List.filter_append, List.map_append, List.prod_append, diffWrite, diffWrite]

theorem diffWrite_of_ne (h : ∀ d ∈ diffs, d.message ≠ m) : diffWrite diffs m = 1 := by
  rw [diffWrite, List.filter_eq_nil_iff.mpr (by simpa using h), List.map_nil, List.prod_nil]

-- Changes of labels that leave the Archive's alone are made.
theorem Store.Ready.modify (h : mail.Ready) (allowed : ∀ d ∈ diffs, ARCHIVE_LABEL ∉ d.added) :
    ∃ mail', mail.modify diffs = .ok mail' ∧ mail'.Ready ∧
      ∀ m, mail'.mailbox m = (mail.mailbox m).map (diffWrite diffs m).apply := by
  have start := MailWriter.ready_start h
  obtain ⟨w, hw⟩ := start.modifyEach_ok.mpr fun d hd added => absurd added (allowed d hd)
  have writes := start.modifyEach hw
  obtain ⟨mail', changes, hf, ready, mailbox, _⟩ := writes.ready.finish
  refine ⟨mail', ?_, ready, fun m => mailbox_diffs (mailbox.trans writes.mailbox) m⟩
  exact Except.bind_eq_ok.mpr ⟨_, hw, Except.bind_eq_ok.mpr ⟨_, hf, rfl⟩⟩

end Writes

namespace Categories

abbrev Category := { c : LabelId // c ∈ CATEGORIES }

-- A record of the history: a message got a category, or none.
structure Moved where
  id       : MessageId
  category : Option Category
  deriving DecidableEq

inductive Change
  | labelsAdded (id : MessageId) (labelIds : List LabelId)
  | labelsRemoved (id : MessageId) (labelIds : List LabelId)
  deriving DecidableEq

-- What `modify_message_labels` is called with for a change.
def Change.diff : Change → MessageDiff
  | labelsAdded id labelIds   => ⟨id, labelIds, []⟩
  | labelsRemoved id labelIds => ⟨id, [], labelIds⟩

structure Server where
  inbox   : List MessageId
  -- The categories before all of the history.
  given   : MessageId → Option Category
  history : List Moved

namespace Server

variable (s : Server)

-- The category of a message after the first records of the history.
def categoryAt (place : Nat) (id : MessageId) : Option Category :=
  (s.history.take place).foldl (fun category r => if r.id = id then r.category else category) (s.given id)

def category (id : MessageId) : Option Category :=
  s.categoryAt s.history.length id

-- What a record of the history makes of labels.
def changesAt (place : Nat) : List Change :=
  match s.history[place]? with
  | none   => []
  | some r =>
    let before := s.categoryAt place r.id
    if r.category = before then
      []
    else
      r.category.toList.map (.labelsAdded r.id [·.val]) ++ before.toList.map (.labelsRemoved r.id [·.val])

-- What the provider reports of the history from one place to another.
def changes (first last : Nat) : List Change :=
  (List.Ico first last).flatMap s.changesAt

-- Whether no record between two places is about a message.
def still (first last : Nat) (id : MessageId) : Bool :=
  ((s.history.take last).drop first).all (·.id ≠ id)

def moved (r : Moved) : Server :=
  { s with history := s.history ++ [r] }

end Server

-- A message found in the list of a category, and how long the history was then.
structure Listed where
  category : Category
  id       : MessageId
  place    : Nat

-- A run of `sync_categories`.
structure Run where
  todo   : List Category
  -- How much of the mailbox the pages of the first category that is left have been through.
  passed : Nat := 0
  listed : List Listed := []

-- A run of `sync_incremental` that has read the changes since the stored cursor.
structure Incremental where
  changes : List Change
  cursor  : Nat

structure State where
  server      : Server
  mail        : Store
  cursor      : Nat
  run         : Option Run := none
  incremental : Option Incremental := none
  -- Whether a run of `sync_categories` has come to its end.
  applied     : Bool := false

inductive Action
  | moved (id : MessageId) (category : Option Category)
  -- The parts of `sync_categories`: its start, the pages of its lists, its transaction.
  | start
  | page (count : Nat)
  | apply
  -- The parts of `sync_incremental`: the changes are read, and applied in one transaction.
  | changesSince
  | commit
  -- A run ends with an error, or the program with all its runs.
  | failCategories
  | failIncremental
  | restart

def others (category : Category) : List LabelId :=
  CATEGORIES.filter (· ≠ category)

def Listed.diff (l : Listed) : MessageDiff :=
  ⟨l.id, [l.category.val], others l.category⟩

namespace State

variable (s : State)

-- What of the lists is to be applied.
def wanted (listed : List Listed) : List Listed :=
  listed.filter fun l => s.mail.inboxMessageMissing l.id l.category

-- The next page of a list. When the list is at its end, the next category follows.
def page (category : Category) (todo : List Category) (passed : Nat) (listed : List Listed) (count : Nat) : State :=
  let ids := ((s.server.inbox.drop passed).take count).filter (s.server.category · = some category)
  let listed := listed ++ ids.map (⟨category, ·, s.server.history.length⟩)
  { s with
    run := some (
      if s.server.inbox.length ≤ passed + count then
        { todo, listed }
      else
        { todo := category :: todo, passed := passed + count, listed }) }

def apply (listed : List Listed) : State :=
  match s.mail.modify ((s.wanted listed).map Listed.diff) with
  | .ok mail => { s with mail, run := none, applied := true }
  | .error _ => { s with run := none }

def changesSince : State :=
  { s with
    incremental := some ⟨s.server.changes s.cursor s.server.history.length, s.server.history.length⟩ }

def commit (i : Incremental) : State :=
  match s.mail.modify (i.changes.map Change.diff) with
  | .ok mail => { s with mail, cursor := i.cursor, incremental := none }
  | .error _ => { s with incremental := none }

def step : Action → Option State
  | .moved id category =>
    if category = s.server.category id then none else some { s with server := s.server.moved ⟨id, category⟩ }
  | .start =>
    if s.run.isNone then
      some { s with run := some { todo := CATEGORIES.attach } }
    else
      none
  | .page count =>
    match s.run with
    | some ⟨category :: todo, passed, listed⟩ => some (s.page category todo passed listed count)
    | _                                       => none
  | .apply =>
    match s.run with
    | some ⟨[], _, listed⟩ => some (s.apply listed)
    | _                    => none
  | .changesSince    => if s.incremental.isNone then some s.changesSince else none
  | .commit          => s.incremental.map s.commit
  | .failCategories  => some { s with run := none }
  | .failIncremental => some { s with incremental := none }
  | .restart         => some { s with run := none, incremental := none }

-- Whether what is to be applied of the lists is not older than what the stored cursor says.
def cond : Action → Bool
  | .apply => s.run.all fun run => (s.wanted run.listed).all fun l => s.server.still l.place s.cursor l.id
  | _      => true

-- A message as it was stored: with the categories it had at a place the cursor has not passed, or, read over IMAP, with
-- none.
def Fetched (id : MessageId) (labels : Set LabelId) : Prop :=
  (∀ c : Category, c.val ∉ labels) ∨ ∃ place, s.cursor ≤ place ∧ place ≤ s.server.history.length ∧
    ∀ c : Category, c.val ∈ labels ↔ s.server.categoryAt place id = some c

structure Start : Prop where
  ready       : s.mail.Ready
  cursor      : s.cursor ≤ s.server.history.length
  run         : s.run = none
  incremental : s.incremental = none
  applied     : s.applied = false
  moves       : ∀ k r, s.server.history[k]? = some r → r.category ≠ s.server.categoryAt k r.id
  fetched     : ∀ id labels, s.mail.mailbox id = some labels → s.Fetched id labels
  inbox       : ∀ id labels, s.mail.mailbox id = some labels → INBOX ∈ labels → id ∈ s.server.inbox

-- The categories of a stored message: not two, in the Inbox exactly what the server gives it.
structure Sorted (id : MessageId) (labels : Set LabelId) : Prop where
  one   : ∀ c c' : Category, c.val ∈ labels → c'.val ∈ labels → c = c'
  given : INBOX ∈ labels → ∀ c : Category, c.val ∈ labels ↔ s.server.category id = some c

-- When all runs have finished, one of `sync_categories` among them, and the stored cursor is the server's latest.
def AllSorted : Prop :=
  s.applied = true → s.run = none → s.incremental = none → s.cursor = s.server.history.length →
    ∀ id labels, s.mail.mailbox id = some labels → s.Sorted id labels

end State

def syncs : System State Action where
  Start := State.Start
  step  := State.step

-- What the history and the lists make of the categories of stored messages: those among the labels are just this one,
-- or none.
def Is (labels : Set LabelId) (category : Option Category) : Prop :=
  ∀ c : Category, c.val ∈ labels ↔ category = some c

section Is

variable {labels labels' : Set LabelId} {category : Option Category} {o : Overwrite LabelId}

-- What is written over labels depends on the categories among them alone, as far as categories go.
theorem Is.congr (h : Is labels category) (h' : Is labels' category) (c : Category) :
    c.val ∈ o.apply labels ↔ c.val ∈ o.apply labels' := by
  cases ho : o c.val
  case none   => rw [Overwrite.mem_apply_none ho, Overwrite.mem_apply_none ho, h c, h' c]
  case some b => rw [Overwrite.mem_apply_some ho, Overwrite.mem_apply_some ho]

theorem is_categories (category : Option Category) : Is { l | ∃ c : Category, c.val = l ∧ category = some c } category := by
  intro c
  constructor
  · rintro ⟨c', same, is⟩
    rw [is, Subtype.ext same]
  · exact fun is => ⟨c, rfl, is⟩

theorem mem_toList {c : Category} : c.val ∈ category.toList.map (·.val) ↔ category = some c := by
  cases category
  case none   => simp
  case some d => simpa [Subtype.ext_iff] using eq_comm

end Is

namespace Server

variable {s : Server} {r : Moved} {id : MessageId} {p q n k : Nat} {labels : Set LabelId}

-- What the history between two places writes to a message's labels.
def written (s : Server) (first last : Nat) (id : MessageId) : Overwrite LabelId :=
  diffWrite ((s.changes first last).map Change.diff) id

theorem written_self : s.written p p id = 1 := by
  rw [written, changes, List.Ico.self_empty]
  rfl

theorem written_trans (le : p ≤ q) (le' : q ≤ n) : s.written p q id * s.written q n id = s.written p n id := by
  rw [written, written, written, ← diffWrite_append, ← List.map_append, changes, changes, ← List.flatMap_append,
    List.Ico.append_consecutive le le', changes]

theorem categoryAt_succ (h : s.history[k]? = some r) :
    s.categoryAt (k + 1) id = if r.id = id then r.category else s.categoryAt k id := by
  rw [categoryAt, List.take_add_one, h, List.foldl_append, categoryAt]
  rfl

theorem changesAt_of_id (h : s.history[k]? = some r) : ∀ change ∈ s.changesAt k, change.diff.message = r.id := by
  intro change mem
  simp only [changesAt, h] at mem
  split at mem
  case isTrue => cases mem
  case isFalse =>
    rcases List.mem_append.mp mem with mem | mem <;> obtain ⟨c, _, rfl⟩ := List.mem_map.mp mem <;> rfl

theorem written_succ : s.written k (k + 1) id = diffWrite ((s.changesAt k).map Change.diff) id := by
  rw [written, changes, List.Ico.succ_singleton, List.flatMap_singleton]

theorem written_succ_of_ne (h : s.history[k]? = some r) (ne : r.id ≠ id) : s.written k (k + 1) id = 1 := by
  rw [written_succ]
  refine diffWrite_of_ne fun d hd same => ne ?_
  obtain ⟨change, mem, rfl⟩ := List.mem_map.mp hd
  rw [← same, changesAt_of_id h change mem]

-- A record makes a message's categories what it says, where they are what the server had before or lack them.
theorem is_written_succ (h : s.history[k]? = some r)
    (before : Is labels (s.categoryAt k r.id) ∨ (r.category ≠ s.categoryAt k r.id ∧ Is labels none)) :
    Is ((s.written k (k + 1) r.id).apply labels) r.category := by
  rw [written_succ]
  simp only [changesAt, h]
  split
  case isTrue same =>
    rcases before with is | ⟨moves, _⟩
    · rw [same]
      simpa [diffWrite] using is
    · exact absurd same moves
  case isFalse moves =>
    have edits : diffWrite ((r.category.toList.map (Change.labelsAdded r.id [·.val]) ++
        (s.categoryAt k r.id).toList.map (Change.labelsRemoved r.id [·.val])).map Change.diff) r.id =
        .edit (r.category.toList.map (·.val)) [] * .edit [] ((s.categoryAt k r.id).toList.map (·.val)) := by
      cases r.category <;> cases s.categoryAt k r.id <;> simp [diffWrite, Change.diff]
    rw [edits]
    intro c
    rw [Overwrite.apply_mul, Overwrite.mem_apply_edit, Overwrite.mem_apply_edit, mem_toList, mem_toList]
    have old : c.val ∈ labels → s.categoryAt k r.id = some c := by
      rcases before with is | ⟨_, is⟩
      · exact (is c).mp
      · intro mem
        cases (is c).mp mem
    constructor
    · rintro (⟨⟨mem, _⟩ | new, removed⟩ | nil)
      · exact absurd (old mem) removed
      · exact new
      · cases nil
    · exact fun new => .inl ⟨.inr new, fun removed => moves (new.trans removed.symm)⟩

-- What the server had at a place becomes what it has later.
theorem is_written (is : Is labels (s.categoryAt p id)) (le : p ≤ q) (within : q ≤ s.history.length) :
    Is ((s.written p q id).apply labels) (s.categoryAt q id) := by
  induction q, le using Nat.le_induction
  case base => rwa [written_self, Overwrite.apply_one]
  case succ k le ih =>
    have lt : k < s.history.length := within
    have record : s.history[k]? = some s.history[k] := List.getElem?_eq_getElem lt
    rw [← written_trans le (Nat.le_succ k), Overwrite.apply_mul, categoryAt_succ record]
    by_cases same : s.history[k].id = id
    case pos =>
      subst same
      rw [if_pos rfl]
      exact is_written_succ record (.inl (ih lt.le))
    case neg =>
      rw [if_neg same, written_succ_of_ne record same, Overwrite.apply_one]
      exact ih lt.le

-- Labels that are ahead of a place stay as they are when the history is applied from there.
theorem is_written_ahead (is : Is labels (s.categoryAt q id)) (le : p ≤ q) (within : q ≤ s.history.length) :
    Is ((s.written p q id).apply labels) (s.categoryAt q id) := by
  have reached := is_written (is_categories (s.categoryAt p id)) le within
  intro c
  rw [is.congr reached, Overwrite.apply_apply]
  exact reached c

section Still

theorem still_iff : s.still p q id = true ↔ ∀ k r, p ≤ k → k < q → s.history[k]? = some r → r.id ≠ id := by
  rw [still, List.all_eq_true]
  constructor
  · intro h k r le lt record
    have mem : r ∈ (s.history.take q).drop p := by
      refine List.mem_of_getElem? (i := k - p) ?_
      rw [List.getElem?_drop, Nat.add_sub_cancel' le, List.getElem?_take_of_lt lt, record]
    exact of_decide_eq_true (h r mem)
  · intro h r mem
    obtain ⟨i, record⟩ := List.mem_iff_getElem?.mp mem
    rw [List.getElem?_drop, List.getElem?_take] at record
    split at record
    case isTrue lt  => exact decide_eq_true (h _ r (Nat.le_add_right p i) lt record)
    case isFalse    => cases record

theorem still_mono (h : s.still p q id) (le : p ≤ k) (le' : n ≤ q) : s.still k n id :=
  still_iff.mpr fun i r hi hn => still_iff.mp h i r (le.trans hi) (hn.trans_le le')

theorem still_trans (h : s.still p q id) (h' : s.still q n id) : s.still p n id := by
  refine still_iff.mpr fun i r hi hn => ?_
  by_cases lt : i < q
  · exact still_iff.mp h i r hi lt
  · exact still_iff.mp h' i r (Nat.le_of_not_lt lt) hn

-- Where there is no record of a message nothing becomes of it.
theorem of_still (h : s.still p q id) (le : p ≤ q) (within : q ≤ s.history.length) :
    s.categoryAt q id = s.categoryAt p id ∧ s.written p q id = 1 := by
  induction q, le using Nat.le_induction
  case base => exact ⟨rfl, written_self⟩
  case succ k le ih =>
    have lt : k < s.history.length := within
    have record : s.history[k]? = some s.history[k] := List.getElem?_eq_getElem lt
    have other := still_iff.mp h k _ le (Nat.lt_succ_self k) record
    have ⟨same, none_⟩ := ih (still_mono h le_rfl (Nat.le_succ k)) lt.le
    rw [categoryAt_succ record, if_neg other, ← written_trans le (Nat.le_succ k), none_, written_succ_of_ne record other]
    exact ⟨same, mul_one 1⟩

end Still

section Moved

theorem categoryAt_moved (le : p ≤ s.history.length) : (s.moved r).categoryAt p id = s.categoryAt p id := by
  rw [categoryAt, moved, List.take_append_of_le_length le, categoryAt]

theorem changesAt_moved (lt : k < s.history.length) : (s.moved r).changesAt k = s.changesAt k := by
  rw [changesAt, changesAt, show (s.moved r).history[k]? = s.history[k]? from List.getElem?_append_left lt]
  simp only [categoryAt_moved lt.le]

theorem changes_moved (le : q ≤ s.history.length) : (s.moved r).changes p q = s.changes p q := by
  rw [changes, changes, List.flatMap_def, List.flatMap_def]
  refine congrArg _ (List.map_congr_left fun k mem => changesAt_moved ?_)
  exact (List.Ico.mem.mp mem).right.trans_le le

theorem written_moved (le : q ≤ s.history.length) : (s.moved r).written p q id = s.written p q id := by
  rw [written, written, changes_moved le]

theorem record_moved : (s.moved r).history[s.history.length]? = some r := by
  simp [moved]

theorem length_moved : (s.moved r).history.length = s.history.length + 1 :=
  List.length_append

theorem category_moved : (s.moved r).category id = if r.id = id then r.category else s.category id := by
  rw [category, length_moved, categoryAt_succ record_moved, categoryAt_moved le_rfl, category]

theorem still_moved (le : q ≤ s.history.length) : (s.moved r).still p q id = s.still p q id := by
  rw [still, still, moved, List.take_append_of_le_length le]

end Moved

end Server

end Categories

end Kaluta
