import Kaluta.Categories.Engine
import Kaluta.Store.Reachable

-- The categories of stored messages once all runs have finished.
namespace Kaluta.Categories

open SystemLabels

variable {s : State} {p q k : Nat} {id : MessageId} {labels : Set LabelId} {c : Category} {l : Listed} {r : Moved}

theorem not_mem_categories (h : l' ∉ CATEGORIES) (c : Category) : l' ≠ c.val :=
  fun same => h (same ▸ c.property)

section Diffs

variable {listed : List Listed}

-- The labels besides the categories stay as they are.
theorem Server.diff_category {server : Server} (h : l' ∉ CATEGORIES) :
    ∀ d ∈ (server.changes p q).map Change.diff, l' ∉ d.added ∧ l' ∉ d.removed := by
  intro d hd
  obtain ⟨change, hc, rfl⟩ := List.mem_map.mp hd
  obtain ⟨k, _, hk⟩ := List.mem_flatMap.mp hc
  rw [changesAt] at hk
  split at hk
  · cases hk
  · dsimp only at hk
    split at hk
    · cases hk
    · rcases List.mem_append.mp hk with hk | hk <;> obtain ⟨c, _, rfl⟩ := List.mem_map.mp hk <;>
        simp [Change.diff, not_mem_categories h c]

theorem Listed.diff_category (h : l' ∉ CATEGORIES) (l : Listed) : l' ∉ l.diff.added ∧ l' ∉ l.diff.removed := by
  refine ⟨by simpa [diff] using not_mem_categories h l.category, fun mem => h ?_⟩
  exact (List.mem_filter.mp mem).left

theorem mem_apply_diffWrite {diffs : List MessageDiff} {l' : LabelId}
    (h : ∀ d ∈ diffs, l' ∉ d.added ∧ l' ∉ d.removed) : l' ∈ (diffWrite diffs id).apply labels ↔ l' ∈ labels :=
  Overwrite.mem_apply_none (diffWrite_eq_none.mpr fun d hd _ => h d hd)

-- What is applied last of a message is the one category it has then.
theorem is_diffWrite_listed (h : ∃ l ∈ listed, l.id = id) :
    ∃ l ∈ listed, l.id = id ∧ ∀ labels, Is ((diffWrite (listed.map Listed.diff) id).apply labels) (some l.category) := by
  induction listed using List.reverseRecOn
  case nil => simp at h
  case append_singleton listed last ih =>
    rw [List.map_append, List.map_singleton, diffWrite_append]
    by_cases same : last.id = id
    case pos =>
      refine ⟨last, by simp, same, fun labels c => ?_⟩
      have one : diffWrite [last.diff] id = .edit [last.category.val] (others last.category) := by
        simp [diffWrite, Listed.diff, same]
      rw [Overwrite.apply_mul, one, Overwrite.mem_apply_edit, List.mem_singleton, Option.some_inj]
      constructor
      · rintro (⟨_, kept⟩ | same)
        · by_contra other
          exact kept (List.mem_filter.mpr ⟨c.property, decide_eq_true fun same => other (Subtype.ext same.symm)⟩)
        · exact Subtype.ext same.symm
      · exact fun same => .inr (congrArg Subtype.val same.symm)
    case neg =>
      have none_ : diffWrite [last.diff] id = 1 := diffWrite_of_ne (by simpa [Listed.diff] using same)
      obtain ⟨l, hl, is⟩ := h
      have earlier : l ∈ listed := (List.mem_append.mp hl).resolve_right fun mem =>
        same (List.mem_singleton.mp mem ▸ is)
      obtain ⟨l, hl, is⟩ := ih ⟨l, earlier, is⟩
      rw [none_, mul_one]
      exact ⟨l, List.mem_append_left _ hl, is⟩

end Diffs

theorem inboxMessageMissing_iff {mail : Store} {label : LabelId} (h : mail.mailbox id = some labels) :
    mail.inboxMessageMissing id label = true ↔ INBOX ∈ labels ∧ label ∉ labels := by
  obtain ⟨row, found, rfl⟩ := Option.map_eq_some_iff.mp h
  rw [Store.inboxMessageMissing, found]
  simp

namespace State

-- What is left of the history gives a stored message the category the server has.
def Lands (s : State) (id : MessageId) (labels : Set LabelId) : Prop :=
  Is ((s.server.written s.cursor s.server.history.length id).apply labels) (s.server.category id)

-- That, or it was stored without one, and no record since is about it.
def Settles (origin : Nat) (s : State) (id : MessageId) (labels : Set LabelId) : Prop :=
  s.Lands id labels ∨ Is labels none ∧ s.server.still origin s.server.history.length id

-- The lists say what was so, and have every message in them that nothing happens to.
structure Lists (origin : Nat) (server : Server) (run : Run) : Prop where
  sound    : ∀ l ∈ run.listed, l.place ≤ server.history.length ∧ server.categoryAt l.place l.id = some l.category
  complete : ∀ id ∈ server.inbox, server.still origin server.history.length id → ∀ c, server.category id = some c →
    (c ∉ run.todo ∨ run.todo.head? = some c ∧ id ∈ server.inbox.take run.passed) →
      ∃ l ∈ run.listed, l.id = id ∧ l.category = c

structure Inv (origin : Nat) (s : State) : Prop where
  ready       : s.mail.Ready
  behind      : origin ≤ s.cursor
  cursor      : s.cursor ≤ s.server.history.length
  inbox       : ∀ id labels, s.mail.mailbox id = some labels → INBOX ∈ labels → id ∈ s.server.inbox
  settles     : ∀ id labels, s.mail.mailbox id = some labels → s.Settles origin id labels
  lands       : s.applied = true → ∀ id labels, s.mail.mailbox id = some labels → INBOX ∈ labels → s.Lands id labels
  incremental : ∀ i, s.incremental = some i → i.changes = s.server.changes s.cursor i.cursor ∧ s.cursor ≤ i.cursor ∧
    i.cursor ≤ s.server.history.length
  run         : ∀ run, s.run = some run → Lists origin s.server run

variable {origin : Nat}

-- Without a category, and without a record about it, a message has the category it had first.
theorem lands_of_still (h : s.Inv origin) (still : s.server.still origin s.server.history.length id) :
    s.Lands id labels ↔ Is labels (s.server.category id) := by
  have none_ := (Server.of_still (Server.still_mono still h.behind le_rfl) h.cursor le_rfl).right
  rw [Lands, none_, Overwrite.apply_one]
  rfl

theorem Inv.allSorted (h : s.Inv origin) : s.AllSorted := by
  intro applied _ _ latest id labels stored
  have now : s.Lands id labels → Is labels (s.server.category id) := by
    rw [Lands, latest, Server.written_self, Overwrite.apply_one]
    exact fun is => is
  constructor
  case given => exact fun inbox => now (h.lands applied id labels stored inbox)
  case one =>
    intro c c' mem mem'
    rcases h.settles id labels stored with lands | ⟨none_, _⟩
    · exact Option.some_inj.mp (((now lands c).mp mem).symm.trans ((now lands c').mp mem'))
    · exact nomatch (none_ c).mp mem

section Moved

theorem Lands.moved (h : s.Lands id labels) (cursor : s.cursor ≤ s.server.history.length) :
    { s with server := s.server.moved r }.Lands id labels := by
  have le := cursor.trans (Nat.le_succ _)
  rw [Lands, Server.length_moved, ← Server.written_trans cursor (Nat.le_succ _), Overwrite.apply_mul,
    Server.written_moved le_rfl, Server.category_moved]
  have same : (s.server.moved r).categoryAt s.server.history.length r.id = s.server.category r.id :=
    Server.categoryAt_moved le_rfl
  by_cases about : r.id = id
  case pos =>
    subst about
    rw [if_pos rfl]
    exact Server.is_written_succ Server.record_moved (.inl (same ▸ h))
  case neg =>
    rw [if_neg about, Server.written_succ_of_ne Server.record_moved about, Overwrite.apply_one]
    exact h

theorem not_about (h : (s.server.moved r).still origin (s.server.history.length + 1) id)
    (le : origin ≤ s.server.history.length) : s.server.still origin s.server.history.length id ∧ r.id ≠ id := by
  have earlier := Server.still_mono h le_rfl (Nat.le_succ s.server.history.length)
  rw [Server.still_moved le_rfl] at earlier
  exact ⟨earlier, Server.still_iff.mp h _ r le (Nat.lt_succ_self _) Server.record_moved⟩

theorem Inv.moved (h : s.Inv origin) (moves : r.category ≠ s.server.category r.id) :
    { s with server := s.server.moved r }.Inv origin where
  ready       := h.ready
  behind      := h.behind
  cursor      := by
    rw [Server.length_moved]
    exact h.cursor.trans (Nat.le_succ _)
  inbox       := h.inbox
  lands       := fun applied id labels stored inbox => (h.lands applied id labels stored inbox).moved h.cursor
  settles     := by
    intro id labels stored
    rcases h.settles id labels stored with lands | ⟨none_, still⟩
    · exact .inl (lands.moved h.cursor)
    · by_cases about : r.id = id
      case pos =>
        subst about
        left
        have unwritten := (Server.of_still (Server.still_mono still h.behind le_rfl) h.cursor le_rfl).right
        rw [Lands, Server.length_moved, ← Server.written_trans h.cursor (Nat.le_succ _), Overwrite.apply_mul,
          Server.written_moved le_rfl, unwritten, Overwrite.apply_one, Server.category_moved, if_pos rfl]
        refine Server.is_written_succ Server.record_moved (.inr ⟨?_, none_⟩)
        rw [Server.categoryAt_moved le_rfl]
        exact moves
      case neg =>
        refine .inr ⟨none_, ?_⟩
        rw [Server.length_moved]
        refine Server.still_trans (q := s.server.history.length) ?_ ?_
        · rw [Server.still_moved le_rfl]
          exact still
        · refine Server.still_iff.mpr fun k r' le lt record => ?_
          cases Nat.le_antisymm (Nat.lt_succ_iff.mp lt) le
          cases Option.some_inj.mp (Server.record_moved.symm.trans record)
          exact about
  incremental := by
    intro i is
    obtain ⟨changes, le, within⟩ := h.incremental i is
    refine ⟨changes.trans (Server.changes_moved within).symm, le, ?_⟩
    rw [Server.length_moved]
    exact within.trans (Nat.le_succ _)
  run         := by
    intro run is
    obtain ⟨sound, complete⟩ := h.run run is
    constructor
    case sound =>
      intro l hl
      obtain ⟨le, category⟩ := sound l hl
      rw [Server.length_moved]
      exact ⟨le.trans (Nat.le_succ _), (Server.categoryAt_moved le).trans category⟩
    case complete =>
      intro id mem still c category listed
      rw [Server.length_moved] at still
      obtain ⟨still, other⟩ := not_about still (h.behind.trans h.cursor)
      rw [Server.category_moved, if_neg other] at category
      exact complete id mem still c category listed

end Moved

section Lists

theorem Inv.start (h : s.Inv origin) : { s with run := some { todo := CATEGORIES.attach } }.Inv origin :=
  { h with
    run := by
      rintro _ ⟨⟩
      refine ⟨nofun, fun id _ _ c _ listed => ?_⟩
      rcases listed with listed | ⟨_, mem⟩
      · exact absurd (List.mem_attach _ c) listed
      · simp at mem }

-- Of the messages of a page those in its category are listed.
theorem Lists.page {todo : List Category} {listed : List Listed} (h : Lists origin s.server ⟨c :: todo, p, listed⟩)
    (count : Nat) : ∀ run, (s.page c todo p listed count).run = some run → Lists origin s.server run := by
  obtain ⟨sound, complete⟩ := h
  let ids := ((s.server.inbox.drop p).take count).filter (s.server.category · = some c)
  let more : List Listed := listed ++ ids.map (⟨c, ·, s.server.history.length⟩)
  have more_sound : ∀ l ∈ more, l.place ≤ s.server.history.length ∧
      s.server.categoryAt l.place l.id = some l.category := by
    intro l hl
    rcases List.mem_append.mp hl with hl | hl
    · exact sound l hl
    · obtain ⟨id, mem, rfl⟩ := List.mem_map.mp hl
      exact ⟨le_rfl, of_decide_eq_true (List.mem_filter.mp mem).right⟩
  -- What was listed before, and what this page has.
  have more_complete (id : MessageId) (mem : id ∈ s.server.inbox)
      (still : s.server.still origin s.server.history.length id) (c' : Category) (is : s.server.category id = some c')
      (listed : (c' ∉ c :: todo ∨ (c :: todo).head? = some c' ∧ id ∈ s.server.inbox.take p) ∨
        c' = c ∧ id ∈ (s.server.inbox.drop p).take count) : ∃ l ∈ more, l.id = id ∧ l.category = c' := by
    rcases listed with before | ⟨rfl, page⟩
    · obtain ⟨l, hl, same⟩ := complete id mem still c' is before
      exact ⟨l, List.mem_append_left _ hl, same⟩
    · refine ⟨⟨c', id, s.server.history.length⟩, List.mem_append_right _ ?_, rfl, rfl⟩
      exact List.mem_map.mpr ⟨id, List.mem_filter.mpr ⟨page, decide_eq_true is⟩, rfl⟩
  rintro run ⟨⟩
  split
  case isTrue whole =>
    refine ⟨more_sound, fun id mem still c' is listed => more_complete id mem still c' is ?_⟩
    rcases listed with done | ⟨_, none_⟩
    · by_cases same : c' = c
      case neg => exact .inl (.inl (List.not_mem_cons_of_ne_of_not_mem same done))
      case pos =>
        rw [← List.take_append_drop p s.server.inbox] at mem
        rcases List.mem_append.mp mem with mem | mem
        · exact .inl (.inr ⟨congrArg some same.symm, mem⟩)
        · refine .inr ⟨same, ?_⟩
          rwa [List.take_of_length_le (by rw [List.length_drop]; omega)]
    · simp at none_
  case isFalse =>
    refine ⟨more_sound, fun id mem still c' is listed => more_complete id mem still c' is ?_⟩
    rcases listed with done | ⟨head, mem⟩
    · exact .inl (.inl done)
    · rw [List.take_add] at mem
      rcases List.mem_append.mp mem with mem | mem
      · exact .inl (.inr ⟨head, mem⟩)
      · exact .inr ⟨(Option.some_inj.mp head).symm, mem⟩

theorem Inv.page (h : s.Inv origin) {todo : List Category} {listed : List Listed}
    (is : s.run = some ⟨c :: todo, p, listed⟩) (count : Nat) : (s.page c todo p listed count).Inv origin :=
  { h with run := (h.run _ is).page count }

end Lists

section Writes

theorem archive_not_category : ARCHIVE_LABEL ∉ CATEGORIES := by
  decide

theorem inbox_not_category : INBOX ∉ CATEGORIES := by
  decide

-- A message for which nothing is wanted has its category, if the lists are whole.
theorem Inv.lands_unwanted (h : s.Inv origin) {listed : List Listed} (is : s.run = some ⟨[], p, listed⟩)
    (stored : s.mail.mailbox id = some labels) (inbox : INBOX ∈ labels) (unwanted : ∀ l ∈ s.wanted listed, l.id ≠ id) :
    s.Lands id labels := by
  rcases h.settles id labels stored with lands | ⟨none_, still⟩
  · exact lands
  · rw [lands_of_still h still]
    cases category : s.server.category id
    case none => exact none_
    case some c =>
      have mem := h.inbox id labels stored inbox
      obtain ⟨l, hl, rfl, rfl⟩ := (h.run _ is).complete id mem still c category (.inl List.not_mem_nil)
      refine absurd rfl (unwanted l (List.mem_filter.mpr ⟨hl, (inboxMessageMissing_iff stored).mpr ⟨inbox, ?_⟩⟩))
      exact fun has => nomatch (none_ l.category).mp has

theorem lands_ahead (is : Is labels (s.server.categoryAt p id)) (le : s.cursor ≤ p) (within : p ≤ s.server.history.length) :
    s.Lands id labels := by
  rw [Lands, ← Server.written_trans le within, Overwrite.apply_mul]
  exact Server.is_written (Server.is_written_ahead is le within) within le_rfl

-- The category a list gave to a message is where the rest of the history leads, if what the cursor passed since says
-- nothing of it.
theorem Lists.lands {run : Run} (h : Lists origin s.server run) (hl : l ∈ run.listed) (cursor : s.cursor ≤ s.server.history.length)
    (still : s.server.still l.place s.cursor l.id) (is : Is labels (some l.category)) : s.Lands l.id labels := by
  obtain ⟨within, category⟩ := h.sound l hl
  rw [← category] at is
  rcases Nat.le_total l.place s.cursor with le | le
  · rw [← (Server.of_still still le cursor).left] at is
    exact lands_ahead is le_rfl cursor
  · exact lands_ahead is le within

theorem Inv.apply (h : s.Inv origin) {listed : List Listed} (is : s.run = some ⟨[], p, listed⟩)
    (ok : s.cond .apply = true) : (s.apply listed).Inv origin := by
  have allowed : ∀ d ∈ (s.wanted listed).map Listed.diff, ARCHIVE_LABEL ∉ d.added := by
    intro d hd
    obtain ⟨l, _, rfl⟩ := List.mem_map.mp hd
    exact (l.diff_category archive_not_category).left
  obtain ⟨mail, made, ready, mailbox⟩ := h.ready.modify allowed
  have inbox_kept (id : MessageId) (labels : Set LabelId) :
      INBOX ∈ (diffWrite ((s.wanted listed).map Listed.diff) id).apply labels ↔ INBOX ∈ labels := by
    refine mem_apply_diffWrite fun d hd => ?_
    obtain ⟨l, _, rfl⟩ := List.mem_map.mp hd
    exact l.diff_category inbox_not_category
  -- Either the last that is wanted of a message is right, or nothing is wanted.
  have each (id : MessageId) : (∀ labels, s.Lands id ((diffWrite ((s.wanted listed).map Listed.diff) id).apply labels)) ∨
      diffWrite ((s.wanted listed).map Listed.diff) id = 1 ∧ ∀ l ∈ s.wanted listed, l.id ≠ id := by
    by_cases some_ : ∃ l ∈ s.wanted listed, l.id = id
    case pos =>
      obtain ⟨l, wanted, rfl, last⟩ := is_diffWrite_listed some_
      have still : s.server.still l.place s.cursor l.id := by
        rw [State.cond, is, Option.all_some, List.all_eq_true] at ok
        exact ok l wanted
      exact .inl fun labels => (h.run _ is).lands (List.mem_of_mem_filter wanted) h.cursor still (last labels)
    case neg =>
      have none_ : ∀ l ∈ s.wanted listed, l.id ≠ id := fun l hl same => some_ ⟨l, hl, same⟩
      refine .inr ⟨diffWrite_of_ne fun d hd => ?_, none_⟩
      obtain ⟨l, hl, rfl⟩ := List.mem_map.mp hd
      exact none_ l hl
  have before (id : MessageId) (labels' : Set LabelId) (stored : mail.mailbox id = some labels') : ∃ labels,
      s.mail.mailbox id = some labels ∧ labels' = (diffWrite ((s.wanted listed).map Listed.diff) id).apply labels := by
    rw [mailbox id] at stored
    obtain ⟨labels, stored', rfl⟩ := Option.map_eq_some_iff.mp stored
    exact ⟨labels, stored', rfl⟩
  rw [State.apply, made]
  refine { h with ready, inbox := ?inbox, settles := ?settles, lands := ?lands, run := nofun }
  case inbox =>
    intro id labels' stored inbox
    obtain ⟨labels, stored', rfl⟩ := before id labels' stored
    exact h.inbox id labels stored' ((inbox_kept id labels).mp inbox)
  case settles =>
    intro id labels' stored
    obtain ⟨labels, stored', rfl⟩ := before id labels' stored
    rcases each id with lands | ⟨none_, _⟩
    · exact .inl (lands labels)
    · rw [none_, Overwrite.apply_one]
      exact h.settles id labels stored'
  case lands =>
    intro _ id labels' stored inbox
    obtain ⟨labels, stored', rfl⟩ := before id labels' stored
    rcases each id with lands | ⟨none_, unwanted⟩
    · exact lands labels
    · have inbox := (inbox_kept id labels).mp inbox
      rw [none_, Overwrite.apply_one]
      exact h.lands_unwanted is stored' inbox unwanted

theorem Inv.changesSince (h : s.Inv origin) : s.changesSince.Inv origin :=
  { h with
    incremental := by
      rintro _ ⟨⟩
      exact ⟨rfl, h.cursor, le_rfl⟩ }

theorem Inv.commit (h : s.Inv origin) {i : Incremental} (is : s.incremental = some i) : (s.commit i).Inv origin := by
  obtain ⟨changes, le, within⟩ := h.incremental i is
  have allowed : ∀ d ∈ i.changes.map Change.diff, ARCHIVE_LABEL ∉ d.added := by
    rw [changes]
    exact fun d hd => (Server.diff_category archive_not_category d hd).left
  obtain ⟨mail, made, ready, mailbox⟩ := h.ready.modify allowed
  have before (id : MessageId) (labels' : Set LabelId) (stored : mail.mailbox id = some labels') : ∃ labels,
      s.mail.mailbox id = some labels ∧ labels' = (s.server.written s.cursor i.cursor id).apply labels := by
    rw [mailbox id, changes] at stored
    obtain ⟨labels, stored', rfl⟩ := Option.map_eq_some_iff.mp stored
    exact ⟨labels, stored', rfl⟩
  have lands (id : MessageId) (labels : Set LabelId) (lands : s.Lands id labels) :
      { s with mail, cursor := i.cursor, incremental := none }.Lands id
        ((s.server.written s.cursor i.cursor id).apply labels) := by
    rw [Lands, ← Overwrite.apply_mul, Server.written_trans le within]
    exact lands
  have inbox_kept (id : MessageId) (labels : Set LabelId) :
      INBOX ∈ (s.server.written s.cursor i.cursor id).apply labels ↔ INBOX ∈ labels :=
    mem_apply_diffWrite (Server.diff_category inbox_not_category)
  rw [State.commit, made]
  refine { h with
    ready, behind := h.behind.trans le, cursor := within, inbox := ?inbox, settles := ?settles, lands := ?lands, incremental := nofun,
    run := h.run }
  case inbox =>
    intro id labels' stored inbox
    obtain ⟨labels, stored', rfl⟩ := before id labels' stored
    exact h.inbox id labels stored' ((inbox_kept id labels).mp inbox)
  case settles =>
    intro id labels' stored
    obtain ⟨labels, stored', rfl⟩ := before id labels' stored
    rcases h.settles id labels stored' with is | ⟨none_, still⟩
    · exact .inl (lands id labels is)
    · rw [(Server.of_still (Server.still_mono still h.behind within) le within).right, Overwrite.apply_one]
      exact .inr ⟨none_, still⟩
  case lands =>
    intro applied id labels' stored inbox
    obtain ⟨labels, stored', rfl⟩ := before id labels' stored
    exact lands id labels (h.lands applied id labels stored' ((inbox_kept id labels).mp inbox))

end Writes

section Runs

-- A message stored without a category gets it from the first record about it.
theorem settles_bare (moves : ∀ k r, s.server.history[k]? = some r → r.category ≠ s.server.categoryAt k r.id)
    (cursor : s.cursor ≤ s.server.history.length) (none_ : Is labels none) : s.Settles s.cursor id labels := by
  have reached (q : Nat) (le : s.cursor ≤ q) (within : q ≤ s.server.history.length) : s.server.still s.cursor q id ∨
      Is ((s.server.written s.cursor q id).apply labels) (s.server.categoryAt q id) := by
    induction q, le using Nat.le_induction
    case base => exact .inl (Server.still_iff.mpr fun k r le lt => absurd lt (Nat.not_lt_of_le le))
    case succ k le ih =>
      have lt : k < s.server.history.length := within
      have record : s.server.history[k]? = some s.server.history[k] := List.getElem?_eq_getElem lt
      rw [← Server.written_trans le (Nat.le_succ k), Overwrite.apply_mul, Server.categoryAt_succ record]
      by_cases about : s.server.history[k].id = id
      case pos =>
        subst about
        rw [if_pos rfl]
        right
        refine Server.is_written_succ record ?_
        rcases ih lt.le with still | is
        · rw [(Server.of_still still le lt.le).right, Overwrite.apply_one]
          exact .inr ⟨moves k _ record, none_⟩
        · exact .inl is
      case neg =>
        rw [if_neg about, Server.written_succ_of_ne record about, Overwrite.apply_one]
        refine (ih lt.le).imp_left fun still => Server.still_trans still (Server.still_iff.mpr fun i r hi hn is => ?_)
        cases Nat.le_antisymm (Nat.lt_succ_iff.mp hn) hi
        cases Option.some_inj.mp (record.symm.trans is)
        exact about
  exact (reached _ cursor le_rfl).symm.imp_right fun still => ⟨none_, still⟩

theorem Start.inv (h : s.Start) : s.Inv s.cursor where
  ready       := h.ready
  behind      := le_rfl
  cursor      := h.cursor
  inbox       := h.inbox
  lands       := by
    rw [h.applied]
    nofun
  incremental := by
    rw [h.incremental]
    nofun
  run         := by
    rw [h.run]
    nofun
  settles     := by
    intro id labels stored
    rcases h.fetched id labels stored with none_ | ⟨place, le, within, is⟩
    · refine settles_bare h.moves h.cursor fun c => ?_
      exact iff_of_false (none_ c) nofun
    · exact .inl (lands_ahead is le within)

theorem Inv.step {a : Action} {s' : State} (h : s.Inv origin) (ok : s.cond a = true) (hs : s.step a = some s') :
    s'.Inv origin := by
  cases a
  case moved id category =>
    rw [State.step] at hs
    split at hs <;> cases hs
    case isFalse moves => exact h.moved moves
  case start =>
    rw [State.step] at hs
    split at hs <;> cases hs
    exact h.start
  case page count =>
    simp only [State.step] at hs
    split at hs <;> cases hs
    case h_1 is => exact h.page is count
  case apply =>
    simp only [State.step] at hs
    split at hs <;> cases hs
    case h_1 is => exact h.apply is ok
  case changesSince =>
    rw [State.step] at hs
    split at hs <;> cases hs
    exact h.changesSince
  case commit =>
    obtain ⟨i, is, rfl⟩ := Option.map_eq_some_iff.mp hs
    exact h.commit is
  case failCategories =>
    cases hs
    exact { h with run := nofun }
  case failIncremental =>
    cases hs
    exact { h with incremental := nofun }
  case restart =>
    cases hs
    exact { h with run := nofun, incremental := nofun }

-- Once all runs have finished and the cursor is the latest, stored messages have the server's categories, in every run
-- in which no list is applied that is older than what the cursor says of a message in it.
theorem reachable_allSorted (h : syncs.Reachable (fun s a => s.cond a = true) s) : s.AllSorted := by
  have ⟨_, inv⟩ := h.invariant (P := fun s : State => ∃ origin, s.Inv origin)
    (fun s start => ⟨s.cursor, Start.inv start⟩) fun _ _ _ ⟨origin, inv⟩ ok hs => ⟨origin, inv.step ok hs⟩
  exact inv.allSorted

-- A message that came over IMAP, in the Inbox and among the promotions.
def overImap : Transaction where
  storedLabels := .replace
  writes       := [.upsertMessage { id := "m1", threadId := "t1", labelIds := ["INBOX"] }]

def promotions : Category :=
  ⟨"CATEGORY_PROMOTIONS", by decide⟩

def downloaded : State where
  server := { inbox := ["m1"], given := fun _ => some promotions, history := [] }
  mail   := Store.init.commit overImap
  cursor := 0

theorem downloaded_stored (stored : downloaded.mail.mailbox id = some labels) :
    id = "m1" ∧ ∀ l, l ∈ labels ↔ l = INBOX := by
  obtain ⟨row, found, _⟩ := Option.map_eq_some_iff.mp stored
  have only : ∀ row ∈ downloaded.mail.messages.rows, row.gmailId = "m1" := by decide
  have known : row.gmailId = id := by simpa using List.find?_some (p := fun row : MessageRow => row.gmailId = id) found
  cases known.symm.trans (only row (List.mem_of_find?_eq_some found))
  refine ⟨rfl, fun l => ?_⟩
  have current : downloaded.mail.currentLabels "m1" = [INBOX] := by decide
  rw [← Store.mem_currentLabels stored, current, List.mem_singleton]

theorem downloaded_start : downloaded.Start where
  ready       := Store.ready_init.commit (show overImap.Provided by simp [Transaction.Provided, overImap])
  cursor      := le_rfl
  run         := rfl
  incremental := rfl
  applied     := rfl
  moves       := nofun
  fetched     := by
    intro id labels stored
    refine .inl fun c mem => ?_
    exact not_mem_categories inbox_not_category c (((downloaded_stored stored).right _).mp mem).symm
  inbox       := by
    intro id labels stored _
    exact List.mem_singleton.mpr (downloaded_stored stored).left

-- The whole of `sync_categories` with nothing in between.
def listAndApply : List Action :=
  .start :: List.replicate 4 (.page 1) ++ [.apply]

theorem listAndApply_allSorted : ∃ s, syncs.run (fun s a => s.cond a = true) downloaded listAndApply = some s ∧
    s.applied = true ∧ s.mail.currentLabels "m1" = ["INBOX", "CATEGORY_PROMOTIONS"] ∧ s.AllSorted := by
  have run : ((syncs.run (fun s a => s.cond a = true) downloaded listAndApply).any fun s =>
      s.applied = true ∧ s.mail.currentLabels "m1" = ["INBOX", "CATEGORY_PROMOTIONS"]) = true := by decide
  obtain ⟨s, hs, is⟩ := (Option.any_eq_true _ _).mp run
  obtain ⟨applied, labels⟩ := of_decide_eq_true is
  exact ⟨s, hs, applied, labels, reachable_allSorted ((System.Reachable.start downloaded_start).run hs)⟩

-- The message leaves the promotions after they were listed, and incremental sync is done before they are applied.
def staleList : List Action :=
  .start :: List.replicate 4 (.page 1) ++ [.moved "m1" none, .changesSince, .commit, .apply]

theorem stale_list_put_back : ∃ s, syncs.Reachable (fun _ _ => True) s ∧ s.applied = true ∧ s.run.isNone ∧
    s.incremental.isNone ∧ s.cursor = s.server.history.length ∧ s.server.category "m1" = none ∧
    s.mail.currentLabels "m1" = ["INBOX", "CATEGORY_PROMOTIONS"] ∧ ¬s.AllSorted := by
  have run : ((syncs.run (fun _ _ => True) downloaded staleList).any fun s => s.applied = true ∧ s.run.isNone ∧
      s.incremental.isNone ∧ s.cursor = s.server.history.length ∧ s.server.category "m1" = none ∧
      s.mail.currentLabels "m1" = ["INBOX", "CATEGORY_PROMOTIONS"]) = true := by decide
  obtain ⟨s, hs, is⟩ := (Option.any_eq_true _ _).mp run
  obtain ⟨applied, idle, idle', latest, category, labels⟩ := of_decide_eq_true is
  refine ⟨s, (System.Reachable.start downloaded_start).run hs, applied, idle, idle', latest, category, labels, fun h => ?_⟩
  have stored : s.mail.mailbox "m1" ≠ none := fun none_ => by
    rw [Store.currentLabels_eq_nil none_] at labels
    cases labels
  obtain ⟨now, stored⟩ := Option.ne_none_iff_exists'.mp stored
  have sorted := h applied (Option.isNone_iff_eq_none.mp idle) (Option.isNone_iff_eq_none.mp idle') latest "m1" now stored
  have inbox : INBOX ∈ now := (Store.mem_currentLabels stored).mp (by rw [labels]; decide)
  have kept : promotions.val ∈ now := (Store.mem_currentLabels stored).mp (by rw [labels]; decide)
  have given := (sorted.given inbox promotions).mp kept
  rw [category] at given
  cases given

end Runs

end State

end Kaluta.Categories
