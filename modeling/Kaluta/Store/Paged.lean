import Kaluta.Search.Printed
import Kaluta.Store.Checked
import Kaluta.Store.Threads

-- The pages of a mailbox make its whole list.
namespace Kaluta

theorem toList_toString_ofNat (n : Nat) : (toString (n : Int)).toList = decimal n := by
  simp [decimal, toString, Int.repr, Nat.repr]

theorem toList_toString_negSucc (n : Nat) : (toString (Int.negSucc n)).toList = '-' :: decimal (n + 1) := by
  simp [decimal, toString, Int.repr, Nat.repr]

def IsI64 (i : Int) : Prop :=
  -2 ^ 63 ≤ i ∧ i < 2 ^ 63

theorem parseI64_toString (h : IsI64 i) : parseI64 (toString i).toList = some i := by
  cases i
  case ofNat n =>
    rw [show Int.ofNat n = (n : Int) from rfl] at *
    rw [toList_toString_ofNat]
    exact parseI64_decimal (by have := h.right; omega)
  case negSucc n =>
    have le : n + 1 < 2 ^ 63 + 1 := by have := h.left; omega
    rw [toList_toString_negSucc, parseI64]
    have digits : (decimal (n + 1)).head? ≠ some '+' :=
      fun is => decimal_not_mem (c := '+') (by decide) (List.mem_of_mem_head? is)
    rw [if_neg digits, parseUnsigned_decimal le]
    rfl

theorem colon_not_mem (i : Int) : ':' ∉ (toString i).toList := by
  cases i
  case ofNat n =>
    rw [show Int.ofNat n = (n : Int) from rfl, toList_toString_ofNat]
    exact decimal_not_mem (by decide)
  case negSucc n =>
    rw [toList_toString_negSucc, List.mem_cons, not_or]
    exact ⟨by decide, decimal_not_mem (by decide)⟩

theorem decodeCursor_encodeCursor {date id : Int} (hd : IsI64 date) (hi : IsI64 id) :
    decodeCursor (encodeCursor date id) = .ok (date, id) := by
  have chars : (encodeCursor date id).toList = (toString date).toList ++ ':' :: (toString id).toList := by
    simp [encodeCursor]
    rfl
  rw [decodeCursor, chars, splitOnce_append (colon_not_mem date)]
  simp only [Option.elim_some, pure_bind, parseI64_toString hd, parseI64_toString hi]
  rfl

namespace Store

variable {s : Store} {mailbox : String}

-- Whether a narrowing leaves a thread.
def narrows (s : Store) (t : ThreadRow) (narrowing : String) : Bool :=
  if narrowing = FILTER_UNREAD then 0 < t.unreadCount
  else if narrowing = FILTER_STARRED then t.isStarred
  else if narrowing = FILTER_ATTACHMENTS then t.hasAttachments
  else
    match stripPrefix '!' narrowing with
    | some excluded => !s.inMailbox t.id excluded
    | none          =>
      if narrowing = PRIMARY then !CATEGORIES.any (s.inMailbox t.id)
      else s.inMailbox t.id narrowing

-- What is in a mailbox and left by all narrowings.
def matching (s : Store) (mailbox : String) (r : Listed) : Bool :=
  some r.1.labelId = (s.label? (parts mailbox).1).map (·.id) && (parts mailbox).2.all (s.narrows r.2)

-- The whole list, newest first.
def threadsOf (s : Store) (mailbox : String) : List Listed :=
  Keyset.order position (s.joined.filter (s.matching mailbox))

section Clauses

variable (wf : s.WellFormed)
include wf

theorem label?_eq_some {id : LabelId} {l : LabelRow} : s.label? id = some l ↔ l ∈ s.labels ∧ l.gmailId = id := by
  constructor
  · intro h
    exact ⟨List.mem_of_find?_eq_some h, by simpa using List.find?_some h⟩
  · rintro ⟨mem, rfl⟩
    cases h : s.label? l.gmailId
    case none   => exact absurd rfl (label?_eq_none.mp h l mem)
    case some m =>
      have is : m.gmailId = l.gmailId := by simpa using List.find?_some h
      rw [wf.labelIds m (List.mem_of_find?_eq_some h) l mem is]

theorem some_eq_labelOf (n : ThreadLabel) (id : LabelId) :
    decide (some n.labelId = s.labelOf (some (.text id))) =
      s.labels.rows.any fun l => l.id = n.labelId && l.gmailId = id := by
  rw [Bool.eq_iff_iff, decide_eq_true_iff, List.any_eq_true]
  simp only [labelOf, eq_comm (a := some n.labelId), Option.map_eq_some_iff, label?_eq_some wf, Bool.and_eq_true,
    decide_eq_true_iff, Table.mem_rows]
  exact exists_congr fun l => by tauto

theorem carrying_eq (thread : Rowid) (id : LabelId) :
    (s.threadLabels.rows.any fun n => n.threadId = thread && some n.labelId = s.labelOf (some (.text id))) =
      s.inMailbox thread id := by
  simp only [some_eq_labelOf wf, inMailbox]

end Clauses

theorem bound_append (values more : List SqlValue) (v : SqlValue) :
    bound (values ++ [v] ++ more) (values ++ [v]).length = some v := by
  simp [bound]

theorem bound_range (values ws more : List SqlValue) :
    (List.range' (values.length + 1) ws.length).map (bound (values ++ ws ++ more)) = ws.map some := by
  refine List.ext_getElem (by simp) fun i lt _ => ?_
  rw [List.length_map, List.length_range'] at lt
  have there : (values ++ ws ++ more)[values.length + i]? = ws[i]? := by
    rw [List.append_assoc, List.getElem?_append_right (Nat.le_add_right _ _), Nat.add_sub_cancel_left,
      List.getElem?_append_left lt]
  simp [bound, there, -List.append_assoc]

-- A narrowing binds its values behind those there are.
theorem narrowingClause_binds (narrowing : String) (values : List SqlValue) :
    ∃ own, (narrowingClause narrowing values).2 = values ++ own := by
  have none' : ∃ own, values = values ++ own := ⟨[], (List.append_nil _).symm⟩
  rw [narrowingClause]
  cases stripPrefix '!' narrowing
  all_goals split_ifs
  all_goals first | exact none' | exact ⟨_, rfl⟩

theorem addNarrowings_binds (narrowings : List String) (q : List Clause × List SqlValue) :
    ∃ own, (narrowings.foldl addNarrowing q).2 = q.2 ++ own := by
  refine List.foldl_preserves (P := fun q' : List Clause × List SqlValue => ∃ own, q'.2 = q.2 ++ own) ?_
    ⟨[], (List.append_nil _).symm⟩
  rintro q' narrowing _ ⟨own, binds⟩
  have ⟨own', binds'⟩ := narrowingClause_binds narrowing q'.2
  exact ⟨own ++ own', by rw [addNarrowing, binds', binds, List.append_assoc]⟩

section Narrowed

variable (wf : s.WellFormed) {r : Listed} (listed : r.2.id = r.1.threadId)
include wf listed

-- A clause says what its narrowing does, whatever is bound behind its values.
theorem narrowingClause_holds (narrowing : String) (values more : List SqlValue) :
    s.holds ((narrowingClause narrowing values).2 ++ more) r (narrowingClause narrowing values).1 =
      s.narrows r.2 narrowing := by
  rw [narrowingClause, narrows]
  cases stripPrefix '!' narrowing
  case some excluded =>
    dsimp only
    split_ifs
    case pos => rfl
    case pos => rfl
    case pos => rfl
    case neg => simp only [holds, bound_append, carrying_eq wf, listed]
  case none =>
    dsimp only
    split_ifs
    case pos => rfl
    case pos => rfl
    case pos => rfl
    case pos =>
      have binds := bound_range values (CATEGORIES.map .text) more
      rw [List.length_map] at binds
      have any (id : LabelId) : ((List.range' (values.length + 1) CATEGORIES.length).any fun param =>
          some (.text id) = bound (values ++ CATEGORIES.map .text ++ more) param) = CATEGORIES.any (id = ·) := by
        have := congrArg (List.any · (some (.text id) = ·)) binds
        simpa [List.any_map, Function.comp_def] using this
      simp only [holds, any, listed]
      rw [Bool.not_inj_iff, Bool.eq_iff_iff]
      simp only [List.any_eq_true, inMailbox, Bool.and_eq_true, decide_eq_true_eq]
      grind
    case neg => simp only [holds, bound_append, carrying_eq wf, listed]

theorem addNarrowings_hold (narrowings : List String) (q : List Clause × List SqlValue) (more : List SqlValue) :
    let q' := narrowings.foldl addNarrowing q
    q'.1.all (s.holds (q'.2 ++ more) r) =
      (q.1.all (s.holds (q'.2 ++ more) r) && narrowings.all (s.narrows r.2)) := by
  induction narrowings generalizing q
  case nil => simp
  case cons narrowing narrowings ih =>
    have ⟨own, binds⟩ := addNarrowings_binds narrowings (addNarrowing q narrowing)
    have first := narrowingClause_holds wf listed narrowing q.2 (own ++ more)
    have := ih (addNarrowing q narrowing)
    simp only [List.foldl_cons, List.all_cons] at this ⊢
    rw [this]
    simp only [addNarrowing] at binds ⊢
    rw [binds, List.append_assoc, List.all_append, List.all_cons, List.all_nil, Bool.and_true, first, Bool.and_assoc]

end Narrowed

theorem mem_joined {r : Listed} : r ∈ s.joined ↔ r.1 ∈ s.threadLabels ∧ r.2 ∈ s.threads ∧ r.2.id = r.1.threadId := by
  obtain ⟨tl, t⟩ := r
  simp [joined, Table.mem_rows, Table.find?_eq_some_iff]

-- No two entries of a mailbox are in one place.
theorem matching_apart (s : Store) (mailbox : String) :
    (s.joined.filter (s.matching mailbox)).Pairwise (position · ≠ position ·) := by
  have entries : s.joined.Pairwise (·.1 ≠ ·.1) := by
    refine List.Pairwise.filterMap _ (fun a b ne x hx y hy eq => ?_) (List.map_id _ ▸ s.threadLabels.nodup :)
    obtain ⟨⟨_, _, rfl⟩, _, _, rfl⟩ := And.intro (Option.map_eq_some_iff.mp hx) (Option.map_eq_some_iff.mp hy)
    exact ne eq
  refine (entries.filter _).imp_of_mem fun {a b} ha hb ne same => ne ?_
  have label {r} (h : r ∈ s.joined.filter (s.matching mailbox)) :
      some r.1.labelId = (s.label? (parts mailbox).1).map (·.id) := by
    have := (List.mem_filter.mp h).right
    rw [matching, Bool.and_eq_true, decide_eq_true_iff] at this
    exact this.left
  have ⟨date, id⟩ := Prod.mk.inj (toLex.injective same)
  have labels := Option.some.inj ((label ha).trans (label hb).symm)
  obtain ⟨⟨_, _, _⟩, _⟩ := a
  obtain ⟨⟨_, _, _⟩, _⟩ := b
  simp only [Nat.cast_inj] at date id labels
  rw [date, id, labels]

theorem select_eq (wf : s.WellFormed) (mailbox : String) (date id : Int) (limit : Nat) :
    let q := clausesOf (parts mailbox).2 [.text (parts mailbox).1, .integer date, .integer id, .integer (limit + 1)]
    s.select q.1 q.2 = (Keyset.below position (toLex (date, id)) (s.threadsOf mailbox)).take (limit + 1) := by
  intro q
  obtain ⟨own, binds⟩ : ∃ own,
      q.2 = [.text (parts mailbox).1, .integer date, .integer id, .integer (limit + 1)] ++ own :=
    addNarrowings_binds _ ([], _)
  have found :
      (s.joined.filter fun r => some r.1.labelId = s.labelOf (bound q.2 1) &&
        isBelow r (bound q.2 2) (bound q.2 3) && q.1.all (s.holds q.2 r)) =
      (s.joined.filter (s.matching mailbox)).filter (position · < toLex (date, id)) := by
    rw [List.filter_filter]
    refine List.filter_congr fun r mem => ?_
    have clauses : q.1.all (s.holds q.2 r) = (parts mailbox).2.all (s.narrows r.2) := by
      simpa [q, clausesOf] using addNarrowings_hold wf (mem_joined.mp mem).right.right (parts mailbox).2 ([], _) []
    rw [clauses, binds, matching, Bool.and_right_comm, Bool.and_comm]
    rfl
  rw [select, found, Keyset.order_filter (matching_apart s mailbox), binds]
  rfl

-- The pages that are read by following cursors, beginning with one.
inductive Follows (s : Store) (mailbox : String) (limit : Nat) : Option String → List (List ThreadSummary) → Prop
  | last (h : s.listThreads mailbox cursor limit = .ok { rows, nextCursor := none }) :
    Follows s mailbox limit cursor [rows]
  | next (h : s.listThreads mailbox cursor limit = .ok { rows, nextCursor := some c }) :
    Follows s mailbox limit (some c) pages → Follows s mailbox limit cursor (rows :: pages)

-- Dates and rowids are 64-bit integers, and no rowid is the largest: each is one above those there are.
def Stored (s : Store) : Prop :=
  ∀ tl ∈ s.threadLabels, IsI64 tl.lastMessageAt ∧ (tl.threadId : Int) < I64_MAX

-- Where a cursor lets the list begin.
def Begins (cursor : Option String) (key : Int ×ₗ Int) : Prop :=
  cursor.elim (pure (I64_MAX, I64_MAX)) decodeCursor = .ok (ofLex key)

variable {s : Store} {mailbox : String} {limit : Nat} {cursor : Option String} {key : Int ×ₗ Int}

theorem descending_threadsOf (s : Store) (mailbox : String) : Keyset.Descending position (s.threadsOf mailbox) :=
  Keyset.order_descending (matching_apart s mailbox)

-- What is read from a cursor is the page from there.
theorem listThreads_eq (wf : s.WellFormed) (few : (parts mailbox).2.length ≤ MAX_NARROWINGS)
    (begins : Begins cursor key) (limit : Nat) :
    let page := Keyset.page position (min (max limit 1) MAX_PAGE_SIZE) key (s.threadsOf mailbox)
    s.listThreads mailbox cursor limit = .ok
      { rows := page.1.map fun r => s.threadSummary r.2
        nextCursor := page.2.map fun key => encodeCursor (ofLex key).1 (ofLex key).2 } := by
  have select := select_eq wf mailbox (ofLex key).1 (ofLex key).2 (min (max limit 1) MAX_PAGE_SIZE)
  have begins : cursor.elim (pure (I64_MAX, I64_MAX)) decodeCursor = Except.ok (ofLex key) := begins
  rw [listThreads, begins]
  simp only [bind, Except.bind, pure, Except.pure, if_neg (Nat.not_lt.mpr few), Keyset.page] at select ⊢
  change _ = (Keyset.below position key (s.threadsOf mailbox)).take _ at select
  rw [select]
  generalize List.take _ (Keyset.below position key (s.threadsOf mailbox)) = found
  split
  case isTrue  => rw [Option.map_map]; rfl
  case isFalse => rfl

theorem few_of_listThreads (begins : Begins cursor key) (h : s.listThreads mailbox cursor limit = .ok page) :
    (parts mailbox).2.length ≤ MAX_NARROWINGS := by
  have begins : cursor.elim (pure (I64_MAX, I64_MAX)) decodeCursor = Except.ok (ofLex key) := begins
  by_contra many
  rw [listThreads, begins] at h
  simp only [bind, Except.bind, if_pos (Nat.not_le.mp many)] at h
  cases h

theorem position_stored (stored : s.Stored) (h : r ∈ s.threadsOf mailbox) :
    IsI64 r.1.lastMessageAt ∧ IsI64 r.1.threadId ∧ position r < toLex (I64_MAX, I64_MAX) := by
  have mem : r ∈ s.joined := (List.mem_filter.mp (Keyset.perm_order.subset h)).left
  have ⟨date, id⟩ := stored r.1 (mem_joined.mp mem).left
  have : r.1.lastMessageAt < I64_MAX ∨ r.1.lastMessageAt = I64_MAX :=
    lt_or_eq_of_le (Int.le_sub_one_of_lt date.right)
  refine ⟨date, ⟨by omega, by unfold I64_MAX at id; omega⟩, Prod.Lex.toLex_lt_toLex.mpr ?_⟩
  exact this.imp_right fun eq => ⟨eq, id⟩

theorem begins_next (stored : s.Stored) (there : (Keyset.page position n key (s.threadsOf mailbox)).2 = some key')
    (eq : encodeCursor (ofLex key').1 (ofLex key').2 = c) : Begins (some c) key' := by
  have ⟨r, mem, is⟩ : ∃ r ∈ s.threadsOf mailbox, position r = key' := Keyset.page_key there
  have ⟨date, id, _⟩ := position_stored stored mem
  subst is eq
  exact decodeCursor_encodeCursor date id

-- All that a cursor leaves, in the order of the whole list.
theorem Follows.flatten (wf : s.WellFormed) (stored : s.Stored) (begins : Begins cursor key)
    (h : s.Follows mailbox limit cursor pages) :
    pages.flatten = (Keyset.below position key (s.threadsOf mailbox)).map fun r => s.threadSummary r.2 := by
  have pos : 0 < min (max limit 1) MAX_PAGE_SIZE := by unfold MAX_PAGE_SIZE; omega
  induction h generalizing key
  case last cursor rows h =>
    rw [listThreads_eq wf (few_of_listThreads begins h) begins] at h
    have ⟨rows, none'⟩ := ThreadPage.mk.inj (Except.ok.inj h)
    rw [List.flatten_cons, List.flatten_nil, List.append_nil, ← rows]
    rw [Keyset.page_last (Option.map_eq_none_iff.mp none') pos]
  case next cursor rows c pages h _ ih =>
    rw [listThreads_eq wf (few_of_listThreads begins h) begins] at h
    have ⟨rows, more⟩ := ThreadPage.mk.inj (Except.ok.inj h)
    have ⟨key', there, eq⟩ := Option.map_eq_some_iff.mp more
    rw [List.flatten_cons, ih (begins_next stored there eq), ← rows, ← List.map_append]
    rw [(Keyset.page_next (descending_threadsOf s mailbox) there).left]

theorem follows_exists (wf : s.WellFormed) (stored : s.Stored) (few : (parts mailbox).2.length ≤ MAX_NARROWINGS)
    (begins : Begins cursor key) : ∃ pages, s.Follows mailbox limit cursor pages := by
  generalize eq : (Keyset.below position key (s.threadsOf mailbox)).length = left
  induction left using Nat.strong_induction_on generalizing cursor key
  case h left ih =>
    have page := listThreads_eq wf few begins limit
    cases next : (Keyset.page position (min (max limit 1) MAX_PAGE_SIZE) key (s.threadsOf mailbox)).2
    case none =>
      simp only [next, Option.map_none] at page
      exact ⟨_, .last page⟩
    case some key' =>
      simp only [next, Option.map_some] at page
      have ⟨_, less⟩ := Keyset.page_next (descending_threadsOf s mailbox) next
      have ⟨pages, rest⟩ := ih _ (eq ▸ less) (begins_next stored next rfl) rfl
      exact ⟨_, .next page rest⟩

theorem mem_threadsOf : r ∈ s.threadsOf mailbox ↔ r ∈ s.joined ∧ s.matching mailbox r :=
  Keyset.perm_order.mem_iff.trans List.mem_filter

-- What a thread has to have to be in a mailbox's list.
theorem thread_mem_threadsOf (wf : s.WellFormed) {t : ThreadRow} : (∃ tl, (tl, t) ∈ s.threadsOf mailbox) ↔
    t ∈ s.threads ∧ s.inMailbox t.id (parts mailbox).1 ∧ (parts mailbox).2.all (s.narrows t) := by
  have labelled (tl : ThreadLabel) :
      decide (some tl.labelId = (s.label? (parts mailbox).1).map (·.id)) =
        s.labels.rows.any fun l => l.id = tl.labelId && l.gmailId = (parts mailbox).1 := some_eq_labelOf wf tl _
  simp only [mem_threadsOf, mem_joined, matching, labelled, inMailbox, Bool.and_eq_true, List.any_eq_true,
    decide_eq_true_iff, Table.mem_rows]
  constructor
  · rintro ⟨tl, ⟨entry, thread, is⟩, label, all⟩
    exact ⟨thread, ⟨tl, entry, is.symm, label⟩, all⟩
  · rintro ⟨thread, ⟨tl, entry, is, label⟩, all⟩
    exact ⟨tl, ⟨entry, thread, is.symm⟩, label, all⟩

-- A thread is in the list of a mailbox once.
theorem threadsOf_nodup (wf : s.WellFormed) (mailbox : String) : ((s.threadsOf mailbox).map (·.2.id)).Nodup := by
  refine List.pairwise_map.mpr ((descending_threadsOf s mailbox).imp_of_mem fun {a b} ha hb lt same => ?_)
  have ⟨⟨entryA, _, isA⟩, matchA⟩ := (mem_threadsOf.mp ha).imp_left mem_joined.mp
  have ⟨⟨entryB, _, isB⟩, matchB⟩ := (mem_threadsOf.mp hb).imp_left mem_joined.mp
  rw [matching, Bool.and_eq_true, decide_eq_true_iff] at matchA matchB
  have label := Option.some.inj (matchA.left.trans matchB.left.symm)
  have entry := wf.mailboxOnce _ entryA _ entryB label (isA.symm.trans (same.trans isB))
  exact lt_irrefl (position b) (by simpa only [position, entry] using lt)

-- Following the cursors to the end reads the whole list, each thread of which is there once, newest first. A cursor
-- reads back as what it was made of.
theorem listThreads_visits (wf : s.WellFormed) (stored : s.Stored) (mailbox : String) (limit : Nat) :
    (∀ pages, s.Follows mailbox limit none pages →
      pages.flatten = (s.threadsOf mailbox).map fun r => s.threadSummary r.2) ∧
    ((parts mailbox).2.length ≤ MAX_NARROWINGS → ∃ pages, s.Follows mailbox limit none pages) ∧
    (s.threadsOf mailbox).Pairwise (position · > position ·) ∧ ((s.threadsOf mailbox).map (·.2.id)).Nodup ∧
    (∀ t, (∃ tl, (tl, t) ∈ s.threadsOf mailbox) ↔
      t ∈ s.threads ∧ s.inMailbox t.id (parts mailbox).1 ∧ (parts mailbox).2.all (s.narrows t)) ∧
    ∀ date id, IsI64 date → IsI64 id → decodeCursor (encodeCursor date id) = .ok (date, id) := by
  have first : Begins none (toLex (I64_MAX, I64_MAX)) := rfl
  have all : Keyset.below position (toLex (I64_MAX, I64_MAX)) (s.threadsOf mailbox) = s.threadsOf mailbox :=
    List.filter_eq_self.mpr fun r mem => decide_eq_true (position_stored stored mem).right.right
  refine ⟨fun pages h => ?_, fun few => follows_exists wf stored few first, descending_threadsOf s mailbox,
    threadsOf_nodup wf mailbox, fun t => thread_mem_threadsOf wf, fun _ _ => decodeCursor_encodeCursor⟩
  have := h.flatten wf stored first
  rwa [all] at this

-- Three threads of one date before 1970 in the Inbox.
private abbrev tied : Store := { init with
  labels       := ⟨[⟨1, ARCHIVE_LABEL, .virtual⟩, ⟨2, SystemLabels.INBOX, .system⟩], by decide⟩
  threads      := ⟨[{ id := 1, gmailId := "a" }, { id := 2, gmailId := "b" }, { id := 3, gmailId := "c" }], by decide⟩
  threadLabels := ⟨[⟨2, -5, 1⟩, ⟨2, -5, 2⟩, ⟨2, -5, 3⟩], by decide⟩ }

private theorem tied_wellFormed : tied.WellFormed := by
  constructor <;>
    simp +contextual [init, ← Table.mem_rows, EmptyCollection.emptyCollection, ARCHIVE_LABEL, SystemLabels.INBOX]

theorem listThreads_visits_tied : ∃ pages, tied.Follows "INBOX" 2 none pages ∧
    pages.flatten.map (·.id) = ["c", "b", "a"] := by
  have stored : tied.Stored := by
    simp [Stored, ← Table.mem_rows, IsI64, I64_MAX]
  obtain ⟨flatten, exist, _⟩ := listThreads_visits tied_wellFormed stored "INBOX" 2
  obtain ⟨pages, h⟩ := exist (by decide)
  refine ⟨pages, h, ?_⟩
  rw [flatten pages h]
  decide +kernel

example : (tied.listThreads "INBOX" (some "-5:3") 1).toOption.map (·.nextCursor) = some (some "-5:2") := by
  decide +kernel

end Store

end Kaluta
