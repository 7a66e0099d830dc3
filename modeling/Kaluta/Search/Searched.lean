import Kaluta.Search.Exec

-- What a search finds, a page at a time.
namespace Kaluta

open WritingGuide (Alphanumeric isAlphanumeric)
open Condition (Operand Whole Broken Refused parens join)

section Searching

variable [Alphanumeric]

-- What the statement asks of a thread's messages. Spam and trash are left out unless the query asks for them.
def Sql.predicate (expr : SearchExpr) (now : Millis) : Text × List SqlValue :=
  let (text, params) := compile now [] expr
  if expr.mentionsSpamOrTrash then (text, params)
  else
    let (parts, params) := without params ["SPAM", "TRASH"]
    (join .and (parens text :: parts), params)

namespace Store

def latest (t : ThreadRow) : Int ×ₗ Int :=
  toLex (t.lastMessageAt, (t.id : Int))

section Search

variable (db : Columns) (s : Store)

-- Whether `(t.last_message_at, t.id)` is below two parameters.
def isBefore (t : ThreadRow) : Option SqlValue → Option SqlValue → Bool
  | some (.integer date), some (.integer id) => latest t < toLex (date, id)
  | _                   , _                  => false

def atMost (rows : List ThreadRow) : Option SqlValue → List ThreadRow
  | some (.integer n) => rows.take n.toNat
  | _                 => rows

def selectThreads (predicate : Condition.Tree Ask) (values : List SqlValue) (date id lim : Nat) : List ThreadRow :=
  let found := s.threads.rows.filter fun t =>
    (s.messages.rows.any fun m => m.threadId = t.id && predicate.eval (Ask.holds db s m values)) &&
      isBefore t (bound values date) (bound values id)
  atMost (Keyset.order latest found) (bound values lim)

-- Threads with any message that matches, newest first.
def search (expr : SearchExpr) (now : Millis) (cursor : Option String) (limit : Nat) : StoreResult ThreadPage := do
  let limit := min (max limit 1) MAX_RESULTS
  let (text, params) := Sql.predicate expr now
  let (date, id) ← cursor.elim (pure (I64_MAX, I64_MAX)) decodeCursor
  let (dateParam, params) := Sql.bind params (.integer date)
  let (idParam, params) := Sql.bind params (.integer id)
  let (limParam, params) := Sql.bind params (.integer (limit + 1))
  let predicate ← (Condition.read text).elim (throw (.invalid ("search: " ++ db.refusal text))) pure
  let rows := s.selectThreads db predicate params dateParam idParam limParam
  let out := rows.take limit
  let last := out.getLast?.map fun t => encodeCursor t.lastMessageAt t.id
  pure { rows := out.map s.threadSummary, nextCursor := if limit < rows.length then last else none }

-- Whether a message is one that a search is for.
def isFound (expr : SearchExpr) (now : Millis) (m : MessageRow) : Bool :=
  expr.matches db s now m && (expr.mentionsSpamOrTrash || !labelled s m "SPAM" && !labelled s m "TRASH")

def foundThreads (expr : SearchExpr) (now : Millis) : List ThreadRow :=
  Keyset.order latest (s.threads.rows.filter fun t =>
    s.messages.rows.any fun m => m.threadId = t.id && s.isFound db expr now m)

end Search

section Spec

variable {db : Columns} {s : Store} {expr : SearchExpr} {now : Millis} {cursor : Option String} {key : Int ×ₗ Int}

theorem predicate_spec (db : Columns) (s : Store) (expr : SearchExpr) (now : Millis) :
    (expr.sound = true → ∃ c, Condition.read (Sql.predicate expr now).1 = some c ∧
      ∀ values m, (Sql.predicate expr now).2 <+: values → c.eval (Ask.holds db s m values) = s.isFound db expr now m) ∧
    (expr.sound = false → Condition.read (Sql.predicate expr now).1 = none) := by
  have compiled := compile_spec db s now [] expr
  unfold Sql.predicate isFound
  cases mentions : expr.mentionsSpamOrTrash
  case true =>
    simp only [if_true, Bool.true_or, Bool.and_true]
    refine ⟨fun sound => ?_, fun unsound => (compiled.broken unsound).read⟩
    obtain ⟨c, whole, means⟩ := compiled.whole sound
    exact ⟨c, whole.read, means⟩
  case false =>
    obtain ⟨grows, -, cs, operands, mean⟩ :=
      without_spec db s (Sql.compile now [] expr).2 ["SPAM", "TRASH"]
    simp only [Bool.false_eq_true, if_false, Bool.false_or]
    refine ⟨fun sound => ?_, fun unsound => ?_⟩
    · obtain ⟨c, whole, means⟩ := compiled.whole sound
      refine ⟨_, (Condition.whole_and whole.parens operands).read, fun values m le => ?_⟩
      rw [Condition.eval_and, means values m (grows.trans le), mean values m le, List.all_cons, List.all_cons,
        List.all_nil, Bool.and_true]
    · refine (Condition.refused_join (.inl rfl) (fun p mem => ?_) ⟨_, List.mem_cons_self, ?_⟩).broken.read
      · rcases List.mem_cons.mp mem with rfl | mem
        · exact .inr (compiled.broken unsound).parens
        · exact .inl (Condition.operand_of_mem operands mem)
      · exact (compiled.broken unsound).parens

omit [Alphanumeric] in
theorem latest_apart (s : Store) (p : ThreadRow → Bool) : (s.threads.rows.filter p).Pairwise (latest · ≠ latest ·) := by
  have ids : s.threads.rows.Pairwise (·.id ≠ ·.id) := List.pairwise_map.mp s.threads.nodup
  refine (ids.filter p).imp fun ne same => ne ?_
  exact_mod_cast (Prod.mk.inj (toLex.injective same)).2

omit [Alphanumeric] in
theorem mem_order {p : ThreadRow → Bool} {t : ThreadRow} :
    t ∈ Keyset.order latest (s.threads.rows.filter p) ↔ t ∈ s.threads ∧ p t = true :=
  Keyset.perm_order.mem_iff.trans List.mem_filter

theorem mem_foundThreads {t : ThreadRow} : t ∈ s.foundThreads db expr now ↔
    t ∈ s.threads ∧ ∃ m ∈ s.messages, m.threadId = t.id ∧ s.isFound db expr now m = true := by
  simp only [foundThreads, mem_order, List.any_eq_true, Bool.and_eq_true, decide_eq_true_iff, Table.mem_rows]

theorem selectThreads_eq {c : Condition.Tree Ask} {params values : List SqlValue} (date id : Int) (limit : Nat)
    (eq : values = params ++ [.integer date] ++ [.integer id] ++ [.integer (limit + 1)])
    (means : ∀ values m, params <+: values → c.eval (Ask.holds db s m values) = s.isFound db expr now m) :
    s.selectThreads db c values (params.length + 1) ((params ++ [SqlValue.integer date]).length + 1)
        ((params ++ [SqlValue.integer date] ++ [SqlValue.integer id]).length + 1) =
      (Keyset.below latest (toLex (date, id)) (s.foundThreads db expr now)).take (limit + 1) := by
  have grown : params ++ [.integer date] ++ [.integer id] ++ [.integer (limit + 1)] <+: values :=
    eq ▸ List.prefix_rfl
  have grown' := (List.prefix_append _ _).trans grown
  have grows := (List.prefix_append _ _).trans ((List.prefix_append _ _).trans grown')
  have date' := bound_own ((List.prefix_append _ _).trans grown')
  have found : (fun t : ThreadRow =>
      (s.messages.rows.any fun m => m.threadId = t.id && c.eval (Ask.holds db s m values)) &&
        isBefore t (some (.integer date)) (some (.integer id))) =
      fun t => decide (latest t < toLex (date, id)) &&
        s.messages.rows.any fun m => m.threadId = t.id && s.isFound db expr now m := by
    funext t
    simp only [means values _ grows]
    exact Bool.and_comm _ _
  rw [selectThreads, date', bound_own grown', bound_own grown, found, ← List.filter_filter,
    Keyset.order_filter (latest_apart s _)]
  rfl

-- What is read from a cursor is the page from there, of a query that can be read.
theorem search_eq (begins : Begins cursor key) (limit : Nat) :
    let page := Keyset.page latest (min (max limit 1) MAX_RESULTS) key (s.foundThreads db expr now)
    s.search db expr now cursor limit =
      if expr.sound then .ok
        { rows := page.1.map s.threadSummary
          nextCursor := page.2.map fun key => encodeCursor (ofLex key).1 (ofLex key).2 }
      else .error (.invalid ("search: " ++ db.refusal (Sql.predicate expr now).1)) := by
  intro page
  have begins : cursor.elim (pure (I64_MAX, I64_MAX)) decodeCursor = Except.ok (ofLex key) := begins
  obtain ⟨whole, broken⟩ := predicate_spec db s expr now
  rw [search, begins]
  cases sound : expr.sound
  case false =>
    simp [bind, Except.bind, broken sound]
    rfl
  case true =>
    obtain ⟨c, read, means⟩ := whole sound
    have select := selectThreads_eq (ofLex key).1 (ofLex key).2 (min (max limit 1) MAX_RESULTS) rfl means
    simp only [bind, Except.bind, pure, Except.pure, Sql.bind, read, Option.elim_some, if_true, page, Keyset.page]
    change _ = (Keyset.below latest key (s.foundThreads db expr now)).take _ at select
    simp only [select]
    generalize List.take _ (Keyset.below latest key (s.foundThreads db expr now)) = rows
    split
    case isTrue  => rw [Option.map_map]; rfl
    case isFalse => rfl

-- A search reads the page, from its cursor, of the threads with a message that the query is for, newest first: the
-- texts that it is compiled to are read as it means them, AND and OR and NOT in each other. A query with an OR of
-- nothing is refused.
theorem search_finds (db : Columns) (s : Store) (expr : SearchExpr) (now : Millis) (begins : Begins cursor key)
    (limit : Nat) :
    ∃ found : List ThreadRow, found.Pairwise (latest · > latest ·) ∧
      (∀ t, t ∈ found ↔ t ∈ s.threads ∧ ∃ m ∈ s.messages, m.threadId = t.id ∧ expr.matches db s now m = true ∧
        (expr.mentionsSpamOrTrash = true ∨ labelled s m "SPAM" = false ∧ labelled s m "TRASH" = false)) ∧
      let page := Keyset.page latest (min (max limit 1) MAX_RESULTS) key found
      s.search db expr now cursor limit =
        if expr.sound then .ok
          { rows := page.1.map s.threadSummary
            nextCursor := page.2.map fun key => encodeCursor (ofLex key).1 (ofLex key).2 }
        else .error (.invalid ("search: " ++ db.refusal (Sql.predicate expr now).1)) := by
  refine ⟨s.foundThreads db expr now, Keyset.order_descending (latest_apart _ _), fun t => ?_, search_eq begins limit⟩
  rw [mem_foundThreads]
  refine and_congr_right fun _ => exists_congr fun m => and_congr_right fun _ => and_congr_right fun _ => ?_
  simp [isFound]

-- The parameters that a search's statement names are all given, each a value of its kind: what a user typed comes to
-- FTS5 as words, and to LIKE without wildcards.
theorem predicate_given (expr : SearchExpr) (now : Millis) :
    ∀ ask, .atom ask ∈ (Sql.predicate expr now).1 → ask.Given (Sql.predicate expr now).2 := by
  have compiled := compile_spec default init now [] expr
  obtain ⟨grows, given, -⟩ := without_spec default init (Sql.compile now [] expr).2 ["SPAM", "TRASH"]
  unfold Sql.predicate
  cases mentions : expr.mentionsSpamOrTrash
  case true  => exact compiled.given
  case false =>
    intro ask ha
    have ha : .atom ask ∈ join .and (parens (Sql.compile now [] expr).1 ::
      (Sql.without (Sql.compile now [] expr).2 ["SPAM", "TRASH"]).1) := ha
    obtain ⟨p, mem, ha⟩ := Condition.mem_of_mem_join (.inl rfl) ha
    rcases List.mem_cons.mp mem with rfl | mem
    · exact (compiled.given ask (Condition.mem_parens.mp ha)).grows grows
    · exact given p mem ask ha

end Spec

-- The store when a page is read, with the time and how many threads are asked for. Dates and rowids are 64-bit
-- integers, and no rowid is the largest: each is one above those there are.
structure Moment where
  db     : Columns
  store  : Store
  now    : Millis
  limit  : Nat
  stored : ∀ t ∈ store.threads, IsI64 t.lastMessageAt ∧ (t.id : Int) < I64_MAX

namespace Moment

variable {expr : SearchExpr} {x : Moment} {pages : List (Moment × List ThreadSummary)}

def search (expr : SearchExpr) (x : Moment) (cursor : Option String) :
    StoreResult (List ThreadSummary × Option String) :=
  (x.store.search x.db expr x.now cursor x.limit).map fun page => (page.rows, page.nextCursor)

def found (expr : SearchExpr) (x : Moment) : List ThreadRow :=
  x.store.foundThreads x.db expr x.now

theorem found_stored {t : ThreadRow} (h : t ∈ x.found expr) :
    IsI64 t.lastMessageAt ∧ IsI64 t.id ∧ latest t < toLex (I64_MAX, I64_MAX) := by
  obtain ⟨date, id⟩ := x.stored t (mem_foundThreads.mp h).1
  have : t.lastMessageAt < I64_MAX ∨ t.lastMessageAt = I64_MAX := lt_or_eq_of_le (Int.le_sub_one_of_lt date.right)
  refine ⟨date, ⟨by omega, by unfold I64_MAX at id; omega⟩, Prod.Lex.toLex_lt_toLex.mpr ?_⟩
  exact this.imp_right fun eq => ⟨eq, id⟩

theorem found_descending (expr : SearchExpr) (x : Moment) : Keyset.Descending latest (x.found expr) :=
  Keyset.order_descending (latest_apart _ _)

theorem reads (sound : expr.sound = true) :
    Keyset.Reads latest (fun x => min (max x.limit 1) MAX_RESULTS) (found expr) (fun x => x.store.threadSummary) Begins
      (search expr) where
  positive x    := by unfold MAX_RESULTS; omega
  descending x  := found_descending expr x
  page x c k hc := by
    refine ⟨(Keyset.page latest (min (max x.limit 1) MAX_RESULTS) k (x.found expr)).2.map fun key =>
      encodeCursor (ofLex key).1 (ofLex key).2, ?_, ?_⟩
    · rw [search, search_eq hc, if_pos sound]
      rfl
    · cases next : (Keyset.page latest (min (max x.limit 1) MAX_RESULTS) k (x.found expr)).2
      case none     => exact .none
      case some key =>
        obtain ⟨t, mem, rfl⟩ := Keyset.page_key next
        obtain ⟨date, id, -⟩ := found_stored mem
        exact .some (decodeCursor_encodeCursor date id)

-- What is read by following the cursors of a search while the store changes: threads that are found when their page
-- is read, newest first and none twice with one date; and no thread that is found all along at an unchanged date is
-- missed. While nothing changes these are all that are found, and the cursors come to an end.
theorem search_visits (sound : expr.sound = true) :
    (∀ pages, Keyset.Follows (search expr) none pages → ∃ items : List (Moment × List ThreadRow),
      pages = items.map (fun p => (p.1, p.2.map p.1.store.threadSummary)) ∧
      (∀ p ∈ items, ∀ t ∈ p.2, t ∈ p.1.found expr) ∧
      (items.flatMap Prod.snd).Pairwise (latest · > latest ·) ∧
      (∀ key, (∀ p ∈ items, ∃ t ∈ p.1.found expr, latest t = key) → ∃ t ∈ items.flatMap Prod.snd, latest t = key) ∧
      ∀ x, (∀ p ∈ items, p.1 = x) → items.flatMap Prod.snd = x.found expr) ∧
    ∀ x, ∃ pages, Keyset.Follows (search expr) none pages ∧ ∀ p ∈ pages, p.1 = x := by
  have first : Begins none (toLex (I64_MAX, I64_MAX)) := rfl
  refine ⟨fun pages h => ?_, fun x => Keyset.follows_exists (reads sound) x first⟩
  obtain ⟨items, rfl, shows⟩ := h.shows (reads sound) first
  refine ⟨items, rfl, shows.there, shows.descending, fun key always => ?_, fun x same => ?_⟩
  · cases items
    case nil => cases h
    case cons p items =>
      obtain ⟨t, mem, is⟩ := always p List.mem_cons_self
      exact shows.visited key (is ▸ (found_stored mem).2.2) always
  · rw [shows.all (found_descending expr x) same]
    exact List.filter_eq_self.mpr fun t mem => decide_eq_true (found_stored mem).2.2

end Moment

end Store

end Searching

namespace Store

section Runs

@[reducible] def latin : Alphanumeric where
  isAlphanumeric := Char.isAlphanum

attribute [local instance] latin

def letter (id thread : Rowid) : MessageRow :=
  { id, threadId := thread, gmailId := "", rfc822MessageId := none, subject := "", snippet := "", internalDate := 5
    bodyState := .metadata, isRead := false, isStarred := false, isDraft := false, isSentByMe := false
    hasAttachments := false }

-- Two unread messages in the Inbox and one in the trash.
def unread : Moment where
  db    := { sizeEstimate := fun _ => 0, participants := [], labelName := fun _ => "", found := fun _ _ => false
             refusal := fun _ => "" }
  store := { init with
    labels        := ⟨[⟨2, "INBOX", .system⟩, ⟨3, "TRASH", .system⟩], by decide⟩
    threads       := ⟨[{ id := 1, gmailId := "a", lastMessageAt := 5 }, { id := 2, gmailId := "b", lastMessageAt := 5 },
                       { id := 3, gmailId := "c", lastMessageAt := 7 }], by decide⟩
    messages      := ⟨[letter 1 1, letter 2 2, letter 3 3], by decide⟩
    messageLabels := ⟨[⟨1, 2⟩, ⟨2, 2⟩, ⟨3, 3⟩], by decide⟩ }
  now    := 0
  limit  := 1
  stored := by simp [← Table.mem_rows, IsI64, I64_MAX]

def query : SearchExpr := .or [.is .unread, .text "x\" OR 1=1"]

theorem search_finds_unread :
    (unread.store.search unread.db query 0 none 1).toOption.map (fun page => (page.rows.map (·.id), page.nextCursor)) =
      some (["b"], some "5:2") ∧
    ∃ found : List ThreadRow, found.Pairwise (latest · > latest ·) ∧
      unread.store.search unread.db query 0 none 1 = .ok
        { rows := (Keyset.page latest 1 (toLex (I64_MAX, I64_MAX)) found).1.map unread.store.threadSummary
          nextCursor := (Keyset.page latest 1 (toLex (I64_MAX, I64_MAX)) found).2.map fun key =>
            encodeCursor (ofLex key).1 (ofLex key).2 } := by
  have first : Begins none (toLex (I64_MAX, I64_MAX)) := rfl
  refine ⟨by decide +kernel, ?_⟩
  obtain ⟨found, desc, -, eq⟩ := search_finds unread.db unread.store query 0 first 1
  exact ⟨found, desc, eq⟩

theorem predicate_given_phrase : .atom (.found 1) ∈ (Sql.predicate query 0).1 ∧
    (Ask.found 1).Given (Sql.predicate query 0).2 := by
  have mem : .atom (.found 1) ∈ (Sql.predicate query 0).1 := by decide +kernel
  exact ⟨mem, predicate_given query 0 _ mem⟩

theorem search_visits_unread : ∃ pages, Keyset.Follows (Moment.search query) none pages ∧
    (pages.flatMap Prod.snd).map (·.id) = ["b", "a"] := by
  have sound : query.sound = true := rfl
  obtain ⟨visits, ends⟩ := Moment.search_visits sound
  obtain ⟨pages, h, same⟩ := ends unread
  obtain ⟨items, rfl, -, -, -, all⟩ := visits pages h
  refine ⟨_, h, ?_⟩
  have rows : items.flatMap Prod.snd = unread.found query := all unread fun p mem => same _ (List.mem_map_of_mem mem)
  have shown : (items.map fun p => (p.1, p.2.map p.1.store.threadSummary)).flatMap Prod.snd =
      (items.flatMap Prod.snd).map unread.store.threadSummary := by
    rw [List.flatMap_map, List.map_flatMap]
    refine List.flatMap_congr fun p mem => ?_
    rw [same _ (List.mem_map_of_mem mem)]
  rw [shown, rows]
  decide +kernel

example : Sql.ftsPhrase "x\" OR 1=1 NEAR(y) -z*" false = some "\"x OR 1 1 NEAR y z\"" := by
  decide +kernel

end Runs

end Store

end Kaluta
