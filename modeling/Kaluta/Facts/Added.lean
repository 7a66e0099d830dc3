import Kaluta.Facts.Merge
import Mathlib.Data.List.Perm.Subperm

-- A change that only makes categories and adds facts.
namespace Kaluta.Facts

open Guide (Unicode toLowercase eqIgnoreAsciiCase trim cleanText)

-- A key that is given at a time.
def Stamped (now : Millis) (key : String) : Prop :=
  ∃ n m, key = ("c" ++ toString now ++ toString (n : Nat)).pushn 'x' m

section Keys

variable {now : Millis} {db : Db} {key : String}

theorem toList_pushn (s : String) (c : Char) (n : Nat) : (s.pushn c n).toList = s.toList ++ List.replicate n c := by
  induction n
  case zero      => simp [String.pushn_eq_repeat_push, Nat.repeat]
  case succ n ih =>
    rw [String.pushn_eq_repeat_push, Nat.repeat, ← String.pushn_eq_repeat_push, String.toList_push, ih,
      List.replicate_succ', List.append_assoc]

-- A time begins with a digit or a sign.
theorem toString_head (now : Millis) : ∃ d rest, (toString now).toList = d :: rest ∧ (d.isDigit = true ∨ d = '-') := by
  have digits (n : Nat) : ∃ d rest, n.repr.toList = d :: rest ∧ (d.isDigit = true ∨ d = '-') := by
    rw [Nat.toList_repr]
    obtain ⟨d, rest, eq⟩ := List.exists_cons_of_ne_nil (Nat.toDigits_ne_nil (n := n) (b := 10))
    exact ⟨d, rest, eq, .inl (Nat.isDigit_of_mem_toDigits (by decide) (by decide) (eq ▸ List.mem_cons_self))⟩
  cases now
  case ofNat n   => exact digits n
  case negSucc n => exact ⟨'-', n.succ.repr.toList, String.toList_append, .inr rfl⟩

theorem Stamped.not_builtin (h : Stamped now key) : key ∉ BUILTINS.map (·.1) := by
  obtain ⟨n, m, rfl⟩ := h
  obtain ⟨d, rest, eq, begins⟩ := toString_head now
  intro there
  have apart : BUILTINS.all fun b =>
      b.1.toList.head? != some 'c' || b.1.toList[1]?.all fun d => !d.isDigit && d != '-' := by decide
  obtain ⟨b, hb, same⟩ := List.mem_map.mp there
  have := List.all_eq_true.mp apart b hb
  rw [same, toList_pushn, String.toList_append, String.toList_append, eq] at this
  rcases begins with begins | rfl
  · simp [begins] at this
  · simp at this

-- The key that is found is not in use.
theorem newKey_new (db : Db) (key : String) :
    db.getCategory (Editing.newKey db key) = none ∧ ∃ m, Editing.newKey db key = key.pushn 'x' m := by
  rw [Editing.newKey]
  cases found : ((List.range (db.categories.rows.length + 1)).map (key.pushn 'x')).find? fun k => (db.getCategory k).isNone
  case some k =>
    obtain ⟨m, _, rfl⟩ := List.mem_map.mp (List.mem_of_find?_eq_some found)
    exact ⟨Option.isNone_iff_eq_none.mp (by simpa using List.find?_some found), m, rfl⟩
  case none =>
    have taken := List.find?_eq_none.mp found
    have apart : ((List.range (db.categories.rows.length + 1)).map (key.pushn 'x')).Nodup := by
      refine List.nodup_range.map fun i j eq => ?_
      have := congrArg String.length eq
      rw [String.length_pushn, String.length_pushn] at this
      omega
    have subset : (List.range (db.categories.rows.length + 1)).map (key.pushn 'x') ⊆ db.categories.rows.map (·.key) := by
      intro k hk
      have there : db.getCategory k ≠ none := by simpa using taken k hk
      obtain ⟨c, get⟩ := Option.ne_none_iff_exists'.mp there
      exact List.mem_map.mpr ⟨c, Table.find?_mem get, Table.find?_key_eq get⟩
    have := (List.Nodup.subperm apart subset).length_le
    rw [List.length_map, List.length_map, List.length_range] at this
    omega

end Keys

section Made

variable {stored : List CategoryRow} {now : Millis} {c c' : Editing} {name description : String}

-- The row of a category that is made.
def Editing.made (stored : List CategoryRow) (now : Millis) (c : Editing) (name description : String) : CategoryRow where
  key         := newKey c.db ("c" ++ toString now ++ toString c.added.length)
  name        := cleanText name
  description := cleanText description
  position    := (stored.map (·.position)).max?.getD 0 + 1 + c.added.length
  createdAt   := now

def Editing.making (stored : List CategoryRow) (now : Millis) (c : Editing) (name description : String) : Editing :=
  let row := c.made stored now name description
  { c with
    db    := c.db.putCategory row
    keys  := c.keys ++ [row.key]
    added := c.added ++ [(row.name, row.key)] }

-- The categories that were made come after all that there were, in their order.
structure Makes (stored : List CategoryRow) (now : Millis) (c c' : Editing) (rows : List CategoryRow) : Prop where
  db         : c'.db = { c.db with categories := c'.db.categories }
  categories : c'.db.categories.rows = c.db.categories.rows ++ rows
  ids        : c'.ids = c.ids
  added      : c'.added = c.added ++ rows.map fun r => (r.name, r.key)
  custom     : ∀ r ∈ rows, r.builtin = false
  stamped    : ∀ r ∈ rows, Stamped now r.key
  position   : ∀ r ∈ rows, (stored.map (·.position)).max?.getD 0 + 1 + c.added.length ≤ r.position
  sorted     : rows.Pairwise (·.position < ·.position)

theorem rows_making (stored : List CategoryRow) (now : Millis) (c : Editing) (name description : String) :
    (c.making stored now name description).db.categories.rows =
      c.db.categories.rows ++ [c.made stored now name description] := by
  have new : ∀ r ∈ c.db.categories, r.key ≠ (c.made stored now name description).key :=
    Table.find?_eq_none_iff.mp (newKey_new c.db _).left
  have same : c.db.categories.delete (·.key = (c.made stored now name description).key) = c.db.categories :=
    Table.delete_eq_self fun r hr => by simpa using new r hr
  exact congrArg (·.rows ++ [c.made stored now name description]) same

theorem makes_nil (stored : List CategoryRow) (now : Millis) (c : Editing) : Makes stored now c c [] where
  db         := rfl
  categories := (List.append_nil _).symm
  ids        := rfl
  added      := (List.append_nil _).symm
  custom     := fun _ h => absurd h List.not_mem_nil
  stamped    := fun _ h => absurd h List.not_mem_nil
  position   := fun _ h => absurd h List.not_mem_nil
  sorted     := .nil

theorem Makes.cons {rows : List CategoryRow} (h : Makes stored now (c.making stored now name description) c' rows) :
    Makes stored now c c' (c.made stored now name description :: rows) where
  db         := h.db.trans rfl
  categories := by rw [h.categories, rows_making, List.append_assoc, List.singleton_append]
  ids        := h.ids
  added      := by rw [h.added, List.map_cons, Editing.making, List.append_assoc, List.singleton_append]
  custom     := List.forall_mem_cons.mpr ⟨rfl, h.custom⟩
  stamped    := List.forall_mem_cons.mpr ⟨⟨_, (newKey_new c.db _).right⟩, h.stamped⟩
  position   := by
    refine List.forall_mem_cons.mpr ⟨le_rfl, fun r hr => ?_⟩
    have := h.position r hr
    rw [Editing.making, List.length_append, List.length_singleton] at this
    omega
  sorted     := by
    refine List.pairwise_cons.mpr ⟨fun r hr => ?_, h.sorted⟩
    have := h.position r hr
    rw [Editing.making, List.length_append, List.length_singleton] at this
    simp only [Editing.made]
    omega

variable [Letters]

-- A category like it is there.
def Taken (stored : List CategoryRow) (name : String) : Prop :=
  BUILTINS.any (similar ·.2 name) ∨ stored.any fun r => !r.builtin ∧ similar r.name name

theorem category_add_eq_ok : c.category stored now (.add name description) = .ok c' ↔
    (cleanText name ≠ "" ∧ ¬Taken stored (cleanText name)) ∧ c.making stored now name description = c' := by
  simp only [Editing.category]
  split
  case isTrue none   => exact ⟨fun h => (by cases h), fun h => absurd none h.left.left⟩
  case isFalse named =>
    split
    case isTrue taken => exact ⟨fun h => (by cases h), fun h => absurd taken h.left.right⟩
    case isFalse free =>
      rw [and_iff_right ⟨named, free⟩]
      exact ⟨fun h => Except.ok.inj h, fun h => h ▸ rfl⟩

-- Categories are made when each has a name and none before is like it: one row for each.
theorem foldlM_category_eq_ok {new : List (String × String)} :
    (new.map fun n => CategoryEdit.add n.1 n.2).foldlM (Editing.category stored now) c = .ok c' →
    (∀ n ∈ new, cleanText n.1 ≠ "" ∧ ¬Taken stored (cleanText n.1)) ∧
    ∃ rows, Makes stored now c c' rows ∧ rows.map (·.name) = new.map fun n => cleanText n.1 := by
  intro h
  induction new generalizing c
  case nil =>
    cases h
    exact ⟨fun _ hn => absurd hn List.not_mem_nil, [], makes_nil stored now _, rfl⟩
  case cons n new ih =>
    obtain ⟨c₁, first, rest⟩ := List.foldlM_cons_eq_ok.mp h
    obtain ⟨fine, rfl⟩ := category_add_eq_ok.mp first
    obtain ⟨fines, rows, makes, names⟩ := ih rest
    exact ⟨List.forall_mem_cons.mpr ⟨fine, fines⟩, _, makes.cons, congrArg (cleanText n.1 :: ·) names⟩

theorem foldlM_category_ok (now : Millis) {new : List (String × String)}
    (fine : ∀ n ∈ new, cleanText n.1 ≠ "" ∧ ¬Taken stored (cleanText n.1)) (c : Editing) :
    ∃ c', (new.map fun n => CategoryEdit.add n.1 n.2).foldlM (Editing.category stored now) c = .ok c' := by
  induction new generalizing c
  case nil => exact ⟨c, rfl⟩
  case cons n new ih =>
    have ⟨first, rest⟩ := List.forall_mem_cons.mp fine
    obtain ⟨c', ok⟩ := ih rest (c.making stored now n.1 n.2)
    exact ⟨c', List.foldlM_cons_eq_ok.mpr ⟨_, category_add_eq_ok.mpr ⟨first, rfl⟩, ok⟩⟩

end Made

section Added

variable {now : Millis} {c c' : Editing} {db : Db} {f : FactRow} {made : List CategoryRow}

-- Where a fact goes that is to go into a category, which may be the name of one that was made.
def lands (made : List CategoryRow) (category : String) : String :=
  ((made.find? (·.name = category)).map (·.key)).getD category

-- The row of a fact that is added, but for its id.
def rowOf (made : List CategoryRow) (now : Millis) (fields : FactFields) : FactRow where
  category  := lands made fields.category
  label     := cleanText fields.label
  value     := trim fields.value
  use_      := fields.use_
  asOf      := fields.asOf
  createdAt := now
  updatedAt := now

structure Adds (c c' : Editing) (rows : List FactRow) : Prop where
  db    : c'.db = { c.db with facts := c'.db.facts, lastFactId := c'.db.lastFactId }
  facts : c'.db.facts.rows = c.db.facts.rows ++ rows
  ids   : c'.ids = c.ids ++ rows.map (·.id)
  keys  : c'.keys = c.keys
  added : c'.added = c.added
  new   : ∀ r ∈ rows, c.db.lastId < r.id

theorem Db.insert_new (db : Db) (f : FactRow) (h : f.id = 0) : ∃ db', db.insert f = .ok (db', db.lastId + 1) ∧
    db' = { db with facts := db'.facts, lastFactId := db'.lastFactId } ∧ db.lastId < db'.lastId ∧
    db'.facts.rows = db.facts.rows ++ [{ f with id := db.lastId + 1 }] := by
  have free : ∀ g ∈ db.facts, g.id ≠ ({ f with id := db.lastId + 1 } : FactRow).id :=
    fun g hg => (Nat.lt_succ_of_le (le_lastId hg)).ne
  have inserted : db.facts.insert? { f with id := db.lastId + 1 } = some (db.facts.insert _ free) :=
    Table.insert?_eq_some.mpr ⟨free, rfl⟩
  refine ⟨{ db with facts := db.facts.insert _ free, lastFactId := max db.lastId (db.lastId + 1) }, ?_, rfl, ?_, rfl⟩
  · rw [Db.insert]
    simp only [h, if_true, inserted]
    rfl
  · exact (Nat.lt_succ_self _).trans_le ((le_max_right _ _).trans (le_max_right _ _))

theorem resolve_eq (h : c.added = made.map fun r => (r.name, r.key)) (category : String) :
    c.resolve category = lands made category := by
  rw [Editing.resolve, h, List.find?_map, Option.map_map]
  rfl

theorem foldlM_fact (now : Millis) (fields : List FactFields) (c : Editing) (h : c.added = made.map fun r => (r.name, r.key)) : ∃ c' rows,
    (fields.map fun f => FactEdit.add f .accepted .you).foldlM (Editing.fact now) c = .ok c' ∧ Adds c c' rows ∧
    rows.map (fun r => { r with id := 0 }) = fields.map (rowOf made now) := by
  induction fields generalizing c
  case nil =>
    have none' : Adds c c [] :=
      ⟨rfl, (List.append_nil _).symm, (List.append_nil _).symm, rfl, rfl, fun _ h => absurd h List.not_mem_nil⟩
    exact ⟨c, [], rfl, none', rfl⟩
  case cons fields rest ih =>
    obtain ⟨db', inserted, same, later, rows⟩ := Db.insert_new c.db (rowOf made now fields) rfl
    obtain ⟨c', added, ok, adds, eq⟩ := ih { c with db := db', ids := c.ids ++ [c.db.lastId + 1] } h
    refine ⟨c', { rowOf made now fields with id := c.db.lastId + 1 } :: added, ?_, ?_, ?_⟩
    · refine List.foldlM_cons_eq_ok.mpr ⟨_, ?_, ok⟩
      refine Except.bind_eq_ok.mpr ⟨(db', c.db.lastId + 1), ?_, rfl⟩
      rw [resolve_eq h]
      exact inserted
    · refine ⟨?_, ?_, ?_, adds.keys, adds.added, List.forall_mem_cons.mpr ⟨Nat.lt_succ_self _, fun r hr => ?_⟩⟩
      · rw [adds.db, same]
      · rw [adds.facts, rows, List.append_assoc, List.singleton_append]
      · rw [adds.ids, List.append_assoc, List.singleton_append, List.map_cons]
      · exact later.trans (adds.new r hr)
    · exact congrArg (rowOf made now fields :: ·) eq

-- A store to which categories and facts were added.
structure Grows (db db' : Db) (now : Millis) (made : List CategoryRow) (rows : List FactRow) : Prop where
  facts      : db'.facts.rows = db.facts.rows ++ rows
  categories : db'.categories.rows = db.categories.rows ++ made
  custom     : ∀ r ∈ made, r.builtin = false
  stamped    : ∀ r ∈ made, Stamped now r.key
  position   : ∀ s ∈ db.categories, ∀ r ∈ made, s.position < r.position
  sorted     : made.Pairwise (·.position < ·.position)

theorem le_max_position {stored : List CategoryRow} {s : CategoryRow} (h : s ∈ stored) :
    s.position ≤ (stored.map (·.position)).max?.getD 0 := by
  cases max : (stored.map (·.position)).max?
  case none   =>
    rw [List.max?_eq_none_iff, List.map_eq_nil_iff] at max
    exact absurd (max ▸ h) List.not_mem_nil
  case some m => exact (List.max?_eq_some_iff.mp max).right _ (List.mem_map_of_mem h)

theorem Db.applyFacts_of_adds [Letters] (new : List (String × String)) (fields : List FactFields) (reason : String) :
    db.applyFacts (fields.map fun f => .add f .accepted .you) (new.map fun n => .add n.1 n.2) reason now = (do
      let c ← (new.map fun n => CategoryEdit.add n.1 n.2).foldlM (Editing.category db.categories.rows now) { db }
      let c ← (fields.map fun f => FactEdit.add f .accepted .you).foldlM (Editing.fact now) c
      if (c.db.list [.accepted]).any fun f => f.id ∈ c.ids ∧ 1 < (c.db.twins f).length then
        throw "you already have that in that category"
      else
        pure (c.db.recordChange reason (db.snapshot [] []) (c.db.snapshot c.ids c.keys))) := by
  have none₁ : (fields.map fun f => FactEdit.add f .accepted .you).filterMap FactEdit.id = [] := by
    simp [List.filterMap_map, Function.comp_def, FactEdit.id]
  have none₂ : (new.map fun n => CategoryEdit.add n.1 n.2).flatMap db.factsMoved = [] := by
    simp [List.flatMap_map, Db.factsMoved]
  have none₃ : (new.map fun n => CategoryEdit.add n.1 n.2).flatMap CategoryEdit.keys = [] := by
    simp [List.flatMap_map, CategoryEdit.keys]
  rw [Db.applyFacts, none₁, none₂, none₃, List.nil_append]

-- New categories and facts are refused as a whole when one of the facts has a twin.
theorem Db.applyFacts_adds [Letters] (now : Millis) {new : List (String × String)} (fields : List FactFields) (reason : String)
    (fine : ∀ n ∈ new, cleanText n.1 ≠ "" ∧ ¬Taken db.categories.rows (cleanText n.1)) :
    ∃ db' id made rows, Grows db db' now made rows ∧ made.map (·.name) = new.map (fun n => cleanText n.1) ∧
      rows.map (fun r => { r with id := 0 }) = fields.map (rowOf made now) ∧
      db.applyFacts (fields.map fun f => .add f .accepted .you) (new.map fun n => .add n.1 n.2) reason now =
        if rows.any fun f => 1 < (db'.twins f).length then .error "you already have that in that category"
        else .ok (db', id) := by
  obtain ⟨c₁, categories⟩ := foldlM_category_ok now fine { db }
  obtain ⟨_, made, makes, names⟩ := foldlM_category_eq_ok categories
  have added : c₁.added = made.map fun r => (r.name, r.key) := makes.added
  obtain ⟨c₂, rows, facts, adds, eq⟩ := foldlM_fact now fields c₁ added
  have grows : c₂.db.facts.rows = db.facts.rows ++ rows := by
    rw [adds.facts, makes.db]
  have accepted : ∀ r ∈ rows, r.status = .accepted := by
    intro r hr
    have mem : { r with id := 0 } ∈ fields.map (rowOf made now) := eq ▸ List.mem_map_of_mem hr
    obtain ⟨f, _, is⟩ := List.mem_map.mp mem
    exact (congrArg FactRow.status is).symm
  have ids : c₂.ids = rows.map (·.id) := by
    rw [adds.ids, makes.ids, List.nil_append]
  refine ⟨(c₂.db.recordChange reason (db.snapshot [] []) (c₂.db.snapshot c₂.ids c₂.keys)).1,
    (c₂.db.recordChange reason (db.snapshot [] []) (c₂.db.snapshot c₂.ids c₂.keys)).2, made, rows, ?_, names, eq, ?_⟩
  · refine ⟨grows, ?_, makes.custom, makes.stamped, fun s hs r hr => ?_, makes.sorted⟩
    · exact (congrArg (·.categories.rows) adds.db).trans makes.categories
    · have := le_max_position hs
      have := makes.position r hr
      simp only [List.length_nil] at this
      omega
  · have same : ((c₂.db.list [.accepted]).any fun f => f.id ∈ c₂.ids ∧ 1 < (c₂.db.twins f).length) =
        rows.any fun f => 1 < (c₂.db.twins f).length := by
      rw [Bool.eq_iff_iff, List.any_eq_true, List.any_eq_true]
      constructor
      · rintro ⟨f, hf, many⟩
        rw [decide_eq_true_eq, ids] at many
        obtain ⟨r, hr, id⟩ := List.mem_map.mp many.left
        have mem : f ∈ c₂.db.facts := (List.mem_filter.mp hf).left
        have there : r ∈ c₂.db.facts := Table.mem_rows.mp (grows ▸ List.mem_append_right _ hr)
        obtain rfl := Table.eq_of_key_eq there mem id
        exact ⟨r, hr, decide_eq_true many.right⟩
      · rintro ⟨r, hr, many⟩
        refine ⟨r, List.mem_filter.mpr ⟨grows ▸ List.mem_append_right _ hr, ?_⟩, ?_⟩
        · simp [accepted r hr]
        · exact decide_eq_true ⟨ids ▸ List.mem_map_of_mem hr, of_decide_eq_true many⟩
    rw [Db.applyFacts_of_adds, categories]
    change (List.foldlM (Editing.fact now) c₁ _ >>= _) = _
    rw [facts]
    change (if _ then _ else _) = _
    rw [same]
    rfl

theorem Db.applyFacts_adds_eq_ok [Letters] {new : List (String × String)} {fields : List FactFields} {r : Db × ChangeId}
    (h : db.applyFacts (fields.map fun f => .add f .accepted .you) (new.map fun n => .add n.1 n.2) reason now = .ok r) :
    ∃ made rows, Grows db r.1 now made rows := by
  have ok := h
  rw [Db.applyFacts_of_adds] at h
  obtain ⟨_, categories, _⟩ := Except.bind_eq_ok.mp h
  obtain ⟨fine, _⟩ := foldlM_category_eq_ok categories
  obtain ⟨db', id, made, rows, grows, _, _, eq⟩ := Db.applyFacts_adds now fields reason fine
  rw [eq] at ok
  split at ok
  case isTrue  => cases ok
  case isFalse => cases ok; exact ⟨made, rows, grows⟩

end Added

end Kaluta.Facts
