import Kaluta.Facts.System

-- What each write of a store does to the labels and the values of its facts.
namespace Kaluta.Facts

variable {db db' : Db} {f : FactRow} {id : FactId} {p q : FactId → Prop}

def FactRow.content (f : FactRow) : String × String :=
  (f.label, f.value)

namespace Db

def content (db : Db) (id : FactId) : Option (String × String) :=
  (db.get id).map FactRow.content

theorem content_eq_some : db.content id = some lv ↔ ∃ f ∈ db.facts, f.id = id ∧ f.content = lv := by
  simp only [content, get, Option.map_eq_some_iff, Table.find?_eq_some_iff, and_assoc]

theorem content_of_mem (h : f ∈ db.facts) : db.content f.id = some f.content :=
  content_eq_some.mpr ⟨f, h, rfl, rfl⟩

theorem le_lastId (h : f ∈ db.facts) : f.id ≤ db.lastId :=
  (Nat.le_sub_one_of_lt (Table.lt_nextRowid h)).trans (le_max_left _ _)

theorem le_lastId_of_content (h : db.content id = some lv) : id ≤ db.lastId := by
  obtain ⟨f, hf, rfl, _⟩ := content_eq_some.mp h
  exact le_lastId hf

theorem content_congr (h : db'.facts = db.facts) : db'.content id = db.content id := by
  rw [content, content, get, get, h]

-- Of the facts that there were, only some are written, and no id is used again.
structure Keeps (db db' : Db) (p : FactId → Prop) : Prop where
  content : ∀ i ≤ db.lastId, ¬p i → db'.content i = db.content i
  lastId  : db.lastId ≤ db'.lastId
  zero    : db.content 0 = none → db'.content 0 = none

-- The same, and no change is recorded.
structure Apart (db db' : Db) (p : FactId → Prop) : Prop extends Keeps db db' p where
  changes : db'.changes = db.changes

namespace Apart

theorem refl (db : Db) (p : FactId → Prop) : Apart db db p :=
  ⟨⟨fun _ _ _ => rfl, le_rfl, id⟩, rfl⟩

theorem trans {db₁ db₂ db₃ : Db} (h₁ : Apart db₁ db₂ p) (h₂ : Apart db₂ db₃ p) : Apart db₁ db₃ p where
  content i hi hp := (h₂.content i (hi.trans h₁.lastId) hp).trans (h₁.content i hi hp)
  lastId          := h₁.lastId.trans h₂.lastId
  zero            := h₂.zero ∘ h₁.zero
  changes         := h₂.changes.trans h₁.changes

theorem mono (h : Apart db db' p) (weaker : ∀ i, p i → q i) : Apart db db' q :=
  ⟨⟨fun i hi hq => h.content i hi fun hp => hq (weaker i hp), h.lastId, h.zero⟩, h.changes⟩

theorem of_eq (facts : db'.facts = db.facts) (last : db'.lastFactId = db.lastFactId) (changes : db'.changes = db.changes) :
    Apart db db' p where
  content _ _ _ := content_congr facts
  lastId        := by rw [Db.lastId, Db.lastId, facts, last]
  zero          := (content_congr facts).trans
  changes       := changes

end Apart

theorem content_write : (db.write f).content id = if id = f.id then (db.content id).map fun _ => f.content else db.content id := by
  simp only [content, get, write, Table.find?_update]
  cases found : db.facts.find? id
  case none   => simp
  case some r =>
    have key : r.id = id := Table.find?_key_eq found
    simp only [Option.map_some, decide_eq_true_eq, key]
    split <;> rfl

theorem apart_write : Apart db (db.write f) (· = f.id) where
  content i _ hi := by rw [content_write, if_neg hi]
  zero h         := by rw [content_write, h]; split <;> rfl
  changes        := rfl
  lastId         := by
    have ids : (db.write f).facts.rows.map (·.id) = db.facts.rows.map (·.id) :=
      Table.map_update (by exact fun _ => rfl) (by exact fun _ => rfl)
    rw [lastId, lastId, Table.nextRowid, Table.nextRowid, ids]
    rfl

theorem content_delete : (db.delete id).content i = if i = id then none else db.content i := by
  split
  case isTrue h  =>
    subst h
    simp only [content, get, delete, Option.map_eq_none_iff, Table.find?_eq_none_iff, Table.mem_delete]
    exact fun f hf => of_decide_eq_false hf.right
  case isFalse h =>
    rw [content, content, get, get]
    refine congrArg _ (Table.find?_eq_of_mem_iff fun f hf => ?_)
    rw [delete, Table.mem_delete, decide_eq_false_iff_not]
    exact ⟨And.left, fun hm => ⟨hm, fun eq => h (hf.symm.trans eq)⟩⟩

theorem apart_delete : Apart db (db.delete id) (· = id) where
  content i _ hi := by rw [content_delete, if_neg hi]
  lastId         := le_max_right _ _
  zero h         := by rw [content_delete, h]; split <;> rfl
  changes        := rfl

theorem insert_eq_ok (h : db.insert f = .ok (db', id)) :
    (if f.id = 0 then db.lastId + 1 else f.id) = id ∧ (db'.lastFactId = max db.lastId id ∧ db'.changes = db.changes) ∧
    db'.get id = some { f with id } ∧ ∀ i ≠ id, db'.get i = db.get i := by
  rw [insert] at h
  split at h
  case h_1 => cases h
  case h_2 facts inserted =>
    obtain ⟨rfl, rfl⟩ := Prod.mk.inj (Except.ok.inj h)
    refine ⟨rfl, ⟨rfl, rfl⟩, Table.find?_eq_some_iff.mpr ⟨(Table.mem_insert? inserted).mpr (.inr rfl), rfl⟩, fun i hi => ?_⟩
    refine Table.find?_eq_of_mem_iff fun r hr => ?_
    rw [Table.mem_insert? inserted]
    refine ⟨fun hm => hm.resolve_right ?_, .inl⟩
    rintro rfl
    exact hi hr.symm

theorem apart_insert (h : db.insert f = .ok (db', id)) :
    Apart db db' (· = id) ∧ db'.content id = some f.content ∧ id ≤ db'.lastId := by
  have ⟨chosen, ⟨last, changes⟩, new, others⟩ := insert_eq_ok h
  have le : max db.lastId id ≤ db'.lastId := last ▸ le_max_right _ _
  have same (i) (hi : i ≠ id) : db'.content i = db.content i := by rw [content, others i hi, content]
  have pos : 0 ≠ id := by
    rintro rfl
    split at chosen
    case isTrue     => cases chosen
    case isFalse hf => exact hf chosen
  refine ⟨⟨⟨fun i _ hi => same i hi, (le_max_left _ _).trans le, (same 0 pos).trans⟩, changes⟩, ?_,
    (le_max_right _ _).trans le⟩
  rw [content, new]
  rfl

theorem apart_put (h : db.put f = .ok db') :
    Apart db db' (· = f.id) ∧ (f.id ≠ 0 → db'.content f.id = some f.content) := by
  rw [put] at h
  split at h
  case isTrue there =>
    cases h
    obtain ⟨r, hr⟩ := Option.isSome_iff_exists.mp there
    refine ⟨apart_write, fun _ => ?_⟩
    rw [content_write, if_pos rfl, content, hr]
    rfl
  case isFalse =>
    obtain ⟨⟨_, i⟩, inserted, rfl⟩ := Except.map_eq_ok.mp h
    have ⟨apart, written, _⟩ := apart_insert inserted
    have ⟨chosen, _⟩ := insert_eq_ok inserted
    refine ⟨⟨⟨fun k hk ne => apart.content k hk ?_, apart.lastId, apart.zero⟩, apart.changes⟩, fun pos => ?_⟩
    · rintro rfl
      split at chosen
      case isTrue  => exact Nat.not_succ_le_self _ (chosen.le.trans hk)
      case isFalse => exact ne chosen.symm
    · rw [if_neg pos] at chosen
      exact chosen ▸ written

-- A fact that is put back, or deleted when the target lacks it.
theorem apart_restoreFact (h : restoreFact target db id = .ok db') : Apart db db' (· = id) ∧
    (id ≠ 0 → db'.content id = (target.facts.find? (·.1.id = id)).map (·.1.content)) := by
  rw [restoreFact] at h
  cases found : target.facts.find? (·.1.id = id)
  case none =>
    simp only [found] at h
    cases h
    exact ⟨apart_delete, fun _ => by rw [content_delete, if_pos rfl]; rfl⟩
  case some r =>
    have key : r.1.id = id := by simpa using List.find?_some found
    subst key
    simp only [found] at h
    have ⟨db₁, h₁, h⟩ := Except.bind_eq_ok.mp h
    cases h
    have ⟨apart, written⟩ := apart_put h₁
    have quotes : Apart db₁ ((db₁.clearEvidence r.1.id).addEvidence r.1.id r.2) (· = r.1.id) := .of_eq rfl rfl rfl
    exact ⟨apart.trans quotes, fun pos => (content_congr rfl).trans (written pos)⟩

theorem apart_foldlM {α : Type u} {f : Db → α → Except String Db} {as : List α} (h : as.foldlM f db = .ok db')
    (each : ∀ a ∈ as, ∀ db db', f db a = .ok db' → Apart db db' p) : Apart db db' p :=
  List.foldlM_preserves (P := fun d => Apart db d p) h (fun a ha ih step => ih.trans (each a ha _ _ step)) (.refl db p)

theorem apart_foldl {α : Type u} {f : Db → α → Db} {as : List α} (each : ∀ a ∈ as, ∀ db, Apart db (f db a) p) :
    Apart db (as.foldl f db) p :=
  List.foldl_preserves (P := fun d => Apart db d p) (fun a ha ih => ih.trans (each a ha _)) (.refl db p)

theorem apart_restoreCategory (target : Snapshot) (key : String) : Apart db (restoreCategory target db key) p := by
  rw [restoreCategory]
  split <;> exact .of_eq rfl rfl rfl

theorem apart_restore (h : db.restore ids keys target = .ok db') : Apart db db' (· ∈ ids) := by
  have ⟨db₁, h₁, h⟩ := Except.bind_eq_ok.mp h
  cases h
  refine (apart_foldlM h₁ fun i hi _ _ step => ?_).trans (apart_foldl fun k _ _ => apart_restoreCategory target k)
  exact (apart_restoreFact step).left.mono fun k hk => hk ▸ hi

theorem content_restoreCategories (keys : List String) :
    (keys.foldl (restoreCategory target) db).content id = db.content id := by
  refine List.foldl_preserves (P := fun d : Db => d.content id = db.content id) (fun k _ ih => Eq.trans ?_ ih) rfl
  rw [restoreCategory]
  split <;> exact content_congr rfl

-- Restoring the one fact of a move.
theorem content_restore (h : db.restore [id] keys target = .ok db') (pos : id ≠ 0) :
    db'.content id = (target.facts.find? (·.1.id = id)).map (·.1.content) := by
  have ⟨db₁, h₁, h⟩ := Except.bind_eq_ok.mp h
  cases h
  have ⟨_, step, last⟩ := List.foldlM_cons_eq_ok.mp h₁
  cases List.foldlM_nil_eq_ok.mp last
  rw [content_restoreCategories]
  exact (apart_restoreFact step).right pos

end Db

-- The fact whose label and value an edit sets or takes away.
def FactEdit.rewrites : FactEdit → Option FactId
  | update id _ | delete id          => some id
  | add _ _ _ | decide _ _ | share _ _ => none

section Edits

open Db

variable {c c' : Editing} {stored : List CategoryRow} {now : Millis}

-- A fact that is pushed to another category keeps what it says.
theorem content_other (now : Millis) (key : String) {rows : List FactRow} (each : ∀ f ∈ rows, db.content f.id = some f.content) :
    Apart db (rows.foldl (fun db f =>
      if f.category = key then db.write { f with category := "other", updatedAt := now } else db) db) fun _ => False := by
  have kept : ∀ i, (rows.foldl (fun db f =>
      if f.category = key then db.write { f with category := "other", updatedAt := now } else db) db).content i = db.content i := by
    refine List.foldl_preserves (P := fun d : Db => ∀ i, d.content i = db.content i) (fun f hf ih i => ?_) fun _ => rfl
    split
    case isFalse => exact ih i
    case isTrue  =>
      rw [content_write, ih]
      split
      case isFalse => rfl
      case isTrue h => rw [h, each f hf]; rfl
  have wrote : Apart db (rows.foldl (fun db f =>
      if f.category = key then db.write { f with category := "other", updatedAt := now } else db) db) fun _ => True := by
    refine apart_foldl fun f _ db => ?_
    split
    case isTrue  => exact apart_write.mono fun _ _ => trivial
    case isFalse => exact .refl _ _
  exact ⟨⟨fun i _ _ => kept i, wrote.lastId, wrote.zero⟩, wrote.changes⟩

theorem apart_category [Letters] {edit : CategoryEdit} (h : c.category stored now edit = .ok c') : Apart c.db c'.db fun _ => False := by
  cases edit
  case add =>
    simp only [Editing.category] at h
    split at h
    · cases h
    split at h
    · cases h
    cases h
    exact .of_eq rfl rfl rfl
  case update =>
    simp only [Editing.category] at h
    split at h
    · cases h
    split at h
    · cases h
    cases h
    exact .of_eq rfl rfl rfl
  case hide =>
    simp only [Editing.category] at h
    split at h
    case h_3 => cases h
    all_goals
      cases h
      exact .of_eq rfl rfl rfl
  case reorder keys =>
    cases h
    refine apart_foldl fun k _ db => ?_
    split
    case h_1 => exact .of_eq rfl rfl rfl
    case h_2 => exact .refl _ _
  case delete key =>
    simp only [Editing.category] at h
    split at h
    · cases h
    cases h
    have moved := content_other now key fun f (hf : f ∈ c.db.list [.proposed, .accepted, .rejected]) =>
      content_of_mem (List.mem_filter.mp hf).left
    exact moved.trans (.of_eq rfl rfl rfl)

theorem existing_eq_ok (h : c.existing id = .ok f) : f ∈ c.db.facts ∧ f.id = id := by
  rw [Editing.existing] at h
  split at h
  case h_1 found => cases h; exact Table.find?_eq_some_iff.mp found
  case h_2       => cases h

-- An edit that writes a fact with the label and the value that it has.
theorem apart_same {g : FactRow} (h : c.existing id = .ok f) (key : g.id = f.id) (same : g.content = f.content) :
    Apart c.db (c.db.write g) fun _ => False := by
  have ⟨hf, _⟩ := existing_eq_ok h
  refine ⟨⟨fun i _ _ => ?_, apart_write.lastId, apart_write.zero⟩, rfl⟩
  rw [content_write]
  split
  case isFalse  => rfl
  case isTrue h => rw [h, key, content_of_mem hf, same]; rfl

theorem apart_fact {edit : FactEdit} (h : c.fact now edit = .ok c') :
    Apart c.db c'.db fun i => edit.rewrites = some i := by
  cases edit
  case add =>
    have ⟨⟨db, id⟩, inserted, h⟩ := Except.bind_eq_ok.mp h
    cases h
    have ⟨apart, _⟩ := apart_insert inserted
    have ⟨chosen, _⟩ := insert_eq_ok inserted
    refine ⟨⟨fun i hi _ => apart.content i hi ?_, apart.lastId, apart.zero⟩, apart.changes⟩
    rintro rfl
    exact Nat.not_succ_le_self _ (chosen.le.trans hi)
  case update id fields =>
    have ⟨old, there, h⟩ := Except.bind_eq_ok.mp h
    cases h
    exact apart_write.mono fun i hi => congrArg some ((existing_eq_ok there).right.symm.trans hi.symm)
  case decide =>
    have ⟨old, there, h⟩ := Except.bind_eq_ok.mp h
    cases h
    exact Apart.mono (apart_same there (by exact rfl) (by exact rfl)) fun _ => False.elim
  case delete id =>
    cases h
    exact apart_delete.mono fun i hi => congrArg some hi.symm
  case share =>
    have ⟨old, there, h⟩ := Except.bind_eq_ok.mp h
    cases h
    exact Apart.mono (apart_same there (by exact rfl) (by exact rfl)) fun _ => False.elim

theorem apart_foldlM_db {α : Type u} {f : Editing → α → Except String Editing} {as : List α} {p : FactId → Prop}
    (h : as.foldlM f c = .ok c') (each : ∀ a ∈ as, ∀ c c', f c a = .ok c' → Apart c.db c'.db p) : Apart c.db c'.db p :=
  List.foldlM_preserves (P := fun d : Editing => Apart c.db d.db p) h
    (fun a ha ih step => ih.trans (each a ha _ _ step)) (.refl c.db p)

theorem keeps_recordChange (h : Apart db db' p) : Keeps db (db'.recordChange reason before after).1 p :=
  ⟨fun i hi hp => (content_congr rfl).trans (h.content i hi hp), h.lastId, fun zero => (content_congr rfl).trans (h.zero zero)⟩

theorem mem_recordChange {c : Change} (h : c ∈ (db.recordChange reason before after).1.changes) :
    c ∈ db.changes ∨ c.before = before ∧ c.after = after := by
  rcases List.mem_cons.mp (List.mem_filter.mp h).left with rfl | h
  · exact .inr ⟨rfl, rfl⟩
  · exact .inl h

-- Edits change what a fact says when they update or delete it, and what they record has no other store's side.
theorem applyFacts_eq_ok [Letters] {r : Db × ChangeId} (h : db.applyFacts edits categoryEdits reason now = .ok r) :
    Keeps db r.1 (fun i => ∃ e ∈ edits, e.rewrites = some i) ∧
    ∀ c ∈ r.1.changes, c ∈ db.changes ∨ c.before.globalFacts = [] ∧ c.after.globalFacts = [] := by
  have ⟨c₁, h₁, h⟩ := Except.bind_eq_ok.mp h
  have ⟨c₂, h₂, h⟩ := Except.bind_eq_ok.mp h
  split at h
  · cases h
  cases h
  have categories := apart_foldlM_db (p := fun _ => False) h₁ fun _ _ _ _ step => apart_category step
  have facts := apart_foldlM_db h₂ fun e he _ _ step =>
    (apart_fact step).mono (q := fun i => ∃ e ∈ edits, e.rewrites = some i) fun i hi => ⟨e, he, hi⟩
  have apart := (categories.mono fun _ => False.elim).trans facts
  refine ⟨keeps_recordChange apart, fun c hc => (mem_recordChange hc).imp (apart.changes ▸ ·) ?_⟩
  rintro ⟨before, after⟩
  rw [before, after]
  exact ⟨rfl, rfl⟩

-- The copy that a move makes is a new fact that says the same.
theorem copyFact_eq_ok {f : FactRow} {moved : FactRow × List FactEvidence} {b a : Option CategoryRow}
    (h : db.copyFact target f quotes category now = .ok (db', moved, b, a)) :
    Apart db db' (fun _ => False) ∧ moved.1.id = db.lastId + 1 ∧ moved.1.id ≤ db'.lastId ∧
    db'.content moved.1.id = some f.content ∧ moved.1.content = f.content := by
  rw [copyFact] at h
  split at h
  · cases h
  have ⟨⟨db₁, id⟩, inserted, h⟩ := Except.bind_eq_ok.mp h
  cases h
  have ⟨apart, written, le⟩ := apart_insert inserted
  have ⟨chosen, _, new, _⟩ := insert_eq_ok inserted
  have copied : Apart db (db.withCategory category) fun _ => False := by
    cases category
    case none   => exact .refl _ _
    case some c =>
      rw [withCategory]
      split
      case isTrue  => exact .of_eq rfl rfl rfl
      case isFalse => exact .refl _ _
  have last : (db.withCategory category).lastId = db.lastId := by
    cases category
    case none   => rfl
    case some c => rw [withCategory]; split <;> rfl
  have id_eq : id = db.lastId + 1 := last ▸ chosen.symm
  have fresh : Apart db db₁ fun _ => False := by
    refine ⟨⟨fun i hi _ => ?_, copied.lastId.trans apart.lastId, apart.zero ∘ copied.zero⟩,
      apart.changes.trans copied.changes⟩
    refine (apart.content i (hi.trans copied.lastId) ?_).trans (copied.content i hi fun h => h)
    rintro rfl
    exact Nat.not_succ_le_self _ (id_eq ▸ hi)
  split
  case isTrue =>
    have get : (db₁.addEvidence id quotes).get id = db₁.get id := rfl
    rw [get, new]
    exact ⟨fresh.trans (.of_eq rfl rfl rfl), id_eq, le, (content_congr rfl).trans written, rfl⟩
  case isFalse =>
    rw [new]
    exact ⟨fresh, id_eq, le, written, rfl⟩

theorem gone_id (db : Db) (f : FactRow) (quotes : List FactEvidence) : (db.gone f quotes).1.id = f.id := by
  rw [gone]
  split
  case h_1 there => exact Table.find?_key_eq there
  case h_2       => rfl

theorem gone_content (h : ∀ lv, db.content f.id = some lv → lv = f.content) (quotes : List FactEvidence) :
    (db.gone f quotes).1.content = f.content := by
  rw [gone]
  split
  case h_1 there => exact h _ (by rw [content, there]; rfl)
  case h_2       => rfl

-- The account's side of a move: the row goes when the fact does.
theorem keeps_recordMove (target : Scope) {f : FactRow} {moved : FactRow × List FactEvidence} {b a : Option CategoryRow} :
    Keeps db (db.recordMove target f quotes moved b a) (fun i => target = .global ∧ i = f.id) := by
  cases target
  case account => exact keeps_recordChange (.refl db _)
  case global  =>
    exact keeps_recordChange (apart_delete.mono fun i hi => ⟨rfl, hi.trans (gone_id db f quotes)⟩)

theorem content_recordMove {f : FactRow} {moved : FactRow × List FactEvidence} {b a : Option CategoryRow} :
    (db.recordMove .global f quotes moved b a).content f.id = none := by
  have same : (db.recordMove .global f quotes moved b a).content f.id = (db.delete (db.gone f quotes).1.id).content f.id :=
    content_congr rfl
  rw [same, gone_id, content_delete, if_pos rfl]

end Edits

end Kaluta.Facts
