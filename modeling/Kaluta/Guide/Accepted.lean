import Kaluta.Guide.Decided

-- What accepting proposals together makes of an entry, in whatever order they are named.
namespace Kaluta.Guide

-- What an edit of an entry makes of it.
def Edit.effect (now : Millis) : Edit → EntryRow → Option EntryRow
  | .add _ _ _ _, row      => some row
  | .update _ fields, row  => some { toRow fields row with updatedAt := now }
  | .decide _ status, row  => some { row with status, decidedAt := Editing.decidedAt status now, updatedAt := now }
  | .delete _, _           => none

namespace Editing

variable {c c' : Editing} {id : EntryId} {edit : Edit} {edits : List Edit}

theorem getEntry_writeEntry {db : Db} (row : EntryRow) (h : db.getEntry row.id = some old) (id : EntryId) :
    (db.writeEntry row).getEntry id = if row.id = id then some row else db.getEntry id := by
  split
  case isTrue eq =>
    have written : row ∈ (db.writeEntry row).entries := by
      rw [Db.writeEntry, Table.mem_update]
      exact .inr ⟨old, Table.find?_mem h, decide_eq_true (Table.find?_key_eq h), by rw [Table.find?_key_eq h]⟩
    exact Table.find?_eq_some_iff.mpr ⟨written, eq⟩
  case isFalse ne =>
    exact Table.find?_eq_of_mem_iff fun e he => by
      rw [Db.writeEntry, Table.mem_update]
      constructor
      case mp =>
        rintro (⟨he, _⟩ | ⟨e₀, _, eq, rfl⟩)
        · exact he
        · exact absurd ((of_decide_eq_true eq).symm.trans he) ne
      case mpr => exact fun hmem => .inl ⟨hmem, decide_eq_false fun eq => ne (eq.symm.trans he)⟩

theorem getEntry_rewrite {f : EntryRow → EntryRow} (h : c.rewrite id' f = .ok c') (hf : ∀ row, (f row).id = row.id) :
    c'.db.getEntry id = if id' = id then (c.db.getEntry id).map f else c.db.getEntry id := by
  obtain ⟨row, found, rfl⟩ := rewrite_eq_ok h
  have key : (f row).id = id' := (hf row).trans (Table.find?_key_eq found)
  have written := getEntry_writeEntry (f row) (key.symm ▸ found) id
  rw [key] at written
  refine written.trans ?_
  split
  case isTrue eq => rw [← eq, found, Option.map_some]
  case isFalse   => rfl

-- An edit is of one entry, and leaves those that were there otherwise.
theorem getEntry_edit (h : c.edit now edit = .ok c') (hid : edit.target = none → id ≤ c.db.lastEntryId) :
    c'.db.getEntry id = if edit.target = some id then (c.db.getEntry id).bind (edit.effect now) else c.db.getEntry id := by
  cases edit
  case add fields status source origin =>
    obtain ⟨⟨db, new⟩, inserted, h⟩ := Except.bind_eq_ok.mp h
    cases h
    rw [Db.insertEntry] at inserted
    split at inserted
    case h_1 => cases inserted
    case h_2 entries ok =>
      cases inserted
      have none_of_it : (Edit.add fields status source origin).target ≠ some id := (by rintro ⟨⟩)
      rw [if_neg none_of_it]
      refine Table.find?_eq_of_mem_iff fun e he => ?_
      rw [Table.mem_insert? ok, or_iff_left]
      rintro rfl
      have le : id ≤ c.db.lastId := (hid rfl).trans (le_max_right _ _)
      simp only [if_true] at he
      exact absurd he.symm (Nat.lt_succ_of_le le).ne
  case update id' fields =>
    have written : c'.db.getEntry id = _ := getEntry_rewrite h fun _ => rfl
    rw [written, touch_db]
    simp only [Edit.target, Option.some.injEq]
    cases c.db.getEntry id <;> rfl
  case decide id' status =>
    have written : c'.db.getEntry id = _ := getEntry_rewrite h fun _ => rfl
    rw [written, touch_db]
    simp only [Edit.target, Option.some.injEq]
    cases c.db.getEntry id <;> rfl
  case delete id' =>
    cases h
    simp only [touch_db, Edit.target, Option.some.injEq]
    split
    case isTrue eq =>
      subst eq
      refine (Table.find?_eq_none_iff.mpr fun e he eq => ?_).trans (by cases c.db.getEntry id' <;> rfl)
      exact absurd (of_decide_eq_false (Table.mem_delete.mp he).right) (not_not.mpr eq)
    case isFalse ne =>
      exact Table.find?_eq_of_mem_iff fun e he => by
        rw [Db.deleteEntry, Table.mem_delete]
        exact and_iff_left (decide_eq_false fun eq => ne (eq.symm.trans he))

-- What a list of edits makes of an entry is what those of it do, one after another.
theorem getEntry_edits (h : edits.foldlM (Editing.edit now) c = .ok c')
    (hid : (∃ edit ∈ edits, edit.target = none) → id ≤ c.db.lastEntryId) :
    c'.db.getEntry id =
      (edits.filter (·.target = some id)).foldl (fun row edit => row.bind (edit.effect now)) (c.db.getEntry id) := by
  induction edits generalizing c
  case nil => cases List.foldlM_nil_eq_ok.mp h; rfl
  case cons edit edits ih =>
    have ⟨c₁, h₁, h⟩ := List.foldlM_cons_eq_ok.mp h
    have first : edit.target = none → id ≤ c.db.lastEntryId := fun add => hid ⟨edit, List.mem_cons_self, add⟩
    have rest : (∃ edit ∈ edits, edit.target = none) → id ≤ c₁.db.lastEntryId := fun ⟨e, he, add⟩ =>
      (hid ⟨e, List.mem_cons_of_mem _ he, add⟩).trans (beside_edit h₁).grows
    rw [ih h rest, getEntry_edit h₁ first]
    by_cases eq : edit.target = some id <;> simp [eq]

end Editing

theorem mapM_checked_filter [Unicode] {edits checked : List Edit} (h : edits.mapM (·.checked) = .ok checked)
    (q : Option EntryId → Bool) :
    (edits.filter (q ·.target)).mapM (·.checked) = .ok (checked.filter (q ·.target)) := by
  induction edits generalizing checked
  case nil => cases h; rfl
  case cons edit edits ih =>
    rw [List.mapM_cons] at h
    have ⟨edit', h₁, h⟩ := Except.bind_eq_ok.mp h
    have ⟨edits₁, h₂, h⟩ := Except.bind_eq_ok.mp h
    cases h
    have target : edit'.target = edit.target := Edit.target_checked h₁
    cases hq : q edit.target
    case false =>
      simp only [List.filter_cons, target, hq, Bool.false_eq_true, if_false]
      exact ih h₂
    case true  =>
      simp only [List.filter_cons, target, hq, if_true, List.mapM_cons, h₁, ih h₂]
      rfl

-- Two changes that edit an entry alike leave it alike.
theorem getEntry_applied [Unicode] {db db₁ db₂ : Db} {id : EntryId} {edits₁ edits₂ : List Edit} {step₁ step₂ : Option AnalysisStep}
    (h₁ : db.applyEditsWith edits₁ reason₁ step₁ now = .ok (db₁, change₁))
    (h₂ : db.applyEditsWith edits₂ reason₂ step₂ now = .ok (db₂, change₂)) (hid : id ≤ db.lastEntryId)
    (same : edits₁.filter (·.target = some id) = edits₂.filter (·.target = some id)) :
    db₁.getEntry id = db₂.getEntry id := by
  have ⟨checked₁, c₁, hc₁, edited₁, _, entries₁, _⟩ := Db.applyEditsWith_eq_ok h₁
  have ⟨checked₂, c₂, hc₂, edited₂, _, entries₂, _⟩ := Db.applyEditsWith_eq_ok h₂
  have eq : checked₁.filter (·.target = some id) = checked₂.filter (·.target = some id) := by
    have f₁ := mapM_checked_filter hc₁ fun t => t = some id
    have f₂ := mapM_checked_filter hc₂ fun t => t = some id
    rw [same, f₂] at f₁
    exact (Except.ok.inj f₁).symm
  have e₁ : db₁.getEntry id = c₁.db.getEntry id := by rw [Db.getEntry, Db.getEntry, entries₁]
  have e₂ : db₂.getEntry id = c₂.db.getEntry id := by rw [Db.getEntry, Db.getEntry, entries₂]
  rw [e₁, e₂, Editing.getEntry_edits edited₁ fun _ => hid,
    Editing.getEntry_edits edited₂ fun _ => hid, eq]

-- The changes to an entry among proposals.
def changesOf (rows : List ProposalRow) (id : EntryId) : List ProposalRow :=
  rows.filter fun p => p.op ≠ .add ∧ p.entryId = some id

def amendAll (changes : List ProposalRow) (fields : Option Fields) : Option Fields :=
  changes.foldl (fun fields p => amend p fields) fields

-- Of the changes to one entry, no two set the same to different values, unless the entry is removed.
def Agree (rows : List ProposalRow) : Prop :=
  ∀ p ∈ rows, ∀ q ∈ rows, p.entryId = q.entryId → (∃ r ∈ rows, r.entryId = p.entryId ∧ r.op = .remove) ∨
    (p.op = .edit → q.op = .edit → p.statement = q.statement ∧ ∀ k ∈ p.kind, ∀ k' ∈ q.kind, k = k') ∧
    (p.op = .rescope → q.op = .rescope → p.scope = q.scope)

section Slots

variable {entries : List EntryRow} {rows : List ProposalRow} {id : EntryId}

theorem changesOf_append (rows : List ProposalRow) (p : ProposalRow) (id : EntryId) :
    changesOf (rows ++ [p]) id = if p.op ≠ .add ∧ p.entryId = some id then changesOf rows id ++ [p] else changesOf rows id := by
  rw [changesOf, List.filter_append, ← changesOf]
  split
  case isTrue h  => simp only [List.filter_cons, List.filter_nil, decide_eq_true h, if_true]
  case isFalse h => simp only [List.filter_cons, List.filter_nil, decide_eq_false h, Bool.false_eq_true, if_false, List.append_nil]

-- What becomes of an entry that has changes: all of them, in the order of the proposals.
theorem find?_slots : (decision rows true entries).slots.find? id = (entries.find? (·.id = id)).bind fun e =>
    if changesOf rows id = [] then none else some (id, amendAll (changesOf rows id) (some e.toFields)) := by
  induction rows using List.reverseRecOn
  case nil => cases entries.find? (·.id = id) <;> rfl
  case append_singleton rows p ih =>
    rw [decision_append, Decision.consider, changesOf_append, if_neg (by simp)]
    split
    case isTrue add => rw [if_neg fun h => h.left add, ih]
    case isFalse other =>
      split
      case h_1 gone =>
        by_cases eq : p.entryId = some id
        case pos =>
          rw [eq, Option.bind_some] at gone
          rw [ih, gone, Option.bind_none, Option.bind_none]
        case neg => rw [if_neg fun h => eq h.right, ih]
      case h_2 current found =>
        obtain ⟨id', hp, found⟩ := Option.bind_eq_some_iff.mp found
        have key : current.id = id' := of_decide_eq_true (List.find?_eq_some_iff_append.mp found).left
        rw [Table.find?_upsert, hp]
        by_cases eq : id' = id
        case pos =>
          subst eq
          rw [if_pos key.symm, if_pos ⟨other, rfl⟩, ih, found, Option.bind_some, Option.bind_some]
          by_cases first : changesOf rows id' = []
          case pos => simp [first, key, amendAll]
          case neg => simp [first, amendAll]
        case neg =>
          rw [if_neg fun h => eq (key.symm.trans h.symm), if_neg fun h => eq (Option.some.inj h.right), ih]

theorem amendAll_none (changes : List ProposalRow) : amendAll changes none = none := by
  induction changes
  case nil => rfl
  case cons p changes ih => exact ih

-- A removal wins.
theorem amendAll_removed {changes : List ProposalRow} (h : ∃ p ∈ changes, p.op = .remove) (fields : Option Fields) :
    amendAll changes fields = none := by
  induction changes generalizing fields
  case nil => obtain ⟨_, h, _⟩ := h; cases h
  case cons p changes ih =>
    obtain ⟨q, hq, removed⟩ := h
    rw [amendAll, List.foldl_cons, ← amendAll]
    rcases List.mem_cons.mp hq with rfl | hq
    · have gone : amend q fields = none := by
        cases fields
        case none   => rfl
        case some f => rw [amend, removed]
      rw [gone, amendAll_none]
    · exact ih ⟨q, hq, removed⟩ _

theorem amend_comm {p q : ProposalRow} (fields : Option Fields)
    (edits : p.op = .edit → q.op = .edit → p.statement = q.statement ∧ ∀ k ∈ p.kind, ∀ k' ∈ q.kind, k = k')
    (rescopes : p.op = .rescope → q.op = .rescope → p.scope = q.scope) :
    amend q (amend p fields) = amend p (amend q fields) := by
  cases fields
  case none => rfl
  case some f =>
    rcases hp : p.op <;> rcases hq : q.op <;> simp only [amend, hp, hq]
    case edit.edit =>
      have ⟨statement, kinds⟩ := edits hp hq
      rw [statement]
      rcases hk : p.kind with _ | k <;> rcases hk' : q.kind with _ | k'
      case some.some => rw [kinds k hk k' hk']
      all_goals rfl
    case rescope.rescope => rw [rescopes hp hq]

theorem amendAll_perm {rows rows' : List ProposalRow} (perm : rows.Perm rows') (agree : Agree rows) (id : EntryId)
    (fields : Option Fields) : amendAll (changesOf rows id) fields = amendAll (changesOf rows' id) fields := by
  have changes : (changesOf rows id).Perm (changesOf rows' id) := perm.filter _
  have of_mem {p} (hp : p ∈ changesOf rows id) : p ∈ rows ∧ p.entryId = some id :=
    have ⟨hmem, h⟩ := List.mem_filter.mp hp
    ⟨hmem, (of_decide_eq_true h).right⟩
  by_cases removed : ∃ p ∈ changesOf rows id, p.op = .remove
  case pos =>
    have ⟨p, hp, eq⟩ := removed
    rw [amendAll_removed removed, amendAll_removed ⟨p, changes.mem_iff.mp hp, eq⟩]
  case neg =>
    refine changes.foldl_eq' (fun p hp q hq fields => ?_) fields
    have ⟨hp, idp⟩ := of_mem hp
    have ⟨hq, idq⟩ := of_mem hq
    rcases agree p hp q hq (idp.trans idq.symm) with ⟨r, hr, eq, remove⟩ | ⟨edits, rescopes⟩
    · refine absurd ⟨r, List.mem_filter.mpr ⟨hr, decide_eq_true ⟨?_, eq.trans idp⟩⟩, remove⟩ removed
      rw [remove]
      nofun
    · exact amend_comm fields edits rescopes

theorem filter_key {α κ : Type} [DecidableEq κ] {key : α → κ} (t : Table α key) (k : κ) :
    t.rows.filter (key · = k) = (t.find? k).toList := by
  obtain ⟨rows, nodup⟩ := t
  simp only [Table.find?]
  induction rows
  case nil => rfl
  case cons a rows ih =>
    obtain ⟨new, nodup⟩ := List.nodup_cons.mp nodup
    by_cases eq : key a = k
    case pos =>
      have no_other : rows.filter (key · = k) = [] :=
        List.filter_eq_nil_iff.mpr fun b hb h => new (eq ▸ of_decide_eq_true h ▸ List.mem_map_of_mem hb)
      simp [eq, no_other]
    case neg => simp [eq, ih nodup]

-- The edit that a decision makes of an entry.
theorem filter_edits (id : EntryId) : (decision rows true entries).edits.filter (·.target = some id) =
    (((decision rows true entries).slots.find? id).map Decision.slotEdit).toList := by
  have sound : (decision rows true entries).Sound true entries rows := decision_sound
  have adds : (decision rows true entries).adds.filter (·.target = some id) = [] :=
    List.filter_eq_nil_iff.mpr fun edit he h => by
      rw [sound.adds edit he] at h
      simp at h
  have target : ((fun edit : Edit => decide (edit.target = some id)) ∘ Decision.slotEdit) =
      fun slot : EntryId × Option Fields => decide (slot.1 = id) := by
    funext slot
    simp [slotEdit_target]
  have slots : ((decision rows true entries).slots.rows.insertionSort (·.1 ≤ ·.1)).filter (·.1 = id) =
      ((decision rows true entries).slots.find? id).toList := by
    have perm := (List.perm_insertionSort (·.1 ≤ ·.1) (decision rows true entries).slots.rows).filter (·.1 = id)
    rw [filter_key] at perm
    cases h : (decision rows true entries).slots.find? id
    case none   => rw [h] at perm; exact List.perm_nil.mp perm
    case some s => rw [h] at perm; exact List.perm_singleton.mp perm
  rw [Decision.edits, List.filter_append, adds, List.nil_append, List.filter_map, target, slots]
  cases (decision rows true entries).slots.find? id <;> rfl

end Slots

-- Accepting the same proposals in another order leaves every entry alike.
theorem getEntry_accepted [Unicode] {db db₁ db₂ : Db} {id : EntryId} {ids ids' : List ProposalId} (perm : ids.Perm ids')
    (agree : Agree (db.openProposals ids)) (h₁ : db.decideAnalysisProposals ids true now = .ok (db₁, change₁))
    (h₂ : db.decideAnalysisProposals ids' true now = .ok (db₂, change₂)) (hid : id ≤ db.lastEntryId) :
    db₁.getEntry id = db₂.getEntry id := by
  have written {ids db'} {change : GuideChange} (h : db.decideAnalysisProposals ids true now = .ok (db', change)) :
      ∃ reason step, db.applyEditsWith (decision (db.openProposals ids) true db.accepted).edits reason step now =
        .ok (db', change) := by
    rw [Db.decideAnalysisProposals] at h
    split at h
    case isTrue => cases h
    case isFalse =>
      split at h
      case h_1 => cases h
      case h_2 d hd =>
        rw [Db.decideRows] at hd
        dsimp only at hd
        split at hd
        case isTrue  => cases hd
        case isFalse => cases hd; exact ⟨_, _, h⟩
  obtain ⟨_, _, h₁⟩ := written h₁
  obtain ⟨_, _, h₂⟩ := written h₂
  have rows : (db.openProposals ids).Perm (db.openProposals ids') := (perm.filterMap _).filter _
  have none_iff : changesOf (db.openProposals ids) id = [] ↔ changesOf (db.openProposals ids') id = [] :=
    have changes : (changesOf (db.openProposals ids) id).Perm (changesOf (db.openProposals ids') id) := rows.filter _
    ⟨fun h => List.nil_perm.mp (h ▸ changes), fun h => List.perm_nil.mp (h ▸ changes)⟩
  refine getEntry_applied h₁ h₂ hid ?_
  rw [filter_edits, filter_edits, find?_slots, find?_slots]
  simp only [none_iff, amendAll_perm rows agree]

section Repeated

-- A new entry that reviews propose.
def ends : ProposalRow := { op := .add, category := "B6", statement := "Sign off with 'Best'.", matchKey := "add B6" }

end Repeated

end Kaluta.Guide
