import Kaluta.Guide.Decide

-- The numbering of entries, and what writing them leaves as it was: proposals, and the log of changes.
namespace Kaluta.Guide

namespace Db

-- No entry has an id that was not given out.
def Numbered (db : Db) : Prop :=
  ∀ e ∈ db.entries, e.id ≤ db.lastEntryId

structure Beside (db db' : Db) : Prop where
  proposals : db'.proposals = db.proposals
  pairs     : db'.pairs = db.pairs
  changes   : db'.changes = db.changes
  grows     : db.lastEntryId ≤ db'.lastEntryId
  numbered  : db.Numbered → db'.Numbered

variable {db db' : Db} {id : EntryId}

namespace Beside

theorem refl (db : Db) : Beside db db :=
  ⟨rfl, rfl, rfl, le_rfl, fun h => h⟩

theorem trans {db₁ db₂ db₃ : Db} (h₁ : Beside db₁ db₂) (h₂ : Beside db₂ db₃) : Beside db₁ db₃ where
  proposals := h₂.proposals.trans h₁.proposals
  pairs     := h₂.pairs.trans h₁.pairs
  changes   := h₂.changes.trans h₁.changes
  grows     := h₁.grows.trans h₂.grows
  numbered  := fun h => h₂.numbered (h₁.numbered h)

theorem of_ids (proposals : db'.proposals = db.proposals) (pairs : db'.pairs = db.pairs)
    (changes : db'.changes = db.changes) (last : db'.lastEntryId = db.lastEntryId)
    (ids : ∀ e' ∈ db'.entries, ∃ e ∈ db.entries, e.id = e'.id) : Beside db db' := by
  refine ⟨proposals, pairs, changes, last.ge, fun h e' he' => ?_⟩
  have ⟨e, he, eq⟩ := ids e' he'
  exact eq ▸ last ▸ h e he

theorem of_entries (proposals : db'.proposals = db.proposals) (pairs : db'.pairs = db.pairs)
    (changes : db'.changes = db.changes) (last : db'.lastEntryId = db.lastEntryId) (entries : db'.entries = db.entries) :
    Beside db db' :=
  of_ids proposals pairs changes last fun e he => ⟨e, entries ▸ he, rfl⟩

theorem update {p : EntryRow → Bool} {f : EntryRow → EntryRow} (hf : ∀ e, (f e).id = e.id)
    (proposals : db'.proposals = db.proposals) (pairs : db'.pairs = db.pairs) (changes : db'.changes = db.changes)
    (last : db'.lastEntryId = db.lastEntryId) (entries : db'.entries = db.entries.update p f hf) : Beside db db' := by
  refine of_ids proposals pairs changes last fun e' he' => ?_
  rcases Table.mem_update.mp (entries ▸ he') with ⟨he, _⟩ | ⟨e, he, _, rfl⟩
  · exact ⟨e', he, rfl⟩
  · exact ⟨e, he, (hf e).symm⟩

theorem foldl {f : Db → α → Db} {as : List α} (db : Db) (h : ∀ db a, Beside db (f db a)) : Beside db (as.foldl f db) :=
  List.foldl_preserves (fun _ _ ih => ih.trans (h _ _)) (.refl db)

end Beside

theorem beside_deleteEntry (db : Db) (id : EntryId) : Beside db (db.deleteEntry id) :=
  .of_ids rfl rfl rfl rfl fun e he => ⟨e, (Table.mem_delete.mp he).left, rfl⟩

theorem beside_writeEntry (db : Db) (e : EntryRow) : Beside db (db.writeEntry e) :=
  .update (by exact fun _ => rfl) rfl rfl rfl rfl rfl

theorem beside_addEvidence (db : Db) (id : EntryId) (quotes : List EvidenceRow) : Beside db (db.addEvidence id quotes) :=
  .update (by exact fun _ => rfl) rfl rfl rfl rfl rfl

theorem beside_raise (db : Db) (id : EntryId) (support contradict : Nat) : Beside db (db.raise id support contradict) :=
  .update (by exact fun _ => rfl) rfl rfl rfl rfl rfl

theorem beside_insertEntry (h : db.insertEntry e = .ok (db', id)) : Beside db db' ∧ id ≤ db'.lastEntryId := by
  rw [insertEntry] at h
  split at h
  case h_1 => cases h
  case h_2 entries inserted =>
    cases h
    have last : db.lastEntryId ≤ db.lastId := le_max_right _ _
    refine ⟨⟨rfl, rfl, rfl, last.trans (le_max_left _ _), fun h e he => ?_⟩, le_max_right _ _⟩
    rcases (Table.mem_insert? inserted).mp he with he | rfl
    · exact (h e he).trans (last.trans (le_max_left _ _))
    · exact le_max_right _ _

theorem beside_restoreOne {snapshots : List Snapshot} (h : restoreOne snapshots db id = .ok db') : Beside db db' := by
  rw [restoreOne] at h
  split at h
  case h_1 s _ =>
    dsimp only at h
    split at h
    case isTrue =>
      cases h
      exact ((beside_writeEntry db s.entry).trans (beside_addEvidence _ _ _)).trans (beside_raise _ _ _ _)
    case isFalse =>
      have ⟨_, written, h⟩ := Except.bind_eq_ok.mp h
      have ⟨r, inserted, eq⟩ := Except.map_eq_ok.mp written
      cases h
      subst eq
      exact ((beside_insertEntry inserted).left.trans (beside_addEvidence _ _ _)).trans (beside_raise _ _ _ _)
  case h_2 => cases h; exact beside_deleteEntry db id

theorem beside_restore {snapshots : List Snapshot} (h : db.restore ids snapshots = .ok db') : Beside db db' :=
  List.foldlM_preserves h (fun _ _ ih ok => ih.trans (beside_restoreOne ok)) (.refl db)

theorem beside_moveGuideFacts (db : Db) : Beside db db.moveGuideFacts.1 := by
  rw [moveGuideFacts]
  have deleted {rows : List EntryRow} : Beside db (rows.foldl (fun db e => db.deleteEntry e.id) db) :=
    .foldl db fun db e => beside_deleteEntry db e.id
  split
  case isTrue  => exact deleted.trans (.of_entries rfl rfl rfl rfl rfl)
  case isFalse => exact deleted

section Learning

variable [Unicode]

theorem beside_saveGroup (db : Db) (g : GroupRow) : Beside db (db.saveGroup g) := by
  rw [saveGroup]
  split <;> exact .of_entries rfl rfl rfl rfl rfl

theorem beside_mergeAudience (groups : List GroupRow) (db : Db) (a : Audience) : Beside db (db.mergeAudience groups a) := by
  rw [mergeAudience]
  split
  case h_1 =>
    dsimp only
    split
    case isTrue  => exact beside_saveGroup _ _
    case isFalse => exact .refl db
  case h_2 => exact beside_saveGroup _ _

omit [Unicode] in
theorem beside_mergeInto {target : Option EntryRow} (ok : db.mergeInto p target run of now = .ok (db', n)) :
    Beside db db' := by
  cases target
  case none =>
    have ⟨_, learned, ok⟩ := Except.bind_eq_ok.mp ok
    cases ok
    have ⟨_, inserted, ok⟩ := Except.bind_eq_ok.mp learned
    cases ok
    exact (beside_insertEntry inserted).left.trans (beside_addEvidence _ _ _)
  case some e =>
    cases ok
    split
    case isTrue  => exact .refl db
    case isFalse => exact beside_addEvidence _ _ _

theorem beside_mergeProposal {r r' : Db × Nat} (ok : mergeProposal run now r p = .ok r') : Beside r.1 r'.1 := by
  rw [mergeProposal] at ok
  split at ok
  case h_1 accepted _ =>
    have against := beside_addEvidence r.1 accepted.id (p.evidence.map ({ · with contradicts := true }))
    by_cases same : toLowercase p.fields.statement = toLowercase accepted.statement
    case pos =>
      simp only [if_pos same] at ok
      cases ok
      exact against
    case neg =>
      simp only [if_neg same] at ok
      obtain ⟨_, merged, ok⟩ := Except.bind_eq_ok.mp ok
      cases ok
      exact against.trans (beside_mergeInto merged)
  case h_2 =>
    obtain ⟨_, merged, ok⟩ := Except.bind_eq_ok.mp ok
    cases ok
    exact beside_mergeInto merged

theorem beside_merge (ok : db.merge run found now = .ok (db', n)) : Beside db db' :=
  List.foldlM_preserves (P := fun r : Db × Nat => Beside db r.1) ok
    (fun _ _ ih ok => ih.trans (beside_mergeProposal ok)) (.foldl db (beside_mergeAudience db.listGroups))

end Learning

end Db

-- The entry that an edit is of; none for a new one.
def Edit.target : Edit → Option EntryId
  | .add _ _ _ _                            => none
  | .update id _ | .decide id _ | .delete id => some id

theorem Edit.target_checked [Unicode] {edit edit' : Edit} (h : edit.checked = .ok edit') : edit'.target = edit.target := by
  cases edit
  case add | update =>
    have ⟨_, _, h⟩ := Except.bind_eq_ok.mp h
    cases h
    rfl
  case decide | delete => cases h; rfl

theorem targets_checked [Unicode] {edits edits' : List Edit} (h : edits.mapM (·.checked) = .ok edits') :
    edits'.map Edit.target = edits.map Edit.target := by
  induction edits generalizing edits'
  case nil => cases h; rfl
  case cons edit edits ih =>
    rw [List.mapM_cons] at h
    have ⟨edit', h₁, h⟩ := Except.bind_eq_ok.mp h
    have ⟨edits₁, h₂, h⟩ := Except.bind_eq_ok.mp h
    cases h
    rw [List.map_cons, List.map_cons, Edit.target_checked h₁, ih h₂]

namespace Editing

variable {c c' : Editing} {id : EntryId} {edit : Edit}

theorem touch_db (c : Editing) (id : EntryId) : (c.touch id).db = c.db := by
  rw [touch]
  split <;> rfl

theorem rewrite_eq_ok {f : EntryRow → EntryRow} (h : c.rewrite id f = .ok c') :
    ∃ row, c.db.getEntry id = some row ∧ c' = { c with db := c.db.writeEntry (f row) } := by
  rw [rewrite] at h
  split at h
  case h_1 => cases h
  case h_2 row hrow => cases h; exact ⟨row, hrow, rfl⟩

theorem beside_edit (h : c.edit now edit = .ok c') : c.db.Beside c'.db := by
  cases edit
  case add =>
    have ⟨_, inserted, h⟩ := Except.bind_eq_ok.mp h
    cases h
    exact (Db.beside_insertEntry inserted).left
  case update id fields =>
    have ⟨row, _, eq⟩ := rewrite_eq_ok h
    exact eq ▸ touch_db c id ▸ Db.beside_writeEntry _ _
  case decide id status =>
    have ⟨row, _, eq⟩ := rewrite_eq_ok h
    exact eq ▸ touch_db c id ▸ Db.beside_writeEntry _ _
  case delete id =>
    cases h
    exact touch_db c id ▸ Db.beside_deleteEntry _ _

-- The entries with an id above one that was given out before: an edit adds to them if it is a new entry.
theorem count_edit {last : EntryId} (h : c.edit now edit = .ok c') (hl : last ≤ c.db.lastEntryId)
    (old : ∀ id ∈ edit.target, id ≤ last) :
    c'.db.entries.count (last < ·.id) = c.db.entries.count (last < ·.id) + [edit.target].count none := by
  have written (e : EntryRow) : (c.db.writeEntry e).entries.count (last < ·.id) = c.db.entries.count (last < ·.id) := by
    rw [Db.writeEntry, Table.count_update]
    exact Table.count_congr fun _ _ => by split <;> rfl
  cases edit
  case add =>
    obtain ⟨⟨db, id⟩, inserted, h⟩ := Except.bind_eq_ok.mp h
    cases h
    rw [Db.insertEntry] at inserted
    split at inserted
    case h_1 => cases inserted
    case h_2 entries ok =>
      cases inserted
      obtain ⟨_, eq⟩ := Table.insert?_eq_some.mp ok
      have new : last < c.db.lastId + 1 := Nat.lt_succ_of_le (hl.trans (le_max_right _ _))
      rw [← eq, Table.count_insert]
      simp [Edit.target, new]
  case update id fields =>
    obtain ⟨row, _, eq⟩ := rewrite_eq_ok h
    rw [eq]
    simpa [Edit.target, touch_db] using written _
  case decide id status =>
    obtain ⟨row, _, eq⟩ := rewrite_eq_ok h
    rw [eq]
    simpa [Edit.target, touch_db] using written _
  case delete id =>
    cases h
    rw [touch_db, Db.deleteEntry, Table.count_delete]
    simp only [Edit.target, List.count_singleton, reduceCtorEq, beq_iff_eq, if_false, Nat.add_zero]
    refine Table.count_congr fun e _ => ?_
    by_cases eq : e.id = id
    · have := old id rfl
      simp [eq, this]
    · simp [eq]

theorem count_edits {last : EntryId} {edits : List Edit} (h : edits.foldlM (Editing.edit now) c = .ok c')
    (hl : last ≤ c.db.lastEntryId) (old : ∀ edit ∈ edits, ∀ id ∈ edit.target, id ≤ last) :
    c'.db.entries.count (last < ·.id) = c.db.entries.count (last < ·.id) + (edits.map Edit.target).count none := by
  induction edits generalizing c
  case nil => cases List.foldlM_nil_eq_ok.mp h; rfl
  case cons edit edits ih =>
    have ⟨c₁, h₁, h⟩ := List.foldlM_cons_eq_ok.mp h
    have first := count_edit h₁ hl (old edit List.mem_cons_self)
    have rest := ih h (hl.trans (beside_edit h₁).grows) fun e he => old e (List.mem_cons_of_mem _ he)
    rw [rest, first, List.map_cons, List.count_cons, List.count_cons, List.count_nil]
    omega

end Editing

end Kaluta.Guide
