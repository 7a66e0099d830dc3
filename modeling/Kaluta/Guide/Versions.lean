import Kaluta.Guide.Change
import Kaluta.Lib.Execution

-- The newest version lists what is accepted: of each step, either it leaves that as it was, or it records a version.
namespace Kaluta.Guide

inductive Action
  | edit (edits : List Edit) (reason : String) (step : Option AnalysisStep) (now : Millis)
  | undo (id : ChangeId)
  | redo (id : ChangeId)
  | learn (run : RunId) (found : Found) (now : Millis)
  -- A group is renamed or merged in transactions of their own: its entries are rescoped, then the groups change.
  | rescope (old : String) (new : Option String) (now : Millis)
  | saveGroup (g : GroupRow)
  | renameGroup (id : GroupId) (name : String)
  | deleteGroup (id : GroupId)
  | moveFacts

-- A call that fails leaves everything as it was.
def Db.step [Unicode] (db : Db) : Action → Option Db
  | .edit edits reason step now => (db.applyEditsWith edits reason step now).toOption.map (·.1)
  | .undo id                    => (db.replayChange id true).toOption
  | .redo id                    => (db.replayChange id false).toOption
  | .learn run found now        => (db.merge run found now).toOption.map (·.1)
  | .rescope old new now        => (db.rescopeGroup old new now).toOption.map (·.1)
  | .saveGroup g                => some (db.saveGroup g)
  | .renameGroup id name        => (db.renameGroup id name).toOption
  | .deleteGroup id             => some (db.deleteGroup id)
  | .moveFacts                  => some db.moveGuideFacts.1

def guide [Unicode] : System Db Action where
  Start db := db = {}
  step     := Db.step

-- What a version is about: an entry, and all of it that the user sets.
def EntryRow.content (e : EntryRow) : EntryId × Fields :=
  (e.id, e.toFields)

namespace Db

-- The entries that the newest version lists; none before the first.
def newest (db : Db) : List EntryRow :=
  (db.versions.head?.map (·.entries)).getD []

def Lists (db : Db) (content : EntryId × Fields) : Prop :=
  ∃ e ∈ db.entries, e.status = .accepted ∧ e.content = content

theorem mem_accepted {db : Db} : e ∈ db.accepted ↔ e ∈ db.entries ∧ e.status = .accepted := by
  simp [accepted, listEntries, Table.mem_rows]

theorem mem_listed {db : Db} : content ∈ db.accepted.map EntryRow.content ↔ db.Lists content := by
  simp only [List.mem_map, mem_accepted, Lists, and_assoc]

theorem nodup_listed (db : Db) : (db.accepted.map EntryRow.content).Nodup := by
  have keys : (db.accepted.map (·.id)).Nodup := by
    have rows : (db.entries.rows.map (·.id)).Nodup := db.entries.nodup
    have sorted := ((List.perm_insertionSort inOrder db.entries.rows).map (·.id)).nodup_iff.mpr rows
    exact sorted.sublist (List.filter_sublist.map _)
  refine List.Nodup.of_map Prod.fst ?_
  rw [List.map_map]
  exact keys

-- The accepted guide of one state is that of another, and so are the versions.
structure SameGuide (db db' : Db) : Prop where
  versions : db'.versions = db.versions
  lists    : ∀ content, db'.Lists content ↔ db.Lists content

def Current (db : Db) : Prop :=
  (db.newest.map EntryRow.content).Perm (db.accepted.map EntryRow.content)

theorem SameGuide.refl (db : Db) : SameGuide db db :=
  ⟨rfl, fun _ => .rfl⟩

theorem SameGuide.trans {db₁ db₂ db₃ : Db} (h₁ : SameGuide db₁ db₂) (h₂ : SameGuide db₂ db₃) : SameGuide db₁ db₃ :=
  ⟨h₂.versions.trans h₁.versions, fun content => (h₂.lists content).trans (h₁.lists content)⟩

theorem SameGuide.of_eq {db db' : Db} (versions : db'.versions = db.versions) (entries : db'.entries = db.entries) :
    SameGuide db db' :=
  ⟨versions, fun _ => by rw [Lists, Lists, entries]⟩

theorem Current.same {db db' : Db} (h : db.Current) (same : SameGuide db db') : db'.Current := by
  have accepted : (db.accepted.map EntryRow.content).Perm (db'.accepted.map EntryRow.content) :=
    (List.perm_ext_iff_of_nodup (nodup_listed db) (nodup_listed db')).mpr fun content => by
      rw [mem_listed, mem_listed, same.lists]
  rw [Current, newest, same.versions]
  exact h.trans accepted

theorem current_recordVersion (db : Db) (reason : String) : (db.recordVersion reason).1.Current :=
  .refl _

variable {db db' : Db} {id : EntryId}

-- An update that leaves content and status as they are.
theorem SameGuide.update {p : EntryRow → Bool} {f : EntryRow → EntryRow} (hf : ∀ e, (f e).id = e.id)
    (entries : db'.entries = db.entries.update p f hf) (versions : db'.versions = db.versions)
    (fields : ∀ e, (f e).toFields = e.toFields) (status : ∀ e, (f e).status = e.status) : SameGuide db db' := by
  refine ⟨versions, fun content => ?_⟩
  have content_eq (e) : (f e).content = e.content := by rw [EntryRow.content, EntryRow.content, fields, hf]
  rw [Lists, Lists, entries]
  constructor
  case mp =>
    rintro ⟨e, updated, accepted, rfl⟩
    rcases Table.mem_update.mp updated with ⟨he, _⟩ | ⟨e₀, he₀, _, rfl⟩
    · exact ⟨e, he, accepted, rfl⟩
    · exact ⟨e₀, he₀, status e₀ ▸ accepted, (content_eq e₀).symm⟩
  case mpr =>
    rintro ⟨e, he, accepted, rfl⟩
    cases hp : p e
    case false => exact ⟨e, Table.mem_update.mpr (.inl ⟨he, hp⟩), accepted, rfl⟩
    case true  =>
      exact ⟨f e, Table.mem_update.mpr (.inr ⟨e, he, hp, rfl⟩), (status e).trans accepted, content_eq e⟩

theorem sameGuide_addEvidence (db : Db) (id : EntryId) (quotes : List EvidenceRow) :
    SameGuide db (db.addEvidence id quotes) :=
  .update (by exact fun _ => rfl) rfl rfl (fun _ => rfl) fun _ => rfl

theorem insertEntry_eq_ok (h : db.insertEntry e = .ok (db', id)) :
    (∀ e ∈ db.entries, e.id ≠ id) ∧ (∀ e', e' ∈ db'.entries ↔ e' ∈ db.entries ∨ e' = { e with id }) ∧
      db'.versions = db.versions := by
  rw [insertEntry] at h
  split at h
  case h_1 => cases h
  case h_2 entries inserted =>
    cases h
    have ⟨new, eq⟩ := Table.insert?_eq_some.mp inserted
    exact ⟨new, fun _ => Table.mem_insert? inserted, rfl⟩

-- A proposal is none of the accepted guide.
theorem sameGuide_insertEntry (h : db.insertEntry e = .ok (db', id)) (proposed : e.status ≠ .accepted) :
    SameGuide db db' := by
  have ⟨_, rows, versions⟩ := insertEntry_eq_ok h
  refine ⟨versions, fun content => ?_⟩
  constructor
  case mp =>
    rintro ⟨e', he', accepted, rfl⟩
    rcases (rows e').mp he' with he' | rfl
    · exact ⟨e', he', accepted, rfl⟩
    · exact absurd accepted proposed
  case mpr => exact fun ⟨e', he', rest⟩ => ⟨e', (rows e').mpr (.inl he'), rest⟩

end Db

namespace Editing

-- What a change in the making has done to the entries it started from: those that it did not touch are as they were,
-- and it noted those that it did.
structure From (db : Db) (c : Editing) : Prop where
  versions : c.db.versions = db.versions
  kept     : ∀ id ∉ c.ids, c.db.getEntry id = db.getEntry id
  noted    : ∀ id ∈ c.ids, ∀ e, db.getEntry id = some e → ∃ s ∈ c.before, s.entry = e

variable {db : Db} {c c' : Editing} {id : EntryId}

theorem from_start (db : Db) : From db { db } :=
  ⟨rfl, fun _ _ => rfl, fun _ h => absurd h List.not_mem_nil⟩

theorem mem_touch (c : Editing) (id : EntryId) : id ∈ (c.touch id).ids := by
  rw [touch]
  split
  case isTrue h  => exact h
  case isFalse h => exact List.mem_append_right _ (List.mem_singleton_self id)

theorem From.touch (h : From db c) (id : EntryId) : From db (c.touch id) := by
  rw [Editing.touch]
  split
  case isTrue => exact h
  case isFalse untouched =>
    refine ⟨h.versions, fun id' hid' => h.kept id' fun hid => hid' (List.mem_append_left _ hid), fun id' hid' e he => ?_⟩
    rcases List.mem_append.mp hid' with hid' | hid'
    · have ⟨s, hs, eq⟩ := h.noted id' hid' e he
      exact ⟨s, List.mem_append_left _ hs, eq⟩
    · obtain rfl := List.mem_singleton.mp hid'
      have now : c.db.getEntry id' = some e := (h.kept id' untouched).trans he
      refine ⟨{ entry := e, evidence := c.db.evidenceOf id' }, List.mem_append_right _ ?_, rfl⟩
      rw [Db.snapshot, now]
      exact List.mem_singleton_self _

-- Writes to entries that the change has touched.
theorem From.write {db' : Db} (h : From db c) (versions : db'.versions = c.db.versions)
    (others : ∀ id ∉ c.ids, db'.getEntry id = c.db.getEntry id) : From db { c with db := db' } :=
  ⟨versions.trans h.versions, fun id hid => (others id hid).trans (h.kept id hid), h.noted⟩

theorem From.rewrite {f : EntryRow → EntryRow} (h : From db c) (hid : id ∈ c.ids) (ok : c.rewrite id f = .ok c')
    (hf : ∀ e, (f e).id = e.id) : From db c' := by
  rw [Editing.rewrite] at ok
  split at ok
  case h_1 => cases ok
  case h_2 row hrow =>
    cases ok
    refine h.write rfl fun id' hid' => ?_
    have ne : id' ≠ id := fun eq => hid' (eq ▸ hid)
    have key : (f row).id = id := (hf row).trans (Table.find?_key_eq hrow)
    exact Table.find?_eq_of_mem_iff fun e he => by
      rw [Db.writeEntry, Table.mem_update]
      simp only [key]
      constructor
      case mp =>
        rintro (⟨he, _⟩ | ⟨e₀, _, eq, rfl⟩)
        · exact he
        · exact absurd (he.symm.trans (of_decide_eq_true eq)) ne
      case mpr => exact fun hmem => .inl ⟨hmem, decide_eq_false fun eq => ne (he.symm.trans eq)⟩

theorem From.add {db' : Db} (h : From db c) (ok : c.db.insertEntry e = .ok (db', id)) :
    From db { c with db := db', ids := if id ∈ c.ids then c.ids else c.ids ++ [id] } := by
  have ⟨new, rows, versions⟩ := Db.insertEntry_eq_ok ok
  have mem_ids {id'} : id' ∈ (if id ∈ c.ids then c.ids else c.ids ++ [id]) ↔ id' ∈ c.ids ∨ id' = id := by
    split
    case isTrue hid => exact ⟨.inl, fun h => h.elim (fun h => h) (· ▸ hid)⟩
    case isFalse    => simp
  refine ⟨versions.trans h.versions, fun id' hid' => ?_, fun id' hid' e he => ?_⟩
  · rw [mem_ids, not_or] at hid'
    rw [← h.kept id' hid'.left]
    exact Table.find?_eq_of_mem_iff fun e' he' => by
      rw [rows]
      constructor
      case mp =>
        rintro (hmem | rfl)
        · exact hmem
        · exact absurd he'.symm hid'.right
      case mpr => exact .inl
  · rcases mem_ids.mp hid' with hid' | rfl
    · exact h.noted id' hid' e he
    · by_cases touched : id' ∈ c.ids
      · exact h.noted id' touched e he
      · -- A new id is none that an entry had.
        have there : c.db.getEntry id' = some e := (h.kept id' touched).trans he
        exact absurd (Table.find?_key_eq there) (new e (Table.find?_mem there))

theorem From.edit {edit : Edit} (h : From db c) (ok : c.edit now edit = .ok c') : From db c' := by
  cases edit
  case add =>
    have ⟨_, inserted, ok⟩ := Except.bind_eq_ok.mp ok
    cases ok
    exact h.add inserted
  case update id fields => exact (h.touch id).rewrite (mem_touch c id) ok fun _ => rfl
  case decide id status => exact (h.touch id).rewrite (mem_touch c id) ok fun _ => rfl
  case delete id =>
    cases ok
    refine (h.touch id).write rfl fun id' hid' => ?_
    have ne : id' ≠ id := fun eq => hid' (eq ▸ mem_touch c id)
    exact Table.find?_eq_of_mem_iff fun e he => by
      rw [Db.deleteEntry, Table.mem_delete]
      exact and_iff_left (decide_eq_false fun eq => ne (he.symm.trans eq))

-- A change that touched no accepted entry, neither before nor after it, leaves the accepted guide as it was.
theorem From.sameGuide (h : From db c) (before : anyAccepted c.before = false) (after : anyAccepted c.after = false) :
    db.SameGuide c.db := by
  have untouched_before {id e} (he : db.getEntry id = some e) (accepted : e.status = .accepted) : id ∉ c.ids := by
    intro hid
    have ⟨s, hs, eq⟩ := h.noted id hid e he
    have none : s.entry.status ≠ .accepted := by simpa using List.any_eq_false.mp before s hs
    exact none (eq ▸ accepted)
  have untouched_after {id e} (he : c.db.getEntry id = some e) (accepted : e.status = .accepted) : id ∉ c.ids := by
    intro hid
    have hs : { entry := e, evidence := c.db.evidenceOf id } ∈ c.after :=
      List.mem_filterMap.mpr ⟨id, hid, by rw [Db.snapshot, he]; rfl⟩
    have none : e.status ≠ .accepted := by simpa using List.any_eq_false.mp after _ hs
    exact none accepted
  refine ⟨h.versions, fun content => ?_⟩
  constructor
  case mp =>
    rintro ⟨e, he, accepted, rfl⟩
    have now : c.db.getEntry e.id = some e := Table.find?_key he
    have was := (h.kept e.id (untouched_after now accepted)).symm.trans now
    exact ⟨e, Table.find?_mem was, accepted, rfl⟩
  case mpr =>
    rintro ⟨e, he, accepted, rfl⟩
    have was : db.getEntry e.id = some e := Table.find?_key he
    have now := (h.kept e.id (untouched_before was accepted)).trans was
    exact ⟨e, Table.find?_mem now, accepted, rfl⟩

end Editing

namespace Db

variable {db db' : Db}

theorem foldl_same {f : Db → α → Db} {as : List α} (db : Db) (h : ∀ db a, SameGuide db (f db a)) :
    SameGuide db (as.foldl f db) :=
  List.foldl_preserves (fun _ _ ih => ih.trans (h _ _)) (.refl db)

-- What is done to proposals does nothing to the guide.
theorem sameGuide_applyStep (db : Db) (now : Millis) (step : Option AnalysisStep) : SameGuide db (db.applyStep now step).1 := by
  rcases step with _ | ⟨ids, status⟩ | pair
  · exact .refl db
  · exact foldl_same db fun _ _ => .of_eq rfl rfl
  · exact foldl_same db fun _ _ => .of_eq rfl rfl

theorem current_applyEditsWith [Unicode] {step : Option AnalysisStep} (h : db.Current)
    (ok : db.applyEditsWith edits reason step now = .ok (db', change)) :
    db'.Current := by
  rw [applyEditsWith] at ok
  split at ok
  case isTrue => cases ok
  case isFalse =>
    have ⟨checked, _, ok⟩ := Except.bind_eq_ok.mp ok
    have ⟨c, edited, ok⟩ := Except.bind_eq_ok.mp ok
    have c_from : Editing.From db c :=
      List.foldlM_preserves edited (fun _ _ h ok => h.edit ok) (Editing.from_start db)
    by_cases accepted : anyAccepted c.before = true ∨ anyAccepted c.after = true
    case pos =>
      simp only [if_pos accepted] at ok
      cases ok
      exact current_recordVersion _ _
    case neg =>
      simp only [if_neg accepted] at ok
      cases ok
      have none := not_or.mp accepted
      have touched := c_from.sameGuide (by simpa using none.left) (by simpa using none.right)
      exact (h.same touched).same ((sameGuide_applyStep c.db now step).trans (.of_eq rfl rfl))

theorem sameGuide_replayAnalysis (db : Db) (undo : Bool) (record : AnalysisRecord) :
    SameGuide db (db.replayAnalysis undo record) := by
  cases record
  case proposals snapshots  => exact foldl_same db fun _ _ => .of_eq rfl rfl
  case ignored pair removed =>
    cases undo
    case true  => exact foldl_same db fun _ _ => .of_eq rfl rfl
    case false => exact sameGuide_applyStep db 0 (some (.ignorePair pair))

theorem current_replayChange {id : ChangeId} (h : db.Current) (ok : db.replayChange id undo = .ok db') : db'.Current := by
  rw [replayChange] at ok
  split at ok
  case h_1 => cases ok
  case h_2 c _ =>
    have ⟨restored, ok_restore, ok⟩ := Except.bind_eq_ok.mp ok
    by_cases touched : c.ids = []
    case neg =>
      simp only [ne_eq, touched, not_false_eq_true, if_true] at ok
      cases ok
      exact current_recordVersion _ _
    case pos =>
      rw [restore, touched] at ok_restore
      cases List.foldlM_nil_eq_ok.mp ok_restore
      simp only [ne_eq, touched, not_true_eq_false, if_false] at ok
      cases ok
      split
      case h_1 => exact h
      case h_2 => exact h.same (sameGuide_replayAnalysis _ _ _)

section Learning

variable [Unicode]

theorem sameGuide_saveGroup (db : Db) (g : GroupRow) : SameGuide db (db.saveGroup g) := by
  rw [saveGroup]
  split <;> exact .of_eq rfl rfl

theorem sameGuide_mergeAudience (groups : List GroupRow) (db : Db) (a : Audience) :
    SameGuide db (db.mergeAudience groups a) := by
  rw [mergeAudience]
  split
  case h_1 =>
    dsimp only
    split
    case isTrue  => exact sameGuide_saveGroup _ _
    case isFalse => exact .refl db
  case h_2 => exact sameGuide_saveGroup _ _

omit [Unicode] in
theorem sameGuide_mergeInto {target : Option EntryRow} (ok : db.mergeInto p target run of now = .ok (db', n)) :
    SameGuide db db' := by
  cases target
  case none =>
    have ⟨_, learned, ok⟩ := Except.bind_eq_ok.mp ok
    cases ok
    have ⟨_, inserted, ok⟩ := Except.bind_eq_ok.mp learned
    cases ok
    exact (sameGuide_insertEntry inserted (by simp)).trans (sameGuide_addEvidence _ _ _)
  case some e =>
    cases ok
    split
    case isTrue  => exact .refl db
    case isFalse => exact sameGuide_addEvidence _ _ _

theorem sameGuide_mergeProposal {r r' : Db × Nat} (ok : mergeProposal run now r p = .ok r') : SameGuide r.1 r'.1 := by
  rw [mergeProposal] at ok
  split at ok
  case h_1 accepted _ =>
    have against := sameGuide_addEvidence r.1 accepted.id (p.evidence.map ({ · with contradicts := true }))
    by_cases same : toLowercase p.fields.statement = toLowercase accepted.statement
    case pos =>
      simp only [if_pos same] at ok
      cases ok
      exact against
    case neg =>
      simp only [if_neg same] at ok
      have ⟨_, merged, ok⟩ := Except.bind_eq_ok.mp ok
      cases ok
      exact against.trans (sameGuide_mergeInto merged)
  case h_2 =>
    have ⟨_, merged, ok⟩ := Except.bind_eq_ok.mp ok
    cases ok
    exact sameGuide_mergeInto merged

theorem sameGuide_merge (ok : db.merge run found now = .ok (db', n)) : SameGuide db db' := by
  exact List.foldlM_preserves (P := fun r : Db × Nat => SameGuide db r.1) ok
    (fun _ _ ih ok => ih.trans (sameGuide_mergeProposal ok)) (foldl_same db (sameGuide_mergeAudience db.listGroups))

end Learning

theorem mem_deleteEach {rows : List EntryRow} :
    e ∈ (rows.foldl (fun db r => db.deleteEntry r.id) db).entries ↔ e ∈ db.entries ∧ ∀ r ∈ rows, e.id ≠ r.id := by
  induction rows generalizing db
  case nil          => simp
  case cons r rows ih =>
    rw [List.foldl_cons, ih, deleteEntry, Table.mem_delete, List.forall_mem_cons, decide_eq_false_iff_not, and_assoc]

theorem versions_deleteEach {rows : List EntryRow} : (rows.foldl (fun db r => db.deleteEntry r.id) db).versions = db.versions :=
  List.foldl_preserves (P := fun db' : Db => db'.versions = db.versions) (fun _ _ ih => ih) rfl

theorem current_moveGuideFacts (h : db.Current) : db.moveGuideFacts.1.Current := by
  rw [moveGuideFacts]
  split
  case isTrue => exact current_recordVersion _ _
  case isFalse none =>
    refine h.same ⟨versions_deleteEach, fun content => ?_⟩
    constructor
    case mp => exact fun ⟨e, he, rest⟩ => ⟨e, (mem_deleteEach.mp he).left, rest⟩
    case mpr =>
      rintro ⟨e, he, accepted, rfl⟩
      refine ⟨e, mem_deleteEach.mpr ⟨he, fun r hr eq => none ?_⟩, accepted, rfl⟩
      obtain rfl := Table.eq_of_key_eq he (List.mem_filter.mp hr).left eq
      exact List.any_eq_true.mpr ⟨e, hr, decide_eq_true accepted⟩

theorem current_rescopeGroup [Unicode] (h : db.Current) (ok : db.rescopeGroup old new now = .ok (db', change)) :
    db'.Current := by
  rw [rescopeGroup] at ok
  split at ok
  case isTrue => cases ok; exact h
  case isFalse =>
    have ⟨_, edited, ok⟩ := Except.bind_eq_ok.mp ok
    cases ok
    exact current_applyEditsWith h edited

theorem step_current [Unicode] (h : db.Current) (hs : db.step a = some db') : db'.Current := by
  cases a
  case edit =>
    have ⟨_, ok, eq⟩ := Option.map_eq_some_iff.mp hs
    exact eq ▸ current_applyEditsWith h (Except.ok_of_toOption ok)
  case undo => exact current_replayChange h (Except.ok_of_toOption hs)
  case redo => exact current_replayChange h (Except.ok_of_toOption hs)
  case learn =>
    have ⟨_, ok, eq⟩ := Option.map_eq_some_iff.mp hs
    exact eq ▸ h.same (sameGuide_merge (Except.ok_of_toOption ok))
  case rescope =>
    have ⟨_, ok, eq⟩ := Option.map_eq_some_iff.mp hs
    exact eq ▸ current_rescopeGroup h (Except.ok_of_toOption ok)
  case saveGroup g =>
    cases hs
    exact h.same (sameGuide_saveGroup db g)
  case renameGroup id name =>
    have ok := Except.ok_of_toOption hs
    rw [renameGroup] at ok
    split at ok
    case isTrue  => cases ok
    case isFalse => cases ok; exact h.same (.of_eq rfl rfl)
  case deleteGroup => cases hs; exact h.same (.of_eq rfl rfl)
  case moveFacts   => cases hs; exact current_moveGuideFacts h

end Db

-- In every reachable state the newest version lists the entries that are accepted, each once, with all of them that
-- the user sets.
theorem reachable_version_current [Unicode] (h : guide.Reachable (fun _ _ => True) db) :
    (db.newest.map EntryRow.content).Perm (db.accepted.map EntryRow.content) :=
  h.invariant (fun _ start => by cases start; exact .refl _) fun _ _ _ ih _ hs => Db.step_current ih hs

section Undone

def greeting : Fields := { category := "B1", kind := .rule, statement := " Start  with 'Hi'." }

-- Mail that says otherwise, learned while the entry is there.
def otherwise : Found where
  proposals := [{ fields := { greeting with statement := "Start with 'Hello'." }, contradicts := some 1
                  evidence := [{ messageId := "m", quote := "Hello" }] }]
  audiences := []

theorem reachable_version_current_undone : ∃ db : Db, (@guide ascii).Reachable (fun _ _ => True) db ∧
    db.currentVersion = 3 ∧ (db.newest.map EntryRow.content).Perm (db.accepted.map EntryRow.content) := by
  have run : ((@guide ascii).run (fun _ _ => True) {} [.edit [.add greeting .accepted .you none] "add" none 1,
      .learn 1 otherwise 2, .edit [.delete 1] "delete" none 3, .undo 2]).any (·.currentVersion = 3) := by
    decide +kernel
  obtain ⟨db, hs, h⟩ := (Option.any_eq_true _ _).mp run
  have hr := System.Reachable.run (.start rfl) hs
  exact ⟨db, hr, of_decide_eq_true h, @reachable_version_current db ascii hr⟩

end Undone

end Kaluta.Guide
