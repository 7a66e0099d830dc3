import Kaluta.Guide.Groups

-- To whom entries apply once a group is renamed or merged into another.
namespace Kaluta.Guide

theorem eqIgnoreAsciiCase_iff {s₁ s₂ : String} :
    eqIgnoreAsciiCase s₁ s₂ = true ↔ s₁.toList.map Char.toLower = s₂.toList.map Char.toLower :=
  decide_eq_true_iff

theorem eqIgnoreAsciiCase_symm {s₁ s₂ : String} (h : eqIgnoreAsciiCase s₁ s₂ = true) : eqIgnoreAsciiCase s₂ s₁ = true :=
  eqIgnoreAsciiCase_iff.mpr (eqIgnoreAsciiCase_iff.mp h).symm

theorem eqIgnoreAsciiCase_trans {s₁ s₂ s₃ : String} (h₁ : eqIgnoreAsciiCase s₁ s₂ = true)
    (h₂ : eqIgnoreAsciiCase s₂ s₃ = true) : eqIgnoreAsciiCase s₁ s₃ = true :=
  eqIgnoreAsciiCase_iff.mpr ((eqIgnoreAsciiCase_iff.mp h₁).trans (eqIgnoreAsciiCase_iff.mp h₂))

theorem EntryRow.names_iff {e : EntryRow} {group : String} :
    e.names group = true ↔ ∃ g ∈ e.scope.groups, eqIgnoreAsciiCase g group = true :=
  List.any_eq_true

section Texts

variable {same : String → String → Bool} {l l' : List String}

theorem sameTexts_iff : sameTexts same l l' = true ↔
    (∀ s ∈ l, ∃ s' ∈ l', same s s' = true) ∧ ∀ s' ∈ l', ∃ s ∈ l, same s s' = true := by
  simp [sameTexts]

theorem sameTexts_refl (refl : ∀ s, same s s = true) (l : List String) : sameTexts same l l = true :=
  sameTexts_iff.mpr ⟨fun s hs => ⟨s, hs, refl s⟩, fun s hs => ⟨s, hs, refl s⟩⟩

theorem sameTexts_nil (h : sameTexts same l l' = true) : l' = [] ↔ l = [] := by
  obtain ⟨left, right⟩ := sameTexts_iff.mp h
  constructor
  case mp =>
    rintro rfl
    refine List.eq_nil_iff_forall_not_mem.mpr fun s hs => ?_
    obtain ⟨_, hs', _⟩ := left s hs
    cases hs'
  case mpr =>
    rintro rfl
    refine List.eq_nil_iff_forall_not_mem.mpr fun s' hs' => ?_
    obtain ⟨_, hs, _⟩ := right s' hs'
    cases hs

-- What is the same of texts that are, holds of some text of both lists or of neither.
theorem sameTexts_exists {P : String → Prop} (h : sameTexts same l l' = true)
    (alike : ∀ s s', same s s' = true → (P s ↔ P s')) : (∃ s' ∈ l', P s') ↔ ∃ s ∈ l, P s := by
  obtain ⟨left, right⟩ := sameTexts_iff.mp h
  constructor
  case mp =>
    rintro ⟨s', hs', p⟩
    obtain ⟨s, hs, eq⟩ := right s' hs'
    exact ⟨s, hs, (alike s s' eq).mpr p⟩
  case mpr =>
    rintro ⟨s, hs, p⟩
    obtain ⟨s', hs', eq⟩ := left s hs
    exact ⟨s', hs', (alike s s' eq).mp p⟩

end Texts

section Rescope

variable {scope : Scope} {old new : String}

theorem mem_rescoped (h : g ∈ (scope.rescoped old (some new)).groups) :
    g ∈ scope.groups ∧ eqIgnoreAsciiCase g old = false ∨ g = new := by
  rcases List.mem_append.mp h with h | h
  · have ⟨hmem, other⟩ := List.mem_filter.mp h
    exact .inl ⟨hmem, by simpa using other⟩
  · right
    simp only [Option.filter_some] at h
    split at h
    case isTrue  => exact List.mem_singleton.mp h
    case isFalse => cases h

theorem rescoped_of_mem (h : g ∈ scope.groups) (other : eqIgnoreAsciiCase g old = false) :
    g ∈ (scope.rescoped old (some new)).groups :=
  List.mem_append_left _ (List.mem_filter.mpr ⟨h, by simpa using other⟩)

-- The new name is among the groups.
theorem rescoped_new (scope : Scope) (old new : String) : ∃ g ∈ (scope.rescoped old (some new)).groups, eqIgnoreAsciiCase g new = true := by
  by_cases there : (scope.groups.filter (!eqIgnoreAsciiCase · old)).any (eqIgnoreAsciiCase · new) = true
  case pos =>
    have ⟨g, hg, eq⟩ := List.any_eq_true.mp there
    exact ⟨g, List.mem_append_left _ hg, eq⟩
  case neg =>
    refine ⟨new, List.mem_append_right _ ?_, eqIgnoreAsciiCase_iff.mpr rfl⟩
    rw [Option.filter_some, if_pos (by rw [Bool.eq_false_iff.mpr there]; rfl)]
    exact List.mem_singleton_self new

end Rescope

section Entries

variable {db : Db}

theorem listEntries_perm (db : Db) : (db.listEntries []).Perm db.entries.rows := by
  have all : db.listEntries [] = db.entries.rows.insertionSort Db.inOrder := by simp [Db.listEntries]
  exact all ▸ List.perm_insertionSort _ _

theorem filter_listEntries (db : Db) (id : EntryId) : (db.listEntries []).filter (·.id = id) = (db.getEntry id).toList := by
  have perm := (listEntries_perm db).filter (·.id = id)
  rw [filter_key] at perm
  cases h : db.entries.find? id
  case none   => rw [h] at perm; rw [Db.getEntry, h]; exact List.perm_nil.mp perm
  case some e => rw [h] at perm; rw [Db.getEntry, h]; exact List.perm_singleton.mp perm

-- The edit that rescoping makes of an entry.
theorem filter_rescopes (old : String) (new : Option String) (id : EntryId) :
    (((db.listEntries []).filter (·.names old)).map (Edit.rescope old new)).filter (·.target = some id) =
      (((db.getEntry id).toList).filter (·.names old)).map (Edit.rescope old new) := by
  have target : ((fun edit : Edit => decide (edit.target = some id)) ∘ Edit.rescope old new) = fun e : EntryRow => decide (e.id = id) := by
    funext e
    simp [Edit.rescope, Edit.target]
  rw [List.filter_map, target, List.filter_comm, filter_listEntries]

theorem groups_edit {c c' : Editing} {edit : Edit} (h : c.edit now edit = .ok c') : c'.db.groups = c.db.groups := by
  have touched (id) : (c.touch id).db.groups = c.db.groups := congrArg Db.groups (Editing.touch_db c id)
  cases edit
  case add =>
    obtain ⟨_, inserted, h⟩ := Except.bind_eq_ok.mp h
    cases h
    rw [Db.insertEntry] at inserted
    split at inserted
    case h_1 => cases inserted
    case h_2 => cases inserted; rfl
  case update id fields =>
    obtain ⟨row, _, eq⟩ := Editing.rewrite_eq_ok h
    exact eq ▸ touched id
  case decide id status =>
    obtain ⟨row, _, eq⟩ := Editing.rewrite_eq_ok h
    exact eq ▸ touched id
  case delete id =>
    cases h
    exact touched id

end Entries

section Distinct

variable {db : Db} {scope : Scope} {old : GroupRow} {new : String}

theorem same_group (distinct : db.GroupsDistinct) (hg : g ∈ db.groups) (hold : old ∈ db.groups)
    (eq : eqIgnoreAsciiCase g.name old.name = true) : g = old :=
  Table.eq_of_key_eq hg hold (distinct g hg old hold eq)

-- The groups that a scope names besides one of them are in the rescoped one.
theorem inGroups_other (distinct : db.GroupsDistinct) (hold : old ∈ db.groups) (hname : name ∈ scope.groups)
    (hg : g ∈ db.groups) (ne : g ≠ old) (eq : eqIgnoreAsciiCase g.name name = true) :
    name ∈ (scope.rescoped old.name (some new)).groups := by
  refine rescoped_of_mem hname (Bool.eq_false_iff.mpr fun other => ?_)
  exact ne (same_group distinct hg hold (eqIgnoreAsciiCase_trans eq other))

end Distinct

section Names

variable [Unicode] {db db' : Db} {e : EntryRow}

theorem scope_validated {fields valid : Fields} (h : validate fields = .ok valid) : valid.scope = fields.scope.cleaned := by
  rw [validate] at h
  split at h
  case h_1 => cases h
  case h_2 =>
    dsimp only at h
    repeat (split at h; · cases h)
    split at h
    case h_1 => cases h; rfl
    case h_2 =>
      have ⟨_, _, h⟩ := Except.bind_eq_ok.mp h
      cases h
      rfl

-- What an edit of its own transaction leaves of groups and entries.
theorem applyEdits_eq_ok {edits : List Edit} (ok : db.applyEdits edits reason now = .ok (db', change)) :
    db'.groups = db.groups ∧ ∃ checked c, edits.mapM (·.checked) = .ok checked ∧
      checked.foldlM (Editing.edit now) { db } = .ok c ∧ db'.entries = c.db.entries := by
  obtain ⟨checked, c, hc, edited, _, entries, _⟩ := Db.applyEditsWith_eq_ok ok
  refine ⟨?_, checked, c, hc, edited, entries⟩
  have groups : c.db.groups = db.groups :=
    List.foldlM_preserves (P := fun c : Editing => c.db.groups = db.groups) edited
      (fun _ _ ih ok => (groups_edit ok).trans ih) rfl
  rw [Db.applyEdits, Db.applyEditsWith] at ok
  split at ok
  case isTrue => cases ok
  case isFalse =>
    obtain ⟨checked', hc', ok⟩ := Except.bind_eq_ok.mp ok
    obtain ⟨c', edited', ok⟩ := Except.bind_eq_ok.mp ok
    obtain rfl := Except.ok.inj (hc.symm.trans hc')
    obtain rfl := Except.ok.inj (edited.symm.trans edited')
    dsimp only at ok
    split at ok <;> cases ok <;> exact groups

section Rescoped

variable {id : EntryId} {old new : String} {r : Db × Option ChangeId}

theorem groups_rescoped (ok : db.rescopeGroup old (some new) now = .ok r) : r.1.groups = db.groups := by
  rw [Db.rescopeGroup] at ok
  split at ok
  case isTrue => cases ok; rfl
  case isFalse =>
    obtain ⟨_, edited, ok⟩ := Except.bind_eq_ok.mp ok
    cases ok
    exact (applyEdits_eq_ok edited).left

theorem isOk_checked {edits checked : List Edit} {edit : Edit} (h : edits.mapM (·.checked) = .ok checked)
    (mem : edit ∈ edits) : edit.checked.isOk = true := by
  induction edits generalizing checked
  case nil => cases mem
  case cons edit' edits ih =>
    rw [List.mapM_cons] at h
    obtain ⟨_, first, h⟩ := Except.bind_eq_ok.mp h
    obtain ⟨_, rest, _⟩ := Except.bind_eq_ok.mp h
    rcases List.mem_cons.mp mem with rfl | mem
    · rw [first]
      rfl
    · exact ih rest mem

-- A group is given up only if validation takes each of its entries.
theorem rescopes_of_ok (ok : db.rescopeGroup old (some new) now = .ok r) : db.rescopes old new = true := by
  refine List.all_eq_true.mpr fun e he => ?_
  cases named : e.names old
  case false => rfl
  case true =>
    have listed : e ∈ db.listEntries [] := (listEntries_perm db).mem_iff.mpr he
    have mem : Edit.rescope old (some new) e ∈ ((db.listEntries []).filter (·.names old)).map (Edit.rescope old (some new)) :=
      List.mem_map_of_mem (List.mem_filter.mpr ⟨listed, named⟩)
    rw [Db.rescopeGroup] at ok
    split at ok
    case isTrue none => exact absurd (List.isEmpty_iff.mp none ▸ mem) List.not_mem_nil
    case isFalse =>
      obtain ⟨⟨_, _⟩, edited, _⟩ := Except.bind_eq_ok.mp ok
      obtain ⟨_, _, _, hc, _⟩ := applyEdits_eq_ok edited
      rw [isOk_checked hc mem]
      rfl

-- The edits of a list, of one entry.
theorem getEntry_rescope (id : EntryId) (ok : db.rescopeGroup old (some new) now = .ok r) : ∃ checked,
    ((((db.getEntry id).toList).filter (·.names old)).map (Edit.rescope old (some new))).mapM (·.checked) = .ok checked ∧
      r.1.getEntry id = checked.foldl (fun row edit => row.bind (edit.effect now)) (db.getEntry id) := by
  rw [Db.rescopeGroup] at ok
  split at ok
  case isTrue none =>
    cases ok
    have nothing : ((db.listEntries []).filter (·.names old)).map (Edit.rescope old (some new)) = [] :=
      List.isEmpty_iff.mp none
    rw [← filter_rescopes, nothing]
    exact ⟨[], rfl, rfl⟩
  case isFalse =>
    obtain ⟨⟨db', change⟩, edited, ok⟩ := Except.bind_eq_ok.mp ok
    cases ok
    obtain ⟨_, checked, c, hc, edited, entries⟩ := applyEdits_eq_ok edited
    have no_adds : (∃ edit ∈ checked, edit.target = none) → id ≤ db.lastEntryId := by
      rintro ⟨edit, he, eq⟩
      have mem : edit.target ∈ (((db.listEntries []).filter (·.names old)).map (Edit.rescope old (some new))).map Edit.target :=
        targets_checked hc ▸ List.mem_map_of_mem he
      obtain ⟨edit', he', eq'⟩ := List.mem_map.mp mem
      obtain ⟨e, _, rfl⟩ := List.mem_map.mp he'
      rw [eq] at eq'
      cases eq'
    refine ⟨_, filter_rescopes old (some new) id ▸ mapM_checked_filter hc fun t => t = some id, ?_⟩
    rw [Db.getEntry, entries]
    exact Editing.getEntry_edits edited no_adds

theorem entry_rescoped (ok : db.rescopeGroup old (some new) now = .ok r) (he : db.getEntry id = some e) :
    ∃ e', r.1.getEntry id = some e' ∧ e'.status = e.status ∧
      e'.scope = if e.names old then (e.scope.rescoped old (some new)).cleaned else e.scope := by
  have ⟨checked, hc, eq⟩ := getEntry_rescope id ok
  rw [he, Option.toList_some] at hc
  rw [he] at eq
  cases named : e.names old
  case false =>
    simp only [List.filter_cons, named, Bool.false_eq_true, if_false, List.filter_nil] at hc
    cases hc
    exact ⟨e, eq, rfl, rfl⟩
  case true =>
    simp only [List.filter_cons, named, if_true, List.filter_nil, List.map_cons, List.map_nil, List.mapM_cons] at hc
    have ⟨edit, hedit, hc⟩ := Except.bind_eq_ok.mp hc
    cases hc
    have ⟨fields, valid, hedit⟩ := Except.bind_eq_ok.mp hedit
    cases hedit
    exact ⟨_, eq, rfl, scope_validated valid⟩

theorem no_entry_rescoped (ok : db.rescopeGroup old (some new) now = .ok r) (he : db.getEntry id = none) :
    r.1.getEntry id = none := by
  have ⟨checked, hc, eq⟩ := getEntry_rescope id ok
  rw [he] at hc eq
  cases hc
  exact eq

end Rescoped

section Applies

variable {id : EntryId} {target : Target} {recipients : List String}

-- A confirmed group that some of the recipients are in.
def GroupRow.Has (g : GroupRow) (recipients : List String) : Prop :=
  g.status = .confirmed ∧ recipients.any (isMember · g.members) = true

theorem GroupRow.Has.isOpen {g : GroupRow} (h : g.Has recipients) : g.isOpen = true := by
  refine decide_eq_true ⟨h.left, fun none => ?_⟩
  obtain ⟨_, _, member⟩ := List.any_eq_true.mp h.right
  rw [none] at member
  cases member

def Db.InGroups (db : Db) (groups : List String) (recipients : List String) : Prop :=
  ∃ name ∈ groups, ∃ g ∈ db.groups, g.Has recipients ∧ eqIgnoreAsciiCase g.name name = true

theorem mem_audienceFor : name ∈ db.audienceFor recipients ↔ ∃ g ∈ db.groups, g.Has recipients ∧ g.name = name := by
  simp [Db.audienceFor, Db.listGroups, GroupRow.Has, Table.mem_rows, and_assoc]

theorem appliesIn_iff {scope : Scope} : appliesIn scope target (db.audienceFor target.recipients) = true ↔
    (scope.people = [] ∨ target.recipients.any (isMember · scope.people) = true) ∧
    (scope.groups = [] ∨ db.InGroups scope.groups target.recipients) ∧
    (scope.messageTypes = [] ∨ target.messageType.any (· ∈ scope.messageTypes) = true) := by
  have groups : scope.groups.any (fun g => (db.audienceFor target.recipients).any (eqIgnoreAsciiCase · g)) = true ↔
      db.InGroups scope.groups target.recipients := by
    simp only [List.any_eq_true, mem_audienceFor, Db.InGroups]
    constructor
    case mp  => exact fun ⟨name, hname, _, ⟨g, hg, has, rfl⟩, eq⟩ => ⟨name, hname, g, hg, has, eq⟩
    case mpr => exact fun ⟨name, hname, g, hg, has, eq⟩ => ⟨name, hname, _, ⟨g, hg, has, rfl⟩, eq⟩
  simp only [appliesIn, decide_eq_true_iff, groups]

theorem applies_iff : db.applies target id = true ↔ ∃ e, db.getEntry id = some e ∧ e.status = .accepted ∧
    appliesIn e.scope target (db.audienceFor target.recipients) = true := by
  simp [Db.applies, Option.any_eq_true]

-- One scope says of people and message types what another does, and names groups if the other does.
structure Scope.Alike (scope scope' : Scope) : Prop where
  people       : ∀ recipients : List String, (scope'.people = [] ∨ recipients.any (isMember · scope'.people) = true) ↔
    (scope.people = [] ∨ recipients.any (isMember · scope.people) = true)
  messageTypes : ∀ messageType : Option String,
    (scope'.messageTypes = [] ∨ messageType.any (· ∈ scope'.messageTypes) = true) ↔
    (scope.messageTypes = [] ∨ messageType.any (· ∈ scope.messageTypes) = true)
  groups       : scope'.groups = [] ↔ scope.groups = []

theorem Scope.Alike.symm {scope scope' : Scope} (h : scope.Alike scope') : scope'.Alike scope where
  people recipients        := (h.people recipients).symm
  messageTypes messageType := (h.messageTypes messageType).symm
  groups                   := h.groups.symm

theorem Scope.Alike.trans {scope₁ scope₂ scope₃ : Scope} (h : scope₁.Alike scope₂) (h' : scope₂.Alike scope₃) :
    scope₁.Alike scope₃ where
  people recipients        := (h'.people recipients).trans (h.people recipients)
  messageTypes messageType := (h'.messageTypes messageType).trans (h.messageTypes messageType)
  groups                   := h'.groups.trans h.groups

theorem applies_of {e' : EntryRow} (he' : db'.getEntry id = some e') (status : e'.status = e.status)
    (alike : e.scope.Alike e'.scope)
    (groups : db.InGroups e.scope.groups target.recipients → db'.InGroups e'.scope.groups target.recipients)
    (he : db.getEntry id = some e) (h : db.applies target id = true) : db'.applies target id = true := by
  have ⟨e₀, he₀, accepted, applies⟩ := applies_iff.mp h
  obtain rfl := Option.some.inj (he.symm.trans he₀)
  have ⟨people, inGroups, types⟩ := appliesIn_iff.mp applies
  exact applies_iff.mpr ⟨e', he', status.trans accepted, appliesIn_iff.mpr
    ⟨(alike.people _).mpr people, inGroups.imp alike.groups.mpr groups, (alike.messageTypes _).mpr types⟩⟩

section Agrees

variable {scope scope' : Scope}

theorem agrees_iff : scope.agrees scope' = true ↔
    sameTexts (fun m m' => toLowercase (trim m) = toLowercase (trim m')) scope.people scope'.people = true ∧
    sameTexts eqIgnoreAsciiCase scope.groups scope'.groups = true ∧
    sameTexts (fun t t' => t = t') scope.messageTypes scope'.messageTypes = true :=
  decide_eq_true_iff

theorem agrees_refl (scope : Scope) : scope.agrees scope = true :=
  agrees_iff.mpr ⟨sameTexts_refl (fun _ => decide_eq_true rfl) _, sameTexts_refl (fun _ => eqIgnoreAsciiCase_iff.mpr rfl) _,
    sameTexts_refl (fun _ => decide_eq_true rfl) _⟩

theorem isMember_same {address : String} {members members' : List String}
    (h : sameTexts (fun m m' => toLowercase (trim m) = toLowercase (trim m')) members members' = true) :
    isMember address members' = isMember address members := by
  refine Bool.eq_iff_iff.mpr ?_
  simp only [isMember, List.any_eq_true]
  refine sameTexts_exists h fun m m' eq => ?_
  rw [of_decide_eq_true eq]

theorem alike_of_agrees (h : scope.agrees scope' = true) : scope.Alike scope' := by
  obtain ⟨people, groups, types⟩ := agrees_iff.mp h
  refine ⟨fun recipients => ?_, fun messageType => ?_, sameTexts_nil groups⟩
  · rw [sameTexts_nil people, funext fun _ => isMember_same people]
  · refine or_congr (sameTexts_nil types) ?_
    cases messageType
    case none   => exact .rfl
    case some t =>
      obtain ⟨left, right⟩ := sameTexts_iff.mp types
      simp only [Option.any_some, decide_eq_true_eq]
      constructor
      case mp  =>
        intro h
        obtain ⟨s, hs, eq⟩ := right t h
        exact of_decide_eq_true eq ▸ hs
      case mpr =>
        intro h
        obtain ⟨s, hs, eq⟩ := left t h
        exact of_decide_eq_true eq ▸ hs

theorem inGroups_agrees (h : scope.agrees scope' = true) :
    db.InGroups scope'.groups recipients ↔ db.InGroups scope.groups recipients := by
  refine sameTexts_exists (agrees_iff.mp h).right.left fun name name' eq => ?_
  have eq : eqIgnoreAsciiCase name name' = true := eq
  constructor
  case mp  => exact fun ⟨g, hg, has, named⟩ => ⟨g, hg, has, eqIgnoreAsciiCase_trans named eq⟩
  case mpr => exact fun ⟨g, hg, has, named⟩ => ⟨g, hg, has, eqIgnoreAsciiCase_trans named (eqIgnoreAsciiCase_symm eq)⟩

end Agrees

theorem accepted_of_applies (he : db.getEntry id = some e) (h : db.applies target id = true) : e.status = .accepted := by
  have ⟨e₀, he₀, accepted, _⟩ := applies_iff.mp h
  exact Option.some.inj (he.symm.trans he₀) ▸ accepted

theorem applies_none (he : db.getEntry id = none) : db.applies target id = false := by
  rw [Db.applies, he]
  rfl

end Applies

section Groups

variable {recipients : List String} {scope : Scope} {old : GroupRow} {new : String}

-- A group that no mail is for may be renamed in the entries only.
theorem inGroups_cut (distinct : db.GroupsDistinct) (hold : old ∈ db.groups)
    (free : ∀ g ∈ db.groups, g.id ≠ old.id → eqIgnoreAsciiCase g.name new = false) (closed : ¬old.isOpen = true) :
    db.InGroups (scope.rescoped old.name (some new)).groups recipients ↔ db.InGroups scope.groups recipients := by
  constructor
  case mp =>
    rintro ⟨name, hname, g, hg, has, eq⟩
    rcases mem_rescoped hname with ⟨hname, _⟩ | rfl
    · exact ⟨name, hname, g, hg, has, eq⟩
    · by_cases key : g.id = old.id
      case pos => exact absurd (Table.eq_of_key_eq hg hold key ▸ has.isOpen) closed
      case neg => exact absurd eq (Bool.eq_false_iff.mp (free g hg key))
  case mpr =>
    rintro ⟨name, hname, g, hg, has, eq⟩
    have ne : g ≠ old := fun eq => closed (eq ▸ has.isOpen)
    exact ⟨name, inGroups_other distinct hold hname hg ne eq, g, hg, has, eq⟩

section Renamed

variable (groups : db'.groups = db.groups.update (·.id = old.id) ({ · with name := new }) fun _ => rfl)
include groups

omit [Unicode] in
theorem mem_renamed (hold : old ∈ db.groups) : g' ∈ db'.groups ↔
    (g' ∈ db.groups ∧ g'.id ≠ old.id) ∨ g' = { old with name := new } := by
  rw [groups, Table.mem_update]
  constructor
  case mp =>
    rintro (⟨hg, ne⟩ | ⟨g, hg, eq, rfl⟩)
    · exact .inl ⟨hg, of_decide_eq_false ne⟩
    · exact .inr (Table.eq_of_key_eq hg hold (of_decide_eq_true eq) ▸ rfl)
  case mpr =>
    rintro (⟨hg, ne⟩ | rfl)
    · exact .inl ⟨hg, decide_eq_false ne⟩
    · exact .inr ⟨old, hold, decide_eq_true rfl, rfl⟩

theorem inGroups_renamed (distinct : db.GroupsDistinct) (hold : old ∈ db.groups)
    (free : ∀ g ∈ db.groups, g.id ≠ old.id → eqIgnoreAsciiCase g.name new = false)
    (named : ∃ name ∈ scope.groups, eqIgnoreAsciiCase name old.name = true) :
    db'.InGroups (scope.rescoped old.name (some new)).groups recipients ↔ db.InGroups scope.groups recipients := by
  constructor
  case mp =>
    rintro ⟨name, hname, g', hg', has, eq⟩
    rcases (mem_renamed groups hold).mp hg' with ⟨hg, ne⟩ | rfl
    · rcases mem_rescoped hname with ⟨hname, _⟩ | rfl
      · exact ⟨name, hname, g', hg, has, eq⟩
      · exact absurd eq (Bool.eq_false_iff.mp (free g' hg ne))
    · have ⟨name', hname', eq'⟩ := named
      exact ⟨name', hname', old, hold, has, eqIgnoreAsciiCase_symm eq'⟩
  case mpr =>
    rintro ⟨name, hname, g, hg, has, eq⟩
    by_cases key : g = old
    case pos =>
      subst key
      have ⟨name', hname', eq'⟩ := rescoped_new scope g.name new
      exact ⟨name', hname', { g with name := new }, (mem_renamed groups hold).mpr (.inr rfl), has, eqIgnoreAsciiCase_symm eq'⟩
    case neg =>
      have ne : g.id ≠ old.id := fun eq => key (Table.eq_of_key_eq hg hold eq)
      exact ⟨name, inGroups_other distinct hold hname hg key eq, g, (mem_renamed groups hold).mpr (.inl ⟨hg, ne⟩), has, eq⟩

-- An entry that names neither the old nor the new name.
theorem inGroups_renamed_other (hold : old ∈ db.groups) (other : ∀ name ∈ scope.groups, eqIgnoreAsciiCase name old.name = false)
    (unnamed : ¬old.isOpen = true ∨ ∀ name ∈ scope.groups, eqIgnoreAsciiCase name new = false) :
    db'.InGroups scope.groups recipients ↔ db.InGroups scope.groups recipients := by
  constructor
  case mp =>
    rintro ⟨name, hname, g', hg', has, eq⟩
    rcases (mem_renamed groups hold).mp hg' with ⟨hg, _⟩ | rfl
    · exact ⟨name, hname, g', hg, has, eq⟩
    · rcases unnamed with closed | unnamed
      · exact absurd (show old.isOpen = true from has.isOpen) closed
      · exact absurd (eqIgnoreAsciiCase_symm eq) (Bool.eq_false_iff.mp (unnamed name hname))
  case mpr =>
    rintro ⟨name, hname, g, hg, has, eq⟩
    have ne : g.id ≠ old.id := fun key => by
      obtain rfl := Table.eq_of_key_eq hg hold key
      exact absurd (eqIgnoreAsciiCase_symm eq) (Bool.eq_false_iff.mp (other name hname))
    exact ⟨name, hname, g, (mem_renamed groups hold).mpr (.inl ⟨hg, ne⟩), has, eq⟩

end Renamed

end Groups

section Followed

variable {i : EntryId} {old new : String} {r : Db × Option ChangeId} {target : Target}

-- The scope of an entry that follows a group to another name.
def EntryRow.followed (e : EntryRow) (old new : String) : Scope :=
  if e.names old then e.scope.rescoped old (some new) else e.scope

theorem alike_followed (e : EntryRow) (old new : String) : e.scope.Alike (e.followed old new) := by
  rw [EntryRow.followed]
  split
  case isTrue named =>
    have ⟨g, hg, _⟩ := EntryRow.names_iff.mp named
    have ⟨g', hg', _⟩ := rescoped_new e.scope old new
    exact ⟨fun _ => .rfl, fun _ => .rfl, fun h => absurd (h ▸ hg') List.not_mem_nil,
      fun h => absurd (h ▸ hg) List.not_mem_nil⟩
  case isFalse => exact ⟨fun _ => .rfl, fun _ => .rfl, .rfl⟩

-- That cleaning keeps the scopes of the accepted entries that follow.
def Db.Keeps (db : Db) (old new : String) : Prop :=
  ∀ e ∈ db.entries, e.status = .accepted → e.names old = true → Db.keepsScope old new e = true

theorem entry_followed (ok : db.rescopeGroup old (some new) now = .ok r) (keeps : db.Keeps old new)
    (he : db.getEntry i = some e) : ∃ e', r.1.getEntry i = some e' ∧ e'.status = e.status ∧
      (e.status = .accepted → (e.followed old new).agrees e'.scope = true) := by
  have ⟨e', he', status, scope⟩ := entry_rescoped ok he
  refine ⟨e', he', status, fun accepted => ?_⟩
  rw [scope, EntryRow.followed]
  split
  case isTrue named => exact keeps e (Table.find?_mem he) accepted named
  case isFalse      => exact agrees_refl e.scope

variable (ok : db.rescopeGroup old (some new) now = .ok r) (keeps : db.Keeps old new) (entries : db'.entries = r.1.entries)
include ok keeps entries

theorem applies_followed (groups : ∀ e ∈ db.entries, e.status = .accepted → db.InGroups e.scope.groups target.recipients →
    db'.InGroups (e.followed old new).groups target.recipients) (h : db.applies target i = true) :
    db'.applies target i = true := by
  have ⟨e, he, accepted, _⟩ := applies_iff.mp h
  have ⟨e', he', status, scope⟩ := entry_followed ok keeps he
  have agrees := scope accepted
  refine applies_of (by rw [Db.getEntry, entries]; exact he') status
    ((alike_followed e old new).trans (alike_of_agrees agrees)) ?_ he h
  exact fun inGroups => (inGroups_agrees agrees).mpr (groups e (Table.find?_mem he) accepted inGroups)

theorem applies_unfollowed (groups : ∀ e ∈ db.entries, e.status = .accepted →
    db'.InGroups (e.followed old new).groups target.recipients → db.InGroups e.scope.groups target.recipients)
    (h : db'.applies target i = true) : db.applies target i = true := by
  cases he : db.getEntry i
  case none =>
    have none : db'.getEntry i = none := by rw [Db.getEntry, entries]; exact no_entry_rescoped ok he
    rw [applies_none none] at h
    cases h
  case some e =>
    obtain ⟨e', he', status, scope⟩ := entry_followed ok keeps he
    have he' : db'.getEntry i = some e' := by rw [Db.getEntry, entries]; exact he'
    have accepted : e.status = .accepted := status.symm.trans (accepted_of_applies he' h)
    have agrees := scope accepted
    refine applies_of he status.symm ((alike_followed e old new).trans (alike_of_agrees agrees)).symm ?_ he' h
    exact fun inGroups => groups e (Table.find?_mem he) accepted ((inGroups_agrees agrees).mp inGroups)

theorem applies_same (groups : ∀ e ∈ db.entries, e.status = .accepted →
    (db'.InGroups (e.followed old new).groups target.recipients ↔ db.InGroups e.scope.groups target.recipients)) :
    db'.applies target i = db.applies target i :=
  Bool.eq_iff_iff.mpr ⟨applies_unfollowed ok keeps entries fun e he accepted => (groups e he accepted).mp,
    applies_followed ok keeps entries fun e he accepted => (groups e he accepted).mpr⟩

end Followed

-- A rename that changes the entries is not refused.
theorem not_refusesRename {id : GroupId} {old : GroupRow} (found : db.groups.find? id = some old) (named : cleanText name ≠ "")
    (free : ¬(db.groups.rows.any fun g => g.id ≠ id ∧ eqIgnoreAsciiCase g.name (cleanText name)) = true)
    (rescopes : db.rescopes old.name (cleanText name) = true) : ¬db.refusesRename id name = true := by
  intro refused
  rw [Db.refusesRename, found] at refused
  rcases of_decide_eq_true refused with empty | refused
  · exact named empty
  · rcases of_decide_eq_true refused with taken | invalid
    · exact free taken
    · exact invalid rescopes

theorem not_refusesMerge {into src : GroupId} {target source : GroupRow} (found : db.groups.find? into = some target)
    (found' : db.groups.find? src = some source) (ne : target.id ≠ source.id)
    (rescopes : db.rescopes source.name target.name = true) : ¬db.refusesMerge into src = true := by
  intro refused
  rw [Db.refusesMerge, found, found'] at refused
  rcases of_decide_eq_true refused with eq | invalid
  · exact ne eq
  · exact invalid rescopes

-- Renaming a group leaves every entry applying to whom it applied.
theorem applies_renamed {id : GroupId} (distinct : db.GroupsDistinct) (fine : db.renamesAlike id name cut = true)
    (target : Target) (i : EntryId) : (db.renameAudienceGroup id name now cut).db.applies target i = db.applies target i := by
  rw [Db.renameAudienceGroup]
  split
  case isTrue => rfl
  case isFalse named =>
    split
    case h_1 => rfl
    case h_2 old found =>
      have hold : old ∈ db.groups := Table.find?_mem found
      obtain rfl : old.id = id := Table.find?_key_eq found
      split
      case isTrue => rfl
      case isFalse taken =>
        have free : ∀ g ∈ db.groups, g.id ≠ old.id → eqIgnoreAsciiCase g.name (cleanText name) = false := fun g hg ne =>
          Bool.eq_false_iff.mpr fun eq => taken (List.any_eq_true.mpr ⟨g, hg, decide_eq_true ⟨ne, eq⟩⟩)
        have unnamed {e : EntryRow} (named : ¬e.names old.name = true) : ∀ g ∈ e.scope.groups, eqIgnoreAsciiCase g old.name = false :=
          fun g hg => Bool.eq_false_iff.mpr fun eq => named (EntryRow.names_iff.mpr ⟨g, hg, eq⟩)
        split
        case h_1 => rfl
        case h_2 r ok =>
          have alike := (of_decide_eq_true fine).resolve_left (not_refusesRename found named taken (rescopes_of_ok ok))
          rw [found] at alike
          have each (e) (he : e ∈ db.entries) (accepted : e.status = .accepted) :=
            (of_decide_eq_true (List.all_eq_true.mp alike e he)).resolve_left (not_not.mpr accepted)
          have keeps : db.Keeps old.name (cleanText name) := fun e he accepted named => by
            have := each e he accepted
            rw [if_pos named] at this
            exact this.left
          cases cut
          case true =>
            refine applies_same ok keeps rfl fun e he accepted => ?_
            have same : r.1.InGroups (e.followed old.name (cleanText name)).groups target.recipients ↔
                db.InGroups (e.followed old.name (cleanText name)).groups target.recipients := by
              rw [Db.InGroups, groups_rescoped ok, Db.InGroups]
            refine same.trans ?_
            rw [EntryRow.followed]
            split
            case isTrue named =>
              have := each e he accepted
              rw [if_pos named] at this
              exact inGroups_cut distinct hold free (this.right rfl)
            case isFalse => rfl
          case false =>
            have renamed : r.1.renameGroup old.id (cleanText name) = .ok { r.1 with
                groups := r.1.groups.update (·.id = old.id) ({ · with name := cleanText name }) fun _ => rfl } := by
              rw [Db.renameGroup, groups_rescoped ok, if_neg taken]
              rfl
            rw [if_neg (by rintro ⟨⟩), renamed]
            dsimp only
            refine applies_same ok keeps rfl fun e he accepted => ?_
            have groups : r.1.groups.update (·.id = old.id) ({ · with name := cleanText name }) (fun _ => rfl) =
                db.groups.update (·.id = old.id) ({ · with name := cleanText name }) fun _ => rfl := by
              rw [groups_rescoped ok]
            have this := each e he accepted
            rw [EntryRow.followed]
            split
            case isTrue named => exact inGroups_renamed groups distinct hold free (EntryRow.names_iff.mp named)
            case isFalse named =>
              rw [if_neg named] at this
              refine inGroups_renamed_other groups hold (unnamed named) ?_
              rcases this with h | h | h
              · cases h
              · exact .inl h
              · exact .inr fun g hg => Bool.eq_false_iff.mpr fun eq => h (EntryRow.names_iff.mpr ⟨g, hg, eq⟩)

section Merged

variable {target source : GroupRow} {recipients : List String} {name : String}

-- The members of a group that is saved with more of them.
def savedMembers (members : List String) : List String :=
  ((((members.map cleanText).filter (· ≠ "")).map (toLowercase <| trim ·)).dedup).insertionSort (· ≤ ·)

theorem mem_savedMembers {members : List String} (hm : m ∈ members) (saved : Db.isSaved m = true) : m ∈ savedMembers members := by
  have ⟨_, clean, eq⟩ := of_decide_eq_true saved
  rw [savedMembers, (List.perm_insertionSort _ _).mem_iff, List.mem_dedup]
  exact List.mem_map.mpr ⟨cleanText m, List.mem_filter.mpr ⟨List.mem_map_of_mem hm, decide_eq_true clean⟩, eq⟩

theorem isMember_mono {members members' : List String} (sub : ∀ m ∈ members, m ∈ members')
    (h : isMember address members = true) : isMember address members' = true := by
  have ⟨m, hm, eq⟩ := List.any_eq_true.mp h
  exact List.any_eq_true.mpr ⟨m, sub m hm, eq⟩

theorem GroupRow.Has.mono {g g' : GroupRow} (h : g.Has recipients) (status : g'.status = .confirmed)
    (sub : ∀ m ∈ g.members, m ∈ g'.members) : g'.Has recipients := by
  have ⟨r, hr, member⟩ := List.any_eq_true.mp h.right
  exact ⟨status, List.any_eq_true.mpr ⟨r, hr, isMember_mono sub member⟩⟩

-- A group as it is once members have joined it.
def GroupRow.joined (g : GroupRow) (members : List String) : GroupRow :=
  { g with description := cleanText g.description, position := 0, members := savedMembers members }

theorem saveAudienceGroup_eq (members : List String) (distinct : db.GroupsDistinct) (hg : target ∈ db.groups)
    (named : target.name ≠ "") (clean : cleanText target.name = target.name) :
    ∃ db', db.saveAudienceGroup { target with members } = .ok db' ∧ db'.entries = db.entries ∧
      ∀ g', g' ∈ db'.groups ↔ (g' ∈ db.groups ∧ g'.id ≠ target.id) ∨ g' = target.joined members := by
  have found : db.groups.rows.find? (eqIgnoreAsciiCase ·.name target.name) = some target := by
    cases h : db.groups.rows.find? (eqIgnoreAsciiCase ·.name target.name)
    case none   =>
      exact absurd (eqIgnoreAsciiCase_iff.mpr rfl) (by simpa using List.find?_eq_none.mp h target hg)
    case some g =>
      have eq : eqIgnoreAsciiCase g.name target.name = true := by simpa using List.find?_some h
      rw [same_group distinct (List.mem_of_find?_eq_some h) hg eq]
  refine ⟨_, by rw [Db.saveAudienceGroup, clean, if_neg named]; rfl, ?_, fun g' => ?_⟩
  · rw [Db.saveGroup, found]
  · rw [Db.saveGroup, found]
    dsimp only
    rw [Table.mem_update]
    constructor
    case mp =>
      rintro (⟨hg', ne⟩ | ⟨g, hg', eq, rfl⟩)
      · exact .inl ⟨hg', of_decide_eq_false ne⟩
      · obtain rfl := Table.eq_of_key_eq hg' hg (of_decide_eq_true eq)
        exact .inr rfl
    case mpr =>
      rintro (⟨hg', ne⟩ | rfl)
      · exact .inl ⟨hg', decide_eq_false ne⟩
      · exact .inr ⟨target, hg, decide_eq_true rfl, rfl⟩

-- No entry that names neither of the groups notices that members have joined.
theorem inGroups_joined {scope : Scope} {members : List String} (hg : target ∈ db.groups)
    (groups : ∀ g', g' ∈ db'.groups ↔ (g' ∈ db.groups ∧ g'.id ≠ target.id) ∨ g' = target.joined members)
    (unnamed : ∀ name ∈ scope.groups, eqIgnoreAsciiCase name target.name = false) :
    db'.InGroups scope.groups recipients ↔ db.InGroups scope.groups recipients := by
  constructor
  case mp =>
    rintro ⟨name, hname, g', hg', has, eq⟩
    rcases (groups g').mp hg' with ⟨hg', _⟩ | rfl
    · exact ⟨name, hname, g', hg', has, eq⟩
    · exact absurd (eqIgnoreAsciiCase_symm eq) (Bool.eq_false_iff.mp (unnamed name hname))
  case mpr =>
    rintro ⟨name, hname, g, hg₀, has, eq⟩
    have ne : g.id ≠ target.id := fun key => by
      obtain rfl := Table.eq_of_key_eq hg₀ hg key
      exact absurd (eqIgnoreAsciiCase_symm eq) (Bool.eq_false_iff.mp (unnamed name hname))
    exact ⟨name, hname, g, (groups g).mpr (.inl ⟨hg₀, ne⟩), has, eq⟩

-- Who was in a group that an entry names is in one that it names when the groups are merged.
theorem inGroups_merged {members : List String} (distinct : db.GroupsDistinct) (ht : target ∈ db.groups)
    (hs : source ∈ db.groups) (ne : target.id ≠ source.id)
    (groups : ∀ g', g' ∈ db'.groups ↔ ((g' ∈ db.groups ∧ g'.id ≠ target.id) ∨ g' = target.joined members) ∧ g'.id ≠ source.id)
    (targets : ∀ m ∈ target.members, m ∈ savedMembers members) (sources : ∀ m ∈ source.members, m ∈ savedMembers members)
    (confirmed : e.names source.name = true → source.isOpen = true → target.status = .confirmed)
    (h : db.InGroups e.scope.groups recipients) : db'.InGroups (e.followed source.name target.name).groups recipients := by
  have ⟨name, hname, g, hg, has, eq⟩ := h
  have joined : target.joined members ∈ db'.groups := (groups _).mpr ⟨.inr rfl, ne⟩
  by_cases gone : g = source
  case pos =>
    subst gone
    have named : e.names g.name = true := EntryRow.names_iff.mpr ⟨name, hname, eqIgnoreAsciiCase_symm eq⟩
    have ⟨name', hname', eq'⟩ := rescoped_new e.scope g.name target.name
    rw [EntryRow.followed, if_pos named]
    exact ⟨name', hname', _, joined, has.mono (confirmed named has.isOpen) sources, eqIgnoreAsciiCase_symm eq'⟩
  case neg =>
    have kept : name ∈ (e.followed source.name target.name).groups := by
      rw [EntryRow.followed]
      split
      case isTrue  => exact inGroups_other distinct hs hname hg gone eq
      case isFalse => exact hname
    by_cases key : g = target
    case pos =>
      subst key
      exact ⟨name, kept, _, joined, has.mono has.left targets, eq⟩
    case neg =>
      have ne₁ : g.id ≠ target.id := fun eq => key (Table.eq_of_key_eq hg ht eq)
      have ne₂ : g.id ≠ source.id := fun eq => gone (Table.eq_of_key_eq hg hs eq)
      exact ⟨name, kept, g, (groups g).mpr ⟨.inl ⟨hg, ne₁⟩, ne₂⟩, has, eq⟩

end Merged

-- Merging a group into another takes no entry from anyone it applied to, and leaves all as it was when it fails.
theorem applies_merged {into src : GroupId} (distinct : db.GroupsDistinct) (fine : db.mergesAlike into src cut = true)
    (t : Target) (i : EntryId) :
    (db.applies t i = true → (db.mergeAudienceGroups into src now cut).db.applies t i = true) ∧
    ((db.mergeAudienceGroups into src now cut).ending ≠ .done →
      (db.mergeAudienceGroups into src now cut).db.applies t i = db.applies t i) := by
  rw [Db.mergeAudienceGroups]
  split
  case h_2 => exact ⟨fun h => h, fun _ => rfl⟩
  case h_1 target source found found' =>
    split
    case isTrue => exact ⟨fun h => h, fun _ => rfl⟩
    case isFalse ne =>
      have ht : target ∈ db.groups := Table.find?_mem found
      have hs : source ∈ db.groups := Table.find?_mem found'
      split
      case h_1 => exact ⟨fun h => h, fun _ => rfl⟩
      case h_2 r ok =>
        have alike := (of_decide_eq_true fine).resolve_left (not_refusesMerge found found' ne (rescopes_of_ok ok))
        rw [found, found'] at alike
        have ⟨named, clean, saved, alike⟩ := of_decide_eq_true alike
        have each (e) (he : e ∈ db.entries) (accepted : e.status = .accepted) :=
          (of_decide_eq_true (List.all_eq_true.mp alike e he)).resolve_left (not_not.mpr accepted)
        have keeps : db.Keeps source.name target.name := fun e he accepted names => ((each e he accepted).left names).left
        have groups := groups_rescoped ok
        have unnamed {e : EntryRow} {group : String} (h : ¬e.names group = true) :
            ∀ name ∈ e.scope.groups, eqIgnoreAsciiCase name group = false :=
          fun name hname => Bool.eq_false_iff.mpr fun eq => h (EntryRow.names_iff.mpr ⟨name, hname, eq⟩)
        -- An entry that does not name the group that goes keeps its scope.
        have stays {e : EntryRow} (h : ¬e.names source.name = true) : e.followed source.name target.name = e.scope := by
          rw [EntryRow.followed, if_neg h]
        by_cases first : cut = some 1
        case pos =>
          rw [if_pos first]
          have same : r.1.applies t i = db.applies t i :=
            applies_same ok keeps rfl fun e he accepted => by
              have names : ¬e.names source.name = true := fun h => ((each e he accepted).left h).right.right.left first
              rw [stays names, Db.InGroups, groups, Db.InGroups]
          exact ⟨fun h => same.trans h, fun _ => same⟩
        case neg =>
          rw [if_neg first]
          have distinct' : r.1.GroupsDistinct := by rw [Db.GroupsDistinct, groups]; exact distinct
          obtain ⟨db₂, saved_ok, entries₂, groups₂⟩ := saveAudienceGroup_eq
            (target.members ++ source.members.filter (· ∉ target.members)) distinct' (groups ▸ ht) named clean
          simp only [groups] at groups₂
          dsimp only
          rw [saved_ok]
          dsimp only
          have is_saved {m} (hm : m ∈ target.members ++ source.members) : Db.isSaved m = true := List.all_eq_true.mp saved m hm
          have targets : ∀ m ∈ target.members,
              m ∈ savedMembers (target.members ++ source.members.filter (· ∉ target.members)) := fun m hm =>
            mem_savedMembers (List.mem_append_left _ hm) (is_saved (List.mem_append_left _ hm))
          have sources : ∀ m ∈ source.members,
              m ∈ savedMembers (target.members ++ source.members.filter (· ∉ target.members)) := fun m hm => by
            by_cases there : m ∈ target.members
            case pos => exact targets m there
            case neg =>
              exact mem_savedMembers (List.mem_append_right _ (List.mem_filter.mpr ⟨hm, decide_eq_true there⟩))
                (is_saved (List.mem_append_right _ hm))
          by_cases second : cut = some 2
          case pos =>
            rw [if_pos second]
            have same : db₂.applies t i = db.applies t i :=
              applies_same ok keeps entries₂ fun e he accepted => by
                have names : ¬e.names source.name = true := fun h => ((each e he accepted).left h).right.right.right second
                have names' : ¬e.names target.name = true := fun h => (each e he accepted).right h second
                rw [stays names]
                exact inGroups_joined ht groups₂ (unnamed names')
            exact ⟨fun h => same.trans h, fun _ => same⟩
          case neg =>
            rw [if_neg second]
            have entries₃ : (db₂.deleteGroup source.id).entries = r.1.entries := entries₂
            refine ⟨applies_followed ok keeps entries₃ fun e he accepted => ?_, fun h => absurd rfl h⟩
            refine inGroups_merged distinct ht hs ne (fun g' => ?_) targets sources
              fun names => ((each e he accepted).left names).right.left
            rw [Db.deleteGroup, Table.mem_delete, groups₂, decide_eq_false_iff_not]

-- Who an entry applies to once a group is renamed, or merged into another.
theorem groups_keep_entries (distinct : db.GroupsDistinct) :
    (∀ id name now cut, db.renamesAlike id name cut = true → ∀ target i,
      (db.renameAudienceGroup id name now cut).db.applies target i = db.applies target i) ∧
    ∀ into source now cut, db.mergesAlike into source cut = true → ∀ target i,
      (db.applies target i = true → (db.mergeAudienceGroups into source now cut).db.applies target i = true) ∧
      ((db.mergeAudienceGroups into source now cut).ending ≠ .done →
        (db.mergeAudienceGroups into source now cut).db.applies target i = db.applies target i) :=
  ⟨fun _ _ _ _ fine => applies_renamed distinct fine, fun _ _ _ _ fine => applies_merged distinct fine⟩

end Names

section Customers

def toAcme : Target where
  recipients := ["ann@acme.com"]

-- A store with a group, another one, and an entry that is scoped to the first.
def customers : Option Db :=
  (@guide ascii).run (fun _ _ => True) {} [
    .saveGroup { name := "Customers", status := .confirmed, members := ["@acme.com"] },
    .saveGroup { name := "Clients", status := .confirmed, members := ["bea@globex.com"], position := 1 },
    .edit [.add { category := "B1", kind := .rule, statement := "Start with 'Dear'.", scope := { groups := ["Customers"] } }
      .accepted .you none] "add" none 1]

theorem groups_keep_entries_customers : ∃ db : Db, @Db.applies ascii db toAcme 1 = true ∧
    @Db.applies ascii (@Db.renameAudienceGroup ascii db 1 "Buyers" 2 false).db toAcme 1 = true ∧
    @Db.applies ascii (@Db.mergeAudienceGroups ascii db 2 1 2 none).db toAcme 1 = true := by
  have fine : customers.any fun db => db.GroupsDistinct ∧ @Db.applies ascii db toAcme 1 = true ∧
      @Db.renamesAlike ascii db 1 "Buyers" false = true ∧ @Db.mergesAlike ascii db 2 1 none = true := by decide +kernel
  obtain ⟨db, _, h⟩ := (Option.any_eq_true _ _).mp fine
  obtain ⟨distinct, applies, renames, merges⟩ := of_decide_eq_true h
  have keep := @groups_keep_entries ascii db distinct
  exact ⟨db, applies, (keep.left 1 "Buyers" 2 false renames toAcme 1).trans applies,
    (keep.right 2 1 2 none merges toAcme 1).left applies⟩

-- The call that renames a group is cut off when its entries have followed.
theorem cut_off_rename : ¬∀ db : Db, db.GroupsDistinct →
    (∀ id name now cut target i,
      @Db.applies ascii (@Db.renameAudienceGroup ascii db id name now cut).db target i = @Db.applies ascii db target i) ∧
    ∀ into source now cut target i,
      (@Db.applies ascii db target i = true →
        @Db.applies ascii (@Db.mergeAudienceGroups ascii db into source now cut).db target i = true) ∧
      ((@Db.mergeAudienceGroups ascii db into source now cut).ending ≠ .done →
        @Db.applies ascii (@Db.mergeAudienceGroups ascii db into source now cut).db target i =
          @Db.applies ascii db target i) := by
  intro claim
  have lost : customers.any fun db => db.GroupsDistinct ∧ @Db.applies ascii db toAcme 1 = true ∧
      @Db.applies ascii (@Db.renameAudienceGroup ascii db 1 "Buyers" 2 true).db toAcme 1 = false := by decide +kernel
  obtain ⟨db, _, h⟩ := (Option.any_eq_true _ _).mp lost
  obtain ⟨distinct, applies, gone⟩ := of_decide_eq_true h
  have same := (claim db distinct).left 1 "Buyers" 2 true toAcme 1
  rw [applies, gone] at same
  cases same

end Customers

end Kaluta.Guide
