import Kaluta.Guide.Merged
import Kaluta.Guide.Rescoped

-- What learning does to the audience groups, and when a result that is merged again changes nothing.
namespace Kaluta.Guide

-- A name in whatever case it is written.
def folded (name : String) : List Char :=
  name.toList.map Char.toLower

theorem eqIgnoreAsciiCase_iff_folded {s₁ s₂ : String} : eqIgnoreAsciiCase s₁ s₂ = true ↔ folded s₁ = folded s₂ :=
  eqIgnoreAsciiCase_iff

-- Members as they are stored.
def storedMembers [Unicode] (members : List String) : List String :=
  (members.map (toLowercase <| trim ·)).dedup.insertionSort (· ≤ ·)

theorem mem_storedMembers [Unicode] {members : List String} :
    m ∈ storedMembers members ↔ ∃ m' ∈ members, toLowercase (trim m') = m := by
  rw [storedMembers, (List.perm_insertionSort _ _).mem_iff, List.mem_dedup, List.mem_map]

namespace Db

variable {db db' : Db}

-- The group of a name: its status and members.
def standing (db : Db) (name : List Char) : Option (GroupStatus × List String) :=
  (db.groups.rows.find? (folded ·.name = name)).map fun g => (g.status, g.members)

-- An update of one group that leaves its name.
theorem standing_update {old : GroupRow} (hold : old ∈ db.groups) {f : GroupRow → GroupRow} {hf : ∀ g, (f g).id = g.id}
    (found : db.groups.rows.find? (folded ·.name = folded old.name) = some old) (name : ∀ g, (f g).name = g.name) :
    ({ db with groups := db.groups.update (·.id = old.id) f hf } : Db).standing =
      Function.update db.standing (folded old.name) (some ((f old).status, (f old).members)) := by
  funext k
  have keeps_name : ((fun g : GroupRow => decide (folded g.name = k)) ∘ fun g => if g.id = old.id then f g else g) =
      fun g => decide (folded g.name = k) := by
    funext g
    simp only [Function.comp_apply]
    split
    case isTrue  => rw [name]
    case isFalse => rfl
  have mapped : ({ db with groups := db.groups.update (·.id = old.id) f hf } : Db).standing k =
      ((db.groups.rows.find? (folded ·.name = k)).map fun g => if g.id = old.id then f g else g).map
        fun g => (g.status, g.members) := by
    simp only [standing, Table.update, decide_eq_true_eq]
    rw [List.find?_map, keeps_name]
  rw [mapped]
  by_cases hk : k = folded old.name
  case pos =>
    rw [hk, Function.update_self, found, Option.map_some, if_pos rfl]
    rfl
  case neg =>
    rw [Function.update_of_ne hk, standing, Option.map_map]
    refine Option.map_congr fun g hg => ?_
    have ne : g.id ≠ old.id := fun eq => by
      have same := Table.eq_of_key_eq (List.mem_of_find?_eq_some hg) hold eq
      have named : folded g.name = k := by simpa using List.find?_some hg
      exact hk (named.symm.trans (congrArg (folded ·.name) same))
    rw [Function.comp_apply, if_neg ne]

theorem standing_saveGroup [Unicode] (db : Db) (g : GroupRow) :
    (db.saveGroup g).standing =
      Function.update db.standing (folded g.name) (some (g.status, storedMembers g.members)) := by
  have named (g' : GroupRow) : eqIgnoreAsciiCase g'.name g.name = decide (folded g'.name = folded g.name) := rfl
  rw [saveGroup]
  simp only [named]
  split
  case h_1 none =>
    funext k
    by_cases hk : k = folded g.name
    case pos =>
      rw [hk, Function.update_self]
      simp [standing, Table.insertRow, Table.insert, List.find?_append, none, storedMembers]
    case neg =>
      rw [Function.update_of_ne hk]
      simp [standing, Table.insertRow, Table.insert, List.find?_append, Ne.symm hk]
  case h_2 old found =>
    have hold : folded old.name = folded g.name := by simpa using List.find?_some found
    rw [standing_update (List.mem_of_find?_eq_some found) (hold ▸ found) (by exact fun _ => rfl), hold]
    rfl

-- Whether an audience of a result is saved, given the groups that were there before.
def saves (groups : List GroupRow) (a : Audience) : Bool :=
  match groups.find? (eqIgnoreAsciiCase ·.name a.name) with
  | none   => true
  | some g => g.status = .suggested ∧ ∃ m ∈ a.members, m ∉ g.members

-- The members it is saved with.
def written [Unicode] (groups : List GroupRow) (a : Audience) : List String :=
  match groups.find? (eqIgnoreAsciiCase ·.name a.name) with
  | none   => storedMembers a.members
  | some g => storedMembers (g.members ++ (a.members.filter (· ∉ g.members)).reverse.dedup.reverse)

theorem joins_iff {members others : List String} :
    members ++ (others.filter (· ∉ members)).reverse.dedup.reverse ≠ members ↔ ∃ m ∈ others, m ∉ members := by
  rw [ne_eq, List.append_right_eq_self, List.reverse_eq_nil_iff, List.eq_nil_iff_forall_not_mem]
  simp

theorem standing_mergeAudience [Unicode] (groups : List GroupRow) (db : Db) (a : Audience) :
    (db.mergeAudience groups a).standing = Function.update db.standing (folded a.name)
      (if saves groups a then some (.suggested, written groups a) else db.standing (folded a.name)) := by
  rw [mergeAudience, saves, written]
  split
  case h_1 g found =>
    have named : folded g.name = folded a.name := eqIgnoreAsciiCase_iff_folded.mp (by simpa using List.find?_some found)
    simp only [found, joins_iff]
    split
    case isTrue brings =>
      rw [if_pos (decide_eq_true brings), standing_saveGroup, named, brings.left]
    case isFalse keeps =>
      rw [if_neg fun h => keeps (of_decide_eq_true h), Function.update_eq_self]
  case h_2 none => rw [standing_saveGroup]; simp [none]

theorem mergeAudience_eq_self [Unicode] {groups : List GroupRow} {a : Audience} (h : saves groups a = false) :
    db.mergeAudience groups a = db := by
  rw [saves] at h
  rw [mergeAudience]
  split at h
  case h_1 none    => cases h
  case h_2 g found =>
    simp only [found, joins_iff]
    exact if_neg (of_decide_eq_false h)

-- The last audience of a name that is saved.
def lastSaved (groups : List GroupRow) (audiences : List Audience) (name : List Char) : Option Audience :=
  (audiences.filter fun a => folded a.name = name ∧ saves groups a).getLast?

theorem standing_mergeAudiences [Unicode] (groups : List GroupRow) (audiences : List Audience) (db : Db) (k : List Char) :
    (audiences.foldl (mergeAudience groups) db).standing k =
      ((lastSaved groups audiences k).map fun a => some (.suggested, written groups a)).getD (db.standing k) := by
  have step (s : Db) (a : Audience) (_ : a ∈ audiences) := standing_mergeAudience groups s a
  let put (a : Audience) (b : Option (GroupStatus × List String)) :=
    if saves groups a then some (.suggested, written groups a) else b
  rw [List.foldl_update standing (folded ·.name) put step, List.foldl_overwrite, lastSaved, List.filter_filter]
  simp only [Bool.decide_and, Bool.decide_eq_true, Bool.and_comm]

-- Of the audiences that name one group, the last that is saved has all that the others bring.
def Settles [Unicode] (groups : List GroupRow) (audiences : List Audience) : Prop :=
  ∀ a ∈ audiences, saves groups a = true → ∀ last ∈ lastSaved groups audiences (folded a.name), ∀ m ∈ a.members,
    m ∈ last.members ∨ ∃ g ∈ groups.find? (eqIgnoreAsciiCase ·.name a.name), m ∈ storedMembers g.members

theorem distinct_saveGroup [Unicode] (distinct : db.GroupsDistinct) (g : GroupRow) : (db.saveGroup g).GroupsDistinct := by
  rw [saveGroup]
  split
  case h_1 none =>
    have other (g' : GroupRow) (hg' : g' ∈ db.groups) : folded g'.name ≠ folded g.name := fun eq => by
      have := List.find?_eq_none.mp none g' hg'
      exact this (eqIgnoreAsciiCase_iff_folded.mpr eq)
    intro g₁ hg₁ g₂ hg₂ same
    have same := eqIgnoreAsciiCase_iff_folded.mp same
    rcases Table.mem_insertRow.mp hg₁ with hg₁ | rfl <;> rcases Table.mem_insertRow.mp hg₂ with hg₂ | rfl
    · exact distinct g₁ hg₁ g₂ hg₂ (eqIgnoreAsciiCase_iff_folded.mpr same)
    · exact absurd same (other g₁ hg₁)
    · exact absurd same.symm (other g₂ hg₂)
    · rfl
  case h_2 old found =>
    have was {g' : GroupRow} (h : g' ∈ db.groups.update (·.id = old.id) (fun g' => { g' with status := g.status, description := g.description, position := g.position, members := storedMembers g.members }) fun _ => rfl) : ∃ g₀ ∈ db.groups, g₀.id = g'.id ∧ g₀.name = g'.name := by
      rcases Table.mem_update.mp h with ⟨hg, _⟩ | ⟨g₀, hg₀, _, rfl⟩
      · exact ⟨g', hg, rfl, rfl⟩
      · exact ⟨g₀, hg₀, rfl, rfl⟩
    intro g₁ hg₁ g₂ hg₂ same
    obtain ⟨g₁', hg₁', id₁, name₁⟩ := was hg₁
    obtain ⟨g₂', hg₂', id₂, name₂⟩ := was hg₂
    rw [← name₁, ← name₂] at same
    rw [← id₁, ← id₂]
    exact distinct g₁' hg₁' g₂' hg₂' same

theorem distinct_mergeAudience [Unicode] (distinct : db.GroupsDistinct) (groups : List GroupRow) (a : Audience) :
    (db.mergeAudience groups a).GroupsDistinct := by
  rw [mergeAudience]
  split
  case h_1 =>
    dsimp only
    split
    case isTrue  => exact distinct_saveGroup distinct _
    case isFalse => exact distinct
  case h_2 => exact distinct_saveGroup distinct _

theorem find_listGroups (distinct : db.GroupsDistinct) (name : String) :
    (db.listGroups.find? (eqIgnoreAsciiCase ·.name name)).map (fun g => (g.status, g.members)) = db.standing (folded name) := by
  rw [standing]
  congr 1
  have only {g g' : GroupRow} (hg : g ∈ db.groups) (hg' : g' ∈ db.groups) (eq : folded g.name = folded name)
      (eq' : folded g'.name = folded name) : g = g' :=
    Table.eq_of_key_eq hg hg' (distinct g hg g' hg' (eqIgnoreAsciiCase_iff_folded.mpr (eq.trans eq'.symm)))
  have mem {g : GroupRow} : g ∈ db.listGroups ↔ g ∈ db.groups := (List.perm_insertionSort _ _).mem_iff
  cases found : db.groups.rows.find? (folded ·.name = folded name)
  case none =>
    refine List.find?_eq_none.mpr fun g hg eq => ?_
    have := List.find?_eq_none.mp found g (mem.mp hg)
    exact this (decide_eq_true (eqIgnoreAsciiCase_iff_folded.mp eq))
  case some g =>
    have hg : g ∈ db.groups := List.mem_of_find?_eq_some found
    have named : folded g.name = folded name := by simpa using List.find?_some found
    cases found' : db.listGroups.find? (eqIgnoreAsciiCase ·.name name)
    case none =>
      exact absurd (eqIgnoreAsciiCase_iff_folded.mpr named) (List.find?_eq_none.mp found' g (mem.mpr hg))
    case some g' =>
      have named' := eqIgnoreAsciiCase_iff_folded.mp (by simpa using List.find?_some found')
      rw [only (mem.mp (List.mem_of_find?_eq_some found')) hg named' named]

theorem saves_iff (distinct : db.GroupsDistinct) {a : Audience} : saves db.listGroups a = true ↔
    ∀ g ∈ db.standing (folded a.name), g.1 = .suggested ∧ ∃ m ∈ a.members, m ∉ g.2 := by
  rw [← find_listGroups distinct, saves]
  split
  case h_1 none    => simp [none]
  case h_2 g found => simp [found]

section Again

variable [Unicode] {audiences : List Audience}

-- The members of an audience as a result has them.
def Audience.Plain (a : Audience) : Prop :=
  ∀ m ∈ a.members, toLowercase (trim m) = m

theorem mem_written {groups : List GroupRow} {a : Audience} (plain : Audience.Plain a) (hm : toLowercase (trim m) = m) :
    m ∈ written groups a ↔
      m ∈ a.members ∨ ∃ g ∈ groups.find? (eqIgnoreAsciiCase ·.name a.name), m ∈ storedMembers g.members := by
  have stored : m ∈ storedMembers a.members ↔ m ∈ a.members := by
    rw [mem_storedMembers]
    constructor
    · rintro ⟨m', hm', rfl⟩
      exact (plain m' hm').symm ▸ hm'
    · exact fun h => ⟨m, h, hm⟩
  rw [written]
  split
  case h_1 none    => simp [none, stored]
  case h_2 g found =>
    simp only [found, Option.mem_def, Option.some.injEq, exists_eq_left', mem_storedMembers, List.mem_append,
      List.mem_reverse, List.mem_dedup, List.mem_filter, decide_eq_true_eq]
    constructor
    · rintro ⟨m', hm' | ⟨hm', _⟩, rfl⟩
      · exact .inr ⟨m', hm', rfl⟩
      · exact .inl ((plain m' hm').symm ▸ hm')
    · rintro (h | ⟨m', hm', rfl⟩)
      · by_cases there : m ∈ g.members
        · exact ⟨m, .inl there, hm⟩
        · exact ⟨m, .inr ⟨h, there⟩, hm⟩
      · exact ⟨m', .inl hm', rfl⟩

omit [Unicode] in
theorem lastSaved_eq_some {groups : List GroupRow} {k : List Char} {a : Audience} (h : lastSaved groups audiences k = some a) :
    a ∈ audiences ∧ folded a.name = k ∧ saves groups a = true := by
  have ⟨ha, keeps⟩ := List.mem_filter.mp (List.mem_of_getLast? h)
  exact ⟨ha, of_decide_eq_true keeps⟩

omit [Unicode] in
theorem lastSaved_isSome {groups : List GroupRow} {a : Audience} (ha : a ∈ audiences) (saved : saves groups a = true) :
    ∃ last, lastSaved groups audiences (folded a.name) = some last := by
  have mem : a ∈ audiences.filter fun b => folded b.name = folded a.name ∧ saves groups b :=
    List.mem_filter.mpr ⟨ha, decide_eq_true ⟨rfl, saved⟩⟩
  exact Option.isSome_iff_exists.mp (List.getLast?_isSome.mpr (List.ne_nil_of_mem mem))

omit [Unicode] in
theorem find_congr {groups : List GroupRow} {a b : Audience} (h : folded a.name = folded b.name) :
    groups.find? (eqIgnoreAsciiCase ·.name a.name) = groups.find? (eqIgnoreAsciiCase ·.name b.name) := by
  have same (g : GroupRow) : eqIgnoreAsciiCase g.name a.name = eqIgnoreAsciiCase g.name b.name := by
    rw [Bool.eq_iff_iff, eqIgnoreAsciiCase_iff_folded, eqIgnoreAsciiCase_iff_folded, h]
  simp only [same]

-- Nothing is saved the second time exactly if the last audience of a name has what the others bring.
theorem settles_iff (distinct : db.GroupsDistinct) (plain : ∀ a ∈ audiences, Audience.Plain a)
    (merged : audiences.foldl (mergeAudience db.listGroups) db = db') :
    (∀ a ∈ audiences, saves db'.listGroups a = false) ↔ Settles db.listGroups audiences := by
  have distinct' : db'.GroupsDistinct := merged ▸
    List.foldl_preserves (P := Db.GroupsDistinct) (fun a _ ih => distinct_mergeAudience ih db.listGroups a) distinct
  have after (k) := standing_mergeAudiences db.listGroups audiences db k
  rw [merged] at after
  refine forall₂_congr fun a ha => ?_
  rw [← Bool.not_eq_true, saves_iff distinct', after]
  cases hlast : lastSaved db.listGroups audiences (folded a.name)
  case none =>
    have unsaved : ¬saves db.listGroups a = true := fun saved => by
      have ⟨_, last⟩ := lastSaved_isSome ha saved
      exact nomatch hlast.symm.trans last
    refine iff_of_true ?_ fun saved => absurd saved unsaved
    rw [saves_iff distinct] at unsaved
    exact unsaved
  case some last =>
    have ⟨hmem, named, saved⟩ := lastSaved_eq_some hlast
    have brings (m) (hm : toLowercase (trim m) = m) : m ∈ written db.listGroups last ↔
        m ∈ last.members ∨ ∃ g ∈ db.listGroups.find? (eqIgnoreAsciiCase ·.name a.name), m ∈ storedMembers g.members := by
      rw [mem_written (plain last hmem) hm, find_congr named]
    simp only [Option.map_some, Option.getD_some, Option.mem_def, Option.some.injEq, forall_eq', true_and, not_exists,
      not_and, not_not]
    constructor
    case mp => exact fun all _ m hm => (brings m (plain a ha m hm)).mp (all m hm)
    case mpr =>
      intro settled m hm
      refine (brings m (plain a ha m hm)).mpr ?_
      cases saved : saves db.listGroups a
      case true  => exact settled saved m hm
      case false =>
        rw [saves] at saved
        split at saved
        case h_1 => cases saved
        case h_2 g found =>
          -- The group is suggested, as another audience of its name is saved.
          have last_saved := (lastSaved_eq_some hlast).right.right
          rw [saves, find_congr named, found] at last_saved
          have suggested := (of_decide_eq_true last_saved).left
          have there : m ∈ g.members := by
            have kept := of_decide_eq_false saved
            push Not at kept
            exact kept suggested m hm
          exact .inr ⟨g, found, mem_storedMembers.mpr ⟨m, there, plain a ha m hm⟩⟩

-- A second merge that saves an audience changes its group.
theorem standing_again (distinct : db.GroupsDistinct) (plain : ∀ a ∈ audiences, Audience.Plain a) {a : Audience}
    (ha : a ∈ audiences) (saved : saves db.listGroups a = true) :
    (audiences.foldl (mergeAudience db.listGroups) db).groups ≠ db.groups := by
  intro same
  have ⟨last, hlast⟩ := lastSaved_isSome ha saved
  have after := standing_mergeAudiences db.listGroups audiences db (folded a.name)
  have unchanged : (audiences.foldl (mergeAudience db.listGroups) db).standing (folded a.name) = db.standing (folded a.name) := by
    rw [standing, standing, same]
  rw [unchanged, hlast, Option.map_some, Option.getD_some] at after
  have ⟨hmem, named, last_saved⟩ := lastSaved_eq_some hlast
  rw [saves_iff distinct, named, after] at last_saved
  have ⟨_, m, hm, new⟩ := last_saved _ rfl
  exact new ((mem_written (plain last hmem) (plain last hmem m hm)).mpr (.inl hm))

-- Groups that the user confirmed or rejected are theirs.
theorem kept_mergeAudiences (distinct : db.GroupsDistinct) (audiences : List Audience) {g : GroupRow} (hg : g ∈ db.groups)
    (theirs : g.status ≠ .suggested) : g ∈ (audiences.foldl (mergeAudience db.listGroups) db).groups := by
  refine List.foldl_preserves (P := fun db' : Db => g ∈ db'.groups) (fun {s} a _ ih => ?_) hg
  have saved (g' : GroupRow) (named : folded g'.name = folded a.name) (other : folded a.name ≠ folded g.name) :
      g ∈ (s.saveGroup g').groups := by
    rw [saveGroup]
    split
    case h_1 => exact Table.mem_insertRow.mpr (.inl ih)
    case h_2 old found =>
      have ne : g.id ≠ old.id := fun eq => by
        have same := Table.eq_of_key_eq ih (List.mem_of_find?_eq_some found) eq
        have this := eqIgnoreAsciiCase_iff_folded.mp (by simpa using List.find?_some found)
        exact other (named.symm.trans (this.symm.trans (congrArg (folded ·.name) same.symm)))
      simp only [Table.mem_update]
      exact .inl ⟨ih, decide_eq_false ne⟩
  have here : folded a.name = folded g.name → db.listGroups.find? (eqIgnoreAsciiCase ·.name a.name) = some g := fun eq => by
    have mem : g ∈ db.listGroups := (List.perm_insertionSort _ _).mem_iff.mpr hg
    cases found : db.listGroups.find? (eqIgnoreAsciiCase ·.name a.name)
    case none => exact absurd (eqIgnoreAsciiCase_iff_folded.mpr eq.symm) (List.find?_eq_none.mp found g mem)
    case some g' =>
      have named := eqIgnoreAsciiCase_iff_folded.mp (by simpa using List.find?_some found)
      have hg' : g' ∈ db.groups := (List.perm_insertionSort _ _).mem_iff.mp (List.mem_of_find?_eq_some found)
      rw [Table.eq_of_key_eq hg' hg (distinct g' hg' g hg (eqIgnoreAsciiCase_iff_folded.mpr (named.trans eq)))]
  by_cases eq : folded a.name = folded g.name
  case pos =>
    have unsaved : saves db.listGroups a = false := by
      rw [saves, here eq]
      exact decide_eq_false fun h => theirs h.left
    rwa [mergeAudience_eq_self unsaved]
  case neg =>
    rw [mergeAudience]
    split
    case h_1 g' found =>
      dsimp only
      split
      case isTrue  => exact saved _ (eqIgnoreAsciiCase_iff_folded.mp (by simpa using List.find?_some found)) eq
      case isFalse => exact ih
    case h_2 => exact saved _ rfl eq

-- Audiences leave the entries as they are.
theorem entries_mergeAudiences (groups : List GroupRow) (audiences : List Audience) (db : Db) :
    (audiences.foldl (mergeAudience groups) db).entries = db.entries ∧
      (audiences.foldl (mergeAudience groups) db).lastEntryId = db.lastEntryId := by
  have saved (db : Db) (g : GroupRow) : (db.saveGroup g).entries = db.entries ∧ (db.saveGroup g).lastEntryId = db.lastEntryId := by
    rw [saveGroup]
    split <;> exact ⟨rfl, rfl⟩
  refine List.foldl_preserves (P := fun db' : Db => db'.entries = db.entries ∧ db'.lastEntryId = db.lastEntryId)
    (fun {s} a _ ih => ?_) ⟨rfl, rfl⟩
  have through (g : GroupRow) : (s.saveGroup g).entries = db.entries ∧ (s.saveGroup g).lastEntryId = db.lastEntryId :=
    ⟨(saved s g).left.trans ih.left, (saved s g).right.trans ih.right⟩
  rw [mergeAudience]
  split
  case h_1 =>
    dsimp only
    split
    case isTrue  => exact through _
    case isFalse => exact ih
  case h_2 => exact through _

-- At most one proposal of a category and a statement.
def OneProposed (db : Db) : Prop :=
  ∀ e ∈ db.entries, ∀ e' ∈ db.entries, e.status = .proposed → e'.status = .proposed → e.category = e'.category →
    norm e.statement = norm e'.statement → e = e'

-- What is promised of a merge.
structure MergedWell (run : RunId) (found : Found) (db db' : Db) : Prop where
  kept     : ∀ e ∈ db.entries, e.status ≠ .proposed → ∃ e' ∈ db'.entries, e.Recounted e'
  rejected : ∀ e' ∈ db'.entries, e'.status = .proposed → (∃ e ∈ db.entries, e.status = .proposed ∧ e.id = e'.id) ∨
    ∀ e ∈ db.entries, e.status = .rejected → e.category = e'.category → norm e.statement ≠ norm e'.statement
  one      : db'.OneProposed
  groups   : ∀ g ∈ db.groups, g.status ≠ .suggested → g ∈ db'.groups
  again    : ∀ now, (db'.merge run found now).map (·.1) = .ok db'

theorem Merged.one_iff (h : Merged db db') : db'.OneProposed ↔ db.OneProposed := by
  constructor
  · intro one e he f hf proposed proposed' category norm
    have ⟨e', he', same⟩ := h.extends_.kept e he
    have ⟨f', hf', same'⟩ := h.extends_.kept f hf
    have fields := same.fields_eq
    have fields' := same'.fields_eq
    have eq : e' = f' := by
      refine one e' he' f' hf' (same.status_eq.trans proposed) (same'.status_eq.trans proposed') ?_ ?_
      · rw [fields, fields', category]
      · rw [fields, fields', norm]
    exact Table.eq_of_key_eq he hf (same.id_eq.symm.trans (eq ▸ same'.id_eq))
  · intro one e' he' f' hf' proposed proposed' category norm
    rcases h.made e' he' with ⟨e, he, same⟩ | ⟨_, only⟩
    · rcases h.made f' hf' with ⟨f, hf, same'⟩ | ⟨_, only⟩
      · rw [same.fields_eq, same'.fields_eq] at category norm
        have eq : e = f := one e he f hf (same.status_eq.symm.trans proposed) (same'.status_eq.symm.trans proposed') category norm
        exact Table.eq_of_key_eq he' hf' (same.id_eq.trans (eq ▸ same'.id_eq.symm))
      · exact only e' he' category norm
    · exact (only f' hf' category.symm norm.symm).symm

theorem Merged.rejected (h : Merged db db') : ∀ e' ∈ db'.entries, e'.status = .proposed →
    (∃ e ∈ db.entries, e.status = .proposed ∧ e.id = e'.id) ∨
      ∀ e ∈ db.entries, e.status = .rejected → e.category = e'.category → norm e.statement ≠ norm e'.statement := by
  intro e' he' proposed
  rcases h.made e' he' with ⟨e, he, same⟩ | ⟨_, only⟩
  · exact .inl ⟨e, he, same.status_eq.symm.trans proposed, same.id_eq.symm⟩
  · refine .inr fun e he rejected category norm => ?_
    have ⟨f, hf, same⟩ := h.extends_.kept e he
    have eq : f = e' := by
      refine only f hf ?_ ?_
      · rw [same.fields_eq, category]
      · rw [same.fields_eq, norm]
    rw [← eq, same.status_eq, rejected] at proposed
    cases proposed

-- A merge does what is promised of it exactly if no statement was proposed twice before, and the last audience of each
-- group that is saved has all that the others bring.
theorem merge_exact_iff {found : Found} (distinct : db.GroupsDistinct) (plain : ∀ a ∈ found.audiences, Audience.Plain a)
    (known : ∀ p ∈ found.proposals, db.Known p) (run : RunId) (now : Millis) :
    ∃ db' n, db.merge run found now = .ok (db', n) ∧
      (MergedWell run found db db' ↔ db.OneProposed ∧ Settles db.listGroups found.audiences) := by
  obtain ⟨entries, last⟩ := entries_mergeAudiences db.listGroups found.audiences db
  have settles := settles_iff distinct plain rfl
  have distinct₁ : (found.audiences.foldl (mergeAudience db.listGroups) db).GroupsDistinct :=
    List.foldl_preserves (P := Db.GroupsDistinct) (fun a _ ih => distinct_mergeAudience ih db.listGroups a) distinct
  have theirs {g} := kept_mergeAudiences distinct found.audiences (g := g)
  have first : db.merge run found now =
      found.proposals.foldlM (mergeProposal run now) (found.audiences.foldl (mergeAudience db.listGroups) db, 0) := rfl
  generalize found.audiences.foldl (mergeAudience db.listGroups) db = db₁ at *
  have known₁ : ∀ p ∈ found.proposals, db₁.Known p := fun p hp => by
    have := known p hp
    rwa [Known, lastId, ← entries, ← last] at this
  obtain ⟨db', n, ok, merged, absorbed⟩ := mergeProposals_spec found.proposals known₁ run now 0
  have groups_eq : db'.listGroups = db₁.listGroups := by rw [listGroups, listGroups, merged.groups]
  refine ⟨db', n, first.trans ok, ?_⟩
  have one : db'.OneProposed ↔ db.OneProposed := merged.one_iff.trans (by rw [OneProposed, OneProposed, entries])
  have again : (∀ now, (db'.merge run found now).map (·.1) = .ok db') ↔ Settles db.listGroups found.audiences := by
    rw [← settles, ← groups_eq]
    have distinct' : db'.GroupsDistinct := by rwa [GroupsDistinct, merged.groups]
    constructor
    case mp =>
      intro again a ha
      by_contra saved
      obtain ⟨entries', last'⟩ := entries_mergeAudiences db'.listGroups found.audiences db'
      have changes := standing_again distinct' plain ha (by simpa using saved)
      have same := again 0
      rw [merge] at same
      generalize found.audiences.foldl (mergeAudience db'.listGroups) db' = db₂ at *
      have known₂ : ∀ p ∈ found.proposals, db₂.Known p := fun p hp => by
        have := (known₁ p hp).mono merged.extends_
        rwa [Known, lastId, ← entries', ← last'] at this
      obtain ⟨db₃, _, ok₃, merged₃, _⟩ := mergeProposals_spec found.proposals known₂ run 0 0
      rw [ok₃] at same
      cases same
      exact changes merged₃.groups.symm
    case mpr =>
      intro unsaved now
      have audiences : found.audiences.foldl (mergeAudience db'.listGroups) db' = db' :=
        List.foldl_preserves (P := (· = db')) (fun a ha ih => ih.symm ▸ mergeAudience_eq_self (unsaved a ha)) rfl
      rw [merge, audiences, mergeProposals_unchanged found.proposals absorbed run now 0]
      rfl
  constructor
  · exact fun well => ⟨one.mp well.one, again.mp well.again⟩
  · rintro ⟨once, settled⟩
    refine ⟨fun e he _ => ?_, ?_, one.mpr once, fun g hg own => ?_, again.mpr settled⟩
    · exact merged.extends_.kept e (entries ▸ he)
    · exact entries ▸ merged.rejected
    · exact merged.groups ▸ theirs hg own

end Again

-- A store with an accepted and a rejected entry, and a confirmed group.
def reviewed : Option Db :=
  (@guide ascii).run (fun _ _ => True) {} [
    .saveGroup { name := "Customers", status := .confirmed, members := ["ada@x.com"] },
    .edit [.add { category := "B1", kind := .rule, statement := "Start with 'Hi'." } .accepted .you none,
      .add { category := "B2", kind := .rule, statement := "End with 'Best'." } .rejected .learned none] "add" none 1]

-- A batch that finds both again and something new, and names who is in that group and in another one.
def foundAgain : Found where
  proposals := [
    { fields := { category := "B1", kind := .rule, statement := "start with 'hi'" }
      evidence := [{ messageId := "m1", quote := "Hi Bo" }] },
    { fields := { category := "B2", kind := .rule, statement := "End with 'Best'" }
      evidence := [{ messageId := "m1", quote := "Best" }] },
    { fields := { category := "B1", kind := .rule, statement := "Ask one question." }
      evidence := [{ messageId := "m2", quote := "When?" }] }]
  audiences := [
    { name := "customers", description := "Who buys", members := ["bo@y.com"] },
    { name := "Suppliers", description := "Who sells", members := ["eve@z.com"] }]

theorem merge_exact_reviewed : ∃ db db' n, reviewed = some db ∧ @merge ascii db 1 foundAgain 10 = .ok (db', n) ∧
    db'.entries.rows.map (fun e => (e.statement, e.status)) =
      [("Start with 'Hi'.", .accepted), ("End with 'Best'.", .rejected), ("Ask one question.", .proposed)] ∧
    db'.groups.rows.map (fun g => (g.name, g.members)) = [("Customers", ["ada@x.com"]), ("Suppliers", ["eve@z.com"])] ∧
    @MergedWell ascii 1 foundAgain db db' := by
  let _ : Unicode := ascii
  have fine : reviewed.any fun db => db.GroupsDistinct ∧ (db.entries.rows.all (·.status ≠ .proposed)) ∧
      (foundAgain.audiences.all fun a => !saves db.listGroups a ||
        (lastSaved db.listGroups foundAgain.audiences (folded a.name)).all fun last => a.members.all (· ∈ last.members)) ∧
      ((db.merge 1 foundAgain 10).toOption.any fun r =>
        r.1.entries.rows.map (fun e => (e.statement, e.status)) =
          [("Start with 'Hi'.", .accepted), ("End with 'Best'.", .rejected), ("Ask one question.", .proposed)] ∧
        r.1.groups.rows.map (fun g => (g.name, g.members)) =
          [("Customers", ["ada@x.com"]), ("Suppliers", ["eve@z.com"])]) := by decide +kernel
  obtain ⟨db, is, h⟩ := (Option.any_eq_true _ _).mp fine
  obtain ⟨distinct, decided, settles, merges⟩ := of_decide_eq_true h
  have plain : ∀ a ∈ foundAgain.audiences, Audience.Plain a := by
    have all : foundAgain.audiences.all fun a => a.members.all fun m => toLowercase (trim m) = m := by decide
    exact fun a ha m hm => of_decide_eq_true (List.all_eq_true.mp (List.all_eq_true.mp all a ha) m hm)
  have known : ∀ p ∈ foundAgain.proposals, db.Known p := by
    have none : ∀ p ∈ foundAgain.proposals, p.supports = none ∧ p.contradicts = none := by decide
    intro p hp
    rw [Known, (none p hp).left, (none p hp).right]
    exact ⟨nofun, nofun⟩
  have once : db.OneProposed := fun e he _ _ proposed =>
    absurd proposed (of_decide_eq_true (List.all_eq_true.mp decided e he))
  have settled : Settles db.listGroups foundAgain.audiences := by
    intro a ha saved last hlast m hm
    have covers := List.all_eq_true.mp settles a ha
    rw [saved, Bool.not_true, Bool.false_or, Option.mem_def.mp hlast, Option.all_some] at covers
    exact .inl (of_decide_eq_true (List.all_eq_true.mp covers m hm))
  obtain ⟨db', n, ok, iff⟩ := merge_exact_iff distinct plain known 1 10
  rw [ok] at merges
  obtain ⟨entries, groups⟩ := of_decide_eq_true merges
  exact ⟨db, db', n, is, ok, entries, groups, iff.mpr ⟨once, settled⟩⟩

-- A batch that names one audience twice.
def foundTwice : Found where
  proposals := []
  audiences := [{ name := "Customers", description := "", members := ["ada@x.com"] },
                { name := "customers", description := "", members := ["bo@y.com"] }]

-- Merging it again adds the member that the first merge lost.
theorem merged_again_changes : ∃ db n db' n', @merge ascii {} 1 foundTwice 10 = .ok (db, n) ∧
    @merge ascii db 1 foundTwice 20 = .ok (db', n') ∧ db.groups.rows.map (·.members) = [["bo@y.com"]] ∧
    db'.groups.rows.map (·.members) = [["ada@x.com", "bo@y.com"]] :=
  ⟨_, _, _, _, rfl, rfl, by decide, by decide⟩

end Db

end Kaluta.Guide
