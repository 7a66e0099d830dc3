import Kaluta.Facts.Apart

-- What a store's facts and categories are called: clean names, and never none.
namespace Kaluta.Facts

open Guide (trim cleanText trim_trim cleanText_cleanText)

-- A label that is kept as it is, and a value that is more than blanks.
structure FactRow.Tidy (f : FactRow) : Prop where
  label : cleanText f.label = f.label
  named : f.label ≠ ""
  value : trim f.value ≠ ""

structure CategoryRow.Tidy (c : CategoryRow) : Prop where
  name  : c.builtin = false → cleanText c.name = c.name
  named : c.builtin = false → c.name ≠ ""

structure Snapshot.Tidy (s : Snapshot) : Prop where
  facts            : ∀ r ∈ s.facts, r.1.Tidy
  categories       : ∀ c ∈ s.categories, c.Tidy
  globalFacts      : ∀ r ∈ s.globalFacts, r.1.Tidy
  globalCategories : ∀ c ∈ s.globalCategories, c.Tidy

structure Change.Tidy (c : Change) : Prop where
  before : c.before.Tidy
  after  : c.after.Tidy

structure Db.Tidy (db : Db) : Prop where
  facts      : ∀ f ∈ db.facts, f.Tidy
  categories : ∀ c ∈ db.categories, c.Tidy
  changes    : ∀ c ∈ db.changes, c.Tidy

-- An edit that has been validated gives a fact a label and a value.
def FactEdit.Valid (e : FactEdit) : Prop :=
  ∀ fields, e.fields = some fields → cleanText fields.label ≠ "" ∧ trim fields.value ≠ ""

def Call.Tidy : Call → Prop
  | .applying _ edits _ _                         => ∀ e ∈ edits, e.Valid
  | .copying _ fact _ category                    => fact.Tidy ∧ ∀ c ∈ category, c.Tidy
  | .recording _ fact _ moved before after        => fact.Tidy ∧ moved.1.Tidy ∧ (∀ c ∈ before, c.Tidy) ∧ ∀ c ∈ after, c.Tidy
  | .removing _ _                                 => True
  | .replaying _ change _ | .finishing _ change _ => change.Tidy

structure State.Tidy (s : State) : Prop where
  account : s.account.Tidy
  global  : s.global.Tidy
  calls   : ∀ c ∈ s.calls, c.Tidy

variable {db db' : Db} {f : FactRow} {c : CategoryRow} {id : FactId} {target : Snapshot}

namespace Db

theorem Tidy.get (h : db.Tidy) (eq : db.get id = some f) : f.Tidy :=
  h.facts f (Table.find?_mem eq)

theorem Tidy.getCategory (h : db.Tidy) (eq : db.getCategory key = some c) : c.Tidy :=
  h.categories c (Table.find?_mem eq)

theorem Tidy.insert (h : db.Tidy) (tidy : f.Tidy) (eq : db.insert f = .ok (db', id)) : db'.Tidy := by
  rw [Db.insert] at eq
  split at eq
  case h_1 => cases eq
  case h_2 facts inserted =>
    cases eq
    refine ⟨fun g hg => ?_, h.categories, h.changes⟩
    rcases (Table.mem_insert? inserted).mp hg with hg | rfl
    case inl => exact h.facts g hg
    case inr => exact ⟨tidy.label, tidy.named, tidy.value⟩

theorem Tidy.write (h : db.Tidy) (tidy : f.Tidy) : (db.write f).Tidy where
  facts g hg := by
    simp only [Db.write, Table.mem_update] at hg
    rcases hg with ⟨hg, _⟩ | ⟨_, _, _, rfl⟩
    · exact h.facts g hg
    · exact ⟨tidy.label, tidy.named, tidy.value⟩
  categories := h.categories
  changes    := h.changes

theorem Tidy.delete (h : db.Tidy) : (db.delete id).Tidy where
  facts g hg := h.facts g (Table.mem_delete.mp hg).left
  categories := h.categories
  changes    := h.changes

theorem Tidy.putCategory (h : db.Tidy) (tidy : c.Tidy) : (db.putCategory c).Tidy where
  facts        := h.facts
  categories d hd := (Table.mem_replace.mp hd).elim (fun old => h.categories d old.left) fun new => new ▸ tidy
  changes      := h.changes

theorem Tidy.deleteCategory (h : db.Tidy) : (db.deleteCategory key).Tidy where
  facts           := h.facts
  categories d hd := h.categories d (Table.mem_delete.mp hd).left
  changes         := h.changes

theorem Tidy.snapshot (h : db.Tidy) (ids : List FactId) (keys : List String) : (db.snapshot ids keys).Tidy where
  facts r hr := by
    obtain ⟨id, _, eq⟩ := List.mem_filterMap.mp hr
    obtain ⟨f, get, rfl⟩ := Option.map_eq_some_iff.mp eq
    exact h.get get
  categories c hc := by
    obtain ⟨key, _, eq⟩ := List.mem_filterMap.mp hc
    exact h.getCategory eq
  globalFacts _ hr      := absurd hr List.not_mem_nil
  globalCategories _ hc := absurd hc List.not_mem_nil

theorem Tidy.recordChange (h : db.Tidy) {before after : Snapshot} (hb : before.Tidy) (ha : after.Tidy) :
    (db.recordChange reason before after).1.Tidy where
  facts        := h.facts
  categories   := h.categories
  changes c hc := by
    rcases List.mem_cons.mp (List.mem_filter.mp hc).left with rfl | old
    · exact ⟨hb, ha⟩
    · exact h.changes c old

theorem Tidy.put (h : db.Tidy) (tidy : f.Tidy) (eq : db.put f = .ok db') : db'.Tidy := by
  rw [Db.put] at eq
  split at eq
  case isTrue  => cases eq; exact h.write tidy
  case isFalse =>
    obtain ⟨⟨_, _⟩, inserted, rfl⟩ := Except.map_eq_ok.mp eq
    exact h.insert tidy inserted

theorem Tidy.restoreFact (h : db.Tidy) (tidy : ∀ r ∈ target.facts, r.1.Tidy) (eq : Db.restoreFact target db id = .ok db') :
    db'.Tidy := by
  rw [Db.restoreFact] at eq
  split at eq
  case h_1 => cases eq; exact h.delete
  case h_2 r quotes found =>
    obtain ⟨db₁, put, eq⟩ := Except.bind_eq_ok.mp eq
    cases eq
    have kept := h.put (tidy _ (List.mem_of_find?_eq_some found)) put
    exact ⟨kept.facts, kept.categories, kept.changes⟩

theorem Tidy.restore (h : db.Tidy) (facts : ∀ r ∈ target.facts, r.1.Tidy) (categories : ∀ c ∈ target.categories, c.Tidy)
    (eq : db.restore ids keys target = .ok db') : db'.Tidy := by
  have ⟨db₁, restored, eq⟩ := Except.bind_eq_ok.mp eq
  cases eq
  have kept : db₁.Tidy := List.foldlM_preserves (P := Db.Tidy) restored (fun _ _ tidy step => tidy.restoreFact facts step) h
  refine List.foldl_preserves (P := Db.Tidy) (fun key _ tidy => ?_) kept
  rw [restoreCategory]
  split
  case h_1 c found => exact tidy.putCategory (categories c (List.mem_of_find?_eq_some found))
  case h_2         => exact tidy.deleteCategory

end Db

theorem tidy_foldlM_db {α : Type u} {step : Editing → α → Except String Editing} {as : List α} {c c' : Editing}
    (h : as.foldlM step c = .ok c') (tidy : c.db.Tidy)
    (each : ∀ a ∈ as, ∀ c c', c.db.Tidy → step c a = .ok c' → c'.db.Tidy) : c'.db.Tidy :=
  List.foldlM_preserves (P := fun d : Editing => d.db.Tidy) h (fun a ha ih step => each a ha _ _ ih step) tidy

theorem Db.Tidy.category [Letters] {c c' : Editing} {edit : CategoryEdit} (h : c.db.Tidy)
    (eq : c.category stored now edit = .ok c') : c'.db.Tidy := by
  cases edit
  case add name description =>
    simp only [Editing.category] at eq
    split at eq
    case isTrue => cases eq
    case isFalse named =>
      split at eq
      case isTrue  => cases eq
      case isFalse => cases eq; exact h.putCategory ⟨fun _ => cleanText_cleanText name, fun _ => named⟩
  case update key name description =>
    simp only [Editing.category] at eq
    split at eq
    case h_1 => cases eq
    case h_2 =>
      split at eq
      case isTrue        => cases eq
      case isFalse named => cases eq; exact h.putCategory ⟨fun _ => cleanText_cleanText name, fun _ => named⟩
  case hide key hidden =>
    simp only [Editing.category] at eq
    split at eq
    case h_1 row there =>
      cases eq
      have tidy := h.getCategory there
      exact h.putCategory ⟨tidy.name, tidy.named⟩
    case h_2 => cases eq; exact h.putCategory ⟨fun custom => Bool.noConfusion custom, fun custom => Bool.noConfusion custom⟩
    case h_3 => cases eq
  case reorder keys =>
    cases eq
    refine List.foldl_preserves (P := Db.Tidy) (fun k _ tidy => ?_) h
    split
    case h_1 row found =>
      have there := tidy.getCategory (Option.filter_eq_some_iff.mp found).left
      exact tidy.putCategory ⟨there.name, there.named⟩
    case h_2 => exact tidy
  case delete key =>
    simp only [Editing.category] at eq
    split at eq
    case isTrue  => cases eq
    case isFalse =>
      cases eq
      refine Db.Tidy.deleteCategory (List.foldl_preserves (P := Db.Tidy) (fun f hf tidy => ?_) h)
      split
      case isTrue =>
        have there := h.facts f (List.mem_filter.mp hf).left
        exact tidy.write ⟨there.label, there.named, there.value⟩
      case isFalse => exact tidy

theorem Db.Tidy.fact {c c' : Editing} {edit : FactEdit} (h : c.db.Tidy) (valid : edit.Valid)
    (eq : c.fact now edit = .ok c') : c'.db.Tidy := by
  have given {fields : FactFields} (get : edit.fields = some fields) (g : FactRow) (label : g.label = cleanText fields.label)
      (value : g.value = trim fields.value) : g.Tidy := by
    have ⟨named, ne⟩ := valid fields get
    rw [← label] at named
    exact ⟨by rw [label, cleanText_cleanText], named, by rwa [value, trim_trim]⟩
  cases edit
  case add fields status source =>
    have ⟨⟨db, id⟩, inserted, eq⟩ := Except.bind_eq_ok.mp eq
    cases eq
    exact h.insert (given rfl _ rfl rfl) inserted
  case update id fields =>
    have ⟨old, there, eq⟩ := Except.bind_eq_ok.mp eq
    cases eq
    exact h.write (given rfl _ rfl rfl)
  case delete id => cases eq; exact h.delete
  all_goals
    have ⟨old, there, eq⟩ := Except.bind_eq_ok.mp eq
    cases eq
    have tidy := h.facts old (existing_eq_ok there).left
    exact h.write ⟨tidy.label, tidy.named, tidy.value⟩

theorem Db.Tidy.applyFacts [Letters] {r : Db × ChangeId} (h : db.Tidy) (valid : ∀ e ∈ edits, e.Valid)
    (eq : db.applyFacts edits categoryEdits reason now = .ok r) : r.1.Tidy := by
  have ⟨c₁, categories, eq⟩ := Except.bind_eq_ok.mp eq
  have ⟨c₂, facts, eq⟩ := Except.bind_eq_ok.mp eq
  split at eq
  case isTrue  => cases eq
  case isFalse =>
    cases eq
    have h₁ := tidy_foldlM_db categories h fun _ _ _ _ tidy step => tidy.category step
    have h₂ := tidy_foldlM_db facts h₁ fun e he _ _ tidy step => tidy.fact (valid e he) step
    exact h₂.recordChange (h.snapshot _ _) (h₂.snapshot _ _)

theorem Db.Tidy.withCategory {taken : Option CategoryRow} (h : db.Tidy) (tidy : ∀ c ∈ taken, c.Tidy) :
    (db.withCategory taken).Tidy := by
  cases taken
  case none   => exact h
  case some c =>
    rw [Db.withCategory]
    split
    case isTrue  => exact h.putCategory (tidy c rfl)
    case isFalse => exact h

theorem Db.Tidy.readFact {taken : Option CategoryRow} (h : db.Tidy) (eq : db.readFact id = .ok (f, quotes, taken)) :
    f.Tidy ∧ ∀ c ∈ taken, c.Tidy := by
  rw [Db.readFact] at eq
  split at eq
  case h_1 => cases eq
  case h_2 there =>
    cases eq
    refine ⟨h.get there, fun c hc => ?_⟩
    split at hc
    case isTrue  => exact h.getCategory hc
    case isFalse => cases hc

theorem Db.Tidy.copyFact [Letters] {moved : FactRow × List FactEvidence} {taken before after : Option CategoryRow}
    (h : db.Tidy) (tidy : f.Tidy) (taken_tidy : ∀ c ∈ taken, c.Tidy)
    (eq : db.copyFact scope f quotes taken now = .ok (db', moved, before, after)) :
    db'.Tidy ∧ moved.1.Tidy ∧ (∀ c ∈ before, c.Tidy) ∧ ∀ c ∈ after, c.Tidy := by
  rw [Db.copyFact] at eq
  split at eq
  case isTrue  => cases eq
  case isFalse =>
    obtain ⟨⟨db₁, id⟩, inserted, eq⟩ := Except.bind_eq_ok.mp eq
    have copy : { f with id := 0, updatedAt := now }.Tidy := ⟨tidy.label, tidy.named, tidy.value⟩
    have copied := (h.withCategory taken_tidy).insert copy inserted
    obtain ⟨_, _, new, _⟩ := Db.insert_eq_ok inserted
    have found {d : Db} (hd : d.Tidy) : ∀ c ∈ taken.bind (d.getCategory ·.key), c.Tidy := by
      intro c hc
      obtain ⟨_, _, get⟩ := Option.bind_eq_some_iff.mp hc
      exact hd.getCategory get
    cases eq
    split
    all_goals
      refine ⟨⟨copied.facts, copied.categories, copied.changes⟩, ?_, found h,
        found ⟨copied.facts, copied.categories, copied.changes⟩⟩
      exact (congrArg (·.getD default) new : ((db₁.get id).getD default) = _) ▸ copied.get new

theorem Db.Tidy.recordMove {moved : FactRow × List FactEvidence} {before after : Option CategoryRow} (h : db.Tidy)
    (tidy : f.Tidy) (moved_tidy : moved.1.Tidy) (before_tidy : ∀ c ∈ before, c.Tidy) (after_tidy : ∀ c ∈ after, c.Tidy) :
    (db.recordMove scope f quotes moved before after).Tidy := by
  have gone : (db.gone f quotes).1.Tidy := by
    rw [Db.gone]
    split
    case h_1 there => exact h.get there
    case h_2       => exact tidy
  have single {r : FactRow × List FactEvidence} (hr : r.1.Tidy) : ∀ r' ∈ [r], r'.1.Tidy := by simpa using hr
  have noFact : ∀ r ∈ ([] : List (FactRow × List FactEvidence)), r.1.Tidy := fun _ hr => absurd hr List.not_mem_nil
  have noCategory : ∀ c ∈ ([] : List CategoryRow), c.Tidy := fun _ hc => absurd hc List.not_mem_nil
  cases scope
  case global =>
    exact h.delete.recordChange ⟨single gone, noCategory, noFact, by simpa using before_tidy⟩
      ⟨noFact, noCategory, single moved_tidy, by simpa using after_tidy⟩
  case account =>
    exact h.recordChange ⟨noFact, by simpa using before_tidy, single tidy, noCategory⟩
      ⟨single moved_tidy, by simpa using after_tidy, noFact, noCategory⟩

theorem Db.Tidy.restoreSide {change : Change} (h : db.Tidy) (tidy : change.Tidy) (undo here : Bool)
    (eq : change.restoreSide undo here db = .ok db') : db'.Tidy := by
  have target : (change.target undo).Tidy := by
    cases undo
    case false => exact tidy.after
    case true  => exact tidy.before
  cases here
  case true  => exact h.restore target.facts target.categories eq
  case false => exact h.restore target.globalFacts target.globalCategories eq

theorem valid_of_validate (h : validate known edits categoryEdits = .ok ()) : ∀ e ∈ edits, e.Valid := by
  induction edits
  case nil => exact fun _ he => absurd he List.not_mem_nil
  case cons e edits ih =>
    rw [validate, List.forM_eq_forM, List.forM_cons] at h
    have ⟨_, first, rest⟩ := Except.bind_eq_ok.mp h
    refine List.forall_mem_cons.mpr ⟨fun fields get => ?_, ih rest⟩
    simp only [get] at first
    split at first
    case isTrue             => cases first
    case isFalse has => exact not_or.mp has

section Steps

variable {s s' : State}

namespace State

theorem Tidy.store (h : s.Tidy) : (scope : Scope) → (s.store scope).Tidy
  | .account => h.account
  | .global  => h.global

theorem Tidy.setStore (h : s.Tidy) (tidy : db.Tidy) : (scope : Scope) → (s.setStore scope db).Tidy
  | .account => ⟨tidy, h.global, h.calls⟩
  | .global  => ⟨h.account, tidy, h.calls⟩

theorem Tidy.begin_ {call : Call} (h : s.Tidy) (tidy : call.Tidy) : (s.begin_ call).Tidy where
  account := h.account
  global  := h.global
  calls c hc := (List.mem_append.mp hc).elim (h.calls c) fun new => List.mem_singleton.mp new ▸ tidy

theorem Tidy.finish (h : s.Tidy) : (s.finish i).Tidy where
  account    := h.account
  global     := h.global
  calls c hc := h.calls c (List.mem_of_mem_eraseIdx hc)

theorem Tidy.set {call : Call} (h : s.Tidy) (tidy : call.Tidy) : { s with calls := s.calls.set i call }.Tidy where
  account    := h.account
  global     := h.global
  calls c hc := (List.mem_or_eq_of_mem_set hc).elim (h.calls c) fun new => new ▸ tidy

theorem Tidy.attempt {next : Option Call} (h : s.Tidy) (tidy : ∀ db', tx (s.store scope) = .ok db' → db'.Tidy)
    (next_tidy : ∀ c ∈ next, c.Tidy) : (s.attempt i scope tx next).Tidy := by
  rw [State.attempt]
  split
  case h_1 => exact h.finish
  case h_2 db ok =>
    have kept := h.setStore (tidy db ok) scope
    split
    case h_1      => exact kept.finish
    case h_2 call =>
      have waits := (h.set (i := i) (next_tidy call rfl)).calls
      cases scope
      case account => exact ⟨kept.account, h.global, waits⟩
      case global  => exact ⟨h.account, kept.global, waits⟩

variable [Letters]

theorem Tidy.go {call : Call} (h : s.Tidy) (tidy : call.Tidy) : (s.go i now call).Tidy := by
  cases call
  case applying scope edits categoryEdits reason =>
    rw [State.go]
    refine h.attempt (fun db' eq => ?_) ?_
    · obtain ⟨r, applied, rfl⟩ := Except.map_eq_ok.mp eq
      exact (h.store scope).applyFacts tidy applied
    · exact fun _ hc => absurd hc (Option.not_mem_none _)
  case copying target f quotes category =>
    rw [State.go, State.copy]
    split
    case h_1 => exact h.finish
    case h_2 db moved before after copied =>
      have ⟨db_tidy, moved_tidy, before_tidy, after_tidy⟩ := (h.store target).copyFact tidy.left tidy.right copied
      have call_tidy : (Call.recording target f quotes moved before after).Tidy :=
        ⟨tidy.left, moved_tidy, before_tidy, after_tidy⟩
      cases target
      case account => exact ⟨db_tidy, h.global, (h.set call_tidy).calls⟩
      case global  => exact ⟨h.account, db_tidy, (h.set call_tidy).calls⟩
  case recording target f quotes moved before after =>
    rw [State.go]
    have ⟨fact, moved_tidy, before_tidy, after_tidy⟩ := tidy
    refine h.attempt (fun db' eq => ?_) fun c hc => ?_
    · cases eq
      exact h.account.recordMove fact moved_tidy before_tidy after_tidy
    · split at hc
      case isTrue  => cases hc; trivial
      case isFalse => cases hc
  case removing f moved =>
    rw [State.go]
    refine h.attempt (fun db' eq => ?_) ?_
    · cases eq
      exact h.global.delete
    · exact fun _ hc => absurd hc (Option.not_mem_none _)
  case replaying scope change undo =>
    rw [State.go]
    refine h.attempt (fun db' eq => (h.store _).restoreSide tidy undo _ eq) fun c hc => ?_
    cases hc
    exact tidy
  case finishing scope change undo =>
    rw [State.go]
    exact h.attempt (fun db' eq => (h.store _).restoreSide tidy undo _ eq) fun _ hc => absurd hc (Option.not_mem_none _)

theorem Tidy.step (h : s.Tidy) (eq : s.step a = some s') : s'.Tidy := by
  cases a
  case apply scope edits categoryEdits reason =>
    simp only [State.step] at eq
    split at eq
    case isTrue  => cases eq
    case isFalse =>
      split at eq
      case h_1 => cases eq
      case h_2 valid => cases eq; exact h.begin_ (valid_of_validate valid)
  case move id target =>
    simp only [State.step] at eq
    split at eq
    case h_1 => cases eq
    case h_2 f quotes category read =>
      cases eq
      exact h.begin_ ((h.store _).readFact read)
  case replay scope id undo =>
    obtain ⟨change, get, rfl⟩ := Option.map_eq_some_iff.mp eq
    exact h.begin_ ((h.store scope).changes change (List.mem_of_find?_eq_some get))
  case go i now =>
    obtain ⟨call, get, rfl⟩ := Option.map_eq_some_iff.mp eq
    exact h.go (h.calls call (List.mem_of_getElem? get))
  case stop i =>
    have ⟨_, eq⟩ := Option.ite_none_right_eq_some.mp eq
    exact Option.some.inj eq ▸ h.finish
  case crash => cases eq; exact ⟨h.account, h.global, fun _ hc => absurd hc List.not_mem_nil⟩

-- Every store's facts have labels and values, and every category of its own a name.
theorem reachable_tidy (h : facts.Reachable ok s) : s.Tidy := by
  refine h.invariant (fun s start => ?_) fun _ _ _ tidy _ step => tidy.step step
  rw [show s = {} from start]
  have none' : Db.Tidy {} :=
    ⟨fun _ hf => absurd hf Table.not_mem_empty, fun _ hc => absurd hc Table.not_mem_empty, fun _ hc => absurd hc List.not_mem_nil⟩
  exact ⟨none', none', fun _ hc => absurd hc List.not_mem_nil⟩

end State

end Steps

end Kaluta.Facts
