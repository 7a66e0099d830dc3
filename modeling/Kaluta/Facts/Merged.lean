import Kaluta.Facts.Added

-- A file that an app wrote, merged into an account: what it adds there, and what the same file finds the next time.
namespace Kaluta.Facts

open Guide (Unicode toLowercase eqIgnoreAsciiCase trim trim_trim cleanText)

-- What an app writes: names and labels that it keeps, and values.
structure Exported.Tidy (e : Exported) : Prop where
  label : ∀ f ∈ e.facts, cleanText f.label = f.label ∧ f.label ≠ "" ∧ trim f.value ≠ ""
  name  : ∀ c ∈ e.categories, cleanText c.name = c.name ∧ c.name ≠ ""

namespace Db

variable {db : Db}

theorem mem_categoryRows {c : CategoryRow} : c ∈ db.categoryRows ↔ c ∈ db.categories :=
  Keyset.perm_order.mem_iff

theorem mem_accepted {f : FactRow} : f ∈ db.accepted ↔ f ∈ db.facts ∧ f.status = .accepted := by
  rw [accepted, Keyset.perm_order.mem_iff, list, List.mem_filter, Table.mem_rows, decide_eq_true_eq, List.mem_singleton]

theorem mem_customs {c : CategoryInfo} : c ∈ db.customs ↔ ∃ r ∈ db.categories, r.builtin = false ∧
    { key := r.key, name := r.name, description := r.description, builtin := false } = c := by
  simp only [customs, List.mem_map, List.mem_filter, mem_categoryRows, Bool.not_eq_true', and_assoc]

end Db

theorem Stores.tidy_exportFacts {w : Stores} (account : w.account.Tidy) (global : w.global.Tidy) : w.exportFacts.Tidy where
  label f hf := by
    obtain ⟨r, hr, rfl⟩ := List.mem_map.mp hf
    have tidy := account.facts r (Db.mem_accepted.mp hr).left
    exact ⟨tidy.label, tidy.named, tidy.value⟩
  name c hc := by
    obtain ⟨i, hi, rfl⟩ := List.mem_map.mp hc
    have ⟨there, used⟩ := List.mem_filter.mp hi
    have custom : i.builtin = false := by
      rw [Bool.and_eq_true, Bool.not_eq_true'] at used
      exact used.left
    have named {db : Db} (tidy : db.Tidy) (mem : i ∈ db.customs) : cleanText i.name = i.name ∧ i.name ≠ "" := by
      obtain ⟨r, hr, own, rfl⟩ := Db.mem_customs.mp mem
      exact ⟨(tidy.categories r hr).name own, (tidy.categories r hr).named own⟩
    rcases List.mem_append.mp there with own | other
    · rcases List.mem_append.mp own with fixed | own
      · have : (BUILTINS.zipWith (fun b description =>
            ({ key := b.1, name := b.2, description, builtin := true } : CategoryInfo)) DESCRIPTIONS).all (·.builtin) := by
          decide
        exact absurd (List.all_eq_true.mp this i fixed) (by simp [custom])
      · exact named account own
    · exact named global (List.mem_filter.mp other).left

section Fits

variable [Letters] (w : Stores) (e : Exported)

namespace Stores

-- Where a fact that comes in goes.
def place (f : ExportedFact) : String :=
  target w.factCategories e f.category

-- The facts that none here is like.
def unmatched : List ExportedFact :=
  e.facts.filter fun f => !w.account.accepted.any fun m => m.category = w.place e f && eqIgnoreAsciiCase m.label f.label

end Stores

-- When a file can be merged, and will find again what was made of it.
structure Fits (now : Millis) : Prop where
  -- New facts that go to one place differ in their labels, and from those that are there, whatever the letters' case.
  apart : ((w.unmatched e).map fun f => (w.place e f, toLowercase f.label)).Nodup
  cased : ∀ f ∈ w.unmatched e, ∀ m ∈ w.account.accepted, m.category = w.place e f →
    toLowercase m.label ≠ toLowercase f.label
  -- Of the categories that are made, the first that is like one is that one.
  named : ∀ c ∈ w.made e, ((w.made e).find? (similar ·.name c.name)).map (·.name) = some c.name
  -- And none is like one that comes in and has a global category here.
  stays : ∀ c ∈ e.categories, (∃ h ∈ w.factCategories, similar h.name c.name) →
    (∀ h ∈ w.own, ¬similar h.name c.name) → ∀ m ∈ w.made e, ¬similar m.name c.name
  -- No key here is the name of one that is made, or is made from this time.
  keys  : ∀ c ∈ w.made e, (∀ h ∈ w.factCategories, h.key ≠ c.name) ∧ ∀ m ∈ w.account.accepted, m.category ≠ c.name
  fresh : ∀ key, Stamped now key → (∀ h ∈ w.global.customs, h.key ≠ key) ∧ ∀ m ∈ w.account.accepted, m.category ≠ key

end Fits

section Grown

variable {db db' : Db} {now : Millis} {made : List CategoryRow} {rows : List FactRow}

def CategoryRow.info (c : CategoryRow) : CategoryInfo where
  key         := c.key
  name        := c.name
  description := c.description
  builtin     := false

namespace Grows

theorem mem_facts (h : Grows db db' now made rows) : f ∈ db'.facts ↔ f ∈ db.facts ∨ f ∈ rows := by
  rw [← Table.mem_rows, h.facts, List.mem_append, Table.mem_rows]

theorem mem_categories (h : Grows db db' now made rows) : c ∈ db'.categories ↔ c ∈ db.categories ∨ c ∈ made := by
  rw [← Table.mem_rows, h.categories, List.mem_append, Table.mem_rows]

theorem new_keys (h : Grows db db' now made rows) (hs : s ∈ db.categories) (hr : r ∈ made) : s.key ≠ r.key := by
  have nodup := db'.categories.nodup
  rw [h.categories, List.map_append] at nodup
  exact (List.nodup_append.mp nodup).right.right _ (List.mem_map_of_mem hs) _ (List.mem_map_of_mem hr)

-- The new categories come behind the others.
theorem categoryRows (h : Grows db db' now made rows) : db'.categoryRows = db.categoryRows ++ made := by
  have apart : db.categories.rows.Pairwise fun a b =>
      OrderDual.toDual (toLex (a.position, toLex (a.createdAt, a.key))) ≠
        OrderDual.toDual (toLex (b.position, toLex (b.createdAt, b.key))) :=
    (List.pairwise_map.mp db.categories.nodup).imp fun ne eq =>
      ne (congrArg (fun k => (ofLex (ofLex (OrderDual.ofDual k)).2).2) eq)
  have lt {a b : CategoryRow} (lt : a.position < b.position) :
      OrderDual.toDual (toLex (a.position, toLex (a.createdAt, a.key))) >
        OrderDual.toDual (toLex (b.position, toLex (b.createdAt, b.key))) :=
    OrderDual.toDual_lt_toDual.mpr (Prod.Lex.toLex_lt_toLex.mpr (.inl lt))
  rw [Db.categoryRows, Db.categoryRows, h.categories]
  exact Keyset.order_append apart (h.sorted.imp lt) fun a ha b hb => lt (h.position a ha b hb)

theorem customs (h : Grows db db' now made rows) : db'.customs = db.customs ++ made.map CategoryRow.info := by
  have all : made.filter (!·.builtin) = made :=
    List.filter_eq_self.mpr fun c hc => by rw [h.custom c hc, Bool.not_false]
  rw [Db.customs, h.categoryRows, List.filter_append, List.map_append, all]
  rfl

-- What is looked for among the accepted facts, when all the new ones are.
theorem find?_accepted (h : Grows db db' now made rows) (accepted : ∀ r ∈ rows, r.status = .accepted) (p : FactRow → Bool) :
    (rows.filter p = [] → db'.accepted.find? p = db.accepted.find? p) ∧
    ∀ r, rows.filter p = [r] → (∀ f ∈ db.accepted, p f = false) → db'.accepted.find? p = some r := by
  have apart (d : Db) : (d.list [.accepted]).Pairwise fun a b =>
      OrderDual.toDual (toLex (a.category, toLex (a.label.toList.map Char.toLower, a.id))) ≠
        OrderDual.toDual (toLex (b.category, toLex (b.label.toList.map Char.toLower, b.id))) := by
    refine List.Pairwise.filter _ ?_
    exact (List.pairwise_map.mp d.facts.nodup).imp fun ne eq =>
      ne (congrArg (fun k => (ofLex (ofLex (OrderDual.ofDual k)).2).2) eq)
  have list : db'.list [.accepted] = db.list [.accepted] ++ rows := by
    have all : rows.filter (·.status ∈ [Status.accepted]) = rows :=
      List.filter_eq_self.mpr fun r hr => by simp [accepted r hr]
    rw [Db.list, h.facts, List.filter_append, all, Db.list]
  rw [Db.accepted, Db.accepted, Keyset.find?_order (apart db'), Keyset.find?_order (apart db), list, List.filter_append]
  constructor
  · intro none'
    rw [none', List.append_nil]
  · intro r one old
    have none' : (db.list [.accepted]).filter p = [] := by
      refine List.filter_eq_nil_iff.mpr fun f hf => ?_
      rw [old f (Keyset.perm_order.mem_iff.mpr hf)]
      exact Bool.false_ne_true
    rw [one, none', List.nil_append]
    rfl

end Grows

end Grown

section Places

variable [Letters] {w w' : Stores} {e : Exported} {now : Millis} {made : List CategoryRow} {rows : List FactRow}

namespace Stores

-- The global categories that the account has none for.
def others (w : Stores) : List CategoryInfo :=
  w.global.customs.filter fun c => !w.own.any (·.key = c.key)

-- What a new fact is added with.
def fieldsOf (w : Stores) (e : Exported) (f : ExportedFact) : FactFields where
  category := w.place e f
  label    := f.label
  value    := f.value
  use_     := .parse f.use_
  asOf     := f.asOf

end Stores

-- What becomes of a fact the next time.
def Outcome.again : Outcome → Outcome
  | added _ => skipped
  | o       => o

-- Texts that differ in the case of ASCII letters only are the same in lower case.
def KeepsCase : Prop :=
  ∀ a b, eqIgnoreAsciiCase a b = true → toLowercase a = toLowercase b

-- The stores after a merge.
structure Merged (w w' : Stores) (e : Exported) (now : Millis) (made : List CategoryRow) (rows : List FactRow) : Prop where
  grows  : Grows w.account w'.account now made rows
  global : w'.global = w.global
  names  : made.map (·.name) = (w.made e).map (·.name)
  rows   : rows.map (fun r => { r with id := 0 }) = (w.unmatched e).map fun f => rowOf made now (w.fieldsOf e f)

omit [Letters] in
theorem find?_eq_of_imp {α : Type u} {p q : α → Bool} {as : List α} {a : α} (h : as.find? p = some a) (ha : q a = true)
    (imp : ∀ b ∈ as, q b = true → p b = true) : as.find? q = some a := by
  induction as
  case nil => cases h
  case cons b as ih =>
    rw [List.find?_cons] at h ⊢
    cases hq : q b
    case true =>
      rw [imp b List.mem_cons_self hq] at h
      exact h
    case false =>
      cases hp : p b
      case true  =>
        rw [hp] at h
        cases h
        exact absurd ha (by rw [hq]; exact Bool.false_ne_true)
      case false =>
        rw [hp] at h
        exact ih h fun b hb => imp b (List.mem_cons_of_mem _ hb)

omit [Letters] in
theorem builtin_keys : (BUILTINS.zipWith (fun b description =>
    ({ key := b.1, name := b.2, description, builtin := true } : CategoryInfo)) DESCRIPTIONS).map (·.key) =
    BUILTINS.map (·.1) := by
  decide

omit [Letters] in
theorem mem_builtins {key : String} (h : key ∈ BUILTINS.map (·.1)) : ∃ i ∈ w.factCategories, i.key = key := by
  rw [← builtin_keys] at h
  obtain ⟨i, hi, rfl⟩ := List.mem_map.mp h
  exact ⟨i, List.mem_append_left _ (List.mem_append_left _ hi), rfl⟩

-- A fact goes to a category that there is, or to one that is made.
theorem place_cases {f : ExportedFact} (hf : f ∈ e.facts) :
    (∃ i ∈ w.factCategories, i.key = w.place e f) ∨ ∃ c ∈ w.made e, c.name = w.place e f := by
  rw [Stores.place, target]
  split
  case isTrue fixed =>
    obtain ⟨i, hi, is⟩ := List.any_eq_true.mp fixed
    exact .inl ⟨i, hi, (of_decide_eq_true ((Bool.and_eq_true _ _).mp is).left)⟩
  case isFalse =>
    split
    case h_1 c found =>
      cases like : w.factCategories.find? fun h => similar h.name c.name
      case some i => exact .inl ⟨i, List.mem_of_find?_eq_some like, rfl⟩
      case none =>
        refine .inr ⟨c, List.mem_filter.mpr ⟨List.mem_of_find?_eq_some found, ?_⟩, rfl⟩
        have key : c.key = f.category := by simpa using List.find?_some found
        have unlike : w.factCategories.any (similar ·.name c.name) = false :=
          List.any_eq_false.mpr fun i hi => by simpa using List.find?_eq_none.mp like i hi
        have used : e.facts.any (·.category = c.key) = true :=
          List.any_eq_true.mpr ⟨f, hf, decide_eq_true key.symm⟩
        rw [unlike, used]
        rfl
    case h_2 => exact .inl (mem_builtins (by decide))

namespace Merged

theorem name_of_mem (h : Merged w w' e now made rows) {r : CategoryRow} (hr : r ∈ made) : ∃ c ∈ w.made e, c.name = r.name :=
  List.mem_map.mp (h.names ▸ List.mem_map_of_mem hr)

theorem lands_key (h : Merged w w' e now made rows) (fits : Fits w e now) {key : String}
    (there : ∃ i ∈ w.factCategories, i.key = key) : lands made key = key := by
  obtain ⟨i, hi, rfl⟩ := there
  have none' : made.find? (·.name = i.key) = none := by
    refine List.find?_eq_none.mpr fun r hr => ?_
    obtain ⟨c, hc, name⟩ := h.name_of_mem hr
    rw [← name, decide_eq_true_eq]
    exact ((fits.keys c hc).left i hi).symm
  rw [lands, none']
  rfl

-- What is made is found by a name that is like it, and by its own.
theorem found (h : Merged w w' e now made rows) (fits : Fits w e now) {c : ExportedCategory} (hc : c ∈ w.made e) :
    ∃ r ∈ made, made.find? (similar ·.name c.name) = some r ∧ r.name = c.name ∧ lands made c.name = r.key := by
  have names : (made.find? (similar ·.name c.name)).map (·.name) = some c.name := by
    have eq := congrArg (List.find? (similar · c.name)) h.names
    rw [List.find?_map, List.find?_map] at eq
    exact eq.trans (fits.named c hc)
  obtain ⟨r, like, name⟩ := Option.map_eq_some_iff.mp names
  have same : made.find? (·.name = c.name) = some r := by
    refine find?_eq_of_imp like (decide_eq_true name) fun b _ hb => ?_
    rw [of_decide_eq_true hb, ← name]
    simpa [name] using List.find?_some like
  exact ⟨r, List.mem_of_find?_eq_some like, like, name, by rw [lands, same]; rfl⟩

theorem own_again (h : Merged w w' e now made rows) : w'.own = w.own ++ made.map CategoryRow.info := by
  rw [Stores.own, h.grows.customs, ← List.append_assoc]
  rfl

-- The new categories come behind the account's own, and before the global ones.
theorem factCategories_again (h : Merged w w' e now made rows) (fits : Fits w e now) :
    w'.factCategories = w.own ++ made.map CategoryRow.info ++ w.others := by
  rw [Stores.factCategories, h.global, h.own_again, Stores.others]
  refine congrArg _ (List.filter_congr fun c hc => ?_)
  have new : (made.map CategoryRow.info).any (·.key = c.key) = false := by
    refine List.any_eq_false.mpr fun i hi => ?_
    obtain ⟨r, hr, rfl⟩ := List.mem_map.mp hi
    have := (fits.fresh r.key (h.grows.stamped r hr)).left c hc
    exact fun eq => this (of_decide_eq_true eq).symm
  rw [List.any_append, new, Bool.or_false]

theorem mem_again (h : Merged w w' e now made rows) (fits : Fits w e now) {i : CategoryInfo} :
    i ∈ w'.factCategories ↔ i ∈ w.factCategories ∨ i ∈ made.map CategoryRow.info := by
  have eq : w.factCategories = w.own ++ w.others := rfl
  rw [h.factCategories_again fits, eq]
  simp only [List.mem_append]
  exact or_right_comm

-- A fact is looked for where it went.
theorem place_again (h : Merged w w' e now made rows) (fits : Fits w e now) {f : ExportedFact} (hf : f ∈ e.facts) :
    w'.place e f = lands made (w.place e f) := by
  have fixed : w'.factCategories.any (fun c => c.key = f.category && c.builtin) =
      w.factCategories.any fun c => c.key = f.category && c.builtin := by
    have eq : w.factCategories = w.own ++ w.others := rfl
    have none' : (made.map CategoryRow.info).any (fun c => c.key = f.category && c.builtin) = false := by
      refine List.any_eq_false.mpr fun i hi => ?_
      obtain ⟨r, _, rfl⟩ := List.mem_map.mp hi
      simp [CategoryRow.info]
    rw [h.factCategories_again fits, eq, List.any_append, List.any_append, List.any_append, none', Bool.or_false]
  rw [Stores.place, Stores.place, target, target, fixed]
  split
  case isTrue builtin =>
    obtain ⟨i, hi, is⟩ := List.any_eq_true.mp builtin
    exact (h.lands_key fits ⟨i, hi, of_decide_eq_true ((Bool.and_eq_true _ _).mp is).left⟩).symm
  case isFalse =>
    split
    case h_2 => exact (h.lands_key fits (mem_builtins (by decide))).symm
    case h_1 c found =>
      have eq : w.factCategories = w.own ++ w.others := rfl
      rw [h.factCategories_again fits, eq, List.find?_append, List.find?_append, List.find?_append]
      cases own : w.own.find? fun i => similar i.name c.name
      case some i =>
        have there := h.lands_key fits ⟨i, List.mem_append_left _ (List.mem_of_find?_eq_some own), rfl⟩
        simpa using there.symm
      case none =>
        have unlike : ∀ i ∈ w.own, ¬similar i.name c.name := List.find?_eq_none.mp own
        cases other : w.others.find? fun i => similar i.name c.name
        case some i =>
          -- A global category is taken for it: none that is made is before that.
          have mem : i ∈ w.factCategories := List.mem_append_right _ (List.mem_of_find?_eq_some other)
          have like : similar i.name c.name := by simpa using List.find?_some other
          have behind : (made.map CategoryRow.info).find? (fun i => similar i.name c.name) = none := by
            refine List.find?_eq_none.mpr fun j hj => ?_
            obtain ⟨r, hr, rfl⟩ := List.mem_map.mp hj
            obtain ⟨m, hm, name⟩ := h.name_of_mem hr
            have apart := fits.stays c (List.mem_of_find?_eq_some found) ⟨i, mem, like⟩ unlike m hm
            exact (show r.info.name = m.name from name.symm) ▸ apart
          have there := h.lands_key fits ⟨i, mem, rfl⟩
          simpa [behind] using there.symm
        case none =>
          have new : c ∈ w.made e := by
            refine List.mem_filter.mpr ⟨List.mem_of_find?_eq_some found, ?_⟩
            have key : c.key = f.category := by simpa using List.find?_some found
            have unlike : w.factCategories.any (similar ·.name c.name) = false :=
              List.any_eq_false.mpr fun i hi => (List.mem_append.mp hi).elim (unlike i) (List.find?_eq_none.mp other i)
            rw [unlike, List.any_eq_true.mpr ⟨f, hf, decide_eq_true key.symm⟩]
            rfl
          obtain ⟨r, _, like, _, lands⟩ := h.found fits new
          have like : (made.map CategoryRow.info).find? (fun i => similar i.name c.name) = some r.info := by
            rw [List.find?_map]
            exact congrArg (Option.map CategoryRow.info) like
          simp [like, lands, CategoryRow.info]

-- Different places stay different.
theorem lands_inj (h : Merged w w' e now made rows) (fits : Fits w e now) {f g : ExportedFact} (hf : f ∈ e.facts)
    (hg : g ∈ e.facts) (eq : lands made (w.place e f) = lands made (w.place e g)) : w.place e f = w.place e g := by
  have apart {r : CategoryRow} (hr : r ∈ made) : ¬∃ i ∈ w.factCategories, i.key = r.key := by
    rintro ⟨i, hi, key⟩
    have stamped := h.grows.stamped r hr
    rcases List.mem_append.mp hi with own | other
    · rcases List.mem_append.mp own with builtin | custom
      · exact stamped.not_builtin (key ▸ builtin_keys ▸ List.mem_map_of_mem builtin)
      · obtain ⟨s, hs, _, rfl⟩ := Db.mem_customs.mp custom
        exact h.grows.new_keys hs hr key
    · exact (fits.fresh r.key stamped).left i (List.mem_filter.mp other).left key
  rcases place_cases hf (w := w) with there | ⟨c, hc, name⟩ <;>
    rcases place_cases hg (w := w) with there' | ⟨c', hc', name'⟩
  · rw [h.lands_key fits there, h.lands_key fits there'] at eq
    exact eq
  · obtain ⟨r, hr, _, _, lands⟩ := h.found fits hc'
    rw [h.lands_key fits there, ← name', lands] at eq
    exact absurd (eq ▸ there) (apart hr)
  · obtain ⟨r, hr, _, _, lands⟩ := h.found fits hc
    rw [h.lands_key fits there', ← name, lands] at eq
    exact absurd (eq ▸ there') (apart hr)
  · obtain ⟨r, hr, _, named, lands⟩ := h.found fits hc
    obtain ⟨r', hr', _, named', lands'⟩ := h.found fits hc'
    rw [← name, ← name', lands, lands'] at eq
    have same : r = r' :=
      Table.eq_of_key_eq (h.grows.mem_categories.mpr (.inr hr)) (h.grows.mem_categories.mpr (.inr hr')) eq
    rw [← name, ← name', ← named, ← named', same]

-- Nothing is made again.
theorem made_again (h : Merged w w' e now made rows) (fits : Fits w e now) : w'.made e = [] := by
  refine List.filter_eq_nil_iff.mpr fun c hc => ?_
  rw [Bool.and_eq_true, Bool.not_eq_true', not_and]
  intro unlike used
  have unlike := List.any_eq_false.mp unlike
  have new : c ∈ w.made e := by
    refine List.mem_filter.mpr ⟨hc, ?_⟩
    rw [used, Bool.and_true, Bool.not_eq_true']
    exact List.any_eq_false.mpr fun i hi => unlike i ((h.mem_again fits).mpr (.inl hi))
  obtain ⟨r, hr, like, _⟩ := h.found fits new
  have like : similar r.info.name c.name := by simpa [CategoryRow.info] using List.find?_some like
  exact unlike r.info ((h.mem_again fits).mpr (.inr (List.mem_map_of_mem hr))) like

-- The row that a new fact has got.
structure IsRow (made : List CategoryRow) (w : Stores) (e : Exported) (r : FactRow) (f : ExportedFact) : Prop where
  category : r.category = lands made (w.place e f)
  label    : r.label = f.label
  value    : r.value = trim f.value
  status   : r.status = .accepted

theorem isRow (tidy : e.Tidy) {f : ExportedFact} (hf : f ∈ e.facts) {r : FactRow}
    (eq : { r with id := 0 } = rowOf made now (w.fieldsOf e f)) : IsRow made w e r f where
  category := congrArg FactRow.category eq
  label    := (congrArg FactRow.label eq).trans (tidy.label f hf).left
  value    := congrArg FactRow.value eq
  status   := congrArg FactRow.status eq

theorem of_row (h : Merged w w' e now made rows) (tidy : e.Tidy) {r : FactRow} (hr : r ∈ rows) :
    ∃ f ∈ w.unmatched e, IsRow made w e r f := by
  have mem : { r with id := 0 } ∈ rows.map fun r => { r with id := 0 } := List.mem_map_of_mem hr
  rw [h.rows] at mem
  obtain ⟨f, hf, eq⟩ := List.mem_map.mp mem
  exact ⟨f, hf, isRow tidy (List.mem_filter.mp hf).left eq.symm⟩

theorem row_of (h : Merged w w' e now made rows) (tidy : e.Tidy) {f : ExportedFact} (hf : f ∈ w.unmatched e) :
    ∃ r ∈ rows, IsRow made w e r f := by
  have mem : rowOf made now (w.fieldsOf e f) ∈ (w.unmatched e).map fun f => rowOf made now (w.fieldsOf e f) :=
    List.mem_map_of_mem hf
  rw [← h.rows] at mem
  obtain ⟨r, hr, eq⟩ := List.mem_map.mp mem
  exact ⟨r, hr, isRow tidy (List.mem_filter.mp hf).left eq⟩

-- The new facts differ from each other, and from those that there were.
theorem rows_nodup (h : Merged w w' e now made rows) (fits : Fits w e now) (tidy : e.Tidy) :
    (rows.map fun r => (r.category, toLowercase r.label)).Nodup := by
  have eq : rows.map (fun r => (r.category, toLowercase r.label)) =
      ((w.unmatched e).map fun f => (w.place e f, toLowercase f.label)).map fun p => (lands made p.1, p.2) := by
    have := congrArg (List.map fun r : FactRow => (r.category, toLowercase r.label)) h.rows
    rw [List.map_map, List.map_map] at this
    rw [List.map_map]
    refine Eq.trans this (List.map_congr_left fun f hf => ?_)
    exact congrArg (fun l => (lands made (w.place e f), toLowercase l)) (tidy.label f (List.mem_filter.mp hf).left).left
  rw [eq]
  refine fits.apart.map_on fun p hp q hq same => ?_
  obtain ⟨f, hf, rfl⟩ := List.mem_map.mp hp
  obtain ⟨g, hg, rfl⟩ := List.mem_map.mp hq
  have ⟨places, labels⟩ := Prod.mk.inj same
  exact Prod.ext (h.lands_inj fits (List.mem_filter.mp hf).left (List.mem_filter.mp hg).left places) labels

theorem rows_apart (h : Merged w w' e now made rows) (fits : Fits w e now) (tidy : e.Tidy) {r r' : FactRow}
    (hr : r ∈ rows) (hr' : r' ∈ rows) (category : r.category = r'.category)
    (label : toLowercase r.label = toLowercase r'.label) : r = r' :=
  List.inj_on_of_nodup_map (h.rows_nodup fits tidy) hr hr' (Prod.ext category label)

-- A place of an account's fact is none that was made.
theorem lands_of_fact (h : Merged w w' e now made rows) (fits : Fits w e now) {f : ExportedFact} (hf : f ∈ e.facts)
    {m : FactRow} (hm : m ∈ w.account.accepted) :
    (m.category = w.place e f → lands made (w.place e f) = w.place e f) ∧
    (m.category = lands made (w.place e f) → m.category = w.place e f) := by
  rcases place_cases hf (w := w) with there | ⟨c, hc, name⟩
  · rw [h.lands_key fits there]
    exact ⟨fun _ => rfl, id⟩
  · obtain ⟨r, hr, _, _, lands⟩ := h.found fits hc
    rw [← name, lands]
    exact ⟨fun eq => absurd eq ((fits.keys c hc).right m hm), fun eq =>
      absurd eq ((fits.fresh r.key (h.grows.stamped r hr)).right m hm)⟩

theorem old_apart (h : Merged w w' e now made rows) (fits : Fits w e now) (tidy : e.Tidy) {m r : FactRow}
    (hm : m ∈ w.account.accepted) (hr : r ∈ rows) (category : m.category = r.category) :
    toLowercase m.label ≠ toLowercase r.label := by
  obtain ⟨f, hf, is⟩ := h.of_row tidy hr
  rw [is.label]
  rw [is.category] at category
  exact fits.cased f hf m hm ((h.lands_of_fact fits (List.mem_filter.mp hf).left hm).right category)

-- None of the new facts has a twin.
theorem twins (h : Merged w w' e now made rows) (fits : Fits w e now) (tidy : e.Tidy) {r : FactRow} (hr : r ∈ rows) :
    (w'.account.twins r).length ≤ 1 := by
  have single : w'.account.twins r ⊆ [r] := by
    intro f hf
    have ⟨listed, same⟩ := List.mem_filter.mp hf
    have ⟨there, accepted⟩ := List.mem_filter.mp listed
    have ⟨category, label⟩ := of_decide_eq_true same
    rcases h.grows.mem_facts.mp (Table.mem_rows.mp there) with old | new
    · have mem : f ∈ w.account.accepted := Db.mem_accepted.mpr ⟨old, by simpa using accepted⟩
      exact absurd label (h.old_apart fits tidy mem hr category)
    · exact List.mem_singleton.mpr (h.rows_apart fits tidy new hr category label)
  have nodup : (w'.account.twins r).Nodup := ((List.Nodup.of_map _ w'.account.facts.nodup).filter _).filter _
  exact (List.Nodup.subperm nodup single).length_le

-- What was added is skipped the next time; the rest is as it was.
theorem outcome_again (h : Merged w w' e now made rows) (fits : Fits w e now) (tidy : e.Tidy) (lower : KeepsCase)
    {f : ExportedFact} (hf : f ∈ e.facts) :
    outcome w'.account.accepted (w'.place e f) f = (outcome w.account.accepted (w.place e f) f).again := by
  have accepted : ∀ r ∈ rows, r.status = .accepted := fun r hr => (h.of_row tidy hr).elim fun _ is => is.right.status
  rw [outcome, outcome, h.place_again fits hf]
  cases found : w.account.accepted.find? fun m => m.category = w.place e f && eqIgnoreAsciiCase m.label f.label
  case some m =>
    have hm := List.mem_of_find?_eq_some found
    have ⟨category, label⟩ : m.category = w.place e f ∧ eqIgnoreAsciiCase m.label f.label = true := by
      simpa using List.find?_some found
    have none' : rows.filter (fun m => m.category = w.place e f && eqIgnoreAsciiCase m.label f.label) = [] := by
      refine List.filter_eq_nil_iff.mpr fun r hr same => ?_
      have ⟨category', label'⟩ : r.category = w.place e f ∧ eqIgnoreAsciiCase r.label f.label = true := by simpa using same
      exact h.old_apart fits tidy hm hr (category.trans category'.symm) ((lower _ _ label).trans (lower _ _ label').symm)
    rw [((h.lands_of_fact fits hf hm).left category), (h.grows.find?_accepted accepted _).left none', found]
    dsimp only
    split <;> rfl
  case none =>
    have new : f ∈ w.unmatched e := by
      refine List.mem_filter.mpr ⟨hf, ?_⟩
      rw [Bool.not_eq_true']
      exact List.any_eq_false.mpr (List.find?_eq_none.mp found)
    obtain ⟨r, hr, is⟩ := h.row_of tidy new
    have one : rows.filter (fun m => m.category = lands made (w.place e f) && eqIgnoreAsciiCase m.label f.label) = [r] := by
      have nodup : rows.Nodup := .of_map _ (h.rows_nodup fits tidy)
      refine List.perm_singleton.mp ((List.perm_ext_iff_of_nodup (nodup.filter _) (List.nodup_singleton r)).mpr fun x => ?_)
      rw [List.mem_filter, List.mem_singleton]
      constructor
      · rintro ⟨hx, same⟩
        have ⟨category, label⟩ : x.category = lands made (w.place e f) ∧ eqIgnoreAsciiCase x.label f.label = true := by
          simpa using same
        exact h.rows_apart fits tidy hx hr (category.trans is.category.symm) (is.label ▸ lower _ _ label)
      · rintro rfl
        refine ⟨hr, ?_⟩
        rw [is.category, is.label]
        simp [eqIgnoreAsciiCase]
    have old : ∀ m ∈ w.account.accepted,
        (m.category = lands made (w.place e f) && eqIgnoreAsciiCase m.label f.label) = false := by
      intro m hm
      refine Bool.eq_false_iff.mpr fun same => ?_
      have ⟨category, label⟩ : m.category = lands made (w.place e f) ∧ eqIgnoreAsciiCase m.label f.label = true := by
        simpa using same
      exact h.old_apart fits tidy hm hr (category.trans is.category.symm) (is.label ▸ lower _ _ label)
    rw [(h.grows.find?_accepted accepted _).right r one old]
    dsimp only [Outcome.again]
    rw [is.value, trim_trim, if_pos rfl]

end Merged

end Places

section Edits

variable [Letters] {w : Stores} {e : Exported} {now : Millis}

-- The edit that adds a fact, when it is added.
def Outcome.edit : Outcome → Option FactEdit
  | added e => some e
  | _       => none

theorem edits_eq : w.edits e = ((w.unmatched e).map (w.fieldsOf e)).map fun f => FactEdit.add f .accepted .you := by
  have edits : w.edits e = (e.facts.map fun f => outcome w.account.accepted (w.place e f) f).filterMap Outcome.edit := rfl
  rw [edits, List.filterMap_map, Stores.unmatched, List.map_map, ← List.filterMap_eq_map, List.filterMap_filter]
  refine List.filterMap_congr fun f _ => ?_
  rw [Function.comp_apply, outcome]
  cases found : w.account.accepted.find? fun m => m.category = w.place e f && eqIgnoreAsciiCase m.label f.label
  case some m =>
    have like : (w.account.accepted.any fun m => m.category = w.place e f && eqIgnoreAsciiCase m.label f.label) = true :=
      List.any_eq_true.mpr ⟨m, List.mem_of_find?_eq_some found, by simpa using List.find?_some found⟩
    rw [like]
    dsimp only
    split <;> rfl
  case none =>
    have unlike : (w.account.accepted.any fun m => m.category = w.place e f && eqIgnoreAsciiCase m.label f.label) = false :=
      List.any_eq_false.mpr (List.find?_eq_none.mp found)
    rw [unlike]
    rfl

-- Each fact that comes in is counted once.
theorem counted : (w.edits e).length + (w.proposed e).length + w.skipped e = e.facts.length := by
  have length : (w.outcomes e).length = e.facts.length := List.length_map _
  rw [← length, Stores.edits, Stores.proposed, Stores.skipped]
  induction w.outcomes e
  case nil => rfl
  case cons o os ih =>
    cases o
    all_goals
      simp only [List.filterMap_cons, List.countP_cons, List.length_cons] at ih ⊢
      simp only [Bool.false_eq_true, if_true, if_false]
      omega

theorem again_eq {w' : Stores} (h : w'.outcomes e = (w.outcomes e).map Outcome.again) :
    w'.edits e = [] ∧ w'.proposed e = w.proposed e := by
  rw [Stores.edits, Stores.proposed, Stores.proposed, h]
  induction w.outcomes e
  case nil => exact ⟨rfl, rfl⟩
  case cons o os ih =>
    cases o
    case proposed p => exact ⟨ih.left, congrArg (p :: ·) ih.right⟩
    all_goals exact ih

-- The facts and categories that a merge writes.
def Stores.applied (w : Stores) (e : Exported) (now : Millis) : Except String (Db × ChangeId) :=
  if w.edits e = [] ∧ ((w.made e).map fun c => CategoryEdit.add c.name c.description) = [] then pure (w.account, 0)
  else do
    validate (w.factCategories.map (·.key)) (w.edits e) ((w.made e).map fun c => .add c.name c.description)
    w.account.applyFacts (w.edits e) ((w.made e).map fun c => .add c.name c.description) "merge facts" now

def Stores.raised (w : Stores) (e : Exported) (now : Millis) : List Proposal :=
  (w.proposed e).foldl (fun ps p => upsertCounted ps (proposalOf p now) 1 now) w.proposals

-- What a merge has done when it wrote this.
def Stores.done (w : Stores) (e : Exported) (now : Millis) (a : Db × ChangeId) : Stores × FactMergeResult :=
  ({ w with account := a.1, proposals := w.raised e now }, {
    changeId        := a.2
    added           := (w.edits e).length
    proposed        := (w.proposed e).length
    skipped         := w.skipped e
    categoriesAdded := ((w.made e).map fun c => CategoryEdit.add c.name c.description).length })

theorem mergeFacts_eq : w.mergeFacts e now = w.done e now <$> w.applied e now := by
  rw [Stores.mergeFacts, Stores.applied]
  split
  case isTrue  => rfl
  case isFalse =>
    cases validate (w.factCategories.map (·.key)) (w.edits e) ((w.made e).map fun c => .add c.name c.description)
    case error => rfl
    case ok    =>
      change (w.account.applyFacts _ _ _ _ >>= _) = w.done e now <$> w.account.applyFacts _ _ _ _
      cases w.account.applyFacts (w.edits e) ((w.made e).map fun c => .add c.name c.description) "merge facts" now <;> rfl

theorem mergeFacts_eq_ok {r : Stores × FactMergeResult} :
    w.mergeFacts e now = .ok r ↔ ∃ a, w.applied e now = .ok a ∧ w.done e now a = r := by
  rw [mergeFacts_eq]
  exact Except.map_eq_ok

theorem made_edits : ((w.made e).map fun c => CategoryEdit.add c.name c.description) =
    ((w.made e).map fun c => (c.name, c.description)).map fun n => CategoryEdit.add n.1 n.2 := by
  rw [List.map_map]
  rfl

-- A merge keeps the account's facts.
theorem mergeFacts_keeps {r : Stores × FactMergeResult} (h : w.mergeFacts e now = .ok r) :
    ∀ f ∈ w.account.facts, f ∈ r.1.account.facts := by
  obtain ⟨a, ok, rfl⟩ := mergeFacts_eq_ok.mp h
  rw [Stores.applied] at ok
  split at ok
  case isTrue  => cases ok; exact fun _ => id
  case isFalse =>
    obtain ⟨_, _, applied⟩ := Except.bind_eq_ok.mp ok
    rw [edits_eq, made_edits] at applied
    obtain ⟨made, rows, grows⟩ := Db.applyFacts_adds_eq_ok applied
    exact fun f hf => grows.mem_facts.mpr (.inl hf)

omit [Letters] in
theorem validate_ok {known : List String} {edits : List FactFields} {new : List (String × String)}
    (h : ∀ f ∈ edits, cleanText f.label ≠ "" ∧ trim f.value ≠ "" ∧ (f.category ∈ known ∨ f.category ∈ new.map (·.1))) :
    validate known (edits.map fun f => .add f .accepted .you) (new.map fun n => .add n.1 n.2) = .ok () := by
  have names : (new.map fun n => CategoryEdit.add n.1 n.2).filterMap CategoryEdit.newName = new.map (·.1) := by
    rw [List.filterMap_map, ← List.filterMap_eq_map]
    rfl
  induction edits
  case nil => rfl
  case cons f edits ih =>
    have ⟨⟨label, value, category⟩, rest⟩ := List.forall_mem_cons.mp h
    rw [validate, List.forM_eq_forM, List.map_cons, List.forM_cons]
    refine Except.bind_eq_ok.mpr ⟨(), ?_, ih rest⟩
    simp only [FactEdit.fields, names]
    rw [if_neg (not_or.mpr ⟨label, value⟩), if_neg fun none' => category.elim none'.left none'.right]
    rfl

omit [Letters] in
theorem builtin_names : (BUILTINS.zipWith (fun b description =>
    ({ key := b.1, name := b.2, description, builtin := true } : CategoryInfo)) DESCRIPTIONS).map (·.name) =
    BUILTINS.map (·.2) := by
  decide

-- What is made is like no category that there is.
theorem not_taken {c : ExportedCategory} (hc : c ∈ w.made e) : ¬Taken w.account.categories.rows c.name := by
  have unlike : ∀ i ∈ w.factCategories, ¬similar i.name c.name := by
    have := (List.mem_filter.mp hc).right
    rw [Bool.and_eq_true, Bool.not_eq_true'] at this
    exact List.any_eq_false.mp this.left
  rintro (fixed | own)
  · obtain ⟨b, hb, like⟩ := List.any_eq_true.mp fixed
    have mem : b.2 ∈ BUILTINS.map (·.2) := List.mem_map_of_mem hb
    rw [← builtin_names] at mem
    obtain ⟨i, hi, name⟩ := List.mem_map.mp mem
    exact unlike i (List.mem_append_left _ (List.mem_append_left _ hi)) (name ▸ like)
  · obtain ⟨r, hr, is⟩ := List.any_eq_true.mp own
    have ⟨custom, like⟩ := of_decide_eq_true is
    have mem : r.info ∈ w.account.customs :=
      Db.mem_customs.mpr ⟨r, hr, by simpa using custom, rfl⟩
    exact unlike r.info (List.mem_append_left _ (List.mem_append_right _ mem)) like

-- Where it fits, a file is merged.
theorem applied_ok (tidy : e.Tidy) (fits : Fits w e now) : ∃ a made rows, w.applied e now = .ok a ∧
    ∀ proposals, Merged w { w with account := a.1, proposals } e now made rows := by
  have same : ((w.made e).map fun c => (c.name, c.description)).map (fun n => cleanText n.1) = (w.made e).map (·.name) := by
    rw [List.map_map]
    exact List.map_congr_left fun c hc => (tidy.name c (List.mem_filter.mp hc).left).left
  rw [Stores.applied]
  split
  case isTrue nothing =>
    have ⟨edits, none'⟩ := nothing
    rw [edits_eq, List.map_eq_nil_iff, List.map_eq_nil_iff] at edits
    rw [List.map_eq_nil_iff] at none'
    refine ⟨_, [], [], rfl, fun _ => ⟨⟨?_, ?_, ?_, ?_, ?_, .nil⟩, rfl, ?_, ?_⟩⟩
    · exact (List.append_nil _).symm
    · exact (List.append_nil _).symm
    · exact fun _ h => absurd h List.not_mem_nil
    · exact fun _ h => absurd h List.not_mem_nil
    · exact fun _ _ _ h => absurd h List.not_mem_nil
    · rw [none']
      rfl
    · rw [edits]
      rfl
  case isFalse =>
    have fine : ∀ n ∈ (w.made e).map (fun c => (c.name, c.description)),
        cleanText n.1 ≠ "" ∧ ¬Taken w.account.categories.rows (cleanText n.1) := by
      intro n hn
      obtain ⟨c, hc, rfl⟩ := List.mem_map.mp hn
      have ⟨clean, named⟩ := tidy.name c (List.mem_filter.mp hc).left
      rw [clean]
      exact ⟨named, not_taken hc⟩
    obtain ⟨db, id, made, rows, grows, names, rows_eq, eq⟩ :=
      Db.applyFacts_adds now ((w.unmatched e).map (w.fieldsOf e)) "merge facts" fine
    have merged (proposals) : Merged w { w with account := db, proposals } e now made rows :=
      ⟨grows, rfl, names.trans same, rows_eq.trans (List.map_map ..)⟩
    have apart : (rows.any fun f => 1 < (db.twins f).length) = false :=
      List.any_eq_false.mpr fun r hr many =>
        absurd (of_decide_eq_true many) (Nat.not_lt_of_le ((merged []).twins fits tidy hr))
    have valid : validate (w.factCategories.map (·.key)) (w.edits e)
        ((w.made e).map fun c => .add c.name c.description) = .ok () := by
      rw [edits_eq, made_edits]
      refine validate_ok fun f hf => ?_
      obtain ⟨g, hg, rfl⟩ := List.mem_map.mp hf
      have mem := (List.mem_filter.mp hg).left
      have ⟨clean, label, value⟩ := tidy.label g mem
      refine ⟨fun none' => label (clean.symm.trans none'), value, ?_⟩
      rcases place_cases mem (w := w) with ⟨i, hi, key⟩ | ⟨c, hc, name⟩
      · exact .inl (List.mem_map.mpr ⟨i, hi, key⟩)
      · exact .inr (List.mem_map.mpr ⟨_, List.mem_map_of_mem hc, name⟩)
    refine ⟨(db, id), made, rows, ?_, merged⟩
    rw [valid]
    change w.account.applyFacts _ _ _ _ = _
    rw [edits_eq, made_edits, eq, apart]
    rfl

theorem applied_again {w' : Stores} (made : w'.made e = []) (edits : w'.edits e = []) :
    w'.applied e now = .ok (w'.account, 0) := by
  rw [Stores.applied, made, edits]
  rfl

end Edits

section Proposals

def Proposal.raises (p : Proposal) : String × String :=
  (p.target, p.matchKey)

variable {ps : List Proposal} {new : Proposal} {threshold : Nat} {now : Millis}

-- A proposal is raised once.
theorem raises_upsertCounted : (upsertCounted ps new threshold now).map Proposal.raises =
    if new.raises ∈ ps.map Proposal.raises then ps.map Proposal.raises else ps.map Proposal.raises ++ [new.raises] := by
  have raises (p : Proposal) : (if p.status = .watching ∧ max threshold 1 ≤ p.support then
      { p with status := .proposed, shownAt := some now } else p).raises = p.raises := by
    split <;> rfl
  simp only [upsertCounted]
  cases found : ps.find? fun p => p.target = new.target && p.matchKey = new.matchKey
  case none =>
    have none' : new.raises ∉ ps.map Proposal.raises := by
      intro there
      obtain ⟨p, hp, eq⟩ := List.mem_map.mp there
      have ⟨target, key⟩ := Prod.mk.inj eq
      exact List.find?_eq_none.mp found p hp (by simp [target, key])
    rw [if_neg none']
    dsimp only
    rw [List.map_append, List.map_singleton, raises]
  case some p =>
    have there : new.raises ∈ ps.map Proposal.raises := by
      have ⟨target, key⟩ : p.target = new.target ∧ p.matchKey = new.matchKey := by simpa using List.find?_some found
      exact List.mem_map.mpr ⟨p, List.mem_of_find?_eq_some found, Prod.ext target key⟩
    rw [if_pos there]
    dsimp only
    split
    case isTrue  => rfl
    case isFalse =>
      rw [List.map_map]
      refine List.map_congr_left fun q _ => ?_
      rw [Function.comp_apply]
      split
      case isTrue  => exact raises { q with support := q.support + 1, updatedAt := now, payload := new.payload }
      case isFalse => rfl

variable [Letters] {fs : List FactPayload} {later : Millis}

def raise (now : Millis) (ps : List Proposal) (p : FactPayload) : List Proposal :=
  upsertCounted ps (proposalOf p now) 1 now

theorem subset_raise (fs : List FactPayload) (ps : List Proposal) :
    ps.map Proposal.raises ⊆ (fs.foldl (raise now) ps).map Proposal.raises ∧
    ∀ p ∈ fs, (proposalOf p later).raises ∈ (fs.foldl (raise now) ps).map Proposal.raises := by
  induction fs generalizing ps
  case nil => exact ⟨fun _ => id, fun _ hp => absurd hp List.not_mem_nil⟩
  case cons p fs ih =>
    have ⟨kept, new⟩ := ih (raise now ps p)
    have one : ps.map Proposal.raises ⊆ (raise now ps p).map Proposal.raises ∧
        (proposalOf p later).raises ∈ (raise now ps p).map Proposal.raises := by
      rw [raise, raises_upsertCounted]
      split
      case isTrue there => exact ⟨fun _ => id, there⟩
      case isFalse      => exact ⟨List.subset_append_left _ _, List.mem_append_right _ List.mem_cons_self⟩
    exact ⟨fun _ hp => kept (one.left hp), List.forall_mem_cons.mpr ⟨kept one.right, new⟩⟩

theorem raise_again (there : ∀ p ∈ fs, (proposalOf p later).raises ∈ ps.map Proposal.raises) :
    (fs.foldl (raise later) ps).map Proposal.raises = ps.map Proposal.raises := by
  induction fs generalizing ps
  case nil => rfl
  case cons p fs ih =>
    have ⟨first, rest⟩ := List.forall_mem_cons.mp there
    have same : (raise later ps p).map Proposal.raises = ps.map Proposal.raises := by
      rw [raise, raises_upsertCounted, if_pos first]
    exact (ih (same ▸ rest)).trans same

end Proposals

-- The stores of a state, with an account's proposals.
def State.stores (s : State) (proposals : List Proposal) : Stores where
  account   := s.account
  global    := s.global
  proposals := proposals

section Agrees

variable [Letters]

-- A file is merged; each of its facts counts once; and the same file adds nothing the next time.
def Agrees (w : Stores) (e : Exported) (now : Millis) : Prop :=
  ∃ w' r, w.mergeFacts e now = .ok (w', r) ∧ r.added + r.proposed + r.skipped = e.facts.length ∧
    (∀ f ∈ w.account.facts, f ∈ w'.account.facts) ∧
    ∀ later, ∃ w'' r', w'.mergeFacts e later = .ok (w'', r') ∧ r'.added = 0 ∧ r'.categoriesAdded = 0 ∧
      w''.account = w'.account ∧ w''.proposals.map Proposal.raises = w'.proposals.map Proposal.raises

theorem agrees {w : Stores} {e : Exported} {now : Millis} (tidy : e.Tidy) (lower : KeepsCase) (fits : Fits w e now) :
    Agrees w e now := by
  obtain ⟨a, made, rows, ok, merged⟩ := applied_ok tidy fits
  have first := mergeFacts_eq_ok.mpr ⟨a, ok, rfl⟩
  have merged := merged (w.raised e now)
  have outcomes : (w.done e now a).1.outcomes e = (w.outcomes e).map Outcome.again := by
    rw [Stores.outcomes, Stores.outcomes, List.map_map]
    exact List.map_congr_left fun f hf => merged.outcome_again fits tidy lower hf
  have ⟨edits, proposed⟩ := again_eq outcomes
  have none' := merged.made_again fits
  refine ⟨_, _, first, counted, mergeFacts_keeps first, fun later => ?_⟩
  refine ⟨_, _, mergeFacts_eq_ok.mpr ⟨_, applied_again none' edits, rfl⟩, ?_, ?_, rfl, ?_⟩
  · exact congrArg List.length edits
  · exact congrArg (fun l => (l.map fun c => CategoryEdit.add c.name c.description).length) none'
  · have same : (w.done e now a).1.raised e later = (w.proposed e).foldl (raise later) (w.raised e now) := by
      rw [Stores.raised, proposed]
      rfl
    refine (congrArg (List.map Proposal.raises) same).trans (raise_again ?_)
    exact (subset_raise (w.proposed e) w.proposals).right

-- What an account wrote is merged into any other that it fits; and no merge changes a fact that the account had.
theorem reachable_merged {s : State} (h : facts.Reachable (fun _ _ => True) s) (lower : KeepsCase) (t : State)
    (ps qs : List Proposal) (now : Millis) :
    (Fits (t.stores qs) (s.stores ps).exportFacts now → Agrees (t.stores qs) (s.stores ps).exportFacts now) ∧
    ∀ e r, (t.stores qs).mergeFacts e now = .ok r → ∀ f ∈ t.account.facts, f ∈ r.1.account.facts := by
  have tidy := State.reachable_tidy h
  exact ⟨agrees (Stores.tidy_exportFacts tidy.account tidy.global) lower, fun _ _ => mergeFacts_keeps⟩

end Agrees

section Hobbies

def entry (category label value : String) : FactFields where
  category := category
  label    := label
  value    := value

def adds (fields : List FactFields) (categories : List String) (now : Millis) : List Action :=
  [.apply .account (fields.map fun f => .add f .accepted .you) (categories.map (.add · "")) "add", .go 0 now]

-- Stores whose categories are the account's own, and its facts in built-in ones: no key is a matter of time.
theorem Fits.of_own [Letters] {w : Stores} {e : Exported} (now : Millis)
    (own : w.global.customs = [] ∧ ∀ m ∈ w.account.accepted, m.category ∈ BUILTINS.map (·.1))
    (apart : ((w.unmatched e).map fun f => (w.place e f, toLowercase f.label)).Nodup)
    (cased : ∀ f ∈ w.unmatched e, ∀ m ∈ w.account.accepted, m.category = w.place e f →
      toLowercase m.label ≠ toLowercase f.label)
    (named : ∀ c ∈ w.made e, ((w.made e).find? (similar ·.name c.name)).map (·.name) = some c.name)
    (keys : ∀ c ∈ w.made e, (∀ h ∈ w.factCategories, h.key ≠ c.name) ∧ ∀ m ∈ w.account.accepted, m.category ≠ c.name) :
    Fits w e now where
  apart := apart
  cased := cased
  named := named
  keys  := keys
  stays c _ like unlike := by
    obtain ⟨h, there, like⟩ := like
    rw [Stores.factCategories, own.left, List.filter_nil, List.append_nil] at there
    exact absurd like (unlike h there)
  fresh key stamped := by
    rw [own.left]
    exact ⟨fun _ h => absurd h List.not_mem_nil, fun m hm eq => stamped.not_builtin (eq ▸ own.right m hm)⟩

theorem keepsCase_ascii : @KeepsCase ascii :=
  fun _ _ h => congrArg String.ofList (of_decide_eq_true h)

-- The account has another phone number: that is proposed, and the category is made.
theorem reachable_merged_hobbies : ∃ s t : State, t.account.accepted.map (·.value) = ["2"] ∧
    (s.stores []).exportFacts.facts.map (·.value) = ["chess", "1"] ∧
    @Agrees ascii (t.stores []) (s.stores []).exportFacts 3 := by
  let _ : Letters := ascii
  have ran : (facts.run (fun _ _ => True) {}
      (adds [entry "Hobbies" "Sport" "chess", entry "contact" "Phone" "1"] ["Hobbies"] 1)).any fun s =>
      (facts.run (fun _ _ => True) {} (adds [entry "contact" "Phone" "2"] [] 2)).any fun t =>
        let w := t.stores []
        let e := (s.stores []).exportFacts
        (t.account.accepted.map (·.value) = ["2"] ∧ e.facts.map (·.value) = ["chess", "1"]) ∧
        (w.global.customs = [] ∧ ∀ m ∈ w.account.accepted, m.category ∈ BUILTINS.map (·.1)) ∧
        ((w.unmatched e).map fun f => (w.place e f, toLowercase f.label)).Nodup ∧
        (∀ f ∈ w.unmatched e, ∀ m ∈ w.account.accepted, m.category = w.place e f →
          toLowercase m.label ≠ toLowercase f.label) ∧
        (∀ c ∈ w.made e, ((w.made e).find? (similar ·.name c.name)).map (·.name) = some c.name) ∧
        ∀ c ∈ w.made e, (∀ h ∈ w.factCategories, h.key ≠ c.name) ∧ ∀ m ∈ w.account.accepted, m.category ≠ c.name := by
    decide +kernel
  obtain ⟨s, run, h⟩ := (Option.any_eq_true _ _).mp ran
  obtain ⟨t, _, h⟩ := (Option.any_eq_true _ _).mp h
  obtain ⟨⟨phone, written⟩, own, apart, cased, named, keys⟩ := of_decide_eq_true h
  have reachable : facts.Reachable (fun _ _ => True) s := System.Reachable.run (.start rfl) run
  exact ⟨s, t, phone, written,
    (reachable_merged reachable keepsCase_ascii t [] [] 3).left (.of_own 3 own apart cased named keys)⟩

-- Two categories of one account are like the one that another has: their facts of one name cannot both be there.
theorem merged_refused : ¬∀ s t : State, (@facts ascii).Reachable (fun _ _ => True) s →
    (@facts ascii).Reachable (fun _ _ => True) t → @Agrees ascii (t.stores []) (s.stores []).exportFacts 3 := by
  let _ : Letters := ascii
  intro claim
  have ran : (facts.run (fun _ _ => True) {}
      (adds [entry "Hobbies A" "Sport" "chess", entry "Hobbies B" "Sport" "go"] ["Hobbies A", "Hobbies B"] 1)).any fun s =>
      (facts.run (fun _ _ => True) {} (adds [] ["Hobbies"] 2)).any fun t =>
        !((t.stores []).mergeFacts (s.stores []).exportFacts 3).toBool := by
    decide +kernel
  obtain ⟨s, run, h⟩ := (Option.any_eq_true _ _).mp ran
  obtain ⟨t, run', h⟩ := (Option.any_eq_true _ _).mp h
  obtain ⟨_, _, ok, _⟩ := claim s t (System.Reachable.run (.start rfl) run) (System.Reachable.run (.start rfl) run')
  rw [ok] at h
  cases h

end Hobbies

end Kaluta.Facts
