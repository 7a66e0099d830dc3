import Mathlib.Data.List.Nodup
import Mathlib.Data.List.Count
import Mathlib.Order.Nat

-- A table whose rows are told apart by a key, as a database's primary key does. The rows stay in
-- the order in which they were inserted.
structure Table (α : Type u) {κ : Type v} (key : α → κ) where
  rows  : List α
  nodup : (rows.map key).Nodup

namespace Table

variable {α : Type u} {κ : Type v} {key : α → κ} {t : Table α key} {a b : α} {k : κ}
variable {p q : α → Bool} {f : α → α}

instance : Membership α (Table α key) where
  mem t a := a ∈ t.rows

instance : EmptyCollection (Table α key) where
  emptyCollection := { rows := [], nodup := List.nodup_nil }

instance : Inhabited (Table α key) where
  default := ∅

instance [DecidableEq α] : DecidablePred (· ∈ t) :=
  fun a => inferInstanceAs (Decidable (a ∈ t.rows))

theorem mem_rows : a ∈ t.rows ↔ a ∈ t :=
  Iff.rfl

@[simp]
theorem not_mem_empty : a ∉ (∅ : Table α key) :=
  List.not_mem_nil

theorem ext_rows : {t₁ t₂ : Table α key} → t₁.rows = t₂.rows → t₁ = t₂
  | ⟨_, _⟩, ⟨_, _⟩, rfl => rfl

theorem eq_of_key_eq (ha : a ∈ t) (hb : b ∈ t) (h : key a = key b) : a = b :=
  List.inj_on_of_nodup_map t.nodup ha hb h

section Find

variable [DecidableEq κ]

def find? (t : Table α key) (k : κ) : Option α :=
  t.rows.find? (key · = k)

theorem find?_eq_some_iff : t.find? k = some a ↔ a ∈ t ∧ key a = k := by
  constructor
  · intro h
    exact ⟨List.mem_of_find?_eq_some h, by simpa using List.find?_some h⟩
  · rintro ⟨hm, rfl⟩
    cases h : t.find? (key a)
    case none =>
      have := List.find?_eq_none.mp h a hm
      simp at this
    case some b =>
      have hb : key b = key a := by simpa using List.find?_some h
      rw [eq_of_key_eq (List.mem_of_find?_eq_some h) hm hb]

theorem find?_eq_none_iff : t.find? k = none ↔ ∀ a ∈ t, key a ≠ k := by
  simp [find?, mem_rows]

theorem find?_key (h : a ∈ t) : t.find? (key a) = some a :=
  find?_eq_some_iff.mpr ⟨h, rfl⟩

theorem find?_mem (h : t.find? k = some a) : a ∈ t :=
  (find?_eq_some_iff.mp h).left

theorem find?_key_eq (h : t.find? k = some a) : key a = k :=
  (find?_eq_some_iff.mp h).right

theorem find?_eq_of_mem_iff {t' : Table α key} (h : ∀ a, key a = k → (a ∈ t' ↔ a ∈ t)) :
    t'.find? k = t.find? k := by
  ext a
  simp only [find?_eq_some_iff]
  constructor
  · rintro ⟨hm, hk⟩; exact ⟨(h a hk).mp hm, hk⟩
  · rintro ⟨hm, hk⟩; exact ⟨(h a hk).mpr hm, hk⟩

end Find

section FindUnique

variable {ι : Type w} [DecidableEq ι] {f : α → ι} {i : ι}

-- A column that identifies a row, besides the key.
theorem find?_unique (hu : ∀ a ∈ t, ∀ b ∈ t, f a = f b → a = b) :
    t.rows.find? (f · = i) = some a ↔ a ∈ t ∧ f a = i := by
  constructor
  · intro h
    exact ⟨List.mem_of_find?_eq_some h, by simpa using List.find?_some h⟩
  · rintro ⟨hm, rfl⟩
    cases h : t.rows.find? (f · = f a)
    case none =>
      have := List.find?_eq_none.mp h a hm
      simp at this
    case some b =>
      have hb : f b = f a := by simpa using List.find?_some h
      rw [hu b (List.mem_of_find?_eq_some h) a hm hb]

end FindUnique

section Delete

def delete (t : Table α key) (p : α → Bool) : Table α key where
  rows  := t.rows.filter (!p ·)
  nodup := (List.filter_sublist.map key).nodup t.nodup

@[simp]
theorem mem_delete : a ∈ t.delete p ↔ a ∈ t ∧ p a = false := by
  simp [delete, ← mem_rows]

theorem delete_eq_self (h : ∀ a ∈ t, p a = false) : t.delete p = t :=
  ext_rows (List.filter_eq_self.mpr fun a ha => by simp [h a ha])

theorem filter_delete (h : ∀ a ∈ t, p a = true → q a = false) :
    (t.delete p).rows.filter q = t.rows.filter q := by
  simp only [delete, List.filter_filter]
  refine List.filter_congr fun a ha => ?_
  cases hp : p a
  case false => simp
  case true  => simp [h a ha hp]

end Delete

section Update

def update (t : Table α key) (p : α → Bool) (f : α → α) (hf : ∀ a, key (f a) = key a) :
    Table α key where
  rows  := t.rows.map (fun a => if p a then f a else a)
  nodup := by
    have h : key ∘ (fun a => if p a then f a else a) = key := by
      funext a
      simp only [Function.comp_apply]
      split
      · exact hf a
      · rfl
    simpa [List.map_map, h] using t.nodup

variable {hf : ∀ a, key (f a) = key a}

@[simp]
theorem mem_update : b ∈ t.update p f hf ↔ (b ∈ t ∧ p b = false) ∨ ∃ a ∈ t, p a ∧ f a = b := by
  simp only [update, ← mem_rows, List.mem_map]
  constructor
  · rintro ⟨a, ha, h⟩
    cases hp : p a <;> simp only [hp, Bool.false_eq_true, if_false, if_true] at h <;> subst h
    case false => exact .inl ⟨ha, hp⟩
    case true  => exact .inr ⟨a, ha, hp, rfl⟩
  · rintro (⟨hb, hp⟩ | ⟨a, ha, hp, rfl⟩)
    · exact ⟨b, hb, by simp [hp]⟩
    · exact ⟨a, ha, by simp [hp]⟩

theorem exists_mem_update (hf : ∀ a, key (f a) = key a) {P : α → Prop} (h : a ∈ t)
    (hP : P (if p a then f a else a)) : ∃ b ∈ t.update p f hf, P b :=
  ⟨_, List.mem_map_of_mem h, hP⟩

theorem filter_update (h : ∀ a ∈ t, p a = true → q a = false ∧ q (f a) = false) :
    (t.update p f hf).rows.filter q = t.rows.filter q := by
  simp only [update]
  have : ∀ as : List α, (∀ a ∈ as, p a = true → q a = false ∧ q (f a) = false) →
      (as.map fun a => if p a then f a else a).filter q = as.filter q := by
    intro as
    induction as
    case nil => simp
    case cons a as ih =>
      intro h
      have ih := ih fun b hb => h b (List.mem_cons_of_mem _ hb)
      cases hp : p a
      case false => simp [hp, List.filter_cons, ih]
      case true  => simp [hp, h a List.mem_cons_self hp, ih]
  exact this t.rows h

-- A column that an update leaves as it is.
theorem map_update {β : Type w} {g : α → β} (hf : ∀ a, key (f a) = key a) (hg : ∀ a, g (f a) = g a) :
    (t.update p f hf).rows.map g = t.rows.map g := by
  simp only [update, List.map_map]
  refine List.map_congr_left fun a _ => ?_
  simp only [Function.comp_apply]
  split
  · exact hg a
  · rfl

theorem find?_update [DecidableEq κ] :
    (t.update p f hf).find? k = (t.find? k).map (fun a => if p a then f a else a) := by
  ext b
  simp only [find?_eq_some_iff, mem_update, Option.map_eq_some_iff]
  constructor
  · rintro ⟨⟨hb, hp⟩ | ⟨a, ha, hp, rfl⟩, hk⟩
    · exact ⟨b, ⟨hb, hk⟩, by simp [hp]⟩
    · exact ⟨a, ⟨ha, hf a ▸ hk⟩, by simp [hp]⟩
  · rintro ⟨a, ⟨ha, hk⟩, rfl⟩
    cases hp : p a
    case false => exact ⟨.inl ⟨by simpa [hp] using ha, by simp [hp]⟩, by simpa [hp] using hk⟩
    case true  => exact ⟨.inr ⟨a, ha, hp, by simp⟩, by simpa [hp, hf] using hk⟩

end Update

section Insert

-- Inserts a row whose key is not taken.
def insert (t : Table α key) (a : α) (h : ∀ b ∈ t, key b ≠ key a) : Table α key where
  rows  := t.rows ++ [a]
  nodup := by
    rw [List.map_append, List.map_singleton, List.nodup_append]
    refine ⟨t.nodup, List.nodup_singleton _, ?_⟩
    simp only [List.mem_map, List.mem_singleton]
    rintro _ ⟨b, hb, rfl⟩ _ rfl
    exact h b hb

@[simp]
theorem mem_insert {h : ∀ b ∈ t, key b ≠ key a} : b ∈ t.insert a h ↔ b ∈ t ∨ b = a := by
  simp [insert, ← mem_rows]

theorem filter_insert {h : ∀ b ∈ t, key b ≠ key a} (hq : q a = false) :
    (t.insert a h).rows.filter q = t.rows.filter q := by
  simp [insert, hq]

variable [DecidableEq κ]

-- An `INSERT` that fails when the key is taken.
def insert? (t : Table α key) (a : α) : Option (Table α key) :=
  if h : ∀ b ∈ t.rows, key b ≠ key a then some (t.insert a h) else none

theorem insert?_eq_some {t' : Table α key} :
    t.insert? a = some t' ↔ ∃ h : ∀ b ∈ t, key b ≠ key a, t.insert a h = t' := by
  rw [insert?]
  split
  case isTrue h  =>
    constructor
    · intro he
      exact ⟨h, Option.some.inj he⟩
    · rintro ⟨_, rfl⟩
      rfl
  case isFalse h =>
    constructor
    · intro he
      cases he
    · rintro ⟨h', _⟩
      exact absurd h' h

theorem mem_insert? {t' : Table α key} (h : t.insert? a = some t') : b ∈ t' ↔ b ∈ t ∨ b = a := by
  obtain ⟨_, rfl⟩ := insert?_eq_some.mp h
  exact mem_insert

-- `INSERT OR REPLACE`.
def replace (t : Table α key) (a : α) : Table α key :=
  (t.delete (key · = key a)).insert a fun _ hb => by simpa using (mem_delete.mp hb).right

theorem mem_replace : b ∈ t.replace a ↔ (b ∈ t ∧ key b ≠ key a) ∨ b = a := by
  rw [replace, mem_insert, mem_delete, decide_eq_false_iff_not]

theorem find?_replace : (t.replace a).find? k = if k = key a then some a else t.find? k := by
  split
  case isTrue h  => exact find?_eq_some_iff.mpr ⟨mem_replace.mpr (.inr rfl), h.symm⟩
  case isFalse h =>
    refine find?_eq_of_mem_iff fun b hb => ?_
    rw [mem_replace]
    constructor
    · rintro (⟨hb, _⟩ | rfl)
      · exact hb
      · exact absurd hb.symm h
    · exact fun hm => .inl ⟨hm, hb ▸ h⟩

-- `INSERT OR IGNORE`.
def insertOrIgnore (t : Table α key) (a : α) : Table α key :=
  if h : ∀ b ∈ t.rows, key b ≠ key a then t.insert a h else t

-- `INSERT … ON CONFLICT (key) DO UPDATE`.
def upsert (t : Table α key) (a : α) (f : α → α) (hf : ∀ b, key (f b) = key b) : Table α key :=
  if h : ∀ b ∈ t.rows, key b ≠ key a then t.insert a h else t.update (key · = key a) f hf

-- A row whose key the table does not hold is added, and one whose key it holds already is not.
theorem mem_insertOrIgnore : b ∈ t.insertOrIgnore a ↔
    b ∈ t ∨ (b = a ∧ ∀ c ∈ t, key c ≠ key a) := by
  rw [insertOrIgnore]
  split
  case isTrue h  =>
    rw [mem_insert]
    exact or_congr_right ⟨fun hb => ⟨hb, h⟩, And.left⟩
  case isFalse h =>
    constructor
    · exact .inl
    · rintro (hb | ⟨_, hk⟩)
      · exact hb
      · exact absurd hk h

theorem mem_of_mem_insertOrIgnore (h : b ∈ t.insertOrIgnore a) : b ∈ t ∨ b = a :=
  (mem_insertOrIgnore.mp h).imp_right And.left

-- A table without columns besides its key is a set.
theorem mem_insertOrIgnore_id [DecidableEq α] {t : Table α id} :
    b ∈ t.insertOrIgnore a ↔ b ∈ t ∨ b = a := by
  rw [mem_insertOrIgnore]
  constructor
  · exact .imp_right And.left
  · rintro (hb | rfl)
    · exact .inl hb
    · by_cases hb : b ∈ t
      case pos => exact .inl hb
      case neg => exact .inr ⟨rfl, fun c hc (he : c = b) => hb (he ▸ hc)⟩

variable {hf : ∀ a, key (f a) = key a}

theorem find?_upsert : (t.upsert a f hf).find? k =
    if k = key a then some ((t.find? k).elim a f) else t.find? k := by
  rw [upsert]
  split
  case isTrue h =>
    have hn : t.find? (key a) = none := find?_eq_none_iff.mpr h
    split
    case isTrue hk  =>
      subst hk
      simp only [hn, Option.elim_none]
      exact find?_eq_some_iff.mpr ⟨by simp, rfl⟩
    case isFalse hk =>
      refine find?_eq_of_mem_iff fun b hb => ?_
      simp only [mem_insert, or_iff_left_iff_imp]
      rintro rfl
      exact absurd hb.symm hk
  case isFalse h =>
    rw [find?_update]
    push Not at h
    obtain ⟨c, hc, hck⟩ := h
    split
    case isTrue hk  =>
      subst hk
      have hs : t.find? (key a) = some c := find?_eq_some_iff.mpr ⟨hc, hck⟩
      simp [hs, hck]
    case isFalse hk =>
      cases hs : t.find? k
      case none   => rfl
      case some b =>
        have := find?_key_eq hs
        simp [this, hk]

end Insert

section Count

def count (t : Table α key) (p : α → Bool) : Nat :=
  t.rows.countP p

theorem count_congr (h : ∀ a ∈ t, p a = q a) : t.count p = t.count q :=
  List.countP_congr fun a ha => by simp [h a ha]

theorem count_eq_zero : t.count p = 0 ↔ ∀ a ∈ t, p a = false := by
  simp [count, mem_rows]

theorem count_delete : (t.delete p).count q = t.count (fun a => q a && !p a) := by
  simp [count, delete, List.countP_filter]

theorem count_insert {h : ∀ b ∈ t, key b ≠ key a} :
    (t.insert a h).count p = t.count p + if p a then 1 else 0 := by
  simp [count, insert, List.countP_singleton]

theorem count_update {hf : ∀ a, key (f a) = key a} :
    (t.update p f hf).count q = t.count (fun a => q (if p a then f a else a)) := by
  simp [count, update, List.countP_map, Function.comp_def]

-- Splits a count into the rows that meet a second predicate and those that do not.
theorem count_eq_add (t : Table α key) (p q : α → Bool) :
    t.count p = t.count (fun a => p a && q a) + t.count (fun a => p a && !q a) := by
  simp only [count]
  induction t.rows
  case nil          => rfl
  case cons a as ih => cases hp : p a <;> cases hq : q a <;> simp [hp, hq] <;> omega

-- A predicate that only one row of the table meets.
theorem count_eq_one (ha : a ∈ t) (hp : p a = true) (h : ∀ b ∈ t, p b = true → b = a) :
    t.count p = 1 := by
  have hn : t.rows.Nodup := t.nodup.of_map
  have hs : (t.rows.filter p).Perm [a] := by
    rw [List.perm_ext_iff_of_nodup (hn.filter p) (List.nodup_singleton a)]
    intro b
    rw [List.mem_filter, List.mem_singleton]
    constructor
    · exact fun hb => h b hb.left hb.right
    · rintro rfl
      exact ⟨ha, hp⟩
  rw [count, List.countP_eq_length_filter, hs.length_eq, List.length_singleton]

theorem count_le_one (h : ∀ a ∈ t, ∀ b ∈ t, p a = true → p b = true → a = b) : t.count p ≤ 1 := by
  by_cases ha : ∃ a ∈ t, p a = true
  case pos =>
    obtain ⟨a, ha, hp⟩ := ha
    exact (count_eq_one ha hp fun b hb hq => h b hb a ha hq hp).le
  case neg =>
    have hz : t.count p = 0 := count_eq_zero.mpr fun a hm => by simpa using fun hp => ha ⟨a, hm, hp⟩
    exact hz.trans_le (Nat.zero_le _)

theorem count_true : t.count (fun _ => true) = t.rows.length := by
  simp [count]

-- Two counts are equal when the counted rows carry the same values, each value once.
theorem count_eq_count {β : Type u'} {κ' : Type v'} {key' : β → κ'} {t' : Table β key'} {q : β → Bool}
    {γ : Type w} {f : α → γ} {g : β → γ}
    (hf : ∀ a ∈ t, ∀ a' ∈ t, p a → p a' → f a = f a' → a = a')
    (hg : ∀ b ∈ t', ∀ b' ∈ t', q b → q b' → g b = g b' → b = b')
    (h : ∀ c, (∃ a ∈ t, p a ∧ f a = c) ↔ ∃ b ∈ t', q b ∧ g b = c) : t.count p = t'.count q := by
  have hn : ((t.rows.filter p).map f).Nodup := by
    refine (List.nodup_map_iff_inj_on (t.nodup.of_map.filter p)).mpr fun a ha a' ha' => ?_
    have ⟨ha, hp⟩ := List.mem_filter.mp ha
    have ⟨ha', hp'⟩ := List.mem_filter.mp ha'
    exact hf a ha a' ha' hp hp'
  have hn' : ((t'.rows.filter q).map g).Nodup := by
    refine (List.nodup_map_iff_inj_on (t'.nodup.of_map.filter q)).mpr fun b hb b' hb' => ?_
    have ⟨hb, hq⟩ := List.mem_filter.mp hb
    have ⟨hb', hq'⟩ := List.mem_filter.mp hb'
    exact hg b hb b' hb' hq hq'
  have hp : ((t.rows.filter p).map f).Perm ((t'.rows.filter q).map g) := by
    rw [List.perm_ext_iff_of_nodup hn hn']
    intro c
    simpa [and_assoc, mem_rows] using h c
  simpa [count, List.countP_eq_length_filter] using hp.length_eq

end Count

section Rowid

variable {id : α → Nat} {t : Table α id} {mk : Nat → α} {hmk : ∀ n, id (mk n) = n}

-- The rowid the next inserted row gets: one more than the largest in use.
def nextRowid (t : Table α id) : Nat :=
  (t.rows.map id).foldr max 0 + 1

theorem lt_nextRowid (h : a ∈ t) : id a < t.nextRowid := by
  rw [nextRowid, Nat.lt_succ_iff]
  have hm : id a ∈ t.rows.map id := List.mem_map_of_mem h
  generalize t.rows.map id = ids at hm
  induction ids
  case nil => simp at hm
  case cons i is ih =>
    rw [List.foldr_cons]
    cases List.mem_cons.mp hm
    case inl h => exact h ▸ le_max_left _ _
    case inr h => exact (ih h).trans (le_max_right _ _)

-- Inserts a row under the next rowid, as an `INTEGER PRIMARY KEY` left out of an `INSERT` is chosen.
def insertRow (t : Table α id) (mk : Nat → α) (hmk : ∀ n, id (mk n) = n) : Table α id :=
  t.insert (mk t.nextRowid) fun _ hb => hmk _ ▸ (lt_nextRowid hb).ne

@[simp]
theorem mem_insertRow : a ∈ t.insertRow mk hmk ↔ a ∈ t ∨ a = mk t.nextRowid :=
  mem_insert

theorem find?_insertRow_self : (t.insertRow mk hmk).find? t.nextRowid = some (mk t.nextRowid) :=
  find?_eq_some_iff.mpr ⟨by simp, hmk _⟩

theorem find?_insertRow_ne (h : n ≠ t.nextRowid) : (t.insertRow mk hmk).find? n = t.find? n := by
  refine find?_eq_of_mem_iff fun b hb => ?_
  simp only [mem_insertRow, or_iff_left_iff_imp]
  rintro rfl
  exact absurd (hb ▸ hmk _ : n = _) h

end Rowid

end Table
