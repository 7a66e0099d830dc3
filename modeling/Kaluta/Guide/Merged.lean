import Kaluta.Guide.Versions

-- What learning leaves of the entries, and that it makes no difference the second time.
namespace Kaluta.Guide

-- An entry but for how its evidence counts.
def EntryRow.Recounted (e e' : EntryRow) : Prop :=
  e' = { e with support := e'.support, contradict := e'.contradict }

namespace EntryRow.Recounted

variable {e e' e'' : EntryRow}

theorem trans (h₁ : e.Recounted e') (h₂ : e'.Recounted e'') : e.Recounted e'' := by
  rw [Recounted, h₁] at h₂
  exact h₂

theorem id_eq (h : e.Recounted e') : e'.id = e.id :=
  congrArg (·.id) h

theorem status_eq (h : e.Recounted e') : e'.status = e.status :=
  congrArg (·.status) h

theorem fields_eq (h : e.Recounted e') : e'.toFields = e.toFields :=
  congrArg (·.toFields) h

end EntryRow.Recounted

namespace Db

variable {db db' db'' : Db} {id id' : EntryId} {quotes : List EvidenceRow}

-- An entry's counts are those of its evidence.
def Counted (db : Db) (id : EntryId) : Prop :=
  ∀ e ∈ db.entries, e.id = id →
    e.support = distinct ((db.evidenceOf id).filter (!·.contradicts)) ∧
      e.contradict = distinct ((db.evidenceOf id).filter (·.contradicts))

-- An entry has these quotes, and counts them.
structure Takes (db : Db) (id : EntryId) (quotes : List EvidenceRow) : Prop where
  quotes  : ∀ q ∈ quotes, ∃ x ∈ db.evidence, (x.entryId, x.messageId, x.quote) = (id, q.messageId, q.quote)
  counted : db.Counted id
  given   : id ≤ db.lastId

-- What learning does to the store's entries: they are recounted, and new ones come after them.
structure Extends (db db' : Db) : Prop where
  kept     : ∀ e ∈ db.entries, ∃ e' ∈ db'.entries, e.Recounted e'
  new      : ∀ e' ∈ db'.entries, (∃ e ∈ db.entries, e.Recounted e') ∨ db.lastId < e'.id
  last     : db.lastId ≤ db'.lastId
  evidence : ∀ x ∈ db.evidence, x ∈ db'.evidence
  counted  : ∀ id ≤ db.lastId, db.Counted id → db'.Counted id

theorem id_le_lastId (h : e ∈ db.entries) : e.id ≤ db.lastId := by
  have := Table.lt_nextRowid h
  exact (Nat.le_sub_one_of_lt this).trans (le_max_left _ _)

namespace Extends

theorem refl (db : Db) : Extends db db :=
  ⟨fun e he => ⟨e, he, rfl⟩, fun e he => .inl ⟨e, he, rfl⟩, le_rfl, fun _ hx => hx, fun _ _ h => h⟩

theorem trans (h₁ : Extends db db') (h₂ : Extends db' db'') : Extends db db'' where
  kept e he :=
    have ⟨_, he', same⟩ := h₁.kept e he
    have ⟨e'', he'', same'⟩ := h₂.kept _ he'
    ⟨e'', he'', same.trans same'⟩
  new e'' he'' := by
    rcases h₂.new e'' he'' with ⟨e', he', same'⟩ | later
    · rcases h₁.new e' he' with ⟨e, he, same⟩ | later
      · exact .inl ⟨e, he, same.trans same'⟩
      · exact .inr (same'.id_eq ▸ later)
    · exact .inr (h₁.last.trans_lt later)
  last := h₁.last.trans h₂.last
  evidence x hx := h₂.evidence x (h₁.evidence x hx)
  counted id le h := h₂.counted id (le.trans h₁.last) (h₁.counted id le h)

end Extends

theorem Takes.mono (h : db.Takes id quotes) (extends_ : db.Extends db') : db'.Takes id quotes where
  quotes q hq :=
    have ⟨x, hx, key⟩ := h.quotes q hq
    ⟨x, extends_.evidence x hx, key⟩
  counted := extends_.counted id h.given h.counted
  given   := h.given.trans extends_.last

theorem recount_eq_self (h : db.Counted id) : db.recount id = db := by
  have same : db.entries.update (·.id = id)
      ({ · with
        support    := distinct ((db.evidenceOf id).filter (!·.contradicts))
        contradict := distinct ((db.evidenceOf id).filter (·.contradicts)) }) (fun _ => rfl) = db.entries := by
    refine Table.ext_rows ((List.map_congr_left fun e he => ?_).trans (List.map_id _))
    split
    case isTrue eq =>
      have ⟨support, contradict⟩ := h e he (of_decide_eq_true eq)
      rw [← support, ← contradict]
      rfl
    case isFalse => rfl
  rw [recount, same]

-- What is there already makes no difference.
theorem addEvidence_eq_self (h : db.Takes id quotes) : db.addEvidence id quotes = db := by
  have same : quotes.foldl (fun t q => t.insertOrIgnore { q with entryId := id }) db.evidence = db.evidence := by
    have there := h.quotes
    clear h
    induction quotes
    case nil => rfl
    case cons q quotes ih =>
      have ⟨x, hx, key⟩ := there q List.mem_cons_self
      have ignored : db.evidence.insertOrIgnore { q with entryId := id } = db.evidence :=
        dif_neg fun new => new x hx key
      rw [List.foldl_cons, ignored, ih fun q hq => there q (List.mem_cons_of_mem _ hq)]
  rw [addEvidence, same]
  exact recount_eq_self h.counted

section AddEvidence

variable (db id quotes)

theorem mem_addEvidence : e' ∈ (db.addEvidence id quotes).entries ↔
    (e' ∈ db.entries ∧ e'.id ≠ id) ∨ ∃ e ∈ db.entries, e.id = id ∧
      { e with
        support    := distinct (((db.addEvidence id quotes).evidenceOf id).filter (!·.contradicts))
        contradict := distinct (((db.addEvidence id quotes).evidenceOf id).filter (·.contradicts)) } = e' := by
  simp only [addEvidence, recount, Table.mem_update, decide_eq_false_iff_not, decide_eq_true_eq, ne_eq, evidenceOf]

theorem mem_entries_addEvidence : ∀ e' ∈ (db.addEvidence id quotes).entries, ∃ e ∈ db.entries, e.Recounted e' := by
  intro e' he'
  rcases (mem_addEvidence db id quotes).mp he' with ⟨he, _⟩ | ⟨e, he, _, rfl⟩
  · exact ⟨e', he, rfl⟩
  · exact ⟨e, he, rfl⟩

theorem ids_addEvidence : (db.addEvidence id quotes).entries.rows.map (·.id) = db.entries.rows.map (·.id) :=
  Table.map_update (by exact fun _ => rfl) fun _ => rfl

theorem lastId_addEvidence : (db.addEvidence id quotes).lastId = db.lastId := by
  rw [lastId, lastId, Table.nextRowid, ids_addEvidence]
  rfl

theorem evidence_addEvidence : (db.addEvidence id quotes).evidence =
    quotes.foldl (fun t q => t.insertOrIgnore { q with entryId := id }) db.evidence :=
  rfl

theorem counted_addEvidence : (db.addEvidence id quotes).Counted id := by
  intro e he eq
  rcases (mem_addEvidence db id quotes).mp he with ⟨_, ne⟩ | ⟨e₀, _, _, rfl⟩
  · exact absurd eq ne
  · exact ⟨rfl, rfl⟩

theorem evidenceOf_addEvidence_ne (ne : id' ≠ id) : (db.addEvidence id quotes).evidenceOf id' = db.evidenceOf id' := by
  have each (t : Table Evidence fun e => (e.entryId, e.messageId, e.quote)) (quotes : List EvidenceRow) :
      (quotes.foldl (fun t q => t.insertOrIgnore { q with entryId := id }) t).rows.filter (·.entryId = id') =
        t.rows.filter (·.entryId = id') := by
    induction quotes generalizing t
    case nil => rfl
    case cons q quotes ih =>
      rw [List.foldl_cons, ih, Table.insertOrIgnore]
      split
      case isTrue  => exact Table.filter_insert (by simpa using ne.symm)
      case isFalse => rfl
  rw [evidenceOf, evidence_addEvidence, each]
  rfl

theorem extends_addEvidence : db.Extends (db.addEvidence id quotes) where
  kept e he := by
    refine Table.exists_mem_update (by exact fun _ => rfl) he ?_
    split <;> rfl
  new e' he' := .inl (mem_entries_addEvidence db id quotes e' he')
  last := (lastId_addEvidence db id quotes).ge
  evidence x hx := by
    rw [evidence_addEvidence]
    exact List.foldl_preserves (P := fun t => x ∈ t) (fun _ _ ih => Table.mem_insertOrIgnore.mpr (.inl ih)) hx
  counted id' _ h := by
    by_cases eq : id' = id
    case pos => exact eq ▸ counted_addEvidence db id quotes
    case neg =>
      intro e he hid
      rw [evidenceOf_addEvidence_ne db id quotes eq]
      rcases (mem_addEvidence db id quotes).mp he with ⟨he, _⟩ | ⟨e₀, _, hid', rfl⟩
      · exact h e he hid
      · exact absurd (hid.symm.trans hid') eq

theorem takes_addEvidence (given : id ≤ db.lastId) : (db.addEvidence id quotes).Takes id quotes where
  quotes q hq := by
    rw [evidence_addEvidence]
    have each (t : Table Evidence fun e => (e.entryId, e.messageId, e.quote)) (quotes : List EvidenceRow) (hq : q ∈ quotes) :
        ∃ x ∈ quotes.foldl (fun t q => t.insertOrIgnore { q with entryId := id }) t,
          (x.entryId, x.messageId, x.quote) = (id, q.messageId, q.quote) := by
      induction quotes generalizing t
      case nil => cases hq
      case cons q' quotes ih =>
        rcases List.mem_cons.mp hq with rfl | hq
        · have ⟨x, hx, key⟩ : ∃ x ∈ t.insertOrIgnore { q with entryId := id },
              (x.entryId, x.messageId, x.quote) = (id, q.messageId, q.quote) := by
            rw [Table.insertOrIgnore]
            split
            case isTrue  => exact ⟨_, Table.mem_insert.mpr (.inr rfl), rfl⟩
            case isFalse there =>
              push Not at there
              exact there
          refine ⟨x, ?_, key⟩
          rw [List.foldl_cons]
          exact List.foldl_preserves (P := fun t => x ∈ t) (fun _ _ ih => Table.mem_insertOrIgnore.mpr (.inl ih)) hx
        · exact ih _ hq
    exact each db.evidence quotes hq
  counted := counted_addEvidence db id quotes
  given   := (lastId_addEvidence db id quotes).symm ▸ given

end AddEvidence

-- The store with a new entry, under the next id.
def inserted (db : Db) (e : EntryRow) : Db :=
  { db with
    entries     := db.entries.insert { e with id := db.lastId + 1 } fun _ hb => ((id_le_lastId hb).trans_lt (Nat.lt_succ_self _)).ne
    lastEntryId := db.lastId + 1 }

theorem insertEntry_new (db : Db) {e : EntryRow} (new : e.id = 0) : db.insertEntry e = .ok (db.inserted e, db.lastId + 1) := by
  have free : ∀ b ∈ db.entries.rows, b.id ≠ db.lastId + 1 := fun b hb =>
    ((id_le_lastId (e := b) hb).trans_lt (Nat.lt_succ_self _)).ne
  rw [insertEntry]
  simp only [new, if_true, Table.insert?, dif_pos free]
  rw [inserted, max_eq_right (Nat.le_succ _)]
  rfl

theorem mem_inserted {e : EntryRow} : e' ∈ (db.inserted e).entries ↔ e' ∈ db.entries ∨ e' = { e with id := db.lastId + 1 } := by
  simp only [inserted, Table.mem_insert]

theorem extends_inserted (db : Db) (e : EntryRow) : db.Extends (db.inserted e) where
  kept e₀ he₀ := ⟨e₀, mem_inserted.mpr (.inl he₀), rfl⟩
  new e' he' := by
    rcases mem_inserted.mp he' with he' | rfl
    · exact .inl ⟨e', he', rfl⟩
    · exact .inr (Nat.lt_succ_self _)
  last := (Nat.le_succ _).trans (le_max_right _ _)
  evidence _ hx := hx
  counted id le h e' he' eq := by
    rcases mem_inserted.mp he' with he' | rfl
    · exact h e' he' eq
    · exact absurd (eq ▸ le) (Nat.not_succ_le_self _)

section Lookup

variable [Unicode]

theorem findByNorm_eq_some {category statement : String} : db.findByNorm category statement = some e ↔
    e ∈ db.entries ∧ e.category = category ∧ norm e.statement = norm statement ∧
      ∀ e' ∈ db.entries, e'.category = category → norm e'.statement = norm statement → e.id ≤ e'.id := by
  have mem (e' : EntryRow) : e' ∈ (db.entries.rows.insertionSort (·.id ≤ ·.id)).filter (fun e =>
      e.category = category ∧ norm e.statement = norm statement) ↔
        e' ∈ db.entries ∧ e'.category = category ∧ norm e'.statement = norm statement := by
    rw [List.mem_filter, (List.perm_insertionSort _ _).mem_iff, decide_eq_true_iff]
    exact .rfl
  have sorted := (List.pairwise_insertionSort (fun e₁ e₂ : EntryRow => e₁.id ≤ e₂.id) db.entries.rows).filter
    fun e => e.category = category ∧ norm e.statement = norm statement
  rw [findByNorm]
  generalize (db.entries.rows.insertionSort (·.id ≤ ·.id)).filter (fun e =>
    e.category = category ∧ norm e.statement = norm statement) = found at mem sorted
  cases found
  case nil =>
    refine iff_of_false nofun fun ⟨he, hcategory, hnorm, _⟩ => ?_
    exact List.not_mem_nil ((mem e).mpr ⟨he, hcategory, hnorm⟩)
  case cons first rest =>
    have least := (List.pairwise_cons.mp sorted).left
    have ⟨hfirst, category₁, norm₁⟩ := (mem first).mp List.mem_cons_self
    rw [List.head?_cons, Option.some.injEq]
    constructor
    · rintro rfl
      refine ⟨hfirst, category₁, norm₁, fun e' he' category' norm' => ?_⟩
      rcases List.mem_cons.mp ((mem e').mpr ⟨he', category', norm'⟩) with rfl | later
      · exact le_rfl
      · exact least e' later
    · rintro ⟨he, hcategory, hnorm, oldest⟩
      rcases List.mem_cons.mp ((mem e).mpr ⟨he, hcategory, hnorm⟩) with rfl | later
      · rfl
      · exact Table.eq_of_key_eq hfirst he ((least e later).antisymm (oldest first hfirst category₁ norm₁))

theorem findByNorm_eq_none {category statement : String} : db.findByNorm category statement = none ↔
    ∀ e ∈ db.entries, e.category = category → norm e.statement ≠ norm statement := by
  rw [findByNorm, List.head?_eq_none_iff, List.filter_eq_nil_iff]
  constructor
  · intro h e he category norm
    exact h e ((List.perm_insertionSort _ _).mem_iff.mpr he) (decide_eq_true ⟨category, norm⟩)
  · intro h e he found
    have ⟨category, norm⟩ := of_decide_eq_true found
    exact h e ((List.perm_insertionSort _ _).mem_iff.mp he) category norm

end Lookup

theorem getEntry_eq_some : db.getEntry id = some e ↔ e ∈ db.entries ∧ e.id = id :=
  Table.find?_eq_some_iff

-- What is looked up is the same but for its counts.
theorem Extends.getEntry (h : db.Extends db') (given : id ≤ db.lastId) :
    Option.Rel EntryRow.Recounted (db.getEntry id) (db'.getEntry id) := by
  cases found : db.getEntry id
  case none =>
    have none : db'.getEntry id = none := by
      refine Table.find?_eq_none_iff.mpr fun e' he' eq => ?_
      rcases h.new e' he' with ⟨e, he, same⟩ | later
      · exact Table.find?_eq_none_iff.mp found e he (same.id_eq.symm.trans eq)
      · exact absurd (eq ▸ later) given.not_gt
    rw [none]
    exact .none
  case some e =>
    have ⟨he, eq⟩ := getEntry_eq_some.mp found
    have ⟨e', he', same⟩ := h.kept e he
    rw [getEntry_eq_some.mpr ⟨he', same.id_eq.trans eq⟩]
    exact .some same

theorem Extends.findByNorm [Unicode] {category statement : String} (h : db.Extends db')
    (found : db.findByNorm category statement = some e) :
    ∃ e', db'.findByNorm category statement = some e' ∧ e.Recounted e' := by
  have ⟨he, hcategory, hnorm, oldest⟩ := findByNorm_eq_some.mp found
  have ⟨e', he', same⟩ := h.kept e he
  have fields := same.fields_eq
  refine ⟨e', findByNorm_eq_some.mpr ⟨he', ?_, ?_, fun e₂' he₂' category₂ norm₂ => ?_⟩, same⟩
  · exact (congrArg Fields.category fields).trans hcategory
  · exact (congrArg (fun f : Fields => norm f.statement) fields).trans hnorm
  · rcases h.new e₂' he₂' with ⟨e₂, he₂, same₂⟩ | later
    · rw [same.id_eq, same₂.id_eq]
      exact oldest e₂ he₂ ((congrArg Fields.category same₂.fields_eq).symm.trans category₂)
        ((congrArg (fun f : Fields => norm f.statement) same₂.fields_eq).symm.trans norm₂)
    · exact same.id_eq ▸ ((id_le_lastId he).trans_lt later).le

section Merge

variable [Unicode] {p : Proposal} {run : RunId} {now : Millis}

-- The accepted entry that mail is against.
def against (db : Db) (p : Proposal) : Option EntryRow :=
  (p.contradicts.bind db.getEntry).filter (·.status = .accepted)

def same (db : Db) (p : Proposal) : Option EntryRow :=
  db.findByNorm p.fields.category p.fields.statement

-- The entry that a proposal adds its evidence to.
def supported (db : Db) (p : Proposal) : Option EntryRow :=
  ((p.supports.bind db.getEntry).filter (·.status ≠ .rejected)).or (db.same p)

def counter (p : Proposal) : List EvidenceRow :=
  p.evidence.map ({ · with contradicts := true })

-- A proposal whose evidence is with an entry, or that the user rejected.
def Into (db : Db) (p : Proposal) (target : Option EntryRow) : Prop :=
  ∃ e, target = some e ∧ (e.status = .rejected ∨ db.Takes e.id p.evidence)

-- A proposal that has been merged.
def Absorbed (db : Db) (p : Proposal) : Prop :=
  match db.against p with
  | some e => db.Takes e.id (counter p) ∧
      (toLowercase p.fields.statement = toLowercase e.statement ∨ db.Into p (db.same p))
  | none   => db.Into p (db.supported p)

-- Entries that a proposal names are there, or were.
def Known (db : Db) (p : Proposal) : Prop :=
  (∀ id ∈ p.supports, id ≤ db.lastId) ∧ ∀ id ∈ p.contradicts, id ≤ db.lastId

omit [Unicode] in
theorem Known.mono (h : db.Known p) (extends_ : db.Extends db') : db'.Known p :=
  ⟨fun id hid => (h.left id hid).trans extends_.last, fun id hid => (h.right id hid).trans extends_.last⟩

omit [Unicode] in
theorem Extends.bind (h : db.Extends db') {named : Option EntryId} (known : ∀ id ∈ named, id ≤ db.lastId) (keep : Status → Bool) :
    Option.Rel EntryRow.Recounted ((named.bind db.getEntry).filter (keep ·.status))
      ((named.bind db'.getEntry).filter (keep ·.status)) := by
  cases named
  case none => exact .none
  case some id =>
    have rel := h.getEntry (known id rfl)
    simp only [Option.bind_some]
    generalize db.getEntry id = found at rel
    generalize db'.getEntry id = found' at rel
    cases rel
    case none => exact .none
    case some same =>
      simp only [Option.filter, same.status_eq]
      split
      case isTrue  => exact .some same
      case isFalse => exact .none

omit [Unicode] in
theorem Into.mono {target target' : Option EntryRow} (h : db.Into p target) (extends_ : db.Extends db')
    (same : ∀ e, target = some e → ∃ e', target' = some e' ∧ e.Recounted e') : db'.Into p target' := by
  obtain ⟨e, rfl, taken⟩ := h
  have ⟨e', eq, same⟩ := same e rfl
  refine ⟨e', eq, ?_⟩
  rw [same.status_eq, same.id_eq]
  exact taken.imp_right (·.mono extends_)

theorem Extends.supported (h : db.Extends db') (known : db.Known p) (found : db.supported p = some e) :
    ∃ e', db'.supported p = some e' ∧ e.Recounted e' := by
  have rel := h.bind known.left (· ≠ .rejected)
  rw [Db.supported] at found ⊢
  generalize (p.supports.bind db.getEntry).filter (fun e => decide (e.status ≠ .rejected)) = s at rel found
  generalize (p.supports.bind db'.getEntry).filter (fun e => decide (e.status ≠ .rejected)) = s' at rel ⊢
  cases rel
  case none => exact h.findByNorm found
  case some same =>
    cases found
    exact ⟨_, rfl, same⟩

theorem Absorbed.mono (h : db.Absorbed p) (extends_ : db.Extends db') (known : db.Known p) : db'.Absorbed p := by
  have rel : Option.Rel EntryRow.Recounted (db.against p) (db'.against p) :=
    extends_.bind known.right (· = .accepted)
  rw [Absorbed] at h ⊢
  generalize db.against p = a at rel h
  generalize db'.against p = a' at rel ⊢
  cases rel
  case none => exact Into.mono h extends_ fun e found => extends_.supported known found
  case some e e' same =>
    refine ⟨same.id_eq ▸ h.left.mono extends_, ?_⟩
    have statement : e'.statement = e.statement := congrArg Fields.statement same.fields_eq
    rw [statement]
    exact h.right.imp_right fun into => into.mono extends_ fun e found => extends_.findByNorm found

-- A merge makes proposals of statements that no entry of the category has.
structure Merged (db db' : Db) : Prop where
  extends_ : db.Extends db'
  groups   : db'.groups = db.groups
  made     : ∀ e' ∈ db'.entries, (∃ e ∈ db.entries, e.Recounted e') ∨ (e'.status = .proposed ∧
    ∀ e ∈ db'.entries, e.category = e'.category → norm e.statement = norm e'.statement → e = e')

theorem Merged.refl (db : Db) : Merged db db :=
  ⟨.refl db, rfl, fun e he => .inl ⟨e, he, rfl⟩⟩

theorem Merged.trans (h₁ : Merged db db') (h₂ : Merged db' db'') : Merged db db'' where
  extends_ := h₁.extends_.trans h₂.extends_
  groups := h₂.groups.trans h₁.groups
  made e'' he'' := by
    rcases h₂.made e'' he'' with ⟨e', he', same'⟩ | new
    · rcases h₁.made e' he' with ⟨e, he, same⟩ | ⟨proposed, only⟩
      · exact .inl ⟨e, he, same.trans same'⟩
      · refine .inr ⟨same'.status_eq.trans proposed, fun f'' hf'' category₂ norm₂ => ?_⟩
        rcases h₂.made f'' hf'' with ⟨f', hf', same_f⟩ | ⟨_, only_f⟩
        · have fields := same'.fields_eq
          have fields_f := same_f.fields_eq
          have eq : f' = e' := by
            refine only f' hf' ?_ ?_
            · exact (congrArg Fields.category fields_f).symm.trans (category₂.trans (congrArg Fields.category fields))
            · exact (congrArg (fun f : Fields => norm f.statement) fields_f).symm.trans
                (norm₂.trans (congrArg (fun f : Fields => norm f.statement) fields))
          exact Table.eq_of_key_eq hf'' he'' (same_f.id_eq.trans (eq ▸ same'.id_eq.symm))
        · exact (only_f e'' he'' category₂.symm norm₂.symm).symm
    · exact .inr new

theorem merged_addEvidence (db : Db) (id : EntryId) (quotes : List EvidenceRow) : Merged db (db.addEvidence id quotes) :=
  ⟨extends_addEvidence db id quotes, rfl, fun e' he' => .inl (mem_entries_addEvidence db id quotes e' he')⟩

omit [Unicode] in
theorem Into.unchanged {target : Option EntryRow} (h : db.Into p target) (run : RunId) (of : Option EntryId) (now : Millis) :
    db.mergeInto p target run of now = .ok (db, 0) := by
  obtain ⟨e, rfl, taken⟩ := h
  rw [mergeInto]
  split
  case isTrue           => rfl
  case isFalse standing =>
    rw [addEvidence_eq_self (taken.resolve_left standing)]
    rfl

theorem mergeInto_some {e : EntryRow} (he : e ∈ db.entries) (run : RunId) (of : Option EntryId) (now : Millis) :
    ∃ db', db.mergeInto p (some e) run of now = .ok (db', 0) ∧ db.Merged db' ∧
      (e.status = .rejected ∨ db'.Takes e.id p.evidence) := by
  rw [mergeInto]
  split
  case isTrue rejected => exact ⟨db, rfl, .refl db, .inl rejected⟩
  case isFalse         =>
    exact ⟨_, rfl, merged_addEvidence db e.id p.evidence, .inr (takes_addEvidence db e.id p.evidence (id_le_lastId he))⟩

theorem mergeInto_none (new : db.same p = none) (run : RunId) (of : Option EntryId) (now : Millis) :
    ∃ db', db.mergeInto p none run of now = .ok (db', 1) ∧ db.Merged db' ∧ db'.Into p (db'.same p) := by
  let e : EntryRow := { toFields := p.fields, status := .proposed, source := .learned, contradictionOf := of, runId := some run, createdAt := now, updatedAt := now }
  have ok : db.mergeInto p none run of now = .ok ((db.inserted e).addEvidence (db.lastId + 1) p.evidence, 1) := by
    rw [mergeInto, insertLearned, insertEntry_new db rfl]
    rfl
  have extends_ := (extends_inserted db e).trans (extends_addEvidence (db.inserted e) (db.lastId + 1) p.evidence)
  have others := findByNorm_eq_none.mp new
  have old {e' : EntryRow} (he' : e' ∈ (db.inserted e).entries) (category : e'.category = p.fields.category)
      (norm : norm e'.statement = norm p.fields.statement) : e' = { e with id := db.lastId + 1 } :=
    (mem_inserted.mp he').resolve_left fun he' => others e' he' category norm
  have found : (db.inserted e).same p = some { e with id := db.lastId + 1 } :=
    findByNorm_eq_some.mpr ⟨mem_inserted.mpr (.inr rfl), rfl, rfl, fun e' he' category norm => (old he' category norm ▸ le_rfl)⟩
  have ⟨e', found', recounted⟩ := (extends_addEvidence (db.inserted e) (db.lastId + 1) p.evidence).findByNorm found
  have given : db.lastId + 1 ≤ (db.inserted e).lastId := id_le_lastId (mem_inserted.mpr (.inr rfl))
  refine ⟨_, ok, ⟨extends_, rfl, fun e₂ he₂ => ?_⟩, e', found', .inr ?_⟩
  · have ⟨e₁, he₁, same₂⟩ := mem_entries_addEvidence _ _ _ e₂ he₂
    rcases mem_inserted.mp he₁ with he₁ | rfl
    · exact .inl ⟨e₁, he₁, same₂⟩
    · refine .inr ⟨same₂.status_eq, fun f hf category norm => ?_⟩
      have ⟨f₁, hf₁, same_f⟩ := mem_entries_addEvidence _ _ _ f hf
      have fields := same_f.fields_eq
      have fields₂ := same₂.fields_eq
      rw [fields, fields₂] at category norm
      exact Table.eq_of_key_eq hf he₂ (same_f.id_eq.trans (old hf₁ category norm ▸ same₂.id_eq.symm))
  · rw [recounted.id_eq]
    exact takes_addEvidence (db.inserted e) (db.lastId + 1) p.evidence given

-- What a merge does, in the cases of what it finds.
theorem mergeProposal_against {e : EntryRow} (h : db.against p = some e) (run : RunId) (now : Millis) (n : Nat) :
    mergeProposal run now (db, n) p =
      (if toLowercase p.fields.statement = toLowercase e.statement then .ok (db.addEvidence e.id (counter p), n)
      else ((db.addEvidence e.id (counter p)).mergeInto p ((db.addEvidence e.id (counter p)).same p) run (some e.id) now) >>=
        fun r => .ok (r.1, n + r.2)) := by
  rw [against] at h
  rw [mergeProposal]
  simp only [h]
  rfl

theorem mergeProposal_supported (h : db.against p = none) (run : RunId) (now : Millis) (n : Nat) :
    mergeProposal run now (db, n) p = (db.mergeInto p (db.supported p) run none now) >>= fun r => .ok (r.1, n + r.2) := by
  rw [against] at h
  rw [mergeProposal]
  simp only [h]
  rfl

-- What is merged again makes no difference.
theorem Absorbed.unchanged (h : db.Absorbed p) (run : RunId) (now : Millis) (n : Nat) :
    mergeProposal run now (db, n) p = .ok (db, n) := by
  rw [Absorbed] at h
  split at h
  case h_1 e found =>
    rw [mergeProposal_against found, addEvidence_eq_self h.left]
    split
    case isTrue          => rfl
    case isFalse differs =>
      rw [(h.right.resolve_left differs).unchanged run (some e.id) now]
      rfl
  case h_2 none =>
    rw [mergeProposal_supported none, Into.unchanged h run _ now]
    rfl

theorem mem_supported (h : db.supported p = some e) : e ∈ db.entries := by
  rw [supported, Option.or_eq_some_iff] at h
  rcases h with h | ⟨_, h⟩
  · have ⟨id, _, found⟩ := Option.bind_eq_some_iff.mp (Option.filter_eq_some_iff.mp h).left
    exact (getEntry_eq_some.mp found).left
  · exact (findByNorm_eq_some.mp h).left

omit [Unicode] in
theorem mem_against (h : db.against p = some e) : e ∈ db.entries ∧ e.status = .accepted := by
  have ⟨found, accepted⟩ := Option.filter_eq_some_iff.mp h
  have ⟨id, _, found⟩ := Option.bind_eq_some_iff.mp found
  exact ⟨(getEntry_eq_some.mp found).left, of_decide_eq_true accepted⟩

theorem mergeInto_same (db : Db) (p : Proposal) (run : RunId) (of : Option EntryId) (now : Millis) :
    ∃ db' n, db.mergeInto p (db.same p) run of now = .ok (db', n) ∧ db.Merged db' ∧ db'.Into p (db'.same p) := by
  cases found : db.same p
  case none =>
    have ⟨db', ok, merged, into⟩ := mergeInto_none found run of now
    exact ⟨db', 1, ok, merged, into⟩
  case some e =>
    have ⟨db', ok, merged, taken⟩ := mergeInto_some (p := p) (findByNorm_eq_some.mp found).left run of now
    have ⟨e', found', same⟩ := merged.extends_.findByNorm found
    exact ⟨db', 0, ok, merged, e', found', by rwa [same.status_eq, same.id_eq]⟩

theorem mergeProposal_spec (known : db.Known p) (run : RunId) (now : Millis) (n : Nat) :
    ∃ db' n', mergeProposal run now (db, n) p = .ok (db', n') ∧ db.Merged db' ∧ db'.Absorbed p := by
  cases found : db.against p
  case some e =>
    have ⟨he, accepted⟩ := mem_against found
    have counted := merged_addEvidence db e.id (counter p)
    have taken := takes_addEvidence db e.id (counter p) (id_le_lastId he)
    rw [mergeProposal_against found]
    -- The accepted entry is the same one afterwards.
    have still {db' : Db} (h : db.Extends db') : ∃ e', db'.against p = some e' ∧ e.Recounted e' := by
      have rel : Option.Rel EntryRow.Recounted (db.against p) (db'.against p) := h.bind known.right (· = .accepted)
      rw [found] at rel
      generalize db'.against p = a at rel
      cases rel
      case some same => exact ⟨_, rfl, same⟩
    split
    case isTrue same =>
      have ⟨e', found', recounted⟩ := still counted.extends_
      have statement : e'.statement = e.statement := congrArg Fields.statement recounted.fields_eq
      refine ⟨_, n, rfl, counted, ?_⟩
      rw [Absorbed, found']
      exact ⟨recounted.id_eq ▸ taken, .inl (statement ▸ same)⟩
    case isFalse =>
      have ⟨db', m, ok, merged, into⟩ := mergeInto_same (db.addEvidence e.id (counter p)) p run (some e.id) now
      have ⟨e', found', recounted⟩ := still (counted.trans merged).extends_
      refine ⟨db', n + m, by rw [ok]; rfl, counted.trans merged, ?_⟩
      rw [Absorbed, found']
      exact ⟨recounted.id_eq ▸ taken.mono merged.extends_, .inr into⟩
  case none =>
    rw [mergeProposal_supported found]
    have still {db' : Db} (h : db.Extends db') : db'.against p = none := by
      have rel : Option.Rel EntryRow.Recounted (db.against p) (db'.against p) := h.bind known.right (· = .accepted)
      rw [found] at rel
      generalize db'.against p = a at rel
      cases rel
      rfl
    cases target : db.supported p
    case some e =>
      have ⟨db', ok, merged, taken⟩ := mergeInto_some (p := p) (mem_supported target) run none now
      have ⟨e', target', same⟩ := merged.extends_.supported known target
      refine ⟨db', n, by rw [ok]; rfl, merged, ?_⟩
      rw [Absorbed, still merged.extends_]
      exact ⟨e', target', by rwa [same.status_eq, same.id_eq]⟩
    case none =>
      have ⟨unsupported, new⟩ := Option.or_eq_none_iff.mp target
      have ⟨db', ok, merged, into⟩ := mergeInto_none new run none now
      refine ⟨db', n + 1, by rw [ok]; rfl, merged, ?_⟩
      rw [Absorbed, still merged.extends_]
      have rel := merged.extends_.bind known.left (· ≠ .rejected)
      rw [unsupported] at rel
      show db'.Into p (db'.supported p)
      rw [supported]
      generalize (p.supports.bind db'.getEntry).filter (fun e => decide (e.status ≠ .rejected)) = s at rel ⊢
      cases rel
      exact into

theorem mergeProposals_spec (proposals : List Proposal) (known : ∀ p ∈ proposals, db.Known p) (run : RunId) (now : Millis) (n : Nat) :
    ∃ db' n', proposals.foldlM (mergeProposal run now) (db, n) = .ok (db', n') ∧ db.Merged db' ∧
      ∀ p ∈ proposals, db'.Absorbed p := by
  induction proposals generalizing db n
  case nil => exact ⟨db, n, rfl, .refl db, fun _ h => absurd h List.not_mem_nil⟩
  case cons p proposals ih =>
    have ⟨db₁, n₁, ok₁, merged₁, absorbed⟩ := mergeProposal_spec (known p List.mem_cons_self) run now n
    have later : ∀ q ∈ proposals, db₁.Known q := fun q hq => (known q (List.mem_cons_of_mem _ hq)).mono merged₁.extends_
    have ⟨db', n', ok, merged, all⟩ := ih later n₁
    refine ⟨db', n', List.foldlM_cons_eq_ok.mpr ⟨_, ok₁, ok⟩, merged₁.trans merged, fun q hq => ?_⟩
    rcases List.mem_cons.mp hq with rfl | hq
    · exact absorbed.mono merged.extends_ ((known q List.mem_cons_self).mono merged₁.extends_)
    · exact all q hq

theorem mergeProposals_unchanged (proposals : List Proposal) (absorbed : ∀ p ∈ proposals, db.Absorbed p) (run : RunId)
    (now : Millis) (n : Nat) : proposals.foldlM (mergeProposal run now) (db, n) = .ok (db, n) := by
  induction proposals
  case nil => rfl
  case cons p proposals ih =>
    refine List.foldlM_cons_eq_ok.mpr ⟨_, (absorbed p List.mem_cons_self).unchanged run now n, ?_⟩
    exact ih fun q hq => absorbed q (List.mem_cons_of_mem _ hq)

end Merge

end Db

end Kaluta.Guide
