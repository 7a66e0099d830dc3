import Kaluta.Guide.Numbered
import Mathlib.Data.List.Induction

-- A proposal is decided as long as one decision of it stands, and each accepted add makes one entry.
namespace Kaluta.Guide

namespace Db

def IsDecided (db : Db) (id : ProposalId) : Prop :=
  ∃ p ∈ db.proposals, p.id = id ∧ p.status.isOpen = false

def SameDecided (db db' : Db) : Prop :=
  ∀ id, db'.IsDecided id ↔ db.IsDecided id

variable {db db' : Db} {id : ProposalId}

namespace SameDecided

theorem refl (db : Db) : SameDecided db db :=
  fun _ => .rfl

theorem trans {db₁ db₂ db₃ : Db} (h₁ : SameDecided db₁ db₂) (h₂ : SameDecided db₂ db₃) : SameDecided db₁ db₃ :=
  fun id => (h₂ id).trans (h₁ id)

theorem of_eq (proposals : db'.proposals = db.proposals) : SameDecided db db' :=
  fun _ => by rw [IsDecided, IsDecided, proposals]

theorem foldl {f : Db → α → Db} {as : List α} (db : Db) (h : ∀ db a, SameDecided db (f db a)) :
    SameDecided db (as.foldl f db) :=
  List.foldl_preserves (fun _ _ ih => ih.trans (h _ _)) (.refl db)

-- An update of proposals that stay open.
theorem update {p : ProposalRow → Bool} {f : ProposalRow → ProposalRow} (hf : ∀ r, (f r).id = r.id)
    (proposals : db'.proposals = db.proposals.update p f hf)
    (status : ∀ r ∈ db.proposals, p r = true → (f r).status.isOpen = r.status.isOpen) : SameDecided db db' := by
  intro id
  rw [IsDecided, IsDecided, proposals]
  constructor
  case mp =>
    rintro ⟨r', updated, rfl, decided⟩
    rcases Table.mem_update.mp updated with ⟨hr, _⟩ | ⟨r, hr, hp, rfl⟩
    · exact ⟨r', hr, rfl, decided⟩
    · exact ⟨r, hr, (hf r).symm, status r hr hp ▸ decided⟩
  case mpr =>
    rintro ⟨r, hr, rfl, decided⟩
    cases hp : p r
    case false => exact ⟨r, Table.mem_update.mpr (.inl ⟨hr, hp⟩), rfl, decided⟩
    case true  => exact ⟨f r, Table.mem_update.mpr (.inr ⟨r, hr, hp, rfl⟩), hf r, (status r hr hp).trans decided⟩

end SameDecided

theorem sameDecided_countPairs (db : Db) (id : ProposalId) : SameDecided db (db.countPairs id) :=
  .update (by exact fun _ => rfl) rfl fun _ _ _ => rfl

theorem sameDecided_upsertProposal (db : Db) (p : ProposalRow) (threshold : Nat) (evidence : List PairRow) (now : Millis) :
    SameDecided db (db.upsertProposal p threshold evidence now) := by
  have shown {db : Db} (id) : SameDecided db { db with
      proposals := db.proposals.update (fun r => r.id = id ∧ r.status = .watching ∧ max threshold 1 ≤ r.support)
        ({ · with status := .proposed, shownAt := some now }) fun _ => rfl } :=
    .update (by exact fun _ => rfl) rfl fun r _ hr => by
      rw [(of_decide_eq_true hr).right.left]
      rfl
  have counted {db : Db} (id) : SameDecided db ((db.insertPairs id evidence).countPairs id) :=
    .trans (.of_eq rfl) (sameDecided_countPairs _ id)
  rw [upsertProposal]
  dsimp only
  split
  case h_1 =>
    refine .trans (fun id => ?_) ((counted _).trans (shown _))
    constructor
    case mp =>
      rintro ⟨r, hr, rfl, decided⟩
      rcases Table.mem_insertRow.mp hr with hr | rfl
      · exact ⟨r, hr, rfl, decided⟩
      · cases decided
    case mpr => exact fun ⟨r, hr, rest⟩ => ⟨r, Table.mem_insertRow.mpr (.inl hr), rest⟩
  case h_2 =>
    split
    case isTrue =>
      have touched (id) : SameDecided db { db with
          proposals := db.proposals.update (·.id = id) ({ · with updatedAt := now }) fun _ => rfl } :=
        .update (by exact fun _ => rfl) rfl fun _ _ _ => rfl
      exact (touched _).trans ((counted _).trans (shown _))
    case isFalse => exact .refl db

theorem mem_pairProposals (h : id ∈ db.pairProposals pair) : ¬db.IsDecided id := by
  rintro ⟨r', hr', eq, decided⟩
  rw [pairProposals, (List.perm_insertionSort _ _).mem_iff] at h
  obtain ⟨r, hr, rfl⟩ := List.mem_map.mp h
  have ⟨hr, shown⟩ := List.mem_filter.mp hr
  obtain rfl := Table.eq_of_key_eq hr' hr eq
  have opened : r'.status.isOpen = true := (of_decide_eq_true shown).left
  rw [opened] at decided
  cases decided

theorem sameDecided_dropFrom (h : ¬db.IsDecided id) : SameDecided db (dropFrom pair db id) := by
  have counted : SameDecided db ({ db with
      pairs := db.pairs.delete fun e => e.proposalId = id ∧ e.compositionId = pair }.countPairs id) :=
    .trans (.of_eq rfl) (sameDecided_countPairs _ id)
  refine counted.trans (.update (by exact fun _ => rfl) rfl fun r hr hp => ?_)
  cases opened : r.status.isOpen
  case true  => rfl
  case false => exact absurd ((counted id).mp ⟨r, hr, (of_decide_eq_true hp).left, opened⟩) h

theorem sameDecided_dropPair (db : Db) (pair : CompositionId) : SameDecided db (db.dropPair pair).1 := by
  have each (ids : List ProposalId) (h : ∀ id ∈ ids, ¬db.IsDecided id) : SameDecided db (ids.foldl (dropFrom pair) db) :=
    List.foldl_preserves (P := SameDecided db)
      (fun id hid ih => ih.trans (sameDecided_dropFrom fun decided => h id hid ((ih id).mp decided))) (.refl db)
  exact each _ fun _ => mem_pairProposals

theorem sameDecided_restorePair (db : Db) (removed : List (ProposalId × PairRow)) : SameDecided db (db.restorePair removed) :=
  .foldl db fun db r => by
    refine .trans (.trans (.of_eq rfl) (sameDecided_countPairs (db.insertPairs r.1 [r.2]) r.1)) ?_
    refine .update (by exact fun _ => rfl) rfl fun p _ hp => ?_
    rw [(of_decide_eq_true hp).right.left]
    rfl

theorem isDecided_setProposalStatus {status : ProposalStatus} (decides : status.isOpen = false) {id' : ProposalId} :
    (db.setProposalStatus now status id').IsDecided id ↔
      db.IsDecided id ∨ id = id' ∧ ∃ p ∈ db.proposals, p.id = id' := by
  simp only [IsDecided, setProposalStatus]
  constructor
  case mp =>
    rintro ⟨r', updated, rfl, decided⟩
    rcases Table.mem_update.mp updated with ⟨hr, _⟩ | ⟨r, hr, hp, rfl⟩
    · exact .inl ⟨r', hr, rfl, decided⟩
    · exact .inr ⟨of_decide_eq_true hp, r, hr, of_decide_eq_true hp⟩
  case mpr =>
    have written {r : ProposalRow} (hr : r ∈ db.proposals) (eq : r.id = id') : ∃ r' ∈ db.proposals.update (·.id = id')
        ({ · with status, decidedAt := if status = .accepted ∨ status = .rejected then some now else none
                  updatedAt := now }) fun _ => rfl, r'.id = id' ∧ r'.status.isOpen = false :=
      ⟨_, Table.mem_update.mpr (.inr ⟨r, hr, decide_eq_true eq, rfl⟩), eq, decides⟩
    rintro (⟨r, hr, rfl, decided⟩ | ⟨rfl, r, hr, eq⟩)
    · by_cases eq : r.id = id'
      case pos => exact eq ▸ written hr eq
      case neg => exact ⟨r, Table.mem_update.mpr (.inl ⟨hr, decide_eq_false eq⟩), rfl, decided⟩
    · exact written hr eq

-- Proposals that were there are decided, and no others are touched.
theorem isDecided_decide (db : Db) (now : Millis) {status : ProposalStatus} {ids : List ProposalId}
    (decides : status.isOpen = false) (there : ∀ id ∈ ids, ∃ p ∈ db.proposals, p.id = id) (id : ProposalId) :
    (ids.foldl (·.setProposalStatus now status ·) db).IsDecided id ↔ db.IsDecided id ∨ id ∈ ids := by
  induction ids generalizing db
  case nil => simp
  case cons id' ids ih =>
    have kept : ∀ id ∈ ids, ∃ p ∈ (db.setProposalStatus now status id').proposals, p.id = id := by
      intro id hid
      have ⟨p, hp, eq⟩ := there id (List.mem_cons_of_mem _ hid)
      exact Table.exists_mem_update (by exact fun _ => rfl) hp (by split <;> exact eq)
    rw [List.foldl_cons, ih _ kept, isDecided_setProposalStatus decides, and_iff_left (there id' List.mem_cons_self),
      List.mem_cons, or_assoc]

theorem isDecided_restoreOpen {snapshots : List ProposalSnapshot} (opened : ∀ s ∈ snapshots, s.proposal.status.isOpen = true) :
    (db.restoreProposals snapshots).IsDecided id ↔ db.IsDecided id ∧ id ∉ snapshots.map (·.proposal.id) := by
  induction snapshots generalizing db
  case nil => simp [restoreProposals]
  case cons s snapshots ih =>
    rw [restoreProposals, List.foldl_cons, ← restoreProposals, ih fun s hs => opened s (List.mem_cons_of_mem _ hs),
      List.map_cons, List.mem_cons, not_or, ← and_assoc]
    refine and_congr_left fun _ => ?_
    simp only [IsDecided]
    constructor
    case mp =>
      rintro ⟨r, replaced, rfl, decided⟩
      rcases Table.mem_replace.mp replaced with ⟨hr, ne⟩ | rfl
      · exact ⟨⟨r, hr, rfl, decided⟩, ne⟩
      · rw [opened s List.mem_cons_self] at decided
        cases decided
    case mpr =>
      rintro ⟨⟨r, hr, rfl, decided⟩, ne⟩
      exact ⟨r, Table.mem_replace.mpr (.inl ⟨hr, ne⟩), rfl, decided⟩

theorem isDecided_restoreDecided {snapshots : List ProposalSnapshot}
    (decided : ∀ s ∈ snapshots, s.proposal.status.isOpen = false) :
    (db.restoreProposals snapshots).IsDecided id ↔ db.IsDecided id ∨ id ∈ snapshots.map (·.proposal.id) := by
  induction snapshots generalizing db
  case nil => simp [restoreProposals]
  case cons s snapshots ih =>
    rw [restoreProposals, List.foldl_cons, ← restoreProposals, ih fun s hs => decided s (List.mem_cons_of_mem _ hs),
      List.map_cons, List.mem_cons, ← or_assoc]
    refine or_congr_left ?_
    simp only [IsDecided]
    constructor
    case mp =>
      rintro ⟨r, replaced, rfl, hd⟩
      rcases Table.mem_replace.mp replaced with ⟨hr, _⟩ | rfl
      · exact .inl ⟨r, hr, rfl, hd⟩
      · exact .inr rfl
    case mpr =>
      have written : s.proposal ∈ db.proposals.replace s.proposal := Table.mem_replace.mpr (.inr rfl)
      rintro (⟨r, hr, rfl, hd⟩ | rfl)
      · by_cases eq : r.id = s.proposal.id
        case pos => exact ⟨s.proposal, written, eq.symm, decided s List.mem_cons_self⟩
        case neg => exact ⟨r, Table.mem_replace.mpr (.inl ⟨hr, eq⟩), rfl, hd⟩
      · exact ⟨s.proposal, written, rfl, decided s List.mem_cons_self⟩

theorem mem_snapshots {ids : List ProposalId} (h : s ∈ ids.filterMap db.snapshotProposal) :
    s.proposal ∈ db.proposals ∧ s.proposal.id ∈ ids := by
  have ⟨id, hid, hs⟩ := List.mem_filterMap.mp h
  have ⟨p, hp, eq⟩ := Option.map_eq_some_iff.mp hs
  exact ⟨eq ▸ Table.find?_mem hp, eq ▸ (Table.find?_key_eq hp).symm ▸ hid⟩

theorem snapshots_ids {ids : List ProposalId} (there : ∀ id ∈ ids, ∃ p ∈ db.proposals, p.id = id) :
    (ids.filterMap db.snapshotProposal).map (·.proposal.id) = ids := by
  induction ids
  case nil => rfl
  case cons id ids ih =>
    have ⟨p, hp, eq⟩ := there id List.mem_cons_self
    have found : db.snapshotProposal id = some { proposal := p, evidence := db.pairsOf id } := by
      rw [snapshotProposal, ← eq, Table.find?_key hp]
      rfl
    rw [List.filterMap_cons_some found, List.map_cons, ih fun id hid => there id (List.mem_cons_of_mem _ hid)]
    exact congrArg (· :: ids) eq

-- What is done to proposals leaves the entries and the log as they were.
structure SameLog (db db' : Db) : Prop where
  entries : db'.entries = db.entries
  changes : db'.changes = db.changes
  last    : db'.lastEntryId = db.lastEntryId

theorem SameLog.foldl {f : Db → α → Db} {as : List α} (db : Db) (h : ∀ db a, SameLog db (f db a)) :
    SameLog db (as.foldl f db) :=
  List.foldl_preserves
    (fun _ _ ih => ⟨(h _ _).entries.trans ih.entries, (h _ _).changes.trans ih.changes, (h _ _).last.trans ih.last⟩)
    ⟨rfl, rfl, rfl⟩

theorem sameLog_dropPair (db : Db) (pair : CompositionId) : SameLog db (db.dropPair pair).1 :=
  .foldl db fun _ _ => ⟨rfl, rfl, rfl⟩

theorem sameLog_applyStep (db : Db) (now : Millis) (step : Option AnalysisStep) : SameLog db (db.applyStep now step).1 := by
  rcases step with _ | ⟨ids, status⟩ | pair
  · exact ⟨rfl, rfl, rfl⟩
  · exact .foldl db fun _ _ => ⟨rfl, rfl, rfl⟩
  · exact sameLog_dropPair db pair

theorem sameLog_replayAnalysis (db : Db) (undo : Bool) (record : AnalysisRecord) :
    SameLog db (db.replayAnalysis undo record) := by
  cases record
  case proposals => exact .foldl db fun _ _ => ⟨rfl, rfl, rfl⟩
  case ignored pair removed =>
    cases undo
    case true  => exact .foldl db fun _ _ => ⟨rfl, rfl, rfl⟩
    case false => exact sameLog_dropPair db pair

theorem applyEditsWith_eq_ok [Unicode] {step : Option AnalysisStep}
    (ok : db.applyEditsWith edits reason step now = .ok (db', change)) :
    ∃ checked c, edits.mapM (·.checked) = .ok checked ∧ checked.foldlM (Editing.edit now) { db } = .ok c ∧
      db.Beside c.db ∧ db'.entries = c.db.entries ∧ db'.lastEntryId = c.db.lastEntryId ∧
      db'.proposals = (c.db.applyStep now step).1.proposals ∧ db'.pairs = (c.db.applyStep now step).1.pairs ∧
      ∀ ch ∈ db'.changes, ch ∈ db.changes ∨ ch.analysis = (c.db.applyStep now step).2 := by
  rw [applyEditsWith] at ok
  split at ok
  case isTrue => cases ok
  case isFalse =>
    obtain ⟨checked, hc, ok⟩ := Except.bind_eq_ok.mp ok
    obtain ⟨c, edited, ok⟩ := Except.bind_eq_ok.mp ok
    have beside : db.Beside c.db :=
      List.foldlM_preserves (P := fun c : Editing => db.Beside c.db) edited (fun _ _ ih ok => ih.trans (Editing.beside_edit ok))
        (.refl db)
    have log := sameLog_applyStep c.db now step
    refine ⟨checked, c, hc, edited, beside, ?_⟩
    have recorded {ch} (h : ch ∈ ((c.db.applyStep now step).1.recordChange reason c.before c.after
        (c.db.applyStep now step).2).1.changes) : ch ∈ db.changes ∨ ch.analysis = (c.db.applyStep now step).2 := by
      rcases List.mem_cons.mp (List.mem_filter.mp h).left with rfl | h
      · exact .inr rfl
      · exact .inl (beside.changes ▸ log.changes ▸ h)
    dsimp only at ok
    split at ok <;> cases ok <;> exact ⟨log.entries, log.last, rfl, rfl, fun _ h => recorded h⟩

theorem replayChange_eq_ok {id : ChangeId} (ok : db.replayChange id undo = .ok db') :
    ∃ c restored, db.getChange id = some c ∧ db.Beside restored ∧
      SameLog restored db' ∧ db'.proposals = (match c.analysis with
        | none           => restored
        | some (was, is) => restored.replayAnalysis undo (if undo then was else is)).proposals ∧
      db'.pairs = (match c.analysis with
        | none           => restored
        | some (was, is) => restored.replayAnalysis undo (if undo then was else is)).pairs := by
  rw [replayChange] at ok
  split at ok
  case h_1 => cases ok
  case h_2 c hc =>
    obtain ⟨restored, hr, ok⟩ := Except.bind_eq_ok.mp ok
    refine ⟨c, restored, hc, beside_restore hr, ?_⟩
    cases ok
    cases c.analysis
    case none        => split <;> exact ⟨⟨rfl, rfl, rfl⟩, rfl, rfl⟩
    case some record =>
      have log := sameLog_replayAnalysis restored undo (if undo then record.1 else record.2)
      split <;> exact ⟨⟨log.entries, log.changes, log.last⟩, rfl, rfl⟩

end Db

-- A change that decided proposals found all of them open, and left them decided.
def Change.Exact (c : Change) : Prop :=
  match c.analysis with
  | some (.proposals was, .proposals is) =>
    was.map (·.proposal.id) = is.map (·.proposal.id) ∧ (∀ s ∈ was, s.proposal.status.isOpen = true) ∧
      ∀ s ∈ is, s.proposal.status.isOpen = false
  | some (.ignored _ _, .ignored _ _)    => True
  | none                                 => True
  | _                                    => False

-- A call's change makes a new entry of each add that it accepts, and is of entries that were given out otherwise.
structure Decided.Sound (last : EntryId) (d : Decided) : Prop where
  adds    : (d.edits.map Edit.target).count none = d.adds.length
  old     : ∀ edit ∈ d.edits, ∀ id ∈ edit.target, id ≤ last
  accepts : d.adds.Sublist d.decided
  decides : d.status.isOpen = false

def Call.Sound (last : EntryId) : Call → Prop
  | .ready d => d.Sound last
  | _        => True

structure Deciding.Sound (s : Deciding) : Prop where
  nodup    : s.standing.Nodup
  stands   : ∀ id, id ∈ s.standing ↔ s.db.IsDecided id
  written  : ∀ w ∈ s.written, w.2 = w.1.dedup.length
  numbered : s.db.Numbered
  exact    : ∀ c ∈ s.db.changes, c.Exact
  calls    : ∀ call ∈ s.calls, call.Sound s.db.lastEntryId

theorem Call.Sound.mono {last last' : EntryId} {call : Call} (h : call.Sound last) (le : last ≤ last') : call.Sound last' := by
  cases call
  case ready => exact ⟨h.adds, fun edit he id hid => (h.old edit he id hid).trans le, h.accepts, h.decides⟩
  case proposals | edited => trivial

namespace Deciding

variable {s s' : Deciding} {id : ChangeId}

theorem sound_start : ({} : Deciding).Sound where
  nodup    := .nil
  stands   := fun _ => ⟨fun h => absurd h List.not_mem_nil, fun ⟨_, h, _⟩ => absurd h Table.not_mem_empty⟩
  written  := fun _ h => absurd h List.not_mem_nil
  numbered := fun _ h => absurd h Table.not_mem_empty
  exact    := fun _ h => absurd h List.not_mem_nil
  calls    := fun _ h => absurd h List.not_mem_nil

-- Steps that decide nothing.
theorem Sound.frame {db : Db} (h : s.Sound) (same : s.db.SameDecided db) (numbered : db.Numbered)
    (grows : s.db.lastEntryId ≤ db.lastEntryId) (exact : ∀ c ∈ db.changes, c.Exact) : { s with db }.Sound where
  nodup    := h.nodup
  stands   := fun id => (h.stands id).trans (same id).symm
  written  := h.written
  numbered := numbered
  exact    := exact
  calls    := fun call hc => (h.calls call hc).mono grows

theorem Sound.beside {db : Db} (h : s.Sound) (beside : s.db.Beside db) : { s with db }.Sound :=
  h.frame (.of_eq beside.proposals) (beside.numbered h.numbered) beside.grows (beside.changes ▸ h.exact)

theorem Sound.withCalls {calls : List Call} (h : s.Sound) (sound : ∀ call ∈ calls, call.Sound s.db.lastEntryId) :
    { s with calls }.Sound :=
  ⟨h.nodup, h.stands, h.written, h.numbered, h.exact, sound⟩

-- Edits that decide no proposals.
theorem Sound.edited [Unicode] {step : Option AnalysisStep} {db : Db} (h : s.Sound)
    (ok : s.db.applyEditsWith edits reason step now = .ok (db, change)) (other : ∀ ids status, step ≠ some (.decide ids status)) :
    { s with db }.Sound := by
  have ⟨_, c, _, _, beside, entries, last, proposals, _, changes⟩ := Db.applyEditsWith_eq_ok ok
  have same : c.db.SameDecided db ∧ ∀ ch ∈ db.changes, ch.Exact := by
    rcases step with _ | ⟨ids, status⟩ | pair
    · refine ⟨.of_eq proposals, fun ch hch => (changes ch hch).elim (h.exact ch) fun eq => ?_⟩
      rw [Change.Exact, eq]
      trivial
    · exact absurd rfl (other ids status)
    · refine ⟨(Db.sameDecided_dropPair c.db pair).trans (.of_eq proposals), fun ch hch => (changes ch hch).elim (h.exact ch) fun eq => ?_⟩
      rw [Change.Exact, eq]
      trivial
  refine h.frame (.trans (.of_eq beside.proposals) same.left) (fun e he => ?_) (beside.grows.trans last.ge) same.right
  rw [last]
  exact beside.numbered h.numbered e (entries ▸ he)

theorem Sound.rescoped [Unicode] {db : Db} (h : s.Sound) (ok : s.db.rescopeGroup old new now = .ok (db, change)) :
    { s with db }.Sound := by
  rw [Db.rescopeGroup] at ok
  split at ok
  case isTrue => cases ok; exact h
  case isFalse =>
    obtain ⟨_, edited, ok⟩ := Except.bind_eq_ok.mp ok
    cases ok
    exact h.edited edited fun _ _ => (by rintro ⟨⟩)

theorem Sound.other [Unicode] {a : Guide.Action} {db : Db} (h : s.Sound) (other : isOther a = true)
    (hs : s.db.step a = some db) : { s with db }.Sound := by
  cases a
  case edit edits reason step now =>
    have ⟨_, ok, eq⟩ := Option.map_eq_some_iff.mp hs
    refine eq ▸ h.edited (Except.ok_of_toOption ok) fun ids status eq => ?_
    subst eq
    cases other
  case undo | redo => cases other
  case learn =>
    have ⟨_, ok, eq⟩ := Option.map_eq_some_iff.mp hs
    exact eq ▸ h.beside (Db.beside_merge (Except.ok_of_toOption ok))
  case rescope =>
    have ⟨_, ok, eq⟩ := Option.map_eq_some_iff.mp hs
    exact eq ▸ h.rescoped (Except.ok_of_toOption ok)
  case saveGroup g => cases hs; exact h.beside (Db.beside_saveGroup _ g)
  case renameGroup id name =>
    have ok := Except.ok_of_toOption hs
    rw [Db.renameGroup] at ok
    split at ok
    case isTrue  => cases ok
    case isFalse => cases ok; exact h.beside (.of_entries rfl rfl rfl rfl rfl)
  case deleteGroup => cases hs; exact h.beside (.of_entries rfl rfl rfl rfl rfl)
  case moveFacts   => cases hs; exact h.beside (Db.beside_moveGuideFacts _)

theorem Sound.proposed (h : s.Sound) (p : ProposalRow) (threshold : Nat) (evidence : List PairRow) (now : Millis) :
    { s with db := s.db.upsertProposal p threshold evidence now }.Sound := by
  have log : s.db.SameLog (s.db.upsertProposal p threshold evidence now) := by
    rw [Db.upsertProposal]
    dsimp only
    split
    case h_1 => exact ⟨rfl, rfl, rfl⟩
    case h_2 => split <;> exact ⟨rfl, rfl, rfl⟩
  refine h.frame (Db.sameDecided_upsertProposal _ _ _ _ _) (fun e he => ?_) log.last.ge (log.changes ▸ h.exact)
  rw [log.last]
  exact h.numbered e (log.entries ▸ he)

theorem Sound.written_call [Unicode] {d : Decided} (h : s.Sound) (hd : d.Sound s.db.lastEntryId) (nodup : d.decided.Nodup)
    (opened : ∀ id ∈ d.decided, (s.db.proposals.find? id).any (·.status.isOpen) = true) (hs : s.write d now = some s') :
    s'.Sound := by
  obtain ⟨⟨db, change⟩, ok, rfl⟩ := Option.map_eq_some_iff.mp hs
  have ⟨checked, c, hc, edited, beside, entries, last, proposals, _, changes⟩ := Db.applyEditsWith_eq_ok (Except.ok_of_toOption ok)
  have there {id} (hid : id ∈ d.decided) : ∃ p ∈ s.db.proposals, p.id = id ∧ p.status.isOpen = true := by
    have ⟨p, hp, open'⟩ := (Option.any_eq_true _ _).mp (opened id hid)
    exact ⟨p, Table.find?_mem hp, Table.find?_key_eq hp, open'⟩
  have not_decided {id} (hid : id ∈ d.decided) : ¬s.db.IsDecided id := by
    rintro ⟨p', hp', eq', decided⟩
    obtain ⟨p, hp, eq, open'⟩ := there hid
    obtain rfl := Table.eq_of_key_eq hp hp' (eq.trans eq'.symm)
    rw [open'] at decided
    cases decided
  have decided (id) : db.IsDecided id ↔ s.db.IsDecided id ∨ id ∈ d.decided := by
    have step := Db.isDecided_decide c.db now hd.decides (fun id hid => by
      have ⟨p, hp, eq, _⟩ := there hid
      exact ⟨p, beside.proposals ▸ hp, eq⟩) id
    rw [Db.SameDecided.of_eq proposals id, ← Db.SameDecided.of_eq beside.proposals id]
    exact step
  refine ⟨?_, fun id => ?_, fun w hw => ?_, fun e he => ?_, fun ch hch => ?_, fun call hcall => ?_⟩
  · exact List.nodup_append'.mpr ⟨nodup, h.nodup, fun id hid standing => not_decided hid ((h.stands id).mp standing)⟩
  · rw [List.mem_append, decided, h.stands, or_comm]
  · rcases List.mem_cons.mp hw with rfl | hw
    · have none_new : s.db.entries.count (s.db.lastEntryId < ·.id) = 0 :=
        Table.count_eq_zero.mpr fun e he => decide_eq_false (h.numbered e he).not_gt
      have old_checked : ∀ edit ∈ checked, ∀ id ∈ edit.target, id ≤ s.db.lastEntryId := by
        intro edit he id hid
        have mem : edit.target ∈ d.edits.map Edit.target := targets_checked hc ▸ List.mem_map_of_mem he
        have ⟨edit', he', eq⟩ := List.mem_map.mp mem
        exact hd.old edit' he' id (eq ▸ hid)
      have new := Editing.count_edits edited le_rfl old_checked
      have adds_nodup : d.adds.Nodup := hd.accepts.nodup nodup
      rw [newEntries, entries, new, targets_checked hc, hd.adds, none_new, Nat.zero_add,
        adds_nodup.dedup]
    · exact h.written w hw
  · rw [last]
    exact beside.numbered h.numbered e (entries ▸ he)
  · rcases changes ch hch with hch | eq
    · exact h.exact ch hch
    · have there' : ∀ id ∈ d.decided, ∃ p ∈ c.db.proposals, p.id = id := fun id hid =>
        have ⟨p, hp, eq, _⟩ := there hid
        ⟨p, beside.proposals ▸ hp, eq⟩
      have decides := Db.isDecided_decide c.db now hd.decides there'
      have after_there : ∀ id ∈ d.decided, ∃ p ∈ (d.decided.foldl (·.setProposalStatus now d.status ·) c.db).proposals,
          p.id = id := fun id hid =>
        have ⟨p, hp, eq, _⟩ := (decides _).mpr (.inr hid)
        ⟨p, hp, eq⟩
      rw [Change.Exact, eq]
      refine ⟨(Db.snapshots_ids there').trans (Db.snapshots_ids after_there).symm, fun sn hsn => ?_, fun sn hsn => ?_⟩
      · have ⟨hp, hid⟩ := Db.mem_snapshots hsn
        have ⟨p, hp', eq, open'⟩ := there hid
        exact Table.eq_of_key_eq (beside.proposals ▸ hp) hp' eq.symm ▸ open'
      · have ⟨hp, hid⟩ := Db.mem_snapshots hsn
        have ⟨p, hp', eq, closed⟩ := (decides _).mpr (.inr hid)
        exact Table.eq_of_key_eq hp hp' eq.symm ▸ closed
  · exact (h.calls call hcall).mono (beside.grows.trans last.ge)

theorem mem_decidedBy {c : Change} (hc : s.db.getChange id = some c) (analysis : c.analysis = some (.proposals was, record)) :
    decidedBy s.db id = was.map (·.proposal.id) := by
  rw [decidedBy, hc, Option.bind_some, analysis]

theorem decidedBy_nil {c : Change} (hc : s.db.getChange id = some c)
    (analysis : ∀ was record, c.analysis ≠ some (.proposals was, record)) : decidedBy s.db id = [] := by
  rw [decidedBy, hc, Option.bind_some]
  split
  case h_1 eq => exact absurd eq (analysis _ _)
  case h_2    => rfl

theorem Sound.replayed {undo : Bool} {db : Db} {standing : List ProposalId} (h : s.Sound)
    (ok : s.db.replayChange id undo = .ok db) (nodup : standing.Nodup)
    (stands : ∀ p, p ∈ standing ↔ if undo then p ∈ s.standing ∧ p ∉ decidedBy s.db id
      else p ∈ s.standing ∨ p ∈ decidedBy s.db id) : { s with db, standing }.Sound := by
  have ⟨c, restored, hc, beside, log, proposals, _⟩ := Db.replayChange_eq_ok ok
  have exact_c : c.Exact := h.exact c (List.mem_of_find?_eq_some hc)
  have restored_decided (p) : restored.IsDecided p ↔ p ∈ s.standing :=
    (Db.SameDecided.of_eq beside.proposals p).trans (h.stands p).symm
  have plain (nothing : decidedBy s.db id = []) (same : restored.SameDecided db) (p) : p ∈ standing ↔ db.IsDecided p := by
    rw [stands, same, restored_decided, nothing]
    cases undo <;> simp
  have decided (p) : p ∈ standing ↔ db.IsDecided p := by
    rcases eq : c.analysis with _ | ⟨_ | ⟨pair, removed⟩, _ | _⟩
    case none => exact plain (decidedBy_nil hc fun _ _ => eq ▸ nofun) (.of_eq (proposals.trans (by rw [eq]))) p
    case some.proposals.proposals was is =>
      rw [Change.Exact, eq] at exact_c
      obtain ⟨ids, opened, closed⟩ := exact_c
      rw [eq] at proposals
      rw [stands, mem_decidedBy hc eq, Db.SameDecided.of_eq proposals p]
      cases undo
      case true  => exact (and_congr_left' (restored_decided p).symm).trans (Db.isDecided_restoreOpen opened).symm
      case false => exact ids ▸ (or_congr_left (restored_decided p).symm).trans (Db.isDecided_restoreDecided closed).symm
    case some.proposals.ignored | some.ignored.proposals =>
      rw [Change.Exact, eq] at exact_c
      exact exact_c.elim
    case some.ignored.ignored pair' removed' =>
      rw [eq] at proposals
      refine plain (decidedBy_nil hc fun _ _ => eq ▸ nofun) (.trans ?_ (.of_eq proposals)) p
      cases undo
      case true  => exact Db.sameDecided_restorePair _ _
      case false => exact Db.sameDecided_dropPair _ _
  refine ⟨nodup, decided, h.written, fun e he => ?_, log.changes ▸ beside.changes ▸ h.exact,
    fun call hcall => (h.calls call hcall).mono (beside.grows.trans log.last.ge)⟩
  rw [log.last]
  exact beside.numbered h.numbered e (log.entries ▸ he)

end Deciding

section Decisions

variable {accept : Bool} {entries : List EntryRow} {rows : List ProposalRow}

theorem decision_append (rows : List ProposalRow) (p : ProposalRow) :
    decision (rows ++ [p]) accept entries = (decision rows accept entries).consider accept entries p := by
  rw [decision, List.foldl_concat, ← decision]

-- What a decision has come to when it has considered some proposals.
structure Decision.Sound (accept : Bool) (entries : List EntryRow) (rows : List ProposalRow) (d : Decision) : Prop where
  adds    : ∀ edit ∈ d.adds, edit.target = none
  number  : d.adds.length = if accept then (rows.filter (·.op = .add)).length else 0
  accepts : accept = true → ((rows.filter (·.op = .add)).map (·.id)).Sublist d.decided
  slots   : ∀ slot ∈ d.slots, ∃ e ∈ entries, e.id = slot.1

theorem Decision.Sound.consider {d : Decision} {p : ProposalRow} (h : d.Sound accept entries rows) :
    (d.consider accept entries p).Sound accept entries (rows ++ [p]) := by
  rw [Decision.consider]
  split
  case isTrue rejected =>
    cases accept
    case true  => cases rejected
    case false => exact ⟨h.adds, h.number, nofun, h.slots⟩
  case isFalse accepted =>
    have accepted : accept = true := by simpa using accepted
    subst accepted
    split
    case isTrue add =>
      have edit : ∃ fields, editFor p entries none = some (.add fields .accepted .learned (some "analysis")) := by
        rw [editFor, add]
        exact ⟨_, rfl⟩
      obtain ⟨fields, edit⟩ := edit
      refine ⟨fun e he => ?_, ?_, fun _ => ?_, h.slots⟩
      · rw [edit, Option.toList_some] at he
        rcases List.mem_append.mp he with he | he
        · exact h.adds e he
        · exact List.mem_singleton.mp he ▸ rfl
      · simp [edit, h.number, add]
      · simpa [add] using (h.accepts rfl).append_right [p.id]
    case isFalse other =>
      have same : (rows ++ [p]).filter (·.op = .add) = rows.filter (·.op = .add) := by simp [other]
      split
      case h_1 => exact ⟨h.adds, same ▸ h.number, same ▸ h.accepts, h.slots⟩
      case h_2 current found =>
        refine ⟨h.adds, same ▸ h.number, fun _ => ?_, fun slot hslot => ?_⟩
        · rw [same]
          exact (h.accepts rfl).trans (List.sublist_append_left _ _)
        · have ⟨id, _, found⟩ := Option.bind_eq_some_iff.mp found
          have key := Table.find?_key hslot
          rw [Table.find?_upsert] at key
          split at key
          case isTrue eq => exact ⟨current, List.mem_of_find?_eq_some found, eq.symm⟩
          case isFalse   => exact h.slots slot (Table.find?_mem key)

theorem decision_sound : (decision rows accept entries).Sound accept entries rows := by
  induction rows using List.reverseRecOn
  case nil =>
    refine ⟨fun _ h => absurd h List.not_mem_nil, ?_, fun _ => .refl _, fun _ h => absurd h Table.not_mem_empty⟩
    split <;> rfl
  case append_singleton rows p ih => exact decision_append rows p ▸ ih.consider

theorem slotEdit_target (slot : EntryId × Option Fields) : (Decision.slotEdit slot).target = some slot.1 := by
  obtain ⟨id, _ | fields⟩ := slot <;> rfl

variable {db : Db} {d : Decided}

theorem sound_decideRows (numbered : db.Numbered) (h : db.decideRows rows accept = some d) : d.Sound db.lastEntryId := by
  have sound : (decision rows accept db.accepted).Sound accept db.accepted rows := decision_sound
  rw [Db.decideRows] at h
  dsimp only at h
  split at h
  case isTrue => cases h
  case isFalse =>
    cases h
    have adds : ((decision rows accept db.accepted).adds.map Edit.target).count none =
        (decision rows accept db.accepted).adds.length := by
      have all : ∀ t ∈ (decision rows accept db.accepted).adds.map Edit.target, none = t := by
        intro t ht
        obtain ⟨edit, he, rfl⟩ := List.mem_map.mp ht
        exact (sound.adds edit he).symm
      rw [List.count_eq_length.mpr all, List.length_map]
    refine ⟨?_, fun edit he id hid => ?_, ?_, ?_⟩
    · have slots : (((decision rows accept db.accepted).slots.rows.insertionSort (·.1 ≤ ·.1)).map
          (Edit.target ∘ Decision.slotEdit)).count none = 0 :=
        List.count_eq_zero.mpr fun h => by
          obtain ⟨slot, _, eq⟩ := List.mem_map.mp h
          exact absurd ((slotEdit_target slot).symm.trans eq) nofun
      rw [Decision.edits, List.map_append, List.map_map, List.count_append, slots, adds, sound.number, Decided.adds]
      cases accept <;> simp
    · rcases List.mem_append.mp he with he | he
      · rw [sound.adds edit he] at hid
        cases hid
      · obtain ⟨slot, hslot, rfl⟩ := List.mem_map.mp he
        rw [slotEdit_target] at hid
        cases hid
        have ⟨e, he, eq⟩ := sound.slots slot ((List.perm_insertionSort _ _).mem_iff.mp hslot)
        exact eq ▸ numbered e (Db.mem_accepted.mp he).left
    · cases accept
      case true  => simpa [Decided.adds] using sound.accepts rfl
      case false => simp [Decided.adds]
    · cases accept <;> rfl

theorem sound_acceptEdited (numbered : db.Numbered) (h : db.acceptEdited p fields = some d) : d.Sound db.lastEntryId := by
  obtain ⟨edit, he, eq⟩ := Option.map_eq_some_iff.mp h
  subst eq
  have old {old : EntryRow} (found : (p.entryId.bind fun id => db.accepted.find? (·.id = id)) = some old) :
      old.id ≤ db.lastEntryId := by
    obtain ⟨id, _, found⟩ := Option.bind_eq_some_iff.mp found
    exact numbered old (Db.mem_accepted.mp (List.mem_of_find?_eq_some found)).left
  rw [editFor] at he
  split at he
  case h_1 op =>
    cases he
    exact ⟨by simp [Decided.adds, Edit.target, op], by simp [Edit.target], by simp [Decided.adds, op], rfl⟩
  case h_2 op | h_3 op | h_4 op =>
    obtain ⟨e, found, eq⟩ := Option.map_eq_some_iff.mp he
    subst eq
    have le := old found
    exact ⟨by simp [Decided.adds, Edit.target, op], by simpa [Edit.target] using le, by simp [Decided.adds, op], rfl⟩

end Decisions

namespace Deciding

variable {s s' : Deciding}

theorem step_sound [Unicode] {a : Action} (h : s.Sound) (ok : cond s a = true) (hs : s.step a = some s') : s'.Sound := by
  have among {n : Nat} {call : Call} (hc : s.calls[n]? = some call) : call.Sound s.db.lastEntryId :=
    h.calls call (List.mem_of_getElem? hc)
  have set {n d} (hd : Decided.Sound s.db.lastEntryId d) : { s with calls := s.calls.set n (.ready d) }.Sound :=
    h.withCalls fun call hcall => (List.mem_or_eq_of_mem_set hcall).elim (h.calls call) fun eq => eq ▸ hd
  have without (n) : { s with calls := s.calls.eraseIdx n }.Sound :=
    h.withCalls fun call hcall => h.calls call (List.mem_of_mem_eraseIdx hcall)
  cases a
  case decide ids accept =>
    cases hs
    exact h.withCalls fun call hcall => (List.mem_cons.mp hcall).elim (fun eq => eq ▸ trivial) (h.calls call)
  case acceptEdited id fields =>
    obtain ⟨p, _, rfl⟩ := Option.map_eq_some_iff.mp hs
    exact h.withCalls fun call hcall => (List.mem_cons.mp hcall).elim (fun eq => eq ▸ trivial) (h.calls call)
  case readEntries n =>
    rw [step] at hs
    split at hs
    case h_1 =>
      obtain ⟨d, hd, rfl⟩ := Option.map_eq_some_iff.mp hs
      exact set (sound_decideRows h.numbered hd)
    case h_2 =>
      obtain ⟨d, hd, rfl⟩ := Option.map_eq_some_iff.mp hs
      exact set (sound_acceptEdited h.numbered hd)
    case h_3 => cases hs
  case write n now =>
    rw [step] at hs
    split at hs
    case h_1 d hc =>
      rw [cond, hc] at ok
      have ⟨nodup, opened⟩ := of_decide_eq_true ok
      exact (without n).written_call (among hc) nodup opened hs
    case h_2 => cases hs
  case abandon n => cases hs; exact without n
  case undo id =>
    obtain ⟨db, replayed, rfl⟩ := Option.map_eq_some_iff.mp hs
    exact h.replayed (Except.ok_of_toOption replayed) (h.nodup.filter _) fun p => by simp
  case redo id =>
    obtain ⟨db, replayed, rfl⟩ := Option.map_eq_some_iff.mp hs
    refine h.replayed (Except.ok_of_toOption replayed) ?_ fun p => ?_
    · exact List.nodup_append'.mpr ⟨(List.nodup_dedup _).filter _, h.nodup, fun p hp standing => by
        have := (List.mem_filter.mp hp).right
        simp [standing] at this⟩
    · by_cases standing : p ∈ s.standing <;> simp [standing]
  case propose p threshold evidence now => cases hs; exact h.proposed p threshold evidence now
  case other a =>
    rw [step] at hs
    split at hs
    case isTrue other =>
      obtain ⟨db, hdb, rfl⟩ := Option.map_eq_some_iff.mp hs
      exact h.other other hdb
    case isFalse => cases hs

end Deciding

end Kaluta.Guide
