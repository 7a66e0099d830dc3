import Kaluta.Guide.Backing

-- Proposals over whole runs: reviews file them with the pairs that show them, facts without, the user decides them or
-- ignores a pair, and each change may be undone and made again.
namespace Kaluta.Guide

namespace Db

-- Adds a proposal without pairs behind it, or counts it once more.
def upsertCounted (db : Db) (p : ProposalRow) (threshold : Nat) (now : Millis) : Db :=
  match db.proposals.rows.find? fun r => r.target = p.target ∧ r.matchKey = p.matchKey with
  | none   =>
    shownFrom
      { db with proposals := db.proposals.insertRow ({ p with id := ·, status := .watching, support := 1, updatedAt := now,
                                                              shownAt := none, decidedAt := none }) fun _ => rfl }
      db.proposals.nextRowid threshold now
  | some r =>
    if r.status.isOpen then
      shownFrom
        { db with
          proposals := db.proposals.update (·.id = r.id) (fun r => { r with support := r.support + 1, updatedAt := now })
            fun _ => rfl }
        r.id threshold now
    else db

end Db

-- What a change of facts recorded of the proposals that it decided.
structure FactChange where
  before : List ProposalSnapshot
  after  : List ProposalSnapshot

structure Reviews where
  db          : Db := {}
  factChanges : List FactChange := []

namespace Reviews

inductive Action
  | propose (p : ProposalRow) (threshold : Nat) (evidence : List PairRow) (now : Millis)
  | gather (p : ProposalRow) (threshold : Nat) (now : Millis)
  | guide (a : Guide.Action)
  | decideFacts (ids : List ProposalId) (accept : Bool) (now : Millis)
  | undoFacts (change : Nat)
  | redoFacts (change : Nat)

-- Decisions accept or reject.
def decides : Guide.Action → Bool
  | .edit _ _ (some (.decide _ status)) _ => !status.isOpen
  | _                                     => true

def step [Unicode] (s : Reviews) : Action → Option Reviews
  | .propose p threshold evidence now =>
    if p.target = .guide then some { s with db := s.db.upsertProposal p threshold evidence now } else none
  | .gather p threshold now           =>
    if p.target = .fact then some { s with db := s.db.upsertCounted p threshold now } else none
  | .guide a                          => if decides a then (s.db.step a).map ({ s with db := · }) else none
  | .decideFacts ids accept now       =>
    let db := ids.foldl (·.setProposalStatus now (if accept then .accepted else .rejected) ·) s.db
    some { db, factChanges := ⟨ids.filterMap s.db.snapshotProposal, ids.filterMap db.snapshotProposal⟩ :: s.factChanges }
  | .undoFacts n                      =>
    s.factChanges[n]?.map fun c => { s with db := s.db.restoreProposals c.before }
  | .redoFacts n                      =>
    s.factChanges[n]?.map fun c => { s with db := s.db.restoreProposals c.after }

end Reviews

def reviews [Unicode] : System Reviews Reviews.Action where
  Start s := s = {}
  step    := Reviews.step

namespace Db

variable {db db' : Db}

-- What a change of the guide does to the proposals and to what is recorded of them.
inductive Touches (db db' : Db) : Guide.Action → Prop
  | nothing (backing : db'.backing = db.backing) (changes : ∀ c ∈ db'.changes, c ∈ db.changes ∨ c.analysis = none) :
    Touches db db' a
  | stepped {mid : Db} {step : AnalysisStep} (same : mid.backing = db.backing)
    (backing : db'.backing = (step.apply now mid).1.backing)
    (changes : ∀ c ∈ db'.changes, c ∈ db.changes ∨ c.analysis = some (step.apply now mid).2) :
    Touches db db' (.edit edits reason (some step) now)
  | undone {mid : Db} {c : Change} (same : mid.backing = db.backing) (found : db.getChange n = some c)
    (analysis : c.analysis = some (was, is)) (backing : db'.backing = (mid.replayAnalysis true was).backing)
    (changes : db'.changes = db.changes) : Touches db db' (.undo n)
  | redone {mid : Db} {c : Change} (same : mid.backing = db.backing) (found : db.getChange n = some c)
    (analysis : c.analysis = some (was, is)) (backing : db'.backing = (mid.replayAnalysis false is).backing)
    (changes : db'.changes = db.changes) : Touches db db' (.redo n)

theorem backing_congr (proposals : db'.proposals = db.proposals) (pairs : db'.pairs = db.pairs) : db'.backing = db.backing := by
  funext id
  rw [backing, backing, proposals, pairs]

theorem Beside.backing (h : db.Beside db') : db'.backing = db.backing :=
  backing_congr h.proposals h.pairs

theorem Beside.touches (h : db.Beside db') : db.Touches db' a :=
  .nothing h.backing fun _ hc => .inl (h.changes ▸ hc)

theorem touches_edit [Unicode] {step : Option AnalysisStep} (ok : db.applyEditsWith edits reason step now = .ok (db', change)) :
    db.Touches db' (.edit edits reason step now) := by
  have ⟨_, c, _, _, beside, _, _, proposals, pairs, changes⟩ := applyEditsWith_eq_ok ok
  have same := backing_congr proposals pairs
  cases step
  case none      => exact .nothing (same.trans beside.backing) changes
  case some step => exact .stepped beside.backing same changes

theorem touches_replay [Unicode] (undo : Bool) (ok : db.replayChange n undo = .ok db') :
    db.Touches db' (if undo then .undo n else .redo n) := by
  have ⟨c, mid, hc, beside, log, proposals, pairs⟩ := replayChange_eq_ok ok
  have same := backing_congr proposals pairs
  have changes := log.changes.trans beside.changes
  rcases analysis : c.analysis with _ | ⟨was, is⟩
  case none =>
    rw [analysis] at same
    exact .nothing (same.trans beside.backing) fun _ hc => .inl (changes ▸ hc)
  case some =>
    rw [analysis] at same
    cases undo
    case true  => exact .undone beside.backing hc analysis same changes
    case false => exact .redone beside.backing hc analysis same changes

theorem touches_step [Unicode] {a : Guide.Action} (hs : db.step a = some db') : db.Touches db' a := by
  cases a
  case edit edits reason step now =>
    obtain ⟨_, ok, rfl⟩ := Option.map_eq_some_iff.mp hs
    exact touches_edit (Except.ok_of_toOption ok)
  case undo id => exact touches_replay true (Except.ok_of_toOption hs)
  case redo id => exact touches_replay false (Except.ok_of_toOption hs)
  case learn =>
    obtain ⟨_, ok, rfl⟩ := Option.map_eq_some_iff.mp hs
    exact (beside_merge (Except.ok_of_toOption ok)).touches
  case rescope =>
    obtain ⟨_, ok, rfl⟩ := Option.map_eq_some_iff.mp hs
    have ok := Except.ok_of_toOption ok
    rw [rescopeGroup] at ok
    split at ok
    case isTrue => cases ok; exact (Beside.refl db).touches
    case isFalse =>
      obtain ⟨_, edited, ok⟩ := Except.bind_eq_ok.mp ok
      cases ok
      have touched := touches_edit edited
      cases touched
      case nothing backing changes => exact .nothing backing changes
  case saveGroup g => cases hs; exact (beside_saveGroup _ g).touches
  case renameGroup id name =>
    have ok := Except.ok_of_toOption hs
    rw [renameGroup] at ok
    split at ok
    case isTrue  => cases ok
    case isFalse => cases ok; exact .nothing rfl fun _ => .inl
  case deleteGroup => cases hs; exact .nothing rfl fun _ => .inl
  case moveFacts   => cases hs; exact (beside_moveGuideFacts _).touches

-- A proposal that a filing opens: new, or still open with what was behind it.
structure Opens (target : ProposalTarget) (b b' : Backing) : Prop where
  pairs    : b'.pairs = b.pairs
  proposal : ∃ r' ∈ b'.proposal, r'.target = target ∧
    (b.proposal = none ∧ r'.status = .watching ∨
      ∃ r ∈ b.proposal, r.target = target ∧ r'.status = r.status ∧ r'.shownAt = r.shownAt)

theorem opens_new (db : Db) (mk : Nat → ProposalRow) (hmk : ∀ n, (mk n).id = n) (target : ∀ n, (mk n).target = t)
    (watching : ∀ n, (mk n).status = .watching) :
    ∃ b, Opens t (db.backing db.proposals.nextRowid) b ∧
      ({ db with proposals := db.proposals.insertRow mk hmk } : Db).backing =
        Function.update db.backing db.proposals.nextRowid b := by
  have free : (db.backing db.proposals.nextRowid).proposal = none :=
    Table.find?_eq_none_iff.mpr fun _ hr => (Table.lt_nextRowid hr).ne
  refine ⟨{ db.backing db.proposals.nextRowid with proposal := some (mk db.proposals.nextRowid) },
    ⟨rfl, _, rfl, target _, .inl ⟨free, watching _⟩⟩, ?_⟩
  funext k
  by_cases hk : k = db.proposals.nextRowid
  case pos =>
    rw [hk, Function.update_self]
    simp only [backing, Table.find?_insertRow_self]
  case neg =>
    rw [Function.update_of_ne hk]
    simp only [backing, Table.find?_insertRow_ne hk]

theorem opens_again {r : ProposalRow} (hr : r ∈ db.proposals) {f : ProposalRow → ProposalRow} (hf : ∀ r, (f r).id = r.id)
    (same : ∀ r, (f r).target = r.target ∧ (f r).status = r.status ∧ (f r).shownAt = r.shownAt) :
    ∃ b, Opens r.target (db.backing r.id) b ∧
      ({ db with proposals := db.proposals.update (·.id = r.id) f hf } : Db).backing =
        Function.update db.backing r.id b := by
  have found : (db.backing r.id).proposal = some r := Table.find?_key hr
  have := backing_update db r.id (p := (·.id = r.id)) (q := fun _ => True) hf (by simp)
  simp only [if_true] at this
  exact ⟨(db.backing r.id).update f,
    ⟨rfl, f r, congrArg (Option.map f) found, (same r).left, .inr ⟨r, found, rfl, (same r).right⟩⟩, this⟩

theorem upsertProposal_cases (db : Db) (p : ProposalRow) (threshold : Nat) (evidence : List PairRow) (now : Millis) :
    db.upsertProposal p threshold evidence now = db ∨
      ∃ id b, Opens p.target (db.backing id) b ∧ (db.upsertProposal p threshold evidence now).backing =
        Function.update db.backing id (b.filed threshold evidence now id) := by
  rw [upsertProposal]
  dsimp only
  split
  case h_1 =>
    obtain ⟨b, opens, start⟩ := opens_new db (t := p.target)
      ({ p with id := ·, status := .watching, support := 0, updatedAt := now, shownAt := none, decidedAt := none })
      (fun _ => rfl) (fun _ => rfl) fun _ => rfl
    refine .inr ⟨_, b, opens, ?_⟩
    rw [backing_filed, start, Function.update_self, Function.update_idem]
  case h_2 r found =>
    have mem : r ∈ db.proposals := List.mem_of_find?_eq_some found
    obtain ⟨target, _⟩ : r.target = p.target ∧ r.matchKey = p.matchKey := by simpa using List.find?_some found
    split
    case isTrue =>
      obtain ⟨b, opens, start⟩ := opens_again mem (f := ({ · with updatedAt := now })) (fun _ => rfl)
        fun _ => ⟨rfl, rfl, rfl⟩
      refine .inr ⟨_, b, target ▸ opens, ?_⟩
      rw [backing_filed, start, Function.update_self, Function.update_idem]
    case isFalse => exact .inl rfl

theorem upsertCounted_cases (db : Db) (p : ProposalRow) (threshold : Nat) (now : Millis) :
    db.upsertCounted p threshold now = db ∨
      ∃ id b, Opens p.target (db.backing id) b ∧ (db.upsertCounted p threshold now).backing =
        Function.update db.backing id (b.shownFrom threshold now) := by
  rw [upsertCounted]
  split
  case h_1 =>
    obtain ⟨b, opens, start⟩ := opens_new db (t := p.target)
      ({ p with id := ·, status := .watching, support := 1, updatedAt := now, shownAt := none, decidedAt := none })
      (fun _ => rfl) (fun _ => rfl) fun _ => rfl
    refine .inr ⟨_, b, opens, ?_⟩
    rw [backing_shownFrom, start, Function.update_self, Function.update_idem]
  case h_2 r found =>
    have mem : r ∈ db.proposals := List.mem_of_find?_eq_some found
    obtain ⟨target, _⟩ : r.target = p.target ∧ r.matchKey = p.matchKey := by simpa using List.find?_some found
    split
    case isTrue =>
      obtain ⟨b, opens, start⟩ := opens_again mem (f := fun r => { r with support := r.support + 1, updatedAt := now })
        (fun _ => rfl) fun _ => ⟨rfl, rfl, rfl⟩
      refine .inr ⟨_, b, target ▸ opens, ?_⟩
      rw [backing_shownFrom, start, Function.update_self, Function.update_idem]
    case isFalse => exact .inl rfl

def targetOf (db : Db) (id : ProposalId) : Option ProposalTarget :=
  (db.backing id).target

-- Proposals are never deleted, and stay of the guide or of facts.
def Grows (db db' : Db) : Prop :=
  ∀ id t, db.targetOf id = some t → db'.targetOf id = some t

def Sound (db : Db) : Prop :=
  ∀ id, (db.backing id).Sound

end Db

-- What is recorded of proposals can be put back.
def ProposalSnapshot.Sound (db : Db) (s : ProposalSnapshot) : Prop :=
  (Backing.ofSnapshot s).Sound ∧ db.targetOf s.proposal.id = some s.proposal.target

def AnalysisRecord.Sound (db : Db) : AnalysisRecord → Prop
  | .proposals snapshots => ∀ s ∈ snapshots, s.Sound db
  | .ignored _ removed   => ∀ r ∈ removed, db.targetOf r.1 = some .guide

section Grows

variable {db db' db'' : Db}

theorem Db.Grows.trans (h₁ : db.Grows db') (h₂ : db'.Grows db'') : db.Grows db'' :=
  fun id t h => h₂ id t (h₁ id t h)

theorem Db.Grows.of_backing (h : db'.backing = db.backing) : db.Grows db' :=
  fun id t ht => by rwa [targetOf, h]

theorem ProposalSnapshot.Sound.mono (h : ProposalSnapshot.Sound db s) (grows : db.Grows db') : s.Sound db' :=
  ⟨h.left, grows _ _ h.right⟩

theorem AnalysisRecord.Sound.mono {r : AnalysisRecord} (h : r.Sound db) (grows : db.Grows db') : r.Sound db' := by
  cases r
  case proposals => exact fun s hs => (h s hs).mono grows
  case ignored   => exact fun r hr => grows _ _ (h r hr)

end Grows

namespace Db

variable {db db' : Db} {id : ProposalId}

-- An operation on one proposal.
structure Retains (db db' : Db) : Prop where
  sound : db'.Sound
  grows : db.Grows db'

theorem Retains.of_update {b : Backing} (h : db.Sound) (backing : db'.backing = Function.update db.backing id b)
    (sound : b.Sound) (target : ∀ t, db.targetOf id = some t → b.target = some t) : db.Retains db' := by
  refine ⟨fun k => ?_, fun k t ht => ?_⟩
  · rw [backing]
    by_cases eq : k = id
    case pos => rwa [eq, Function.update_self]
    case neg => exact Function.update_of_ne eq b db.backing ▸ h k
  · rw [targetOf, backing]
    by_cases eq : k = id
    case pos => rw [eq, Function.update_self]; exact target t (eq ▸ ht)
    case neg => rwa [Function.update_of_ne eq]

theorem Retains.refl (h : db.Sound) : db.Retains db :=
  ⟨h, fun _ _ ht => ht⟩

theorem Retains.trans {db'' : Db} (h₁ : db.Retains db') (h₂ : db'.Retains db'') : db.Retains db'' :=
  ⟨h₂.sound, h₁.grows.trans h₂.grows⟩

theorem Retains.of_backing (h : db.Sound) (backing : db'.backing = db.backing) : db.Retains db' :=
  ⟨fun id => backing ▸ h id, .of_backing backing⟩

theorem Retains.foldl {f : Db → α → Db} {as : List α} (h : db.Sound)
    (step : ∀ s, db.Retains s → ∀ a ∈ as, s.Retains (f s a)) : db.Retains (as.foldl f db) :=
  List.foldl_preserves (fun a ha ih => ih.trans (step _ ih a ha)) (.refl h)

theorem keeps_dropPair (h : db.Sound) (pair : CompositionId) : db.Retains (db.dropPair pair).1 :=
  .foldl h fun s hs id _ =>
    .of_update hs.sound (backing_dropFrom s pair id) (hs.sound id).without fun _ ht => (Backing.target_without _).trans ht

theorem keeps_restorePair (h : db.Sound) {removed : List (ProposalId × PairRow)}
    (guide : ∀ r ∈ removed, db.targetOf r.1 = some .guide) : db.Retains (db.restorePair removed) :=
  .foldl h fun s hs r hr =>
    have ⟨p, hp, target⟩ := Option.map_eq_some_iff.mp (hs.grows _ _ (guide r hr))
    .of_update hs.sound (backing_putBack s r) ((hs.sound r.1).withPair ⟨p, hp, target⟩)
      fun _ ht => (Backing.target_withPair _).trans ht

theorem keeps_restoreProposals (h : db.Sound) {snapshots : List ProposalSnapshot} (sound : ∀ s ∈ snapshots, s.Sound db) :
    db.Retains (db.restoreProposals snapshots) :=
  .foldl h fun s hs sn hsn =>
    have ⟨ofSnapshot, target⟩ := (sound sn hsn).mono hs.grows
    .of_update hs.sound (backing_putSnapshot s sn) ofSnapshot fun _ ht =>
      (Backing.target_addAll _).trans (target.symm.trans ht)

theorem keeps_decide (h : db.Sound) {status : ProposalStatus} (decides : status.isOpen = false) (ids : List ProposalId)
    (now : Millis) : db.Retains (ids.foldl (·.setProposalStatus now status ·) db) :=
  .foldl h fun s hs id _ =>
    .of_update hs.sound (backing_setProposalStatus s now status id) ((hs.sound id).decided decides)
      fun _ ht => (Backing.target_decided _).trans ht

section Opens

variable {b b' : Backing}

theorem Opens.target_eq (h : Opens t b b') (ht : b.target = some t') : b'.target = some t' := by
  have ⟨r', hr', target, was⟩ := h.proposal
  obtain ⟨r₁, hr₁, rfl⟩ := Option.map_eq_some_iff.mp ht
  rcases was with ⟨none, _⟩ | ⟨r, hr, same, _⟩
  · exact nomatch none.symm.trans hr₁
  · obtain rfl := Option.mem_unique hr hr₁
    exact Option.map_eq_some_iff.mpr ⟨r', hr', target.trans same.symm⟩

theorem Opens.shown (h : Opens t b b') (sound : b.Sound) : ∀ p ∈ b'.proposal, p.status = .proposed → p.shownAt.isSome := by
  intro p hp proposed
  have ⟨r', hr', _, was⟩ := h.proposal
  obtain rfl := Option.mem_unique hr' hp
  rcases was with ⟨_, watching⟩ | ⟨r, hr, _, status, shownAt⟩
  · rw [watching] at proposed
    cases proposed
  · exact shownAt ▸ sound.shown r hr (status ▸ proposed)

theorem Opens.sound_fact (h : Opens .fact b b') (sound : b.Sound) : b'.Sound where
  backed hne := by
    have ⟨p, hp, guide⟩ := sound.backed (h.pairs ▸ hne)
    have ⟨_, _, _, was⟩ := h.proposal
    rcases was with ⟨none, _⟩ | ⟨r, hr, fact, _⟩
    · rw [none] at hp
      cases hp
    · obtain rfl := Option.mem_unique hr hp
      rw [guide] at fact
      cases fact
  support p hp guide := by
    have ⟨r', hr', fact, _⟩ := h.proposal
    obtain rfl := Option.mem_unique hr' hp
    rw [guide] at fact
    cases fact
  shown := h.shown sound

end Opens

theorem keeps_upsertProposal (h : db.Sound) {p : ProposalRow} (guide : p.target = .guide) (threshold : Nat)
    (evidence : List PairRow) (now : Millis) : db.Retains (db.upsertProposal p threshold evidence now) := by
  rcases upsertProposal_cases db p threshold evidence now with same | ⟨id, b, opens, filed⟩
  · exact same.symm ▸ .refl h
  · have ⟨r, hr, target, _⟩ := opens.proposal
    exact .of_update h filed (.filed ⟨r, hr, target.trans guide⟩ (opens.shown (h id)))
      fun _ ht => (Backing.target_filed _).trans (opens.target_eq ht)

theorem keeps_upsertCounted (h : db.Sound) {p : ProposalRow} (fact : p.target = .fact) (threshold : Nat) (now : Millis) :
    db.Retains (db.upsertCounted p threshold now) := by
  rcases upsertCounted_cases db p threshold now with same | ⟨id, b, opens, counted⟩
  · exact same.symm ▸ .refl h
  · exact .of_update h counted (Opens.sound_fact (fact ▸ opens) (h id)).shownFrom
      fun _ ht => (Backing.target_shownFrom _).trans (opens.target_eq ht)

theorem ofSnapshot_eq {p : ProposalRow} (hp : db.proposals.find? p.id = some p) :
    Backing.ofSnapshot { proposal := p, evidence := db.pairsOf p.id } = db.backing p.id := by
  have nodup : ((db.pairsOf p.id).map (·.compositionId)).Nodup := by
    rw [pairsOf, List.map_map]
    exact db.nodup_backing p.id
  have pairs : (({ proposal := some p, pairs := [] } : Backing).addAll p.id (db.pairsOf p.id)).pairs = _ :=
    Backing.pairs_addAll_of_new nodup (by simp)
  have again : (db.pairsOf p.id).map ({ · with proposalId := p.id }) = (db.backing p.id).pairs := by
    rw [pairsOf, List.map_map]
    refine (List.map_congr_left fun e he => ?_).trans (List.map_id _)
    rw [Function.comp_apply, ← of_decide_eq_true (List.mem_filter.mp he).right]
    rfl
  have proposal : (({ proposal := some p, pairs := [] } : Backing).addAll p.id (db.pairsOf p.id)).proposal = some p :=
    Backing.proposal_addAll _
  rw [again, List.nil_append] at pairs
  exact congr (congrArg Backing.mk (proposal.trans hp.symm)) pairs

theorem sound_snapshots (h : db.Sound) (ids : List ProposalId) : ∀ s ∈ ids.filterMap db.snapshotProposal, s.Sound db := by
  intro s hs
  obtain ⟨id, _, taken⟩ := List.mem_filterMap.mp hs
  obtain ⟨p, hp, rfl⟩ := Option.map_eq_some_iff.mp taken
  obtain rfl := Table.find?_key_eq hp
  refine ⟨(ofSnapshot_eq hp).symm ▸ h p.id, ?_⟩
  rw [targetOf, Backing.target, show (db.backing p.id).proposal = some p from hp]
  rfl

theorem sound_removed (h : db.Sound) (pair : CompositionId) : ∀ r ∈ (db.dropPair pair).2, db.targetOf r.1 = some .guide := by
  intro r hr
  have ⟨_, e, he, _⟩ := mem_removed hr
  have ⟨p, hp, guide⟩ := (h r.1).backed (List.ne_nil_of_mem he)
  exact Option.map_eq_some_iff.mpr ⟨p, hp, guide⟩

end Db

namespace Reviews

variable {s s' : Reviews}

structure Inv (s : Reviews) : Prop where
  sound   : s.db.Sound
  changes : ∀ c ∈ s.db.changes, ∀ was is, c.analysis = some (was, is) → was.Sound s.db ∧ is.Sound s.db
  facts   : ∀ c ∈ s.factChanges, ∀ sn ∈ c.before ++ c.after, sn.Sound s.db

theorem Inv.start : ({} : Reviews).Inv where
  sound _      := ⟨fun h => (h rfl).elim, fun _ h => absurd h (Option.not_mem_none _), fun _ h => absurd h (Option.not_mem_none _)⟩
  changes _ hc := absurd hc List.not_mem_nil
  facts _ hc   := absurd hc List.not_mem_nil

theorem Inv.keeps {db : Db} (h : s.Inv) (keeps : s.db.Retains db)
    (changes : ∀ c ∈ db.changes, c ∈ s.db.changes ∨ ∀ was is, c.analysis = some (was, is) → was.Sound db ∧ is.Sound db) :
    { s with db }.Inv where
  sound := keeps.sound
  changes c hc was is analysis := by
    rcases changes c hc with hc | sound
    · have ⟨was, is⟩ := h.changes c hc was is analysis
      exact ⟨was.mono keeps.grows, is.mono keeps.grows⟩
    · exact sound was is analysis
  facts c hc sn hsn := (h.facts c hc sn hsn).mono keeps.grows

theorem keeps_replay {db : Db} (undo : Bool) {record : AnalysisRecord} (h : db.Sound) (sound : record.Sound db) :
    db.Retains (db.replayAnalysis undo record) := by
  cases record
  case proposals snapshots => exact Db.keeps_restoreProposals h sound
  case ignored pair removed =>
    cases undo
    case true  => exact Db.keeps_restorePair h sound
    case false => exact Db.keeps_dropPair h pair

theorem keeps_apply {db : Db} (now : Millis) {step : AnalysisStep} (h : db.Sound)
    (decides : ∀ ids status, step = .decide ids status → status.isOpen = false) :
    db.Retains (step.apply now db).1 ∧
      (step.apply now db).2.1.Sound (step.apply now db).1 ∧ (step.apply now db).2.2.Sound (step.apply now db).1 := by
  cases step
  case decide ids status =>
    have keeps := Db.keeps_decide h (decides ids status rfl) ids now
    exact ⟨keeps, fun sn hsn => (Db.sound_snapshots h ids sn hsn).mono keeps.grows, Db.sound_snapshots keeps.sound ids⟩
  case ignorePair pair =>
    have keeps := Db.keeps_dropPair h pair
    have guide : ∀ r ∈ (db.dropPair pair).2, (db.dropPair pair).1.targetOf r.1 = some .guide := fun r hr =>
      keeps.grows _ _ (Db.sound_removed h pair r hr)
    exact ⟨keeps, guide, guide⟩

theorem Inv.guide {a : Guide.Action} {db : Db} (h : s.Inv) (touches : s.db.Touches db a) (ok : decides a = true) :
    { s with db }.Inv := by
  cases touches
  case nothing backing changes =>
    refine h.keeps (.of_backing h.sound backing) fun c hc => (changes c hc).imp_right fun none was is analysis => ?_
    exact nomatch none.symm.trans analysis
  case stepped now edits reason mid step same backing changes =>
    have mid_keeps : s.db.Retains mid := .of_backing h.sound same
    have closed : ∀ ids status, step = .decide ids status → status.isOpen = false := fun ids status eq => by
      subst eq
      simpa [decides] using ok
    have ⟨keeps, was_sound, is_sound⟩ := keeps_apply now mid_keeps.sound closed
    have after : (step.apply now mid).1.Retains db := .of_backing keeps.sound backing
    refine h.keeps ((mid_keeps.trans keeps).trans after) fun c hc => (changes c hc).imp_right fun eq was is analysis => ?_
    have eq : (step.apply now mid).2 = (was, is) := Option.some.inj (eq.symm.trans analysis)
    rw [eq] at was_sound is_sound
    exact ⟨was_sound.mono after.grows, is_sound.mono after.grows⟩
  case undone mid c same found analysis backing changes =>
    have mid_keeps : s.db.Retains mid := .of_backing h.sound same
    have ⟨was, _⟩ := h.changes c (List.mem_of_find?_eq_some found) _ _ analysis
    have keeps := keeps_replay true mid_keeps.sound (was.mono mid_keeps.grows)
    exact h.keeps ((mid_keeps.trans keeps).trans (.of_backing keeps.sound backing)) fun _ hc => .inl (changes ▸ hc)
  case redone mid c same found analysis backing changes =>
    have mid_keeps : s.db.Retains mid := .of_backing h.sound same
    have ⟨_, is⟩ := h.changes c (List.mem_of_find?_eq_some found) _ _ analysis
    have keeps := keeps_replay false mid_keeps.sound (is.mono mid_keeps.grows)
    exact h.keeps ((mid_keeps.trans keeps).trans (.of_backing keeps.sound backing)) fun _ hc => .inl (changes ▸ hc)

theorem changes_upsertProposal (db : Db) (p : ProposalRow) (threshold : Nat) (evidence : List PairRow) (now : Millis) :
    (db.upsertProposal p threshold evidence now).changes = db.changes := by
  rw [Db.upsertProposal]
  dsimp only
  split
  case h_1 => rfl
  case h_2 => split <;> rfl

theorem changes_upsertCounted (db : Db) (p : ProposalRow) (threshold : Nat) (now : Millis) :
    (db.upsertCounted p threshold now).changes = db.changes := by
  rw [Db.upsertCounted]
  split
  case h_1 => rfl
  case h_2 => split <;> rfl

theorem changes_restoreProposals (db : Db) (snapshots : List ProposalSnapshot) :
    (db.restoreProposals snapshots).changes = db.changes :=
  List.foldl_preserves (P := fun db' : Db => db'.changes = db.changes) (fun _ _ ih => ih) rfl

theorem changes_decide (db : Db) (ids : List ProposalId) (now : Millis) (status : ProposalStatus) :
    (ids.foldl (·.setProposalStatus now status ·) db).changes = db.changes :=
  List.foldl_preserves (P := fun db' : Db => db'.changes = db.changes) (fun _ _ ih => ih) rfl

theorem Inv.step [Unicode] {a : Action} (h : s.Inv) (hs : s.step a = some s') : s'.Inv := by
  cases a
  case propose p threshold evidence now =>
    rw [Reviews.step] at hs
    split at hs
    case isTrue guide =>
      cases hs
      exact h.keeps (Db.keeps_upsertProposal h.sound guide threshold evidence now) fun _ hc =>
        .inl (changes_upsertProposal s.db p threshold evidence now ▸ hc)
    case isFalse => cases hs
  case gather p threshold now =>
    rw [Reviews.step] at hs
    split at hs
    case isTrue fact =>
      cases hs
      exact h.keeps (Db.keeps_upsertCounted h.sound fact threshold now) fun _ hc =>
        .inl (changes_upsertCounted s.db p threshold now ▸ hc)
    case isFalse => cases hs
  case guide a =>
    rw [Reviews.step] at hs
    split at hs
    case isTrue ok =>
      obtain ⟨db, hdb, rfl⟩ := Option.map_eq_some_iff.mp hs
      exact h.guide (Db.touches_step hdb) ok
    case isFalse => cases hs
  case decideFacts ids accept now =>
    cases hs
    have closed : (if accept then ProposalStatus.accepted else .rejected).isOpen = false := by cases accept <;> rfl
    have keeps := Db.keeps_decide h.sound closed ids now
    have decided := h.keeps keeps fun _ hc => .inl (changes_decide s.db ids now _ ▸ hc)
    refine ⟨decided.sound, decided.changes, fun c hc sn hsn => ?_⟩
    rcases List.mem_cons.mp hc with rfl | hc
    · rcases List.mem_append.mp hsn with hsn | hsn
      · exact (Db.sound_snapshots h.sound ids sn hsn).mono keeps.grows
      · exact Db.sound_snapshots keeps.sound ids sn hsn
    · exact decided.facts c hc sn hsn
  case undoFacts n =>
    obtain ⟨c, hc, rfl⟩ := Option.map_eq_some_iff.mp hs
    have sound := h.facts c (List.mem_of_getElem? hc)
    exact h.keeps (Db.keeps_restoreProposals h.sound fun sn hsn => sound sn (List.mem_append_left _ hsn)) fun _ hc =>
      .inl (changes_restoreProposals s.db c.before ▸ hc)
  case redoFacts n =>
    obtain ⟨c, hc, rfl⟩ := Option.map_eq_some_iff.mp hs
    have sound := h.facts c (List.mem_of_getElem? hc)
    exact h.keeps (Db.keeps_restoreProposals h.sound fun sn hsn => sound sn (List.mem_append_right _ hsn)) fun _ hc =>
      .inl (changes_restoreProposals s.db c.after ▸ hc)

theorem inv_of_reachable [Unicode] {s : Reviews} (h : reviews.Reachable (fun _ _ => True) s) : s.Inv :=
  h.invariant (fun _ hs => hs ▸ .start) fun _ _ _ h _ hs => h.step hs

-- The support that a filing shows its proposal from.
def Action.threshold : Action → Option Nat
  | .propose _ threshold _ _ | .gather _ threshold _ => some (max threshold 1)
  | _                                                => none

-- What an Undo or a Redo puts back of what was recorded.
def replayed (s : Reviews) : Action → Option AnalysisRecord
  | .guide (.undo id) => ((s.db.getChange id).bind (·.analysis)).map (·.1)
  | .guide (.redo id) => ((s.db.getChange id).bind (·.analysis)).map (·.2)
  | .undoFacts n      => s.factChanges[n]?.map fun c => .proposals c.before
  | .redoFacts n      => s.factChanges[n]?.map fun c => .proposals c.after
  | _                 => none

-- What makes a watched proposal a proposed one.
inductive Shows (s : Reviews) (a : Action) (p p' : ProposalRow) : Prop
  | reached (threshold : t ∈ a.threshold) (le : t ≤ p'.support)
  | recorded (record : s.replayed a = some (.proposals snapshots)) (mem : p' ∈ snapshots.map (·.proposal))
  | again (record : s.replayed a = some (.ignored pair removed)) (shown : p.shownAt.isSome = true)

section Shows

variable {db : Db} {id : ProposalId} {p p' : ProposalRow}

theorem not_shown_decide {status : ProposalStatus} (decides : status.isOpen = false) {ids : List ProposalId} {now : Millis}
    (hp : ∀ p ∈ (db.backing id).proposal, p.status ≠ .proposed) :
    ∀ p ∈ ((ids.foldl (·.setProposalStatus now status ·) db).backing id).proposal, p.status ≠ .proposed := by
  refine List.foldl_update_preserves Db.backing (fun i => i) (fun _ => .decided status now)
    (Q := fun b => ∀ p ∈ b.proposal, p.status ≠ .proposed)
    (fun s i _ => Db.backing_setProposalStatus s now status i) (fun _ _ _ b _ p hp proposed => ?_) hp
  obtain ⟨r, _, rfl⟩ := Backing.mem_update.mp hp
  have proposed : status = .proposed := proposed
  rw [proposed] at decides
  cases decides

theorem watched_dropPair {pair : CompositionId} (hp : ∀ p ∈ (db.backing id).proposal, p.status = .watching) :
    ∀ p ∈ ((db.dropPair pair).1.backing id).proposal, p.status = .watching := by
  have without {b : Backing} (hb : ∀ p ∈ b.proposal, p.status = .watching) : ∀ p ∈ (b.without pair).proposal, p.status = .watching := by
    intro p hp
    obtain ⟨_, hr, rfl⟩ := Backing.mem_update.mp hp
    obtain ⟨q, hq, rfl⟩ := Backing.mem_update.mp hr
    split
    case isTrue  => rfl
    case isFalse => exact hb q hq
  rw [Db.backing_dropPair]
  split
  case isTrue  => exact without hp
  case isFalse => exact hp

theorem not_shown_restorePair {removed : List (ProposalId × PairRow)}
    (hp : ∀ p ∈ (db.backing id).proposal, p.status = .watching ∧ p.shownAt = none) :
    ∀ p ∈ ((db.restorePair removed).backing id).proposal, p.status = .watching ∧ p.shownAt = none := by
  rw [Db.restorePair]
  refine List.foldl_update_preserves Db.backing (·.1) (fun r => .withPair r.1 r.2)
    (Q := fun b => ∀ p ∈ b.proposal, p.status = .watching ∧ p.shownAt = none)
    (fun s r _ => Db.backing_putBack s r) (fun _ _ _ b hb p hp => ?_) hp
  obtain ⟨_, hr, rfl⟩ := Backing.mem_update.mp hp
  obtain ⟨q, hq, rfl⟩ := Backing.mem_update.mp hr
  have unshown := hb q (by rwa [Backing.proposal_addAll] at hq)
  rw [if_neg fun shown => by simp [unshown.right] at shown]
  exact unshown

theorem restored (db : Db) (snapshots : List ProposalSnapshot) :
    ((db.restoreProposals snapshots).backing id).proposal = (db.backing id).proposal ∨
      ∃ p' ∈ snapshots.map (·.proposal), ((db.restoreProposals snapshots).backing id).proposal = some p' := by
  rw [Db.restoreProposals]
  exact List.foldl_update_preserves Db.backing (fun sn : ProposalSnapshot => sn.proposal.id)
    (fun sn _ => .ofSnapshot sn)
    (Q := fun b => b.proposal = (db.backing id).proposal ∨ ∃ p' ∈ snapshots.map (·.proposal), b.proposal = some p')
    (fun s sn _ => Db.backing_putSnapshot s sn)
    (fun sn hsn _ _ _ => .inr ⟨_, List.mem_map_of_mem hsn, Backing.proposal_addAll _⟩) (.inl rfl)

theorem reached_shownFrom {b : Backing} (unshown : ∀ q ∈ b.proposal, q.status ≠ .proposed)
    (hp' : p' ∈ (b.shownFrom threshold now).proposal) (proposed : p'.status = .proposed) : max threshold 1 ≤ p'.support := by
  obtain ⟨q, hq, rfl⟩ := Backing.mem_update.mp hp'
  split
  case isTrue reached => exact reached.right
  case isFalse below  =>
    rw [if_neg below] at proposed
    exact absurd proposed (unshown q hq)

theorem watched_opens {b b' : Backing} (opens : Db.Opens t b b') (hp : p ∈ b.proposal) (watching : p.status = .watching) :
    ∀ q ∈ b'.proposal, q.status ≠ .proposed := by
  intro q hq
  have ⟨r', hr', _, was⟩ := opens.proposal
  obtain rfl := Option.mem_unique hq hr'
  rcases was with ⟨none, _⟩ | ⟨r, hr, _, status, _⟩
  · exact nomatch none.symm.trans hp
  · obtain rfl := Option.mem_unique hp hr
    rw [status, watching]
    nofun

-- A proposal that an Undo or a Redo shows.
theorem shows_replay {mid : Db} {a : Action} (undo : Bool) {record : AnalysisRecord} (replays : s.replayed a = some record)
    (hp : (mid.backing id).proposal = some p) (watching : p.status = .watching)
    (hp' : ((mid.replayAnalysis undo record).backing id).proposal = some p') (proposed : p'.status = .proposed) :
    s.Shows a p p' := by
  cases record
  case proposals snapshots =>
    rcases restored mid snapshots with same | ⟨q, hq, eq⟩
    · cases hp.symm.trans (same.symm.trans hp')
      rw [watching] at proposed
      cases proposed
    · cases eq.symm.trans hp'
      exact .recorded replays hq
  case ignored pair removed =>
    cases undo
    case true =>
      rcases shown : p.shownAt with _ | at_
      · have unshown : ∀ q ∈ (mid.backing id).proposal, q.status = .watching ∧ q.shownAt = none := fun q hq => by
          obtain rfl := Option.mem_unique hp hq
          exact ⟨watching, shown⟩
        rw [(not_shown_restorePair unshown p' hp').left] at proposed
        cases proposed
      · exact .again replays (by rw [shown]; rfl)
    case false =>
      have watched : ∀ q ∈ (mid.backing id).proposal, q.status = .watching := fun q hq => by
        obtain rfl := Option.mem_unique hp hq
        exact watching
      rw [watched_dropPair watched p' hp'] at proposed
      cases proposed

theorem shows_guide {a : Guide.Action} (touches : s.db.Touches db a) (ok : decides a = true)
    (hp : (s.db.backing id).proposal = some p) (watching : p.status = .watching) (hp' : (db.backing id).proposal = some p')
    (proposed : p'.status = .proposed) : s.Shows (.guide a) p p' := by
  cases touches
  case nothing backing changes =>
    rw [backing, hp] at hp'
    cases hp'
    rw [watching] at proposed
    cases proposed
  case stepped now edits reason mid step same backing changes =>
    rw [backing] at hp'
    rw [← same] at hp
    cases step
    case decide ids status =>
      have closed : status.isOpen = false := by simpa [decides] using ok
      have unshown : ∀ q ∈ (mid.backing id).proposal, q.status ≠ .proposed := fun q hq => by
        obtain rfl := Option.mem_unique hp hq
        rw [watching]
        nofun
      exact absurd proposed (not_shown_decide closed unshown p' hp')
    case ignorePair pair =>
      have watched : ∀ q ∈ (mid.backing id).proposal, q.status = .watching := fun q hq => by
        obtain rfl := Option.mem_unique hp hq
        exact watching
      rw [watched_dropPair watched p' hp'] at proposed
      cases proposed
  case undone n was is mid c same found analysis backing changes =>
    have replays : s.replayed (.guide (.undo n)) = some was := by
      rw [replayed, found, Option.bind_some, analysis]
      rfl
    exact shows_replay true replays (same ▸ hp) watching (backing ▸ hp') proposed
  case redone n was is mid c same found analysis backing changes =>
    have replays : s.replayed (.guide (.redo n)) = some is := by
      rw [replayed, found, Option.bind_some, analysis]
      rfl
    exact shows_replay false replays (same ▸ hp) watching (backing ▸ hp') proposed

-- A filing shows the proposal that it opened once it has the support.
theorem shows_filed {b b' : Backing} {i : ProposalId} (opens : Db.Opens t (s.db.backing i) b')
    (backing : db.backing = Function.update s.db.backing i (b.shownFrom threshold now))
    (status : ∀ q ∈ b.proposal, ∃ r ∈ b'.proposal, r.status = q.status)
    (hp : (s.db.backing id).proposal = some p) (watching : p.status = .watching) (hp' : (db.backing id).proposal = some p')
    (proposed : p'.status = .proposed) : max threshold 1 ≤ p'.support := by
  rw [backing] at hp'
  by_cases eq : id = i
  case pos =>
    subst eq
    rw [Function.update_self] at hp'
    refine reached_shownFrom (fun q hq => ?_) hp' proposed
    have ⟨r, hr, same⟩ := status q hq
    exact same ▸ watched_opens opens hp watching r hr
  case neg =>
    rw [Function.update_of_ne eq, hp] at hp'
    cases hp'
    rw [watching] at proposed
    cases proposed

end Shows

theorem shows_of_step [Unicode] {a : Action} {p p' : ProposalRow} (hs : s.step a = some s') (hp : p ∈ s.db.proposals)
    (watching : p.status = .watching) (hp' : p' ∈ s'.db.proposals) (same : p'.id = p.id) (proposed : p'.status = .proposed) :
    s.Shows a p p' := by
  have found : (s.db.backing p.id).proposal = some p := Table.find?_key hp
  have found' : (s'.db.backing p.id).proposal = some p' := same ▸ Table.find?_key hp'
  have changed (unchanged : s'.db = s.db) : False := by
    cases found.symm.trans (unchanged ▸ found')
    rw [watching] at proposed
    cases proposed
  cases a
  case propose q threshold evidence now =>
    rw [step] at hs
    split at hs
    case isTrue =>
      cases hs
      rcases Db.upsertProposal_cases s.db q threshold evidence now with same | ⟨i, b, opens, backing⟩
      · exact (changed same).elim
      · refine .reached rfl (shows_filed (b := (b.addAll i evidence).counted) opens backing (fun r hr => ?_) found watching
          found' proposed)
        obtain ⟨r₀, hr₀, rfl⟩ := Backing.mem_update.mp hr
        exact ⟨r₀, by rwa [Backing.proposal_addAll] at hr₀, rfl⟩
    case isFalse => cases hs
  case gather q threshold now =>
    rw [step] at hs
    split at hs
    case isTrue =>
      cases hs
      rcases Db.upsertCounted_cases s.db q threshold now with same | ⟨i, b, opens, backing⟩
      · exact (changed same).elim
      · exact .reached rfl (shows_filed opens backing (fun r hr => ⟨r, hr, rfl⟩) found watching found' proposed)
    case isFalse => cases hs
  case guide a =>
    rw [step] at hs
    split at hs
    case isTrue ok =>
      obtain ⟨db, hdb, rfl⟩ := Option.map_eq_some_iff.mp hs
      exact shows_guide (Db.touches_step hdb) ok found watching found' proposed
    case isFalse => cases hs
  case decideFacts ids accept now =>
    cases hs
    have closed : (if accept then ProposalStatus.accepted else .rejected).isOpen = false := by cases accept <;> rfl
    have unshown : ∀ q ∈ (s.db.backing p.id).proposal, q.status ≠ .proposed := fun q hq => by
      obtain rfl := Option.mem_unique found hq
      rw [watching]
      nofun
    exact absurd proposed (not_shown_decide closed unshown p' found')
  case undoFacts n =>
    obtain ⟨c, hc, rfl⟩ := Option.map_eq_some_iff.mp hs
    exact shows_replay true (congrArg (Option.map _) hc) found watching found' proposed
  case redoFacts n =>
    obtain ⟨c, hc, rfl⟩ := Option.map_eq_some_iff.mp hs
    exact shows_replay false (congrArg (Option.map _) hc) found watching found' proposed

end Reviews

-- Proposals that count pairs: those of the guide, and any that a pair is behind.
def Db.EvidenceBacked (db : Db) (p : ProposalRow) : Prop :=
  p.target = .guide ∨ db.pairsOf p.id ≠ []

-- In every run: a pair left out and put back leaves the proposals as they were, but for those that show again; support
-- counts the pairs; and a watched proposal shows when its support has reached the threshold, or as what an Undo or a
-- Redo puts back.
theorem Reviews.reachable_put_back [Unicode] {s : Reviews} (h : reviews.Reachable (fun _ _ => True) s) :
    (∀ pair, PutBack pair s.db ((s.db.dropPair pair).1.restorePair (s.db.dropPair pair).2)) ∧
    (∀ p ∈ s.db.proposals, s.db.EvidenceBacked p → p.support = (s.db.pairsOf p.id).length) ∧
    ∀ a s', s.step a = some s' → ∀ p ∈ s.db.proposals, p.status = .watching →
      ∀ p' ∈ s'.db.proposals, p'.id = p.id → p'.status = .proposed → s.Shows a p p' := by
  have inv := inv_of_reachable h
  refine ⟨Db.putBack_again inv.sound, fun p hp backed => ?_, fun a s' hs p hp watching p' hp' same proposed =>
    shows_of_step hs hp watching hp' same proposed⟩
  have found : p ∈ (s.db.backing p.id).proposal := Table.find?_key hp
  have guide : p.target = .guide := by
    rcases backed with guide | pairs
    · exact guide
    · have ⟨q, hq, guide⟩ := (inv.sound p.id).backed fun nil => pairs (List.map_eq_nil_iff.mpr nil)
      exact Option.mem_unique found hq ▸ guide
  rw [Db.length_pairsOf]
  exact (inv.sound p.id).support p found guide

-- Two pairs show a proposal, and both are ignored.
def shortReplies : ProposalRow := { op := .add, category := "B2", statement := "Keep it short", matchKey := "add B2 short" }

def ignoredTwice : List Reviews.Action := [
  .propose shortReplies 2 [{ compositionId := 1 }, { compositionId := 2 }] 10,
  .guide (.edit [] "analysis ignore" (some (.ignorePair 1)) 20),
  .guide (.edit [] "analysis ignore" (some (.ignorePair 2)) 30)]

theorem reachable_run [Unicode] {actions : List Reviews.Action} {s : Reviews}
    (ran : reviews.run (fun _ _ => True) {} actions = some s) : reviews.Reachable (fun _ _ => True) s :=
  .run (.start rfl) ran

theorem ignoredTwice_put_back : ∃ s, (@reviews ascii).run (fun _ _ => True) {} ignoredTwice = some s ∧
    (∀ pair, PutBack pair s.db ((s.db.dropPair pair).1.restorePair (s.db.dropPair pair).2)) ∧
    ∀ p ∈ s.db.proposals, s.db.EvidenceBacked p → p.support = (s.db.pairsOf p.id).length :=
  have result := @Reviews.reachable_put_back ascii _ (@reachable_run ascii ignoredTwice _ rfl)
  ⟨_, rfl, result.left, result.right.left⟩

-- Undoing the second shows the proposal with one pair, though the threshold is two.
theorem shown_short_of_threshold : ∃ s, (@reviews ascii).run (fun _ _ => True) {} ignoredTwice = some s ∧
    (s.db.proposals.find? 1).map (fun p => (p.status, p.support)) = some (.watching, 0) ∧
    ((@Reviews.step ascii s (.guide (.undo 2))).bind (·.db.proposals.find? 1)).map (fun p => (p.status, p.support)) =
      some (.proposed, 1) :=
  ⟨_, rfl, rfl, rfl⟩

end Kaluta.Guide
