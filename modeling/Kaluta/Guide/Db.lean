import Kaluta.Guide.Entry
import Kaluta.Lib.Fallible
import Kaluta.Lib.Table
import Mathlib.Data.List.Sort

-- The guide as an account's store has it: entries with their evidence, the log of changes, the versions of the
-- accepted guide, audience groups, and the proposals that reviews made.
namespace Kaluta.Guide

abbrev ChangeId      := Nat
abbrev GroupId       := Nat
abbrev ProposalId    := Nat
abbrev CompositionId := Nat

structure Evidence extends EvidenceRow where
  entryId : EntryId
  deriving DecidableEq

inductive GroupStatus
  | suggested
  | confirmed
  | rejected
  deriving DecidableEq

structure GroupRow where
  id          : GroupId := 0
  name        : String
  status      : GroupStatus
  description : String := ""
  position    : Nat := 0
  members     : List String := [] -- Addresses, or `@domain`.
  deriving DecidableEq

inductive ProposalTarget
  | guide
  | fact
  deriving DecidableEq

inductive ProposalOp
  | add
  | edit
  | rescope
  | remove
  deriving DecidableEq

inductive ProposalStatus
  | watching
  | proposed
  | accepted
  | rejected
  deriving DecidableEq

def ProposalStatus.isOpen : ProposalStatus → Bool
  | .watching | .proposed => true
  | .accepted | .rejected => false

structure ProposalRow where
  id        : ProposalId := 0
  target    : ProposalTarget := .guide
  op        : ProposalOp
  entryId   : Option EntryId := none
  category  : String
  kind      : Option Kind := none
  statement : String := ""
  scope     : Scope := {}
  matchKey  : String -- What makes two proposals the same one.
  status    : ProposalStatus := .watching
  support   : Nat := 0
  updatedAt : Millis := 0
  shownAt   : Option Millis := none
  decidedAt : Option Millis := none
  deriving DecidableEq

-- A pair behind a proposal: what was sent, and what AI had written.
structure PairRow where
  compositionId : CompositionId
  sentQuote     : String := ""
  aiQuote       : String := ""
  deriving DecidableEq

structure Pair extends PairRow where
  proposalId : ProposalId
  deriving DecidableEq

structure ProposalSnapshot where
  proposal : ProposalRow
  evidence : List PairRow
  deriving DecidableEq

-- What a guide change recorded for the reviews' proposals: those it decided, or the pair it left out with the
-- evidence that it removed.
inductive AnalysisRecord
  | proposals (snapshots : List ProposalSnapshot)
  | ignored (pair : CompositionId) (removed : List (ProposalId × PairRow))
  deriving DecidableEq

structure Change where
  id       : ChangeId
  reason   : String
  before   : List Snapshot
  after    : List Snapshot
  analysis : Option (AnalysisRecord × AnalysisRecord) := none
  deriving DecidableEq

structure Version where
  id      : Nat
  reason  : String
  entries : List EntryRow
  deriving DecidableEq

structure Db where
  entries     : Table EntryRow (·.id) := ∅
  evidence    : Table Evidence (fun e => (e.entryId, e.messageId, e.quote)) := ∅
  lastEntryId : EntryId := 0
  groups      : Table GroupRow (·.id) := ∅
  proposals   : Table ProposalRow (·.id) := ∅
  pairs       : Table Pair (fun p => (p.proposalId, p.compositionId)) := ∅
  changes     : List Change := []  -- Newest first.
  versions    : List Version := [] -- Newest first.

namespace Db

def getEntry (db : Db) (id : EntryId) : Option EntryRow :=
  db.entries.find? id

-- Entries by category, then age.
def inOrder (e₁ e₂ : EntryRow) : Prop :=
  e₁.category < e₂.category ∨ e₁.category = e₂.category ∧ e₁.id ≤ e₂.id

instance : DecidableRel inOrder :=
  fun _ _ => inferInstanceAs (Decidable (_ ∨ _))

-- Entries with any of the statuses, all when there are none.
def listEntries (db : Db) (statuses : List Status) : List EntryRow :=
  (db.entries.rows.insertionSort inOrder).filter fun e => statuses = [] ∨ e.status ∈ statuses

def accepted (db : Db) : List EntryRow :=
  db.listEntries [.accepted]

-- The oldest entry of a category with this normalised statement.
def findByNorm [Unicode] (db : Db) (category statement : String) : Option EntryRow :=
  ((db.entries.rows.insertionSort (·.id ≤ ·.id)).filter fun e =>
    e.category = category ∧ norm e.statement = norm statement).head?

def evidenceOf (db : Db) (id : EntryId) : List EvidenceRow :=
  (db.evidence.rows.filter (·.entryId = id)).map (·.toEvidenceRow)

def lastId (db : Db) : EntryId :=
  max (db.entries.nextRowid - 1) db.lastEntryId

-- Inserts an entry with a new id when it has none. New ids are never an id used before, even by a deleted entry:
-- undo brings deleted entries back by their id.
def insertEntry (db : Db) (e : EntryRow) : Except String (Db × EntryId) :=
  let id := if e.id = 0 then db.lastId + 1 else e.id
  match db.entries.insert? { e with id } with
  | none         => throw "UNIQUE constraint failed: guide_entries.id"
  | some entries => pure ({ db with entries, lastEntryId := max db.lastId id }, id)

-- Writes every column of an existing entry.
def writeEntry (db : Db) (e : EntryRow) : Db :=
  { db with entries := db.entries.update (·.id = e.id) (fun old => { e with id := old.id }) fun _ => rfl }

-- Evidence goes with its entry.
def deleteEntry (db : Db) (id : EntryId) : Db :=
  { db with entries := db.entries.delete (·.id = id), evidence := db.evidence.delete (·.entryId = id) }

-- How many messages there are quotes of.
def distinct (quotes : List EvidenceRow) : Nat :=
  (quotes.map (·.messageId)).dedup.length

def recount (db : Db) (id : EntryId) : Db :=
  let quotes := db.evidenceOf id
  { db with
    entries := db.entries.update (·.id = id)
      ({ · with
        support    := distinct (quotes.filter (!·.contradicts))
        contradict := distinct (quotes.filter (·.contradicts)) }) fun _ => rfl }

-- Adds quotes, repeats ignored, and recounts the entry's support and contradiction from distinct messages.
def addEvidence (db : Db) (id : EntryId) (quotes : List EvidenceRow) : Db :=
  let evidence := quotes.foldl (fun t q => t.insertOrIgnore { q with entryId := id }) db.evidence
  { db with evidence }.recount id

def snapshot (db : Db) (id : EntryId) : Option Snapshot :=
  (db.getEntry id).map fun entry => { entry, evidence := db.evidenceOf id }

-- Counts may include messages whose quotes were not kept: never fewer than these.
def raise (db : Db) (id : EntryId) (support contradict : Nat) : Db :=
  { db with
    entries := db.entries.update (·.id = id)
      (fun e => { e with support := max e.support support, contradict := max e.contradict contradict }) fun _ => rfl }

def restoreOne (snapshots : List Snapshot) (db : Db) (id : EntryId) : Except String Db :=
  match snapshots.find? (·.entry.id = id) with
  | some s => do
    let now := db.getEntry id
    let written ← if now.isSome then pure (db.writeEntry s.entry) else (·.1) <$> db.insertEntry s.entry
    pure ((written.addEvidence id s.evidence).raise id (max ((now.map (·.support)).getD 0) s.entry.support)
      (max ((now.map (·.contradict)).getD 0) s.entry.contradict))
  | none => pure (db.deleteEntry id)

-- Makes the entries as in the snapshots: written back when present, deleted when not.
def restore (db : Db) (ids : List EntryId) (snapshots : List Snapshot) : Except String Db :=
  ids.foldlM (restoreOne snapshots) db

-- The last changes that are kept.
def CHANGES_KEPT : Nat := 200

def recordChange (db : Db) (reason : String) (before after : List Snapshot)
    (analysis : Option (AnalysisRecord × AnalysisRecord)) : Db × ChangeId :=
  let id := (db.changes.head?.map (·.id)).getD 0 + 1
  ({ db with changes := ({ id, reason, before, after, analysis } :: db.changes).filter fun c => id < c.id + CHANGES_KEPT },
   id)

def getChange (db : Db) (id : ChangeId) : Option Change :=
  db.changes.find? (·.id = id)

-- The latest version number, 0 before the first.
def currentVersion (db : Db) : Nat :=
  (db.versions.head?.map (·.id)).getD 0

-- Saves the accepted guide as a new version.
def recordVersion (db : Db) (reason : String) : Db × Nat :=
  let id := db.currentVersion + 1
  ({ db with versions := { id, reason, entries := db.accepted } :: db.versions }, id)

-- Adds a group or updates the one of that name, in any case; its members are replaced.
def saveGroup [Unicode] (db : Db) (g : GroupRow) : Db :=
  let members := (g.members.map (toLowercase <| trim ·)).dedup.insertionSort (· ≤ ·)
  match db.groups.rows.find? (eqIgnoreAsciiCase ·.name g.name) with
  | none     => { db with groups := db.groups.insertRow ({ g with id := ·, members }) fun _ => rfl }
  | some old =>
    { db with
      groups := db.groups.update (·.id = old.id)
        ({ · with status := g.status, description := g.description, position := g.position, members }) fun _ => rfl }

def listGroups (db : Db) : List GroupRow :=
  db.groups.rows.insertionSort fun g₁ g₂ => g₁.position < g₂.position ∨ g₁.position = g₂.position ∧ g₁.id ≤ g₂.id

def renameGroup (db : Db) (id : GroupId) (name : String) : Except String Db :=
  if db.groups.rows.any fun g => g.id ≠ id ∧ eqIgnoreAsciiCase g.name name then
    throw "UNIQUE constraint failed: audience_groups.name"
  else
    pure { db with groups := db.groups.update (·.id = id) ({ · with name }) fun _ => rfl }

def deleteGroup (db : Db) (id : GroupId) : Db :=
  { db with groups := db.groups.delete (·.id = id) }

-- The pairs behind a proposal.
def pairsOf (db : Db) (id : ProposalId) : List PairRow :=
  (db.pairs.rows.filter (·.proposalId = id)).map (·.toPairRow)

def setProposalStatus (db : Db) (now : Millis) (status : ProposalStatus) (id : ProposalId) : Db :=
  let decidedAt := if status = .accepted ∨ status = .rejected then some now else none
  { db with
    proposals := db.proposals.update (·.id = id) ({ · with status, decidedAt, updatedAt := now }) fun _ => rfl }

def snapshotProposal (db : Db) (id : ProposalId) : Option ProposalSnapshot :=
  (db.proposals.find? id).map fun proposal => { proposal, evidence := db.pairsOf id }

def insertPairs (db : Db) (id : ProposalId) (rows : List PairRow) : Db :=
  { db with pairs := rows.foldl (fun t r => t.insertOrIgnore { r with proposalId := id }) db.pairs }

def putSnapshot (db : Db) (s : ProposalSnapshot) : Db :=
  { db with
    proposals := db.proposals.replace s.proposal
    pairs     := db.pairs.delete (·.proposalId = s.proposal.id) }.insertPairs s.proposal.id s.evidence

-- Puts proposals back as the snapshots have them.
def restoreProposals (db : Db) (snapshots : List ProposalSnapshot) : Db :=
  snapshots.foldl putSnapshot db

def countPairs (db : Db) (id : ProposalId) : Db :=
  { db with
    proposals := db.proposals.update (·.id = id) ({ · with support := (db.pairsOf id).length }) fun _ => rfl }

-- Shows a proposal that has reached its threshold.
def shownFrom (db : Db) (id : ProposalId) (threshold : Nat) (now : Millis) : Db :=
  { db with
    proposals := db.proposals.update (fun r => r.id = id ∧ r.status = .watching ∧ max threshold 1 ≤ r.support)
      ({ · with status := .proposed, shownAt := some now }) fun _ => rfl }

-- Adds a proposal, or more evidence for the same one; one already decided is not raised again. It shows once its
-- pairs reach the threshold.
def upsertProposal (db : Db) (p : ProposalRow) (threshold : Nat) (evidence : List PairRow) (now : Millis) : Db :=
  let filed (id : ProposalId) (db : Db) : Db :=
    ((db.insertPairs id evidence).countPairs id).shownFrom id threshold now
  match db.proposals.rows.find? fun r => r.target = p.target ∧ r.matchKey = p.matchKey with
  | none   =>
    filed db.proposals.nextRowid
      { db with proposals := db.proposals.insertRow ({ p with id := ·, status := .watching, support := 0, updatedAt := now,
                                                              shownAt := none, decidedAt := none }) fun _ => rfl }
  | some r =>
    if r.status.isOpen then
      filed r.id { db with proposals := db.proposals.update (·.id = r.id) ({ · with updatedAt := now }) fun _ => rfl }
    else db

-- Open proposals a pair is evidence for.
def pairProposals (db : Db) (pair : CompositionId) : List ProposalId :=
  ((db.proposals.rows.filter fun p =>
    p.status.isOpen ∧ ∃ e ∈ db.pairs.rows, e.proposalId = p.id ∧ e.compositionId = pair).map (·.id)).insertionSort (· ≤ ·)

-- Takes a pair out of one proposal; with nothing left behind it, the proposal is back to watching.
def dropFrom (pair : CompositionId) (db : Db) (id : ProposalId) : Db :=
  let db := { db with pairs := db.pairs.delete fun e => e.proposalId = id ∧ e.compositionId = pair }.countPairs id
  { db with
    proposals := db.proposals.update (fun p => p.id = id ∧ p.support = 0) ({ · with status := .watching }) fun _ => rfl }

-- Leaves one pair out of every open proposal, with the evidence that this removes.
def dropPair (db : Db) (pair : CompositionId) : Db × List (ProposalId × PairRow) :=
  let ids := db.pairProposals pair
  (ids.foldl (dropFrom pair) db,
   ids.filterMap fun id => ((db.pairsOf id).find? (·.compositionId = pair)).map (id, ·))

-- What a pair put back does to its proposal.
def putBack (db : Db) (r : ProposalId × PairRow) : Db :=
  let db := (db.insertPairs r.1 [r.2]).countPairs r.1
  { db with
    proposals := db.proposals.update (fun p => p.id = r.1 ∧ p.status = .watching ∧ p.shownAt.isSome)
      ({ · with status := .proposed }) fun _ => rfl }

-- Puts that evidence back; a proposal shown before shows again.
def restorePair (db : Db) (removed : List (ProposalId × PairRow)) : Db :=
  removed.foldl putBack db

end Db

end Kaluta.Guide
