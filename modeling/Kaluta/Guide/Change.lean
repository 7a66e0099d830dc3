import Kaluta.Guide.Db

-- Changes to the guide, each made in one transaction and recorded for exact undo.
namespace Kaluta.Guide

inductive Edit
  | add (fields : Fields) (status : Status) (source : Source) (origin : Option String)
  | update (id : EntryId) (fields : Fields)
  | decide (id : EntryId) (status : Status)
  | delete (id : EntryId)
  deriving DecidableEq

-- What a guide change also does to the reviews' proposals: decides some, or leaves a pair out of every open one.
inductive AnalysisStep
  | decide (ids : List ProposalId) (status : ProposalStatus)
  | ignorePair (pair : CompositionId)
  deriving DecidableEq

def Edit.checked [Unicode] : Edit → Except String Edit
  | .add fields status source origin => return .add (← validate fields) status source origin
  | .update id fields                => return .update id (← validate fields)
  | edit                             => return edit

def AnalysisStep.apply (now : Millis) (db : Db) : AnalysisStep → Db × AnalysisRecord × AnalysisRecord
  | .decide ids status =>
    let after := ids.foldl (·.setProposalStatus now status ·) db
    (after, .proposals (ids.filterMap db.snapshotProposal), .proposals (ids.filterMap after.snapshotProposal))
  | .ignorePair pair =>
    let (db, removed) := db.dropPair pair
    (db, .ignored pair removed, .ignored pair removed)

-- A change in the making: the entries it touched, and those of them that were there before its first edit to them.
structure Editing where
  db     : Db
  ids    : List EntryId := []
  before : List Snapshot := []

namespace Editing

def touch (c : Editing) (id : EntryId) : Editing :=
  if id ∈ c.ids then c
  else { c with ids := c.ids ++ [id], before := c.before ++ (c.db.snapshot id).toList }

def rewrite (c : Editing) (id : EntryId) (f : EntryRow → EntryRow) : Except String Editing :=
  match c.db.getEntry id with
  | none     => throw "that entry no longer exists"
  | some row => pure { c with db := c.db.writeEntry (f row) }

def decidedAt (status : Status) (now : Millis) : Option Millis :=
  if status ≠ .proposed then some now else none

def edit (now : Millis) (c : Editing) : Edit → Except String Editing
  | .add fields status source origin => do
    let (db, id) ← c.db.insertEntry
      { toFields := fields, status, source, origin, createdAt := now, updatedAt := now
        decidedAt := decidedAt status now }
    pure { c with db, ids := if id ∈ c.ids then c.ids else c.ids ++ [id] }
  | .update id fields => (c.touch id).rewrite id fun row => { toRow fields row with updatedAt := now }
  | .decide id status =>
    (c.touch id).rewrite id ({ · with status, decidedAt := decidedAt status now, updatedAt := now })
  | .delete id        =>
    let c := c.touch id
    pure { c with db := c.db.deleteEntry id }

def after (c : Editing) : List Snapshot :=
  c.ids.filterMap c.db.snapshot

end Editing

structure GuideChange where
  changeId : ChangeId
  version  : Nat
  entries  : List Snapshot

-- The entries that a change touched.
def Change.ids (c : Change) : List EntryId :=
  (((c.before ++ c.after).map (·.entry.id)).insertionSort (· ≤ ·)).dedup

def anyAccepted (snapshots : List Snapshot) : Bool :=
  snapshots.any (·.entry.status = .accepted)

namespace Db

def applyStep (db : Db) (now : Millis) (step : Option AnalysisStep) :
    Db × Option (AnalysisRecord × AnalysisRecord) :=
  match step with
  | none      => (db, none)
  | some step =>
    let (db, record) := step.apply now db
    (db, some record)

-- Applies edits and a step as one change: recorded for exact undo, with a new version when the accepted guide changed.
def applyEditsWith [Unicode] (db : Db) (edits : List Edit) (reason : String) (step : Option AnalysisStep) (now : Millis) :
    Except String (Db × GuideChange) := do
  if edits.isEmpty ∧ step.isNone then throw "nothing to change"
  let checked ← edits.mapM (·.checked)
  let c ← checked.foldlM (Editing.edit now) { db }
  let (db, analysis) := c.db.applyStep now step
  let (db, changeId) := db.recordChange reason c.before c.after analysis
  let (db, version) := if anyAccepted c.before ∨ anyAccepted c.after then db.recordVersion reason
    else (db, db.currentVersion)
  return (db, { changeId, version, entries := c.after })

def applyEdits [Unicode] (db : Db) (edits : List Edit) (reason : String) (now : Millis) : Except String (Db × GuideChange) :=
  db.applyEditsWith edits reason none now

def replayAnalysis (db : Db) (undo : Bool) : AnalysisRecord → Db
  | .proposals snapshots  => db.restoreProposals snapshots
  | .ignored pair removed => if undo then db.restorePair removed else (db.dropPair pair).1

-- Puts a recorded change's entries back as they were before it, or after it.
def replayChange (db : Db) (id : ChangeId) (undo : Bool) : Except String Db :=
  match db.getChange id with
  | none   => throw "that change can no longer be undone"
  | some c => do
    let db ← db.restore c.ids (if undo then c.before else c.after)
    let db := match c.analysis with
      | none           => db
      | some (was, is) => db.replayAnalysis undo (if undo then was else is)
    -- A change to proposals only leaves the guide as it was.
    let reason := (if undo then "undo " else "redo ") ++ c.reason
    return if c.ids ≠ [] then (db.recordVersion reason).1 else db

end Db

end Kaluta.Guide

-- What learning does to the guide: it merges what each batch found, without an undo.
namespace Kaluta.Guide

structure Proposal where
  fields      : Fields
  supports    : Option EntryId := none
  contradicts : Option EntryId := none
  evidence    : List EvidenceRow

structure Audience where
  name        : String
  description : String
  members     : List String

-- What a batch found.
structure Found where
  proposals : List Proposal
  audiences : List Audience

namespace Db

variable [Unicode]

-- Audiences become suggested groups, or add members to a suggested group of that name.
def mergeAudience (groups : List GroupRow) (db : Db) (a : Audience) : Db :=
  match groups.find? (eqIgnoreAsciiCase ·.name a.name) with
  | some g =>
    let members := g.members ++ (a.members.filter (· ∉ g.members)).reverse.dedup.reverse
    if g.status = .suggested ∧ members ≠ g.members then db.saveGroup { g with members } else db
  | none =>
    db.saveGroup
      { name := a.name, status := .suggested, description := a.description, position := groups.length
        members := a.members }

def insertLearned (db : Db) (p : Proposal) (run : RunId) (contradictionOf : Option EntryId) (now : Millis) :
    Except String Db := do
  let (db, id) ← db.insertEntry
    { toFields := p.fields, status := .proposed, source := .learned, contradictionOf, runId := some run
      createdAt := now, updatedAt := now }
  return db.addEvidence id p.evidence

-- A statement the user rejected is not proposed again; evidence for another is added to it quietly.
def mergeInto (db : Db) (p : Proposal) (target : Option EntryRow) (run : RunId) (contradictionOf : Option EntryId)
    (now : Millis) : Except String (Db × Nat) :=
  match target with
  | none   => return (← db.insertLearned p run contradictionOf now, 1)
  | some e => return (if e.status = .rejected then db else db.addEvidence e.id p.evidence, 0)

def mergeProposal (run : RunId) (now : Millis) (r : Db × Nat) (p : Proposal) : Except String (Db × Nat) := do
  let (db, new) := r
  let same (db : Db) := db.findByNorm p.fields.category p.fields.statement
  match (p.contradicts.bind db.getEntry).filter (·.status = .accepted) with
  | some accepted =>
    -- Mail against an accepted entry counts against it and raises a proposal that contradicts it.
    let db := db.addEvidence accepted.id (p.evidence.map ({ · with contradicts := true }))
    if toLowercase p.fields.statement = toLowercase accepted.statement then return (db, new)
    let (db, n) ← db.mergeInto p (same db) run (some accepted.id) now
    return (db, new + n)
  | none =>
    let supported := (p.supports.bind db.getEntry).filter (·.status ≠ .rejected)
    let (db, n) ← db.mergeInto p (supported.or (same db)) run none now
    return (db, new + n)

-- Merges what a batch found for a run; returns how many proposals were new.
def merge (db : Db) (run : RunId) (found : Found) (now : Millis) : Except String (Db × Nat) :=
  let db := found.audiences.foldl (mergeAudience db.listGroups) db
  found.proposals.foldlM (mergeProposal run now) (db, 0)

end Db

-- Moves the entries that are facts out of the guide, with a version noting it.
def Db.moveGuideFacts (db : Db) : Db × Nat :=
  let rows := db.entries.rows.filter (·.category = "F3")
  let moved := rows.foldl (fun db e => db.deleteEntry e.id) db
  (if rows.any (·.status = .accepted) then (moved.recordVersion "facts moved to Facts").1 else moved, rows.length)

-- A scope that names one group names another instead, or loses the group.
def Scope.rescoped (old : String) (new : Option String) (scope : Scope) : Scope :=
  let others := scope.groups.filter (!eqIgnoreAsciiCase · old)
  { scope with groups := others ++ (new.filter fun new => !others.any (eqIgnoreAsciiCase · new)).toList }

def EntryRow.names (e : EntryRow) (group : String) : Bool :=
  e.scope.groups.any (eqIgnoreAsciiCase · group)

def Edit.rescope (old : String) (new : Option String) (e : EntryRow) : Edit :=
  .update e.id { e.toFields with scope := e.scope.rescoped old new }

-- Entries scoped to a group are scoped to another instead, as one undoable change.
def Db.rescopeGroup [Unicode] (db : Db) (old : String) (new : Option String) (now : Millis) : Except String (Db × Option ChangeId) := do
  let edits := ((db.listEntries []).filter (·.names old)).map (Edit.rescope old new)
  if edits.isEmpty then return (db, none)
  let (db, change) ← db.applyEdits edits s!"group {old}" now
  return (db, some change.changeId)

end Kaluta.Guide
