import Kaluta.Guide.Versions

-- Deciding what reviews propose: a call reads the proposals, then the entries, and then makes one change of what it
-- made of them; any other call may come in between.
namespace Kaluta.Guide

-- The guide edit that accepting a proposal makes, with its fields when the user edited it first; none when its
-- entry has gone.
def editFor (p : ProposalRow) (entries : List EntryRow) (fields : Option Fields) : Option Edit :=
  let old := p.entryId.bind fun id => entries.find? (·.id = id)
  let proposed : Fields :=
    { category := p.category, kind := p.kind.getD .guideline, statement := p.statement, scope := p.scope }
  match p.op with
  | .add            => some (.add (fields.getD proposed) .accepted .learned (some "analysis"))
  | .edit | .rescope => old.map fun old => .update old.id (fields.getD { proposed with check := old.check })
  | .remove         => old.map fun old => .delete old.id

-- An edit sets the statement and kind, a rescope the scope, and a removal wins over both.
def amend (p : ProposalRow) : Option Fields → Option Fields
  | none        => none
  | some fields =>
    match p.op with
    | .add     => some fields
    | .edit    => some { fields with statement := p.statement, kind := p.kind.getD fields.kind }
    | .rescope => some { fields with scope := p.scope }
    | .remove  => none

-- What accepting proposals comes to: new entries, what becomes of others, and the proposals this decides.
structure Decision where
  adds    : List Edit := []
  slots   : Table (EntryId × Option Fields) (·.1) := ∅
  decided : List ProposalId := []

namespace Decision

def consider (accept : Bool) (entries : List EntryRow) (d : Decision) (p : ProposalRow) : Decision :=
  if !accept then
    { d with decided := d.decided ++ [p.id] }
  else if p.op = .add then
    { d with adds := d.adds ++ (editFor p entries none).toList, decided := d.decided ++ [p.id] }
  else
    match p.entryId.bind fun id => entries.find? (·.id = id) with
    | none         => d -- Its entry has gone: nothing to accept.
    | some current =>
      { d with
        slots := d.slots.upsert (current.id, amend p (some current.toFields)) (fun slot => (slot.1, amend p slot.2))
          fun _ => rfl
        decided := d.decided ++ [p.id] }

def slotEdit : EntryId × Option Fields → Edit
  | (id, some fields) => .update id fields
  | (id, none)        => .delete id

def edits (d : Decision) : List Edit :=
  d.adds ++ (d.slots.rows.insertionSort (·.1 ≤ ·.1)).map slotEdit

end Decision

def decision (rows : List ProposalRow) (accept : Bool) (entries : List EntryRow) : Decision :=
  rows.foldl (Decision.consider accept entries) {}

-- A call's change, with the proposals that it read.
structure Decided where
  rows    : List ProposalRow
  edits   : List Edit
  decided : List ProposalId
  status  : ProposalStatus
  reason  : String

-- The proposals of new entries among those that a change accepts.
def Decided.adds (d : Decided) : List ProposalId :=
  if d.status = .accepted then (d.rows.filter (·.op = .add)).map (·.id) else []

namespace Db

-- Only open guide proposals: a double Return or a stale list does not accept one twice.
def openProposals (db : Db) (ids : List ProposalId) : List ProposalRow :=
  (ids.filterMap db.proposals.find?).filter fun p => p.target = .guide ∧ p.status.isOpen

def decideRows (db : Db) (rows : List ProposalRow) (accept : Bool) : Option Decided :=
  let d := decision rows accept db.accepted
  let (status, reason) := if accept then (.accepted, "analysis accept") else (.rejected, "analysis reject")
  if d.decided.isEmpty then none else some { rows, edits := d.edits, decided := d.decided, status, reason }

def acceptEdited (db : Db) (p : ProposalRow) (fields : Fields) : Option Decided :=
  (editFor p db.accepted (some fields)).map fun edit =>
    { rows := [p], edits := [edit], decided := [p.id], status := .accepted, reason := "analysis accept edited" }

def writeDecided [Unicode] (db : Db) (d : Decided) (now : Millis) : Except String (Db × GuideChange) :=
  db.applyEditsWith d.edits d.reason (some (.decide d.decided d.status)) now

-- Accepts or rejects proposals while nothing else is done.
def decideAnalysisProposals [Unicode] (db : Db) (ids : List ProposalId) (accept : Bool) (now : Millis) :
    Except String (Db × GuideChange) :=
  if ids.isEmpty then throw "nothing to decide"
  else match db.decideRows (db.openProposals ids) accept with
    | none   => throw "the entry this changes is no longer in your guide"
    | some d => db.writeDecided d now

end Db

-- What a call in flight has read.
inductive Call
  | proposals (rows : List ProposalRow) (accept : Bool)
  | edited (p : ProposalRow) (fields : Fields)
  | ready (d : Decided)

structure Deciding where
  db       : Db := {}
  calls    : List Call := []
  standing : List ProposalId := []                -- What was decided, and not undone since.
  written  : List (List ProposalId × Nat) := []   -- Of each change, the adds it accepted and how many entries it made.

namespace Deciding

inductive Action
  | decide (ids : List ProposalId) (accept : Bool)
  | acceptEdited (id : ProposalId) (fields : Fields)
  | readEntries (call : Nat)
  | write (call : Nat) (now : Millis)
  | abandon (call : Nat)
  | undo (id : ChangeId)
  | redo (id : ChangeId)
  | propose (p : ProposalRow) (threshold : Nat) (evidence : List PairRow) (now : Millis)
  | other (a : Guide.Action)

-- What else is done to the guide: neither a decision of proposals nor a replay.
def isOther : Guide.Action → Bool
  | .edit _ _ (some (.decide _ _)) _ | .undo _ | .redo _ => false
  | _                                                    => true

-- The proposals that a change decided.
def decidedBy (db : Db) (id : ChangeId) : List ProposalId :=
  match (db.getChange id).bind (·.analysis) with
  | some (.proposals was, _) => was.map (·.proposal.id)
  | _                        => []

-- Entries that have an id which none had before.
def newEntries (db db' : Db) : Nat :=
  db'.entries.count fun e => db.lastEntryId < e.id

def write [Unicode] (s : Deciding) (d : Decided) (now : Millis) : Option Deciding :=
  (s.db.writeDecided d now).toOption.map fun (db, _) =>
    { s with db, standing := d.decided ++ s.standing, written := (d.adds, newEntries s.db db) :: s.written }

def step [Unicode] (s : Deciding) : Action → Option Deciding
  | .decide ids accept      => some { s with calls := .proposals (s.db.openProposals ids) accept :: s.calls }
  | .acceptEdited id fields =>
    (s.db.proposals.find? id).map fun p => { s with calls := .edited p fields :: s.calls }
  | .readEntries n          =>
    match s.calls[n]? with
    | some (.proposals rows accept) =>
      (s.db.decideRows rows accept).map fun d => { s with calls := s.calls.set n (.ready d) }
    | some (.edited p fields)       =>
      (s.db.acceptEdited p fields).map fun d => { s with calls := s.calls.set n (.ready d) }
    | _                             => none
  | .write n now            =>
    match s.calls[n]? with
    | some (.ready d) => { s with calls := s.calls.eraseIdx n }.write d now
    | _               => none
  | .abandon n              => some { s with calls := s.calls.eraseIdx n }
  | .undo id                =>
    (s.db.replayChange id true).toOption.map fun db =>
      { s with db, standing := s.standing.filter (· ∉ decidedBy s.db id) }
  | .redo id                =>
    (s.db.replayChange id false).toOption.map fun db =>
      { s with db, standing := (decidedBy s.db id).dedup.filter (· ∉ s.standing) ++ s.standing }
  | .propose p threshold evidence now => some { s with db := s.db.upsertProposal p threshold evidence now }
  | .other a                => if isOther a then (s.db.step a).map fun db => { s with db } else none

-- A call names no proposal twice, and what it decides is still open when its change is made.
def cond (s : Deciding) : Action → Bool
  | .write n _ =>
    match s.calls[n]? with
    | some (.ready d) => d.decided.Nodup ∧ ∀ id ∈ d.decided, (s.db.proposals.find? id).any (·.status.isOpen)
    | _               => true
  | _          => true

end Deciding

def deciding [Unicode] : System Deciding Deciding.Action where
  Start s := s = {}
  step    := Deciding.step

end Kaluta.Guide
