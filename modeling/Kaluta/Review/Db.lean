import Kaluta.Lib.Fallible
import Kaluta.Lib.Table
import Kaluta.Store.Basic
import Mathlib.Data.List.Sort

-- What the daily review keeps of an account: its runs, the pairs that each of them took, the records of what AI
-- wrote, and the health of the guide's entries.
namespace Kaluta.Review

abbrev RunId         := Nat
abbrev CompositionId := Nat
abbrev EntryId       := Nat
abbrev Day           := String -- The local calendar day, YYYY-MM-DD.

-- Pairs per agent turn.
def COMPARE_BATCH : Nat := 10

-- Pairs compared a day unless the user changes it.
def DEFAULT_PAIRS_PER_DAY : Nat := 50

-- Drafts this close to what was sent count as sent as written; distances are in thousandths.
def UNCHANGED : Nat := 50

inductive RunStatus
  | running
  | paused
  | done
  | cancelled
  | failed
  deriving DecidableEq

def RunStatus.isActive : RunStatus → Bool
  | .running | .paused            => true
  | .done | .cancelled | .failed  => false

structure RunRow where
  id     : RunId
  day    : Day
  daily  : Bool -- Started by the day's schedule rather than Run Now.
  status : RunStatus := .running
  error  : Option String := none
  deriving DecidableEq

structure RunPair where
  runId         : RunId
  compositionId : CompositionId
  batch         : Nat
  done          : Bool := false
  deriving DecidableEq

inductive CompositionStatus
  | waiting
  | matched
  | unmatched
  | discarded
  | reviewed
  deriving DecidableEq

-- An AI composition; once it is matched, a pair with what the user sent.
structure Composition where
  id        : CompositionId
  createdAt : Millis
  status    : CompositionStatus := .waiting
  distance  : Nat := 0
  texts     : Bool := true -- Its texts are still kept.
  deriving DecidableEq

-- Drafts that applied an entry: sent as written, or changed against it.
structure Health where
  entryId    : EntryId
  unchanged  : Nat
  overridden : Nat
  deriving DecidableEq

structure Db where
  runs         : Table RunRow (·.id) := ∅
  runPairs     : Table RunPair (fun p => (p.runId, p.compositionId)) := ∅
  compositions : Table Composition (·.id) := ∅
  health       : Table Health (·.entryId) := ∅
  dailyReview  : Bool := true
  pairsPerDay  : Option Nat := none

namespace Db

def getRun (db : Db) (run : RunId) : Option RunRow :=
  db.runs.find? run

-- The run in progress, if any: the newest that is running or paused.
def activeRun (db : Db) : Option RunRow :=
  (db.runs.rows.filter (·.status.isActive)).maxOn? (·.id)

def ranOn (db : Db) (day : Day) : Bool :=
  db.runs.rows.any fun r => r.day = day ∧ r.daily

def pairsOf (db : Db) (run : RunId) (batch : Nat) : List CompositionId :=
  (db.runPairs.rows.filter fun p => p.runId = run ∧ p.batch = batch).map (·.compositionId)

-- The next batch not yet compared: its number and compositions.
def nextBatch (db : Db) (run : RunId) : Option (Nat × List CompositionId) :=
  let batch := ((db.runPairs.rows.filter fun p => p.runId = run ∧ ¬p.done).map (·.batch)).min?
  batch.map fun batch => (batch, (db.pairsOf run batch).insertionSort (· ≤ ·))

def pairsTakenOn (db : Db) (day : Day) : Nat :=
  db.runPairs.count fun p => (db.getRun p.runId).any (·.day = day)

def oldestFirst (a b : Composition) : Prop :=
  a.createdAt < b.createdAt ∨ a.createdAt = b.createdAt ∧ a.id ≤ b.id

instance : DecidableRel oldestFirst :=
  fun _ _ => inferInstanceAs (Decidable (_ ∨ _))

-- A matched pair that the user changed, and that no run has taken.
def isToCompare (db : Db) (c : Composition) : Bool :=
  c.status = .matched ∧ UNCHANGED < c.distance ∧ ∀ p ∈ db.runPairs.rows, p.compositionId ≠ c.id

-- What a run compares, oldest first.
def pairsToCompare (db : Db) (limit : Nat) : List CompositionId :=
  (((db.compositions.rows.filter db.isToCompare).insertionSort oldestFirst).map (·.id)).take limit

-- Matched pairs sent as written.
def unchangedPairs (db : Db) : List CompositionId :=
  ((db.compositions.rows.filter fun c => c.status = .matched ∧ c.distance ≤ UNCHANGED).insertionSort oldestFirst).map
    (·.id)

def insertRun (db : Db) (day : Day) (daily : Bool) : Db × RunId :=
  ({ db with runs := db.runs.insertRow ({ id := ·, day, daily }) fun _ => rfl }, db.runs.nextRowid)

def insertPairs (db : Db) (run : RunId) (pairs : List CompositionId) : Db :=
  { db with
    runPairs := pairs.zipIdx.foldl
      (fun t p => t.insertOrIgnore { runId := run, compositionId := p.1, batch := p.2 / COMPARE_BATCH }) db.runPairs }

def createRun (db : Db) (day : Day) (daily : Bool) (pairs : List CompositionId) : Db × RunId :=
  let (db, run) := db.insertRun day daily
  (db.insertPairs run pairs, run)

def setRunStatus (db : Db) (run : RunId) (status : RunStatus) (error : Option String) : Db :=
  { db with runs := db.runs.update (·.id = run) ({ · with status, error }) fun _ => rfl }

def markReviewed (db : Db) (ids : List CompositionId) : Db :=
  { db with compositions := db.compositions.update (·.id ∈ ids) ({ · with status := .reviewed }) fun _ => rfl }

-- A batch was compared: its compositions are reviewed.
def finishBatch (db : Db) (run : RunId) (batch : Nat) : Db :=
  let db := db.markReviewed (db.pairsOf run batch)
  { db with
    runPairs := db.runPairs.update (fun p => p.runId = run ∧ p.batch = batch) ({ · with done := true }) fun _ => rfl }

-- Gives a stopped run's pairs not compared back to the next review.
def releasePairs (db : Db) (run : RunId) : Db :=
  { db with runPairs := db.runPairs.delete fun p => p.runId = run ∧ ¬p.done }

def addHealth (db : Db) (entry : EntryId) (unchanged overridden : Nat) : Db :=
  { db with
    health := db.health.upsert { entryId := entry, unchanged, overridden }
      (fun h => { h with unchanged := h.unchanged + unchanged, overridden := h.overridden + overridden }) fun _ => rfl }

def composition? (db : Db) (id : CompositionId) : Option Composition :=
  db.compositions.find? id

def insertComposition (db : Db) (createdAt : Millis) : Db :=
  { db with compositions := db.compositions.insertRow ({ id := ·, createdAt }) fun _ => rfl }

-- The record became a message the user sent, that far from the AI's text.
def setMatched (db : Db) (id : CompositionId) (distance : Nat) : Db :=
  { db with
    compositions := db.compositions.update (fun c => c.id = id ∧ c.status = .waiting)
      ({ · with status := .matched, distance }) fun _ => rfl }

def setUnmatched (db : Db) (id : CompositionId) : Db :=
  { db with
    compositions := db.compositions.update (fun c => c.id = id ∧ c.status = .waiting)
      ({ · with status := .unmatched }) fun _ => rfl }

def draftGone (db : Db) (id : CompositionId) : Db :=
  { db with
    compositions := db.compositions.update (fun c => c.id = id ∧ c.status = .waiting)
      ({ · with status := .discarded }) fun _ => rfl }

-- What the user sent is found for waiting records, or given up on.
def matchAll (db : Db) (found : List (CompositionId × Option Nat)) : Db :=
  found.foldl (fun db f => f.2.elim (db.setUnmatched f.1) (db.setMatched f.1)) db

-- Clears the texts of records that were reviewed, or given up on, long enough ago.
def purge (db : Db) (old : List CompositionId) : Db :=
  { db with
    compositions := db.compositions.update
      (fun c => c.id ∈ old ∧ c.status ≠ .matched ∧ c.status ≠ .waiting) ({ · with texts := false }) fun _ => rfl }

section Frame

variable {db : Db}

@[simp] theorem setRunStatus_runPairs : (db.setRunStatus run status error).runPairs = db.runPairs := rfl
@[simp] theorem setRunStatus_compositions : (db.setRunStatus run status error).compositions = db.compositions := rfl
@[simp] theorem markReviewed_runs : (db.markReviewed ids).runs = db.runs := rfl
@[simp] theorem markReviewed_runPairs : (db.markReviewed ids).runPairs = db.runPairs := rfl
@[simp] theorem finishBatch_runs : (db.finishBatch run batch).runs = db.runs := rfl
@[simp] theorem releasePairs_runs : (db.releasePairs run).runs = db.runs := rfl
@[simp] theorem releasePairs_compositions : (db.releasePairs run).compositions = db.compositions := rfl
@[simp] theorem insertPairs_runs : (db.insertPairs run pairs).runs = db.runs := rfl
@[simp] theorem insertPairs_compositions : (db.insertPairs run pairs).compositions = db.compositions := rfl

-- Support moves outside the runs and the records.
theorem foldl_addHealth_frame (db : Db) (entry : α → EntryId) (unchanged overridden : Nat) (as : List α) :
    let db' := as.foldl (fun db a => db.addHealth (entry a) unchanged overridden) db
    db'.runs = db.runs ∧ db'.runPairs = db.runPairs ∧ db'.compositions = db.compositions :=
  List.foldl_preserves (P := fun db' : Db => db'.runs = db.runs ∧ db'.runPairs = db.runPairs ∧
    db'.compositions = db.compositions) (fun _ _ h => h) ⟨rfl, rfl, rfl⟩

theorem matchAll_frame (db : Db) (found : List (CompositionId × Option Nat)) :
    (db.matchAll found).runs = db.runs ∧ (db.matchAll found).runPairs = db.runPairs := by
  refine List.foldl_preserves (P := fun db' : Db => db'.runs = db.runs ∧ db'.runPairs = db.runPairs) ?_ ⟨rfl, rfl⟩
  intro db' f _ h
  cases f.2
  case none   => exact h
  case some _ => exact h

end Frame

end Db

end Kaluta.Review
