import Mathlib.Data.List.Sort
import Kaluta.Guide.Entry
import Kaluta.Lib.Execution
import Kaluta.Lib.Table

-- The runs of routines: what each sorted, and what is counted of it.
namespace Kaluta.RoutineRuns

open Guide (eqIgnoreAsciiCase)

abbrev Millis := Int

structure Run where
  id        : Nat
  routine   : String
  inferred  : Bool
  session   : Option String
  startedAt : Millis
  endedAt   : Option Millis := none
  status    : String
  -- The number of threads in each bucket.
  counts    : List (String × Nat) := []
  report    : Option String := none
  undoneAt  : Option Millis := none
  deriving DecidableEq

def Run.count (r : Run) (bucket : String) : Nat :=
  ((r.counts.find? (·.1 = bucket)).map (·.2)).getD 0

-- A thread that a run sorted.
structure RunThread where
  run    : Nat
  thread : String
  bucket : Option String
  deriving DecidableEq

def RunThread.key (t : RunThread) : Nat × String :=
  (t.run, t.thread)

structure Store where
  runs    : Table Run Run.id := ∅
  threads : Table RunThread RunThread.key := ∅

namespace Store

variable (db : Store)

def hasRun (run : Nat) : Bool :=
  db.runs.rows.any (·.id = run)

def updateRun (run : Nat) (f : Run → Run) (hf : ∀ r, (f r).id = r.id) : Store :=
  { db with runs := db.runs.update (·.id = run) f hf }

-- How many threads a run sorted into a bucket.
def sorted (run : Nat) (bucket : String) : Nat :=
  db.threads.count fun t => t.run = run ∧ t.bucket = some bucket

-- The new run's id comes with the store.
def insertRun (mk : Nat → Run) (hmk : ∀ n, (mk n).id = n) : Store × Nat :=
  ({ db with runs := db.runs.insertRow mk hmk }, db.runs.nextRowid)

def startRun (routine : String) (inferred : Bool) (session : Option String) (status : String) (now : Millis) : Store × Nat :=
  db.insertRun (fun id => { id, routine, inferred, session, startedAt := now, status }) fun _ => rfl

def finishRun (run : Nat) (status : String) (counts : List (String × Nat)) (report : Option String) (now : Millis) : Store :=
  db.updateRun run (fun r => { r with status, counts, report := report.or r.report, endedAt := some now }) fun _ => rfl

-- Records which threads a run sorted, and into which bucket. A run that is not there has none.
def addRunThreads (run : Nat) (threads : List (String × Option String)) : Option Store :=
  if threads ≠ [] ∧ ¬db.hasRun run then none
  else some { db with threads := threads.foldl (fun rows (thread, bucket) =>
    rows.upsert { run, thread, bucket } (fun t => { t with bucket }) fun _ => rfl) db.threads }

def upsertCloudRun (routine session status : String) (startedAt : Millis) (endedAt : Option Millis) : Store × Nat :=
  match db.runs.rows.find? fun r => r.routine = routine ∧ r.session = some session with
  | some r => (db.updateRun r.id (fun r => { r with status, endedAt := endedAt.or r.endedAt }) fun _ => rfl, r.id)
  | none   => db.insertRun (fun id => { id, routine, inferred := false, session := some session, startedAt, endedAt, status })
    fun _ => rfl

-- The later one, if they differ.
def later (best : Option Run) (r : Run) : Option Run :=
  match best with
  | none   => some r
  | some b => if b.endedAt.getD 0 < r.endedAt.getD 0 then some r else some b

-- The routine's latest inferred run if it ended within `gap` of `now`, else a new one.
def openInferredRun (routine : String) (now gap : Millis) : Store × Nat :=
  let recent := db.runs.rows.filter fun r =>
    r.routine = routine ∧ r.inferred ∧ r.undoneAt.isNone ∧ r.endedAt.any (now - gap ≤ ·)
  match recent.foldl later none with
  | some r => (db, r.id)
  | none   => db.insertRun (fun id =>
      { id, routine, inferred := true, session := none, startedAt := now, endedAt := some now, status := "inferred" })
    fun _ => rfl

-- A run's counts as its threads are. Its end moves to `now` when given.
def recount (run : Nat) (now : Option Millis) : Store :=
  let buckets := ((db.threads.rows.filterMap fun t => if t.run = run then t.bucket else none).dedup).insertionSort (· ≤ ·)
  db.updateRun run (fun r => { r with
    counts  := buckets.map fun b => (b, db.sorted run b)
    endedAt := match now with | some now => some (max (r.endedAt.getD 0) now) | none => r.endedAt
  }) fun _ => rfl

-- The routine's inferred runs that overlap a time.
def inferredRunsBetween (routine : String) (start stop : Millis) : List Nat :=
  (db.runs.rows.filter fun r =>
    r.routine = routine ∧ r.inferred ∧ r.startedAt ≤ stop ∧ start ≤ r.endedAt.getD r.startedAt).map (·.id)

-- Folds a run into another. A deleted run's threads go with it.
def mergeRuns (old into : Nat) : Option Store :=
  let moved := db.threads.rows.filter (·.run = old)
  if moved ≠ [] ∧ ¬db.hasRun into then none
  else
    let threads := moved.foldl (fun rows t => rows.insertOrIgnore { t with run := into }) db.threads
    some (Store.recount { runs := db.runs.delete (·.id = old), threads := threads.delete (·.run = old) } into none)

def markUndone (run : Nat) (now : Millis) : Store :=
  db.updateRun run (fun r => { r with undoneAt := some now, status := "undone" }) fun _ => rfl

end Store

structure Bucket where
  id        : String
  labelName : String
  deriving DecidableEq

structure Routine where
  id          : String
  -- Run by this program itself.
  isLocal     : Bool
  parentLabel : String
  buckets     : List Bucket
  deriving DecidableEq

def Routine.fullLabel (r : Routine) (b : Bucket) : String :=
  r.parentLabel ++ "/" ++ b.labelName

section Turns

-- What a session did, of the actions that are done.
inductive AgentAction
  | addLabel (label : String) (threads : List String)
  | archive (threads : List String)
  | other

structure Sorted where
  counts  : List (String × Nat) := []
  threads : List (String × Option String) := []

def bump (bucket : String) : List (String × Nat) → List (String × Nat)
  | []               => [(bucket, 1)]
  | (b, n) :: counts => if b = bucket then (b, n + 1) :: counts else (b, n) :: bump bucket counts

def Sorted.label (bucket : Option String) (s : Sorted) (thread : String) : Sorted where
  counts  := match bucket with | some b => bump b s.counts | none => s.counts
  threads := s.threads.filter (·.1 ≠ thread) ++ [(thread, bucket)]

def Sorted.archive (s : Sorted) (thread : String) : Sorted :=
  if s.threads.any (·.1 = thread) then s else { s with threads := s.threads ++ [(thread, none)] }

def bucketFor (routine : Option Routine) (label : String) : Option String :=
  routine.bind fun r => (r.buckets.find? fun b =>
    eqIgnoreAsciiCase (r.fullLabel b) label ∨ eqIgnoreAsciiCase b.labelName label).map (·.id)

def Sorted.act (routine : Option Routine) (s : Sorted) : AgentAction → Sorted
  | .addLabel label threads => threads.foldl (Sorted.label (bucketFor routine label)) s
  | .archive threads        => threads.foldl Sorted.archive s
  | .other                  => s

def sortedBy (routine : Option Routine) (actions : List AgentAction) : Sorted :=
  actions.foldl (Sorted.act routine) {}

end Turns

section Changes

-- A label change made elsewhere.
structure Change where
  thread : String
  added  : List String

-- One label of a change that is a routine's work.
structure Attributed where
  change : Nat
  label  : String
  thread : String
  bucket : Option String
  deriving DecidableEq

def stripPrefix (pre s : String) : Option String :=
  if pre.toList.isPrefixOf s.toList then some (.ofList (s.toList.drop pre.toList.length)) else none

-- The work of a routine among changes: each thread's first label under the routine's own.
def attributed (nameOf : String → Option String) (changes : List Change) (routine : Routine) : List Attributed :=
  let added := changes.zipIdx.flatMap fun (c, i) => c.added.map fun label => (i, c.thread, label)
  added.foldl (fun out (change, thread, label) =>
    match (nameOf label).bind (stripPrefix (routine.parentLabel ++ "/")) with
    | none       => out
    | some child =>
      let bucket := (routine.buckets.find? (eqIgnoreAsciiCase ·.labelName child)).map (·.id)
      if out.any (·.thread = thread) then out else out ++ [{ change, label, thread, bucket }]) []

end Changes

end Kaluta.RoutineRuns

-- What writes the runs: local sessions, label changes made elsewhere, cloud runs that are refreshed, and Undo.
namespace Kaluta.RoutineRuns

-- Changes within this gap belong to one inferred run.
def INFERRED_GAP : Millis := 5 * 60 * 1000

-- A session of a local run.
structure RoutineSession where
  session : String
  routine : String
  run     : Nat
  deriving DecidableEq

-- Changes that are being attributed, with the routines yet to be looked at.
structure Batch where
  id      : Nat
  changes : List Change
  left    : List Routine
  now     : Millis

inductive Folding
  -- Reads the inferred runs of the time.
  | reads (start stop : Millis)
  -- Merges them, one after another.
  | merges (olds : List Nat)
  deriving DecidableEq

-- A cloud run that is being refreshed.
structure Refresh where
  id      : Nat
  routine : String
  row     : Nat
  folding : Folding

-- One label of a change that is counted in a run.
structure Counted where
  batch  : Nat
  change : Nat
  label  : String
  run    : Nat
  deriving DecidableEq

structure State where
  routines  : List Routine := []
  nameOf    : List (String × String) := []
  db        : Store := {}
  sessions  : Table RoutineSession RoutineSession.session := ∅
  batches   : Table Batch Batch.id := ∅
  refreshes : Table Refresh Refresh.id := ∅
  -- How many batches there were.
  seen      : Nat := 0
  counted   : List Counted := []

inductive Action
  | startSession (routine session : String) (now : Millis)
  | turnEnded (session : String) (succeeded : Bool) (report : String) (actions : List AgentAction) (now : Millis)
  -- The program was not running when a run was due.
  | missed (routine : String) (latest : Millis)
  -- Label changes made elsewhere arrive.
  | changed (changes : List Change) (now : Millis)
  -- The next routine of a batch.
  | attributeNext (batch : Nat)
  -- Refreshing finds a cloud run.
  | cloudRun (routine session status : String) (started : Millis) (ended : Option Millis)
  | runCloudNow (routine session : String) (now : Millis)
  | fold (refresh : Nat)
  | undo (run : Nat) (now : Millis)

namespace State

variable (s : State)

def name (label : String) : Option String :=
  (s.nameOf.find? (·.1 = label)).map (·.2)

def known (routine : String) : Bool :=
  s.routines.any (·.id = routine)

def work (b : Batch) (r : Routine) : List Attributed :=
  attributed s.name b.changes r

-- One routine's part of a batch, in one transaction.
def attributeTo (b : Batch) (r : Routine) : State :=
  let work := s.work b r
  if work = [] then s
  else
    let (db, run) := s.db.openInferredRun r.id b.now INFERRED_GAP
    match db.addRunThreads run (work.map fun a => (a.thread, a.bucket)) with
    | none    => s
    | some db => { s with
      db      := db.recount run (some b.now)
      counted := s.counted ++ work.map fun a => { batch := b.id, change := a.change, label := a.label, run } }

def merge (old into : Nat) : State :=
  match s.db.mergeRuns old into with
  | none    => s
  | some db => { s with db, counted := s.counted.map fun c => if c.run = old then { c with run := into } else c }

def step : Action → Option State
  | .startSession routine session now =>
    if ¬s.known routine then none
    else
      let (db, run) := s.db.startRun routine false (some session) "running" now
      some { s with db, sessions := s.sessions.replace { session, routine, run } }
  | .turnEnded session succeeded report actions now => do
    let live ← s.sessions.find? session
    let sorted := sortedBy (s.routines.find? (·.id = live.routine)) actions
    let db := (s.db.addRunThreads live.run sorted.threads).map fun db =>
      db.finishRun live.run (if succeeded then "succeeded" else "failed") sorted.counts (some (Guide.trim report)) now
    some { s with db := db.getD s.db, sessions := s.sessions.delete (·.session = session) }
  | .missed routine latest =>
    if ¬s.known routine then none
    else
      let (db, run) := s.db.startRun routine false none "missed" latest
      some { s with db := db.finishRun run "missed" [] (some "Kaluta was not running.") latest }
  | .changed changes now =>
    some { s with
      batches := s.batches.replace { id := s.seen, changes, left := s.routines.filter (!·.isLocal), now }
      seen    := s.seen + 1 }
  | .attributeNext batch => do
    let b ← s.batches.find? batch
    match b.left with
    | []        => some { s with batches := s.batches.delete (·.id = batch) }
    | r :: left => some { s.attributeTo b r with batches := s.batches.replace { b with left } }
  | .cloudRun routine session status started ended =>
    if ¬s.known routine then none
    else
      let (db, row) := s.db.upsertCloudRun routine session status started ended
      let folding := .reads (started - 60000) (ended.getD started + INFERRED_GAP)
      some { s with db, refreshes := s.refreshes.insertRow (fun id => { id, routine, row, folding }) fun _ => rfl }
  | .runCloudNow routine session now =>
    if ¬s.known routine then none
    else some { s with db := (s.db.upsertCloudRun routine session "running" now none).1 }
  | .fold refresh => do
    let f ← s.refreshes.find? refresh
    match f.folding with
    | .reads start stop       => some { s with
      refreshes := s.refreshes.replace { f with folding := .merges (s.db.inferredRunsBetween f.routine start stop) } }
    | .merges []              => some { s with refreshes := s.refreshes.delete (·.id = refresh) }
    | .merges (old :: olds)   => some { s.merge old f.row with
      refreshes := s.refreshes.replace { f with folding := .merges olds } }
  | .undo run now => some { s with db := s.db.markUndone run now }

end State

def routineRuns : System State Action where
  Start s := s.db.runs = ∅ ∧ s.db.threads = ∅ ∧ s.sessions = ∅ ∧ s.batches = ∅ ∧ s.refreshes = ∅ ∧ s.seen = 0 ∧ s.counted = []
  step    := State.step

end Kaluta.RoutineRuns
