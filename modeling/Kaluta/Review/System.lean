import Kaluta.Lib.Execution
import Kaluta.Review.Db

-- The daily review of an account: its job, the calls that start, stop and carry on with it, and what the app
-- keeps in memory of them. Each step is one transaction, or one answer of the agent.
namespace Kaluta.Review

-- A change that an answer proposes: the entry it goes against, if any, and the pairs it cites.
structure Change where
  entry    : Option EntryId
  evidence : List CompositionId
  deriving DecidableEq

-- What the agent says; none when it is not JSON.
abbrev Answer := Option (List Change)

-- Evidence for pairs not in the batch is dropped, and a change left with no evidence is dropped.
def parse (answer : Answer) (pairs : List CompositionId) : Option (List Change) :=
  answer.map fun changes =>
    (changes.map fun c => { c with evidence := (c.evidence.filter (· ∈ pairs)).dedup }).filter (·.evidence ≠ [])

-- What became of a batch.
inductive Ending
  | merged
  | unreadable -- At both attempts.
  | nothing    -- It held nothing to send.
  | dropped    -- The run was stopped meanwhile.
  deriving DecidableEq

-- Where the job is.
inductive Job
  | looking (run : RunId)
  | chosen (run : RunId) (batch : Nat) (ids : List CompositionId) -- It asks whether the agent is ready.
  | asking (run : RunId) (batch : Nat) (pairs : List CompositionId) (attempt : Nat)
  | answered (run : RunId) (batch : Nat) (pairs : List CompositionId) (attempt : Nat) (answer : Answer)
  | merging (run : RunId) (batch : Nat) (pairs : List CompositionId) (changes : List Change)
  | finishing (run : RunId) (batch : Nat) (ending : Ending)
  | gleaning (run : RunId)
  | ending (run : RunId)
  | noting (run : RunId)
  | pausing (run : RunId) (why : String)
  | failing (run : RunId) (why : String)
  | leaving (run : RunId) -- It failed, and gives back the pairs not reached.
  deriving DecidableEq

-- What a call does once it wrote a status.
inductive After
  | rest
  | spawn
  | release
  deriving DecidableEq

-- A call that read what it needs and did not yet do what it is for.
inductive Call
  | starting (daily : Bool) (day : Day)
  | resuming (run : RunId) (retry : Bool) -- It asks whether the agent is ready; a retry is the scheduler's.
  | writing (run : RunId) (status : RunStatus) (error : Option String) (after : After)
  | releasing (run : RunId)
  | spawning (run : RunId)
  deriving DecidableEq

-- Where the one call is that holds the lock to start a review.
inductive Starting
  | matching (daily : Bool) (day : Day)
  | counting (daily : Bool) (day : Day)
  | reinforcing (daily : Bool) (day : Day) (ids : List CompositionId) (applied : CompositionId → List EntryId)
  | creating (daily : Bool) (day : Day)
  | spawning (run : RunId)

-- What was added to an entry's health for a pair.
structure Count where
  entryId   : EntryId
  pair      : CompositionId
  unchanged : Bool -- Sent as written, else changed against the entry.
  deriving DecidableEq

structure State where
  db       : Db := {}
  job      : Option Job := none
  spawned  : RunId := 0                           -- The run that the job was started for.
  calls    : List Call := []
  start    : Option Starting := none
  counts   : List Count := []                     -- Everything that was added to the health, newest first.
  caps     : Day → Nat := fun _ => 0              -- The cap when the last pair was taken for a day.
  taken    : List (RunId × CompositionId) := []   -- Every pair that a run took, released or not.
  handled  : List (RunId × Nat × Ending) := []    -- Batches that the job is through with, and how.
  compared : List (RunId × CompositionId) := []   -- Pairs whose batch's answer was merged.

inductive Action
  | compose (createdAt : Millis)
  | discard (id : CompositionId)
  | purge (old : List CompositionId)
  | settings (dailyReview : Bool) (pairsPerDay : Option Nat)
  | tick (today : Day) (settled due : Bool)
  | runNow (today : Day)
  | pause
  | resume
  | cancel
  | go (i : Nat) (ready : Bool)  -- The next step of a call.
  | drop (i : Nat)               -- A call fails.
  | matched (found : List (CompositionId × Option Nat))
  | count (applied : CompositionId → List EntryId)
  | reinforce
  | create
  | spawn
  | startFails
  | advance                      -- The job's next transaction.
  | ready (ready : Bool)
  | answer (answer : Answer)
  | agentStops (why : String)
  | gleaned
  | jobFails (why : String)
  | crash

-- An active run is read, and the call goes on with it.
def State.call (s : State) (f : RunRow → Option Call) : State :=
  { s with calls := (s.db.activeRun.bind f).elim s.calls (s.calls ++ [·]) }

def State.pause (s : State) : State :=
  s.call fun r => some (.writing r.id .paused none .rest)

def State.resume (s : State) : State :=
  s.call fun r => some (.resuming r.id false)

def State.cancel (s : State) : State :=
  s.call fun r => some (.writing r.id .cancelled none .release)

-- One look from the scheduler.
def State.tick (s : State) (today : Day) (settled due : Bool) : State :=
  match s.db.activeRun with
  | some _ => s.call fun r =>
    if r.status = .paused ∧ r.error = none ∧ r.day ≠ today ∧ s.db.dailyReview ∧ ¬s.db.ranOn today then
      -- Paused by the user on an earlier day: today's review replaces it.
      some (.writing r.id .cancelled none .release)
    else if r.status = .running ∧ s.job.isNone then
      some (.spawning r.id)
    else if r.status = .paused ∧ r.error.isSome ∧ due then
      some (.resuming r.id true)
    else
      none
  | none   =>
    if s.db.ranOn today ∨ ¬s.db.dailyReview ∨ ¬settled ∨ ¬due then s
    else { s with calls := s.calls ++ [.starting true today] }

-- Starts the job for a run, unless one is going.
def State.spawnJob (s : State) (run : RunId) : State :=
  { s with job := some (s.job.getD (.looking run)), spawned := if s.job.isSome then s.spawned else run }

def State.go (s : State) (i : Nat) (ready : Bool) : Option State := do
  match ← s.calls[i]? with
  | .starting daily day  =>
    -- One start at a time.
    if s.start.isSome then none
    else
      let start := if ready then some (.matching daily day) else none
      some { s with start, calls := s.calls.eraseIdx i }
  | .resuming run retry  =>
    if ready then some { s with calls := s.calls.set i (.writing run .running none .spawn) }
    else if retry then some { s with calls := s.calls.eraseIdx i }
    else some { s with calls := s.calls.set i (.writing run .paused (some "The agent is not ready") .rest) }
  | .writing run status error after =>
    let s := { s with db := s.db.setRunStatus run status error }
    match after with
    | .rest    => some { s with calls := s.calls.eraseIdx i }
    | .spawn   => some { s with calls := s.calls.set i (.spawning run) }
    | .release => some { s with calls := s.calls.set i (.releasing run) }
  | .releasing run       => some { s with db := s.db.releasePairs run, calls := s.calls.eraseIdx i }
  | .spawning run        => some { s.spawnJob run with calls := s.calls.eraseIdx i }

-- One pair sent as written: support for the entries that applied. Only a pair still waiting for review counts.
def State.reinforceOne (applied : CompositionId → List EntryId) (s : State) (id : CompositionId) : State :=
  if (s.db.composition? id).any (·.status = .matched) then
    let entries := (applied id).dedup
    { s with
      db     := (entries.foldl (fun db e => db.addHealth e 1 0) s.db).markReviewed [id]
      counts := (entries.map fun e => { entryId := e, pair := id, unchanged := true }) ++ s.counts }
  else
    s

-- The entries that the changes go against, with each pair that they cite once.
def against (changes : List Change) : List (EntryId × CompositionId) :=
  (changes.flatMap fun c => c.entry.elim [] fun e => c.evidence.map (e, ·)).dedup

def State.merge (s : State) (changes : List Change) : State :=
  { s with
    db     := (against changes).foldl (fun db p => db.addHealth p.1 0 1) s.db
    counts := ((against changes).map fun p => { entryId := p.1, pair := p.2, unchanged := false }) ++ s.counts }

-- A new run takes what is to compare, as far as the day's cap allows.
def State.create (s : State) (daily : Bool) (day : Day) : State :=
  if s.db.activeRun.isSome then { s with start := none }
  else
    let cap := s.db.pairsPerDay.getD DEFAULT_PAIRS_PER_DAY
    let pairs := s.db.pairsToCompare (cap - s.db.pairsTakenOn day)
    let (db, run) := s.db.createRun day daily pairs
    { s with
      db, start := some (.spawning run)
      caps  := if pairs = [] then s.caps else fun d => if d = day then cap else s.caps d
      taken := pairs.map (run, ·) ++ s.taken }

-- The pairs of a batch whose texts are kept.
def Db.comparePairs (db : Db) (ids : List CompositionId) : List CompositionId :=
  ids.filter fun id => (db.composition? id).any (·.texts)

def State.look (s : State) (run : RunId) : State :=
  match s.db.getRun run with
  | none     => { s with job := none }
  | some row =>
    if row.status ≠ .running then
      -- Another run, or this one resumed while the job was leaving.
      { s with job := (s.db.activeRun.filter (·.status = .running)).map fun a => .looking a.id }
    else
      match s.db.nextBatch run with
      | none              => { s with job := some (.gleaning run) }
      | some (batch, ids) => { s with job := some (.chosen run batch ids) }

-- The answer of a run stopped meanwhile is dropped; one that cannot be read is asked for once more.
def State.check (s : State) (run : RunId) (batch : Nat) (pairs : List CompositionId) (attempt : Nat)
    (answer : Answer) : State :=
  if (s.db.getRun run).all (·.status = .cancelled) then
    { s with job := some (.finishing run batch .dropped) }
  else
    match parse answer pairs with
    | some changes => { s with job := some (.merging run batch pairs changes) }
    | none         =>
      if attempt < 2 then { s with job := some (.asking run batch pairs (attempt + 1)) }
      else { s with
        job := some (.finishing run batch .unreadable), handled := (run, batch, .unreadable) :: s.handled }

def State.advance (s : State) : Job → Option State
  | .looking run                                => some (s.look run)
  | .answered run batch pairs attempt answer    => some (s.check run batch pairs attempt answer)
  | .merging run batch pairs changes            =>
    some { s.merge changes with
      job := some (.finishing run batch .merged), handled := (run, batch, .merged) :: s.handled
      compared := pairs.map (run, ·) ++ s.compared }
  | .finishing run batch _                      =>
    some { s with db := s.db.finishBatch run batch, job := some (.looking run) }
  | .ending run                                 =>
    some { s with db := s.db.setRunStatus run .done none, job := some (.noting run) }
  | .noting run                                 => some { s with job := some (.looking run) }
  | .pausing run why                            =>
    some { s with db := s.db.setRunStatus run .paused (some why), job := none }
  | .failing run why                            =>
    some { s with db := s.db.setRunStatus run .failed (some why), job := some (.leaving run) }
  | .leaving run                                => some { s with db := s.db.releasePairs run, job := none }
  | .chosen _ _ _ | .asking _ _ _ _ | .gleaning _ => none

-- Whether the agent is ready for a batch; then its pairs are read.
def State.ready (s : State) : Job → Bool → Option State
  | .chosen run batch ids, true  =>
    let pairs := s.db.comparePairs ids
    some (if pairs = [] then { s with
        job := some (.finishing run batch .nothing), handled := (run, batch, .nothing) :: s.handled }
      else { s with job := some (.asking run batch pairs 1) })
  | .chosen run _ _, false       => some { s with job := some (.pausing run "The agent is not ready") }
  | _, _                         => none

-- A job that fails ends the run that it was started for, also when it has gone on to another.
def State.jobFails (s : State) (why : String) : Job → State
  | .failing run _ => { s with job := some (.leaving run) }
  | .leaving _     => { s with job := none }
  | _              => { s with job := some (.failing s.spawned why) }

def State.step (s : State) : Action → Option State
  | .compose createdAt          => some { s with db := s.db.insertComposition createdAt }
  | .discard id                 => some { s with db := s.db.draftGone id }
  | .purge old                  => some { s with db := s.db.purge old }
  | .settings daily cap         => some { s with db := { s.db with dailyReview := daily, pairsPerDay := cap } }
  | .tick today settled due     => some (s.tick today settled due)
  | .runNow today               => some { s with calls := s.calls ++ [.starting false today] }
  | .pause                      => some s.pause
  | .resume                     => some s.resume
  | .cancel                     => some s.cancel
  | .go i ready                 => s.go i ready
  | .drop i                     => some { s with calls := s.calls.eraseIdx i }
  | .matched found              =>
    match s.start with
    | some (.matching daily day) => some { s with db := s.db.matchAll found, start := some (.counting daily day) }
    | _                          => none
  | .count applied              =>
    match s.start with
    | some (.counting daily day) =>
      some { s with
        start := if s.db.activeRun.isSome then none else some (.reinforcing daily day s.db.unchangedPairs applied) }
    | _                          => none
  | .reinforce                  =>
    match s.start with
    | some (.reinforcing daily day ids applied) =>
      some { ids.foldl (State.reinforceOne applied) s with start := some (.creating daily day) }
    | _                                         => none
  | .create                     =>
    match s.start with
    | some (.creating daily day) => some (s.create daily day)
    | _                          => none
  | .spawn                      =>
    match s.start with
    | some (.spawning run) => some { s.spawnJob run with start := none }
    | _                    => none
  | .startFails                 => some { s with start := none }
  | .advance                    => s.job.bind s.advance
  | .ready ready                => s.job.bind (s.ready · ready)
  | .answer answer              =>
    match s.job with
    | some (.asking run batch pairs attempt) => some { s with job := some (.answered run batch pairs attempt answer) }
    | _                                      => none
  | .agentStops why             =>
    match s.job with
    | some (.asking run _ _ _) | some (.gleaning run) =>
      some { s with job := some (.pausing run ("The agent stopped: " ++ why)) }
    | _                                               => none
  | .gleaned                    =>
    match s.job with
    | some (.gleaning run) => some { s with job := some (.ending run) }
    | _                    => none
  | .jobFails why               => s.job.map (s.jobFails why)
  | .crash                      => some { s with job := none, calls := [], start := none }

def reviews : System State Action where
  Start s := s = {}
  step    := State.step

end Kaluta.Review
