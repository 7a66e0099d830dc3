import Kaluta.Review.Kept

-- The guide's learning runs over sent mail. Their job is told as the review's is, but a run that is stopped keeps
-- the rows of the messages that it did not reach.
namespace Kaluta.Review.Learning

abbrev MessageId := String

def BATCH_SIZE : Nat := 20

structure SentRow where
  messageId : MessageId
  date      : Millis
  deriving DecidableEq

inductive Kind
  | latest
  | newer
  | older
  | improve
  | recheck
  deriving DecidableEq

-- The mail that a request leaves in, and what its focus ranks first, are told by the mail's addresses and subjects.
structure Request where
  kind  : Kind
  count : Nat
  keep  : SentRow → Bool := fun _ => true
  focus : SentRow → Bool := fun _ => false

structure RunRow where
  id     : RunId
  status : RunStatus := .running
  error  : Option String := none
  deriving DecidableEq

structure RunMessage where
  runId     : RunId
  messageId : MessageId
  batch     : Nat
  position  : Nat
  done      : Bool := false
  deriving DecidableEq

structure Db where
  runs        : Table RunRow (·.id) := ∅
  runMessages : Table RunMessage (fun m => (m.runId, m.messageId)) := ∅
  sent        : List SentRow := [] -- The stored mail that the user sent, newest first.

namespace Db

def getRun (db : Db) (run : RunId) : Option RunRow :=
  db.runs.find? run

def activeRun (db : Db) : Option RunRow :=
  (db.runs.rows.filter (·.status.isActive)).maxOn? (·.id)

def cancelled (db : Db) (run : RunId) : Bool :=
  (db.getRun run).all (·.status = .cancelled)

-- Whether some run has analysed a message.
def analysed (db : Db) (message : MessageId) : Bool :=
  db.runMessages.rows.any fun m => m.messageId = message && m.done

def analysedDates (db : Db) : List Millis :=
  (db.sent.filter fun r => db.analysed r.messageId).map (·.date)

-- The messages of a run, newest first.
def runSample (db : Db) (req : Request) : List MessageId :=
  let rows : List SentRow :=
    (if req.kind = .recheck then db.sent else db.sent.filter fun r => !db.analysed r.messageId).filter req.keep
  let rows : List SentRow := match req.kind with
    | .latest  => rows
    | .newer   => rows.filter fun r => db.analysedDates.max?.all (· < r.date)
    | .older   => rows.filter fun r => db.analysedDates.min?.all (r.date < ·)
    | .improve => rows.filter req.focus ++ rows.filter (!req.focus ·)
    | .recheck => rows.filter (fun r => !db.analysed r.messageId) ++ rows.filter fun r => db.analysed r.messageId
  (rows.take req.count).map (·.messageId)

def nextBatch (db : Db) (run : RunId) : Option (Nat × List MessageId) :=
  let batch := ((db.runMessages.rows.filter fun m => m.runId = run ∧ ¬m.done).map (·.batch)).min?
  batch.map fun batch => (batch, (((db.runMessages.rows.filter fun m => m.runId = run ∧ m.batch = batch).insertionSort
    (·.position ≤ ·.position)).map (·.messageId)))

def createRun (db : Db) (messages : List MessageId) : Db × RunId :=
  let run := db.runs.nextRowid
  ({ db with
      runs        := db.runs.insertRow ({ id := · }) fun _ => rfl
      runMessages := messages.zipIdx.foldl
        (fun t m => t.insertOrIgnore { runId := run, messageId := m.1, batch := m.2 / BATCH_SIZE, position := m.2 })
        db.runMessages }, run)

-- Marks a batch analysed.
def finishBatch (db : Db) (run : RunId) (batch : Nat) : Db :=
  { db with
    runMessages := db.runMessages.update (fun m => m.runId = run ∧ m.batch = batch) ({ · with done := true })
      fun _ => rfl }

def setRunStatus (db : Db) (run : RunId) (status : RunStatus) (error : Option String) : Db :=
  { db with runs := db.runs.update (·.id = run) ({ · with status, error }) fun _ => rfl }

end Db

-- What became of a batch.
inductive Ending
  | merged
  | unreadable -- At both attempts.
  | nothing    -- It held nothing to send.
  | dropped    -- The run was stopped meanwhile.
  | failed     -- An answer was read, and could not be stored.
  deriving DecidableEq

-- Where the job is; once an answer was read that could not be stored, it knows.
inductive Job
  | looking (run : RunId)
  | chosen (run : RunId) (batch : Nat) (ids : List MessageId)
  | asking (run : RunId) (batch : Nat) (attempts : Nat) (wasRead : Bool)
  | answered (run : RunId) (batch : Nat) (attempts : Nat) (wasRead : Bool) (readable : Bool)
  | merging (run : RunId) (batch : Nat) (attempts : Nat)
  | finishing (run : RunId) (batch : Nat) (ending : Ending)
  | ending (run : RunId)
  | noting (run : RunId)
  | pausing (run : RunId) (why : String)
  | failing (run : RunId) (why : String)
  deriving DecidableEq

inductive Call
  | creating (messages : List MessageId) -- It read the sample.
  | resuming (run : RunId)
  | writing (run : RunId) (status : RunStatus) (error : Option String) (spawn : Bool)
  | spawning (run : RunId)
  deriving DecidableEq

structure State where
  db      : Db := {}
  job     : Option Job := none
  spawned : RunId := 0                       -- The run that the job was started for.
  calls   : List Call := []
  handled : List (RunId × Nat × Ending) := [] -- Batches whose answer the job is through with, and how.

inductive Action
  | send (row : SentRow)
  | start (request : Request)
  | pause
  | resume
  | cancel
  | go (i : Nat) (ready : Bool)
  | drop (i : Nat)
  | advance
  | ready (ready : Bool) (texts : MessageId → Bool) -- Which of the messages have something to send.
  | answer (readable : Bool)
  | agentStops (why : String) (isAgent : Bool) -- Whether it is an error of the agent's.
  | mergeFails
  | jobFails (why : String)
  | crash

def State.call (s : State) (f : RunRow → Call) : State :=
  { s with calls := (s.db.activeRun.map f).elim s.calls (s.calls ++ [·]) }

def State.spawnJob (s : State) (run : RunId) : State :=
  { s with job := some (s.job.getD (.looking run)), spawned := if s.job.isSome then s.spawned else run }

def State.go (s : State) (i : Nat) (ready : Bool) : Option State := do
  match ← s.calls[i]? with
  | .creating messages =>
    if s.db.activeRun.isSome then some { s with calls := s.calls.eraseIdx i }
    else
      let (db, run) := s.db.createRun messages
      some { s with db, calls := s.calls.set i (.spawning run) }
  | .resuming run      =>
    if ready then some { s with calls := s.calls.set i (.writing run .running none true) }
    else some { s with calls := s.calls.set i (.writing run .paused (some "The agent is not ready") false) }
  | .writing run status error spawn =>
    let s := { s with db := s.db.setRunStatus run status error }
    if spawn then some { s with calls := s.calls.set i (.spawning run) }
    else some { s with calls := s.calls.eraseIdx i }
  | .spawning run      => some { s.spawnJob run with calls := s.calls.eraseIdx i }

def State.look (s : State) (run : RunId) : State :=
  match s.db.getRun run with
  | none     => { s with job := none }
  | some row =>
    if row.status ≠ .running then
      { s with job := (s.db.activeRun.filter fun a => a.id ≠ run ∧ a.status = .running).map fun a => .looking a.id }
    else
      match s.db.nextBatch run with
      | none              => { s with job := some (.ending run) }
      | some (batch, ids) => { s with job := some (.chosen run batch ids) }

-- A batch whose answer cannot be read, or stored, is tried once more, then skipped.
def State.again (s : State) (run : RunId) (batch attempts : Nat) (wasRead : Bool) : State :=
  if attempts < 2 then { s with job := some (.asking run batch (attempts + 1) wasRead) }
  else if wasRead then { s with job := some (.finishing run batch .failed) }
  else { s with job := some (.finishing run batch .unreadable), handled := (run, batch, .unreadable) :: s.handled }

-- Stopped while the agent worked: its answer is dropped.
def State.check (s : State) (run : RunId) (batch attempts : Nat) (wasRead readable : Bool) : State :=
  if s.db.cancelled run then { s with job := some (.finishing run batch .dropped) }
  else if readable then { s with job := some (.merging run batch attempts) }
  else s.again run batch attempts wasRead

def State.advance (s : State) : Job → Option State
  | .looking run                                      => some (s.look run)
  | .answered run batch attempts wasRead readable     => some (s.check run batch attempts wasRead readable)
  | .merging run batch _                              =>
    some { s with job := some (.finishing run batch .merged), handled := (run, batch, .merged) :: s.handled }
  | .finishing run batch _                            =>
    some { s with db := s.db.finishBatch run batch, job := some (.looking run) }
  | .ending run                                       =>
    some { s with db := s.db.setRunStatus run .done none, job := some (.noting run) }
  | .noting _                                         => some { s with job := none }
  | .pausing run why                                  =>
    some { s with db := s.db.setRunStatus run .paused (some why), job := none }
  | .failing run why                                  =>
    some { s with db := s.db.setRunStatus run .failed (some why), job := none }
  | .chosen _ _ _ | .asking _ _ _ _                   => none

def State.step (s : State) : Action → Option State
  | .send row         => some { s with db := { s.db with sent := row :: s.db.sent } }
  | .start request    =>
    let messages := s.db.runSample request
    if messages = [] then none
    else some { s with calls := s.calls ++ [.creating messages] }
  | .pause            => some (s.call fun r => .writing r.id .paused none false)
  | .resume           => some (s.call fun r => .resuming r.id)
  | .cancel           => some (s.call fun r => .writing r.id .cancelled none false)
  | .go i ready       => s.go i ready
  | .drop i           => some { s with calls := s.calls.eraseIdx i }
  | .advance          => s.job.bind s.advance
  | .ready ready texts =>
    match s.job with
    | some (.chosen run batch ids) =>
      if ¬ready then some { s with job := some (.pausing run "The agent is not ready") }
      else if ids.any texts then some { s with job := some (.asking run batch 1 false) }
      else some { s with job := some (.finishing run batch .nothing), handled := (run, batch, .nothing) :: s.handled }
    | _                            => none
  | .answer readable  =>
    match s.job with
    | some (.asking run batch attempts wasRead) =>
      some { s with job := some (.answered run batch attempts wasRead readable) }
    | _                                         => none
  | .agentStops why isAgent =>
    match s.job with
    | some (.asking run batch attempts wasRead) =>
      if isAgent ∧ attempts < 2 then some { s with job := some (.asking run batch (attempts + 1) wasRead) }
      else some { s with job := some (.pausing run ("The agent stopped: " ++ why)) }
    | _                                         => none
  | .mergeFails       =>
    match s.job with
    | some (.merging run batch attempts) => some (s.again run batch attempts true)
    | _                                  => none
  | .jobFails why     =>
    match s.job with
    | some (.failing _ _) => some { s with job := none }
    | some _              => some { s with job := some (.failing s.spawned why) }
    | none                => none
  | .crash            => some { s with job := none, calls := [] }

def learning : System State Action where
  Start s := s = {}
  step    := State.step

variable {s s' : State} {a : Action} {db : Db} {run : RunId}

-- The run of a batch that the agent has, or whose answer was not looked at.
def Job.asks : Job → Option RunId
  | .asking run _ _ _ | .answered run _ _ _ _ => some run
  | _                                         => none

-- No run is cancelled while the agent has a batch of it, and the agent gets no batch of a run that is. Only a first
-- answer fails to be stored, and then the second one can be read.
def State.lossless (s : State) (a : Action) : Bool :=
  match a, s.job with
  | .go i _          , some j                              =>
    match s.calls[i]? with
    | some (.writing run .cancelled _ _) => j.asks ≠ some run
    | _                                  => true
  | .ready true texts, some (.chosen run _ ids)            => !ids.any texts || !s.db.cancelled run
  | .answer readable , some (.asking _ _ attempts wasRead) => attempts < 2 || !wasRead || readable
  | .mergeFails      , some (.merging run _ attempts)      => attempts < 2 && !s.db.cancelled run
  | _                , _                                   => true

-- The ways for a batch to be through.
def Ending.isThrough : Ending → Bool
  | .merged | .unreadable | .nothing => true
  | .dropped | .failed               => false

structure State.Kept (s : State) : Prop where
  handled   : ∀ m ∈ s.db.runMessages, m.done → ∃ ending, (m.runId, m.batch, ending) ∈ s.handled
  ending    : ∀ h ∈ s.handled, h.2.2.isThrough
  finishing : ∀ run batch ending, s.job = some (.finishing run batch ending) → (run, batch, ending) ∈ s.handled
  asks      : ∀ j ∈ s.job, ∀ run ∈ j.asks, s.db.cancelled run = false
  readable  : ∀ run batch attempts wasRead readable,
    s.job = some (.answered run batch attempts wasRead readable) → attempts < 2 ∨ wasRead = false ∨ readable = true

theorem cancelled_setRunStatus {run' : RunId} (h : db.cancelled run = false)
    (other : status = .cancelled → run' ≠ run) : (db.setRunStatus run' status error).cancelled run = false := by
  rw [Db.cancelled, Db.getRun, Db.setRunStatus, Table.find?_update]
  rw [Db.cancelled, Db.getRun] at h
  cases found : db.runs.find? run
  case none =>
    rw [found] at h
    cases h
  case some r =>
    rw [found] at h
    rw [Option.map_some, Option.all_some]
    split
    case isFalse => exact h
    case isTrue same =>
      have id : r.id = run := Table.find?_key_eq found
      exact decide_eq_false fun status => other status ((of_decide_eq_true same).symm.trans id)

theorem cancelled_createRun (h : db.cancelled run = false) (messages : List MessageId) :
    (db.createRun messages).1.cancelled run = false := by
  rw [Db.cancelled, Db.getRun] at h
  have old : run ≠ db.runs.nextRowid := by
    rintro rfl
    cases found : db.runs.find? db.runs.nextRowid
    case none =>
      rw [found] at h
      cases h
    case some r =>
      have id : r.id = db.runs.nextRowid := Table.find?_key_eq found
      exact (Table.lt_nextRowid (Table.find?_mem found)).ne id
  rwa [Db.cancelled, Db.getRun, Db.createRun, Table.find?_insertRow_ne old]

-- The job has no batch in hand that comes to its end, or that the agent has.
def Job.rests : Job → Bool
  | .asking .. | .answered .. | .finishing .. => false
  | _                                         => true

theorem Job.asks_of_rests {j : Job} (h : j.rests) : j.asks = none := by
  cases j <;> first | rfl | cases h

namespace State.Kept

-- A step that marks nothing, and leaves the job where it is.
theorem same (h : s.Kept) (messages : ∀ m ∈ s'.db.runMessages, m.done → m ∈ s.db.runMessages)
    (handled : s'.handled = s.handled) (job : s'.job = s.job)
    (cancelled : ∀ j ∈ s.job, ∀ run ∈ j.asks, s.db.cancelled run = false → s'.db.cancelled run = false) : s'.Kept where
  handled m hm hd := handled ▸ h.handled m (messages m hm hd) hd
  ending          := handled ▸ h.ending
  finishing       := handled ▸ job ▸ h.finishing
  asks j hj run hr := cancelled j (job ▸ hj) run hr (h.asks j (job ▸ hj) run hr)
  readable        := job ▸ h.readable

theorem aside (h : s.Kept) (messages : s'.db.runMessages = s.db.runMessages) (runs : s'.db.runs = s.db.runs)
    (handled : s'.handled = s.handled) (job : s'.job = s.job) : s'.Kept := by
  refine h.same (fun m hm _ => messages ▸ hm) handled job fun j _ run _ open_ => ?_
  rwa [Db.cancelled, Db.getRun, runs]

-- A step after which the job has no batch in hand.
theorem rests (h : s.Kept) (messages : s'.db.runMessages = s.db.runMessages) (handled : s'.handled = s.handled)
    (job : ∀ j ∈ s'.job, j.rests) : s'.Kept where
  handled m hm hd := handled ▸ h.handled m (messages ▸ hm) hd
  ending          := handled ▸ h.ending
  finishing run batch ending hj := by cases job _ hj
  asks j hj run hr := by
    rw [Job.asks_of_rests (job j hj)] at hr
    cases hr
  readable run batch attempts wasRead readable hj := by cases job _ hj

-- The agent gets a batch.
theorem asked (h : s.Kept) (db : s'.db = s.db) (handled : s'.handled = s.handled)
    (job : s'.job = some (.asking run batch attempts wasRead)) (open_ : s.db.cancelled run = false) : s'.Kept where
  handled m hm hd := handled ▸ h.handled m (db ▸ hm) hd
  ending          := handled ▸ h.ending
  finishing run batch ending hj := by
    rw [job] at hj
    cases hj
  asks j hj run hr := by
    rw [job] at hj
    cases hj
    cases hr
    exact db ▸ open_
  readable run batch attempts wasRead readable hj := by
    rw [job] at hj
    cases hj

theorem ended {ending : Ending} (h : s.Kept) (ht : ending.isThrough) (db : s'.db = s.db)
    (job : s'.job = some (.finishing run batch ending)) (handled : s'.handled = (run, batch, ending) :: s.handled) :
    s'.Kept where
  handled m hm hd := by
    obtain ⟨e, he⟩ := h.handled m (db ▸ hm) hd
    exact ⟨e, handled ▸ List.mem_cons_of_mem _ he⟩
  ending := by
    rw [handled]
    exact List.forall_mem_cons.mpr ⟨ht, h.ending⟩
  finishing r b e hj := by
    rw [job] at hj
    cases hj
    exact handled ▸ List.mem_cons_self
  asks j hj run hr := by
    rw [job] at hj
    cases hj
    cases hr
  readable run batch attempts wasRead readable hj := by
    rw [job] at hj
    cases hj

theorem spawned (h : s.Kept) (run : RunId) (db : s'.db = s.db) (handled : s'.handled = s.handled)
    (job : s'.job = (s.spawnJob run).job) : s'.Kept := by
  cases hj : s.job
  case none =>
    refine h.rests (db ▸ rfl) handled fun j hj' => ?_
    rw [job, State.spawnJob, hj] at hj'
    cases hj'
    rfl
  case some j =>
    refine h.aside (db ▸ rfl) (db ▸ rfl) handled (job.trans ?_)
    rw [State.spawnJob, hj]
    rfl

theorem created (h : s.Kept) (messages : List MessageId) (db : s'.db = (s.db.createRun messages).1)
    (handled : s'.handled = s.handled) (job : s'.job = s.job) : s'.Kept := by
  refine h.same (fun m hm hd => ?_) handled job fun _ _ _ _ open_ => db ▸ cancelled_createRun open_ messages
  rw [db, Db.createRun] at hm
  revert hm
  refine List.foldl_preserves (P := fun t => m ∈ t → m ∈ s.db.runMessages) ?_ fun h => h
  intro t p _ ih hm
  rcases Table.mem_of_mem_insertOrIgnore hm with hm | rfl
  · exact ih hm
  · cases hd

theorem again (h : s.Kept) (open_ : s.db.cancelled run = false) (batch : Nat) (ok : attempts < 2 ∨ wasRead = false) :
    (s.again run batch attempts wasRead).Kept := by
  rw [State.again]
  split
  case isTrue => exact h.asked rfl rfl rfl open_
  case isFalse last =>
    rw [ok.resolve_left last]
    exact h.ended rfl rfl rfl rfl

end State.Kept

theorem go_kept (h : s.Kept) (ok : s.lossless (.go i b)) (hs : s.go i b = some s') : s'.Kept := by
  rw [State.go, Option.bind_eq_bind, Option.bind_eq_some_iff] at hs
  obtain ⟨c, hc, hs⟩ := hs
  cases c <;> dsimp only at hs
  case creating messages =>
    split at hs <;> cases hs
    · exact h.aside rfl rfl rfl rfl
    · exact h.created messages rfl rfl rfl
  case resuming run => split at hs <;> (cases hs; exact h.aside rfl rfl rfl rfl)
  case writing run status error spawn =>
    have other : ∀ j ∈ s.job, ∀ run' ∈ j.asks, s.db.cancelled run' = false →
        (s.db.setRunStatus run status error).cancelled run' = false := by
      intro j hj run' asks open_
      refine cancelled_setRunStatus open_ ?_
      rintro rfl rfl
      have hj : s.job = some j := hj
      simp only [State.lossless, hj, hc] at ok
      exact of_decide_eq_true ok asks
    split at hs <;> (cases hs; exact h.same (fun _ hm _ => hm) rfl rfl other)
  case spawning run => cases hs; exact h.spawned run rfl rfl rfl

theorem look_kept (h : s.Kept) (run : RunId) : (s.look run).Kept := by
  simp only [State.look]
  split
  · exact h.rests rfl rfl nofun
  · split
    · refine h.rests rfl rfl fun j hj => ?_
      obtain ⟨_, _, rfl⟩ := Option.map_eq_some_iff.mp hj
      rfl
    · split <;> exact h.rests rfl rfl (by rintro j ⟨⟩; rfl)

theorem advance_kept (h : s.Kept) (hj : s.job = some j) (hs : s.advance j = some s') : s'.Kept := by
  cases j <;> simp only [State.advance, Option.some.injEq, reduceCtorEq] at hs <;> subst hs
  case looking run => exact look_kept h run
  case answered run batch attempts wasRead readable =>
    have open_ : s.db.cancelled run = false := h.asks _ hj run rfl
    rw [State.check, if_neg (Bool.eq_false_iff.mp open_)]
    split
    case isTrue => exact h.rests rfl rfl (by rintro j ⟨⟩; rfl)
    case isFalse unreadable =>
      refine h.again open_ batch ((h.readable _ _ _ _ _ hj).imp_right fun h => h.resolve_right unreadable)
  case merging run batch attempts => exact h.ended rfl rfl rfl rfl
  case finishing run batch ending =>
    refine ⟨fun m hm hd => ?_, h.ending, nofun, by rintro j ⟨⟩ run ⟨⟩, nofun⟩
    rw [Db.finishBatch, Table.mem_update] at hm
    rcases hm with ⟨hm, _⟩ | ⟨m, hm, hy, rfl⟩
    · exact h.handled m hm hd
    · have ⟨hr, hb⟩ := of_decide_eq_true hy
      exact ⟨ending, hr.symm ▸ hb.symm ▸ h.finishing run batch ending hj⟩
  case ending  => exact h.rests rfl rfl (by rintro j ⟨⟩; rfl)
  case noting  => exact h.rests rfl rfl nofun
  case pausing => exact h.rests rfl rfl nofun
  case failing => exact h.rests rfl rfl nofun

theorem step_kept (h : s.Kept) (ok : s.lossless a) (hs : s.step a = some s') : s'.Kept := by
  cases a <;> simp only [State.step, Option.some.injEq] at hs
  case go         => exact go_kept h ok hs
  case start      => split at hs <;> cases hs; exact h.aside rfl rfl rfl rfl
  case advance    =>
    obtain ⟨j, hj, hs⟩ := Option.bind_eq_some_iff.mp hs
    exact advance_kept h hj hs
  case ready ready texts =>
    split at hs
    case h_2 => cases hs
    case h_1 run batch ids hj =>
      cases ready
      case false =>
        cases hs
        exact h.rests rfl rfl (by rintro j ⟨⟩; rfl)
      case true =>
        rw [if_neg (not_not.mpr rfl)] at hs
        split at hs
        case isTrue some_ =>
          cases hs
          simp only [State.lossless, hj, some_, Bool.not_true, Bool.false_or, Bool.not_eq_true'] at ok
          exact h.asked rfl rfl rfl ok
        case isFalse =>
          cases hs
          exact h.ended rfl rfl rfl rfl
  case answer readable =>
    split at hs <;> cases hs
    case h_1 run batch attempts wasRead hj =>
      refine ⟨h.handled, h.ending, nofun, ?_, ?_⟩
      · rintro j ⟨⟩ run ⟨⟩
        exact h.asks _ hj _ rfl
      · rintro run batch attempts wasRead readable ⟨⟩
        simpa [State.lossless, hj, or_assoc] using ok
  case agentStops =>
    split at hs
    case h_2 => cases hs
    case h_1 run batch attempts wasRead hj =>
      split at hs <;> cases hs
      · exact h.asked rfl rfl rfl (h.asks _ hj _ rfl)
      · exact h.rests rfl rfl (by rintro j ⟨⟩; rfl)
  case mergeFails =>
    split at hs <;> cases hs
    case h_1 run batch attempts hj =>
      simp only [State.lossless, hj, Bool.and_eq_true, Bool.not_eq_true', decide_eq_true_eq] at ok
      exact h.again ok.right batch (.inl ok.left)
  case jobFails =>
    split at hs <;> cases hs
    · exact h.rests rfl rfl nofun
    · exact h.rests rfl rfl (by rintro j ⟨⟩; rfl)
  case crash => exact hs ▸ h.rests rfl rfl nofun
  all_goals exact hs ▸ h.aside rfl rfl rfl rfl

theorem reachable_kept (h : learning.Reachable (fun s a => s.lossless a) s) : s.Kept := by
  refine h.invariant (P := State.Kept) ?_ fun _ _ _ ih ok hs => step_kept ih ok hs
  rintro _ rfl
  exact ⟨fun m hm => absurd hm (Table.not_mem_empty (a := m)), nofun, nofun, nofun, nofun⟩

-- A message that no run has analysed is in the sample of a run over the latest mail.
theorem mem_runSample {db : Db} {row : SentRow} (hr : row ∈ db.sent) (hn : db.analysed row.messageId = false) :
    row.messageId ∈ db.runSample { kind := .latest, count := db.sent.length } := by
  refine List.mem_map.mpr ⟨row, ?_, rfl⟩
  rw [List.take_of_length_le]
  · simpa using ⟨hr, hn⟩
  · simpa using List.length_filter_le _ _

end Kaluta.Review.Learning
