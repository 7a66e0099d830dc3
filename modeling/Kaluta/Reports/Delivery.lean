import Kaluta.Lib.Execution
import Kaluta.Reports.Pull

-- The app pulls a mailbox's reports while agents file more, and any request or answer may be lost.
namespace Kaluta.Reports

-- The app's account of a mailbox. The epoch of the server's database is part of what its reports are kept under.
structure Account where
  server    : String
  mailboxId : Nat

-- How far a pull has come.
inductive Pull (γ φ : Type)
  | asking   (after pages : Nat)
  | listed   (after pages : Nat) (reports : List (ReportRow γ)) (more : Bool)
  | recorded (after pages last : Nat) (read : List (Nat × Option (NewReport φ))) (more : Bool)
  | acking   (upTo pages last : Nat) (more : Bool)

-- What was filed and what became of it is kept for the record only.
structure State (γ φ : Type) where
  account      : Account
  db           : Db γ := {}
  store        : Store φ := {}
  failures     : Nat → Nat := fun _ => 0 -- Lost when the app is started again.
  unreadable   : Nat := 0
  pull         : Option (Pull γ φ) := none
  acks         : List Nat := [] -- Sent once, and taken by the server at any time, if at all.
  pulls        : Nat := 0
  filed        : List (ReportRow γ) := []
  dropped      : List (ReportRow γ) := []
  swept        : List (ReportRow γ) := []
  acknowledged : List (ReportRow γ) := []
  givenUp      : List Nat := []
  failed       : List (Nat × Nat) := [] -- The pulls in which a report did not read.

inductive Action (γ φ : Type)
  | file (r : ReportRow γ) (now : Millis)
  | sweep (now : Millis)
  | ackOther (mailboxId upTo : Nat) -- Another mailbox's reports.
  | start
  | list (now : Millis)
  | record (opened : ReportRow γ → Option φ) (recording : Bool) (now : Millis)
  | acknowledge (saved : Bool) -- Whether the account's record could be written.
  | acked
  | deliver (upTo : Nat)
  | fail
  | restart

namespace State

variable {γ φ : Type}

def parse (account : Account) (opened : ReportRow γ → Option φ) (r : ReportRow γ) : Option (NewReport φ) :=
  (opened r).map fun fields =>
    { server := account.server, serverId := r.id, agentId := r.agentId, receivedAt := r.receivedAt, fields }

def sweep (s : State γ φ) (now : Millis) : State γ φ :=
  { s with db := s.db.sweepReports now, swept := s.db.reports.rows.filter (Db.isOld now) ++ s.swept }

def ack (s : State γ φ) (upTo : Nat) : State γ φ :=
  { s with
    db           := s.db.ackReports s.account.mailboxId upTo
    acknowledged := s.db.reports.rows.filter (Db.isAcked s.account.mailboxId upTo) ++ s.acknowledged }

-- A page's reports are opened, read and kept.
def record (s : State γ φ) (after pages : Nat) (reports : List (ReportRow γ)) (more : Bool)
    (opened : ReportRow γ → Option φ) (recording : Bool) (now : Millis) : State γ φ :=
  let listed := (reports.filter (0 < ·.id)).mergeSort ReportRow.le
  match listed.getLast? with
  | none      => { s with pull := none }
  | some last =>
    let read := listed.map fun r => (r.id, parse s.account opened r)
    { s with
      store := (s.store.recordReports recording (read.filterMap (·.2)) now).1
      pull  := some (.recorded after pages last.id read more) }

-- The tries that fail in a pull.
def unread (pull : Nat) (read : List (Nat × Option (NewReport φ))) : List (Nat × Nat) :=
  (read.filter fun e => e.2.isNone).map fun e => (pull, e.1)

-- The tries are counted, and how far the page may be acknowledged is told.
def acknowledge (s : State γ φ) (pages last : Nat) (read : List (Nat × Option (NewReport φ))) (more saved : Bool) :
    State γ φ :=
  let a := Acknowledgeable.acknowledgeable s.failures read
  let s := { s with
    failures := a.failures
    givenUp  := a.givenUp ++ s.givenUp
    failed   := unread s.pulls read ++ s.failed }
  if 0 < a.givenUp.length ∧ !saved then
    { s with pull := none }
  else
    let s := { s with unreadable := min (s.unreadable + a.givenUp.length) (2 ^ 32 - 1) }
    match a.upTo with
    | none      => { s with pull := none }
    | some upTo => { s with pull := some (.acking upTo pages last more), acks := upTo :: s.acks }

-- What follows a report that was held back comes again at the next pull.
def turn (s : State γ φ) (upTo pages last : Nat) (more : Bool) : State γ φ :=
  { s with pull := if upTo ≠ last ∨ !more ∨ pages ≤ 1 then none else some (.asking last (pages - 1)) }

def step (s : State γ φ) : Action γ φ → Option (State γ φ)
  | .file r now => do
    let r := { r with id := s.db.nextId, receivedAt := now }
    let (db, dropped) ← s.db.file r now
    return { s.sweep now with db, filed := r :: s.filed, dropped := dropped ++ s.dropped }
  | .sweep now               => some (s.sweep now)
  | .ackOther mailboxId upTo =>
    if mailboxId = s.account.mailboxId then none else some { s with db := s.db.ackReports mailboxId upTo }
  | .start =>
    match s.pull with
    | none   => some { s with pull := some (.asking 0 MAX_PAGES), pulls := s.pulls + 1 }
    | some _ => none
  | .list now =>
    match s.pull with
    | some (.asking after pages) =>
      let (_, reports, more) := s.db.list s.account.mailboxId after PAGE now
      some { s.sweep now with pull := some (.listed after pages reports more) }
    | _ => none
  | .record opened recording now =>
    match s.pull with
    | some (.listed after pages reports more) => some (s.record after pages reports more opened recording now)
    | _                                       => none
  | .acknowledge saved =>
    match s.pull with
    | some (.recorded _ pages last read more) => some (s.acknowledge pages last read more saved)
    | _                                       => none
  | .acked =>
    match s.pull with
    | some (.acking upTo pages last more) => some ((s.ack upTo).turn upTo pages last more)
    | _                                   => none
  | .deliver upTo => if upTo ∈ s.acks then some (s.ack upTo) else none
  | .fail         => some { s with pull := none }
  | .restart      => some { s with pull := none, failures := fun _ => 0 }

-- How often a report is recorded, and how often an AI composition is made of it.
def recorded (s : State γ φ) (r : ReportRow γ) : Nat :=
  s.store.cloudReports.count fun kept => kept.server = s.account.server ∧ kept.serverId = r.id

def composed (s : State γ φ) (r : ReportRow γ) : Nat :=
  s.store.compositions.count fun c => c.report.server = s.account.server ∧ c.report.serverId = r.id

-- The pulls in which the app failed to read a report.
def failedPulls (s : State γ φ) (id : Nat) : List Nat :=
  (s.failed.filter (·.2 = id)).map (·.1)

end State

def system (γ φ : Type) : System (State γ φ) (Action γ φ) where
  Start s := ∃ account, s = { account }
  step    := State.step

end Kaluta.Reports
