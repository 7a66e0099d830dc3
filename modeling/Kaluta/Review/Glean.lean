import Kaluta.Lib.Execution
import Kaluta.Lib.Table
import Kaluta.Store.Basic
import Mathlib.Data.List.Sort

-- The last step of a review, which reads the mail that the user sent for facts, with gleaning set to all of it: what
-- it reads next is told by the time up to which it has read.
namespace Kaluta.Review.Glean

abbrev RunId     := Nat
abbrev MessageId := String

-- Messages per review.
def GLEAN_CAP : Nat := 30

def DAY : Millis := 24 * 60 * 60 * 1000

-- A message that the user sent, with their own words in it once its body is there.
structure Message where
  messageId : MessageId
  time      : Millis
  isLocal   : Bool := false -- A copy of a send not yet confirmed.
  text      : Option String := none
  deriving DecidableEq

-- What is left of a message that was read.
abbrev Reading := MessageId × Millis

def Message.reading (m : Message) : Reading :=
  (m.messageId, m.time)

inductive Phase
  | idle
  | asking (run : RunId) (chosen : List Message)
  | merging (run : RunId) (chosen : List Message)
  | writing (run : RunId) (chosen : List Message) -- The marker is not moved yet.
  deriving DecidableEq

structure State where
  messages    : Table Message (·.messageId) := ∅ -- In the order of their rowids.
  gleanedUntil : Option Millis := none
  gleanedRun  : Option RunId := none
  gleanUntil  : Option Millis := none            -- In memory.
  phase       : Phase := .idle
  began       : Option Millis := none            -- When the first review that gleaned started.
  read        : List Reading := []               -- Everything that was read, newest first.
  passed      : List Reading := []               -- What the marker moved past, once it was written.
  gleans      : Nat := 0                         -- How many reviews wrote that they gleaned.

inductive Action
  | store (m : Message)
  | remove (id : MessageId)
  | body (id : MessageId) (text : String)
  | glean (run : RunId) (startedAt : Millis)
  | answer (readable : Bool)
  | merge
  | write
  | fail  -- The agent, or a transaction.
  | crash

-- Oldest first; messages of one time as they were stored.
def State.sentSince (s : State) (since : Millis) : List Message :=
  (s.messages.rows.filter fun m => since ≤ m.time ∧ !m.isLocal).insertionSort (·.time ≤ ·.time)

def State.since (s : State) (startedAt : Millis) : Millis :=
  s.gleanedUntil.getD (startedAt - DAY)

def State.candidates (s : State) (startedAt : Millis) : List Message :=
  s.sentSince (s.since startedAt + 1)

def State.chosen (s : State) (startedAt : Millis) : List Message :=
  (s.candidates startedAt).take GLEAN_CAP

-- The readings of those whose words are known.
def readings (chosen : List Message) : List Reading :=
  (chosen.filter (·.text.isSome)).map (·.reading)

-- Words that are not blank.
def Message.hasWords (m : Message) : Bool :=
  m.text.any fun t => t.toList.any (!·.isWhitespace)

-- Chooses what to read. Messages without words are not sent to the agent.
def State.glean (s : State) (run : RunId) (startedAt : Millis) : State :=
  if s.gleanedRun = some run then s
  else
    let chosen := s.chosen startedAt
    let s := { s with
      gleanUntil := (chosen.getLast?.map Message.time).or s.gleanUntil
      began      := some (s.began.getD startedAt) }
    if chosen.any (·.hasWords) then { s with phase := .asking run chosen }
    else { s with phase := .writing run chosen, read := readings chosen ++ s.read }

def State.step (s : State) : Action → Option State
  | .store m              => some { s with messages := s.messages.insertOrIgnore m }
  | .remove id            => some { s with messages := s.messages.delete (·.messageId = id) }
  | .body id text         =>
    some { s with messages := s.messages.update (·.messageId = id) ({ · with text := some text }) fun _ => rfl }
  | .glean run startedAt  =>
    match s.phase with
    | .idle => some (s.glean run startedAt)
    | _     => none
  | .answer readable      =>
    match s.phase with
    | .asking run chosen =>
      -- An answer that cannot be read is skipped.
      let phase := if readable then .merging run chosen else .writing run chosen
      some { s with phase, read := readings chosen ++ s.read }
    | _                  => none
  | .merge                =>
    match s.phase with
    | .merging run chosen => some { s with phase := .writing run chosen }
    | _                   => none
  | .write                =>
    match s.phase with
    | .writing run chosen =>
      some { s with
        phase := .idle, gleanUntil := none, gleanedRun := some run, gleans := s.gleans + 1
        gleanedUntil := s.gleanUntil.or s.gleanedUntil, passed := chosen.map (·.reading) ++ s.passed }
    | _                   => none
  | .fail                 => some { s with phase := .idle }
  | .crash                => some { s with phase := .idle, gleanUntil := none }

def gleaning : System State Action where
  Start s := s = {}
  step    := State.step

end Kaluta.Review.Glean
