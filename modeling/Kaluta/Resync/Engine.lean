import Kaluta.Download.Queue
import Kaluta.Lib.Execution

-- The resync of an account whose history cursor has expired, and what it catches up with.
namespace Kaluta.Resync

open Download (Phase SyncWindow phasesFor queuePriority HEADERS_ONLY)

structure Mail where
  id     : String
  labels : List String
  -- What the phases' searches look at besides the labels.
  age    : Nat
  deriving DecidableEq

inductive Instr
  -- Stores the fresh cursor. The account is not bootstrapped any more.
  | writeCursor
  | phase (phase : Phase) (refetch : Bool)
  | pages (phase : Phase) (refetch : Bool)
  | setBootstrapped
  -- A batch is fetched and stored, whole or its headers.
  | fetch
  | store (full : Bool)
  deriving DecidableEq

def Instr.lists : Instr → Bool
  | .phase _ _ | .pages _ _ => true
  | _                       => false

-- Whether an instruction lists what is to be fetched anew.
def Instr.refetches : Instr → Bool
  | .phase _ refetch | .pages _ refetch => refetch
  | _                                   => false

structure Call where
  id          : Nat
  prog        : List Instr
  headersFrom : Option Nat := none
  -- Listed or taken from the queue.
  ids         : List String := []
  fetched     : List Mail := []

structure State where
  db      : Download.Db := {}
  -- The labels of what is stored.
  labels  : String → List String := fun _ => []
  mail    : Table Mail Mail.id := ∅
  -- Whether the stored cursor is too old for the server.
  expired : Bool := false
  calls   : Table Call Call.id := ∅

inductive Action
  -- Incremental sync finds the cursor expired.
  | startResync (headersFrom : Option Nat)
  | bootstrap (headersFrom : Option Nat)
  | backfillBatch (ids : List String)
  | headersPass (ids : List String)
  | goOn (call answer : Nat)
  -- A call fails, or the program ends.
  | fail (call : Nat)
  | restart
  -- The cursor expires, and the server's mail changes.
  | expire
  | changed (mail : Table Mail Mail.id)

-- Whether a call has still to list what is to be fetched anew.
def Call.refetches (c : Call) : Bool :=
  c.prog.any (·.refetches)

section Programs

variable (window : SyncWindow)

def listPhases (refetch : Bool) : List Instr :=
  (phasesFor window).map (.phase · refetch)

def startResync : List Instr :=
  .writeCursor :: (listPhases window true ++ [.setBootstrapped])

def bootstrap : List Instr :=
  listPhases window false ++ [.setBootstrapped]

end Programs

namespace State

variable (window : SyncWindow) (found : Phase → Mail → Bool) (s : State)

def begin (prog : List Instr) (headersFrom : Option Nat) (ids : List String) : State :=
  { s with calls := s.calls.insertRow (fun id => { id, prog, headersFrom, ids }) fun _ => rfl }

def put (c : Call) : State :=
  { s with calls := s.calls.replace c }

def drop (c : Call) : State :=
  { s with calls := s.calls.delete (·.id = c.id) }

-- What the server has of a batch.
def has (ids : List String) : List Mail :=
  s.mail.rows.filter (·.id ∈ ids)

-- Stores what was fetched, with its labels, and takes the batch from the queue.
def storeFetched (full : Bool) (ids : List String) (fetched : List Mail) : State :=
  let db := s.db.store full (fetched.map (·.id))
  { s with
    db     := if full then db.remove ids else db.removeHeadersOnly ids
    labels := fun id => ((fetched.find? (·.id = id)).map (·.labels)).getD (s.labels id) }

-- The next instruction of a call. The answer says how many ids a page has.
def exec (c : Call) (answer : Nat) : State :=
  match c.prog with
  | []                           => s.drop c
  | .writeCursor :: prog         =>
    { s with db := { s.db with bootstrapped := false }, expired := false }.put { c with prog }
  | .phase phase refetch :: prog =>
    s.put { c with prog := .pages phase refetch :: prog, ids := (s.mail.rows.filter (found phase ·)).map (·.id) }
  | .pages phase refetch :: prog =>
    let ids := c.ids.drop answer
    { s with db := s.db.enqueue (queuePriority phase c.headersFrom) (c.ids.take answer) refetch }.put
      { c with prog := if ids = [] then prog else c.prog, ids }
  | .setBootstrapped :: prog     => { s with db := { s.db with bootstrapped := true } }.put { c with prog }
  | .fetch :: prog               => s.put { c with prog, fetched := s.has c.ids }
  | .store full :: prog          => (s.storeFetched full c.ids c.fetched).put { c with prog }

def step (a : Action) : Option State :=
  match a with
  | .startResync headersFrom =>
    if s.expired then some (s.begin (Resync.startResync window) headersFrom []) else none
  | .bootstrap headersFrom   => some (s.begin (Resync.bootstrap window) headersFrom [])
  | .backfillBatch ids       =>
    if ids.all fun id => (s.db.queue.find? id).any (·.priority < HEADERS_ONLY) then
      some (s.begin [.fetch, .store true] none ids)
    else none
  | .headersPass ids         =>
    if ids.all fun id => (s.db.queue.find? id).any fun q => q.priority ≥ HEADERS_ONLY || !s.db.has HEADERS_ONLY id then
      some (s.begin [.fetch, .store false] none ids)
    else none
  | .goOn call answer        => (s.calls.find? call).map fun c => s.exec found c answer
  | .fail call               => (s.calls.find? call).map s.drop
  | .restart                 => some { s with calls := ∅ }
  | .expire                  => some { s with expired := true }
  | .changed mail            => if s.expired then some { s with mail } else none

-- Whether no listing is under way.
def quiet : Bool :=
  s.calls.rows.all fun c => c.prog.all fun i => i = .fetch ∨ i = .store true ∨ i = .store false

-- A stored message is on the server, with the server's labels.
def Exact (id : String) : Prop :=
  ∃ m ∈ s.mail, m.id = id ∧ s.labels id = m.labels

-- Once the account reports itself bootstrapped, the queue is empty and incremental sync has caught up, every stored
-- message is as it is on the server, and every message of the window is stored.
structure CaughtUp : Prop where
  exact : ∀ m ∈ s.db.messages, s.Exact m.id
  whole : ∀ m ∈ s.mail, ∀ p ∈ phasesFor window, found p m = true → ∃ row ∈ s.db.messages, row.id = m.id

def CatchesUp : Prop :=
  s.db.bootstrapped = true → s.db.queue.rows = [] → s.expired = false → s.quiet = true → s.CaughtUp window found

end State

-- `found` is the server's search.
def resyncs (window : SyncWindow) (found : Phase → Mail → Bool) : System State Action where
  Start s := s.calls = ∅ ∧ s.expired = true
  step s  := s.step window found

namespace State

variable (window : SyncWindow) (found : Phase → Mail → Bool) (s : State)

-- Whether a stored message is as it is on the server, or will be when its turn in the queue comes.
def current (id : String) : Bool :=
  (s.mail.find? id).any fun m => s.labels id = m.labels || (s.db.queue.find? id).isSome

-- When the fresh cursor is stored, every stored message is on the server, and one that changed is queued or in the
-- window; and no first listing is under way. What a batch stores is what the server has.
def goesOn (c : Call) : Bool :=
  match c.prog with
  | .writeCursor :: _ => (s.db.messages.rows.all fun row => s.current row.id ||
      (s.mail.find? row.id).any fun m => (phasesFor window).any (found · m)) &&
    s.calls.rows.all fun d => d.id = c.id || !d.prog.contains .setBootstrapped
  | .store _ :: _     => s.expired || c.fetched = s.has c.ids
  | _                 => true

-- A resync is broken off only when every stored message that changed has been queued.
def cond : Action → Bool
  | .goOn call _ => (s.calls.find? call).all (s.goesOn window found)
  | .fail call   => s.expired || !(s.calls.find? call).any (·.refetches) || s.db.messages.rows.all (s.current ·.id)
  | .restart     => s.expired || !s.calls.rows.any (·.refetches) || s.db.messages.rows.all (s.current ·.id)
  | _            => true

end State

end Kaluta.Resync
