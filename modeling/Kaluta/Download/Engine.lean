import Kaluta.Download.Queue
import Kaluta.Lib.Execution

-- The calls of the engine that list the mailbox and drain the queue, a transaction or a read at a time.
namespace Kaluta.Download

structure Mail where
  id      : String
  -- What the phases' searches look at.
  content : Nat
  deriving DecidableEq

-- Which phases a listing lists: the Inbox's, the others, the window's own, all.
inductive Part
  | inbox
  | rest
  | own
  | all
  deriving DecidableEq

def Part.of (part : Part) (window : SyncWindow) : List Phase :=
  match part with
  | .inbox => (phasesFor window).take INBOX_PHASES
  | .rest  => (phasesFor window).drop INBOX_PHASES
  | .own   => (phasesFor window).drop FIXED_PHASES
  | .all   => phasesFor window

theorem Part.mem_phasesFor {part : Part} {window : SyncWindow} {phase : Phase} (h : phase ∈ part.of window) :
    phase ∈ phasesFor window := by
  cases part
  case inbox => exact List.mem_of_mem_take h
  case rest  => exact List.mem_of_mem_drop h
  case own   => exact List.mem_of_mem_drop h
  case all   => exact h

inductive Instr
  | setWindow (window : SyncWindow)
  | setBodyWindow (body : BodyWindow)
  | readCheap
  | widen (expectCheap : Bool)
  -- Drops what is queued beyond the shared phases; goes on only if the account is bootstrapped.
  | clear
  -- The reads that a listing starts with.
  | readTiered
  | readWaits
  | readBody
  | readWindow
  -- Records the window and the tiering.
  | record
  | compare
  | list (part : Part) (refetch : Bool)
  | phase (phase : Phase) (refetch : Bool)
  | pages (phase : Phase) (refetch : Bool)
  | writeTiers
  | writeWant
  | setBootstrapped (on : Bool)
  -- A backfill batch.
  | store
  -- A headers pass, whose source may refuse.
  | fetchHeaders
  | waits
  | promote
  deriving DecidableEq

-- Whether an instruction is part of a listing.
def Instr.relists : Instr → Bool
  | .clear | .readWindow | .list _ _ | .phase _ _ | .pages _ _ => true
  | _                                                         => false

-- What phase an instruction lists.
def Instr.lists : Instr → Option Phase
  | .phase p _ => some p
  | .pages p _ => some p
  | _          => none

structure Call where
  id          : Nat
  prog        : List Instr
  cheap       : Bool := false
  tiered      : Bool := false
  headersFrom : Option Nat := none
  window      : SyncWindow := .halfYear
  want        : String := ""
  -- Listed or taken from the queue.
  ids         : List String := []
  -- Clean Up's, which expects that headers are cheap.
  cleanup     : Bool := false
  -- Whether it has changed what is to be queued, and whether it lists the window from there on.
  changed     : Bool := false
  lists       : Bool := false

-- Whether a call has changed what is to be queued and has not listed it yet.
def Call.owes (c : Call) : Bool :=
  c.changed && c.prog.any (·.relists)

section Programs

def relistWindow : List Instr :=
  [.clear, .readTiered, .readWaits, .readBody, .readWindow, .list .own false, .writeTiers]

def ensureTiers : List Instr :=
  [.readTiered, .readWaits, .readBody, .compare] ++ relistWindow ++ [.writeWant]

def setWindow (window : SyncWindow) : List Instr :=
  .setWindow window :: relistWindow

def setBodyWindow (body : BodyWindow) : List Instr :=
  .setBodyWindow body :: ensureTiers

def loadEveryHeader (expectCheap : Bool) : List Instr :=
  [.readCheap, .widen expectCheap] ++ relistWindow

def bootstrapPrepare : List Instr :=
  [.readWindow, .readTiered, .readWaits, .readBody, .record, .list .inbox false]

def bootstrapListRest : List Instr :=
  [.readWindow, .readTiered, .readWaits, .readBody, .list .rest false, .setBootstrapped true]

def refetchAll : List Instr :=
  [.readTiered, .readWaits, .readBody, .readWindow, .list .all true]

def startResync : List Instr :=
  [.setBootstrapped false, .readTiered, .readWaits, .readBody, .readWindow, .list .all true, .setBootstrapped true]

end Programs

structure State where
  db     : Db := {}
  mail   : Table Mail Mail.id := ∅
  -- Whether the source fetches headers cheaply.
  cheap  : Bool := false
  calls  : Table Call Call.id := ∅
  -- The phases that are not Clean Up's, since it widened the window and until the user asks for more.
  inside : Option (List Phase) := none
  -- The messages that Clean Up queued, and those that changed on the server or were asked for.
  mine   : List String := []
  asked  : List String := []
  -- Whether sync has started, whether a call was broken off that owed a listing, and the tierings of what was queued
  -- since the window's own phases were cleared.
  syncing  : Bool := false
  broken   : Bool := false
  tierings : List (Option Nat) := []

inductive Action
  | bootstrapPrepare
  | bootstrapListRest
  | setWindow (window : SyncWindow)
  | setBodyWindow (body : BodyWindow)
  | loadEveryHeader (expectCheap : Bool)
  -- On an account that is not syncing.
  | loadEveryHeaderStored (cheap expectCheap : Bool)
  | loadWaitingHeaders
  | ensureTiers
  | refetchAll
  | startResync
  | backfillBatch (ids : List String)
  | headersPass (ids : List String)
  -- A call goes on; the answer says how many ids a page has, or whether headers come.
  | goOn (call answer : Nat)
  -- A call fails, or the program ends.
  | fail (call : Nat)
  | restart
  | setCheap (on : Bool)
  -- A message changes on the server, or is new there.
  | changed (mail : Mail)
  -- Changed messages and those the user opens are queued first.
  | urgent (ids : List String)
  -- The user opens or searches messages, which come whole.
  | opened (ids : List String)

namespace State

variable (found : Phase → Mail → Bool) (s : State)

def start (c : Nat → Call) (hc : ∀ n, (c n).id = n) : State :=
  { s with calls := s.calls.insertRow c hc }

def begin (prog : List Instr) (cleanup : Bool := false) : State :=
  s.start (fun id => { id, prog, cleanup }) fun _ => rfl

def waits : Bool :=
  s.db.cleanup = some .ask

-- The priority of a phase under the tiering of the stored body window.
def tiered (phase : Phase) : Nat :=
  queuePriority phase (s.db.bodyWindow.getD .month).headersFrom

-- The user asks for more: what Clean Up queued may come whole.
def userAsked : State :=
  { s with inside := none, mine := [] }

def without (ids : List String) : State :=
  { s with asked := ids ++ s.asked, mine := s.mine.filter (· ∉ ids) }

-- The phases that a wider window does not bring as Clean Up's: those listed already, and for a caller that does not
-- expect cheap headers those that get bodies.
def insideOf (window : SyncWindow) (body : BodyWindow) (expectCheap : Bool) : List Phase :=
  phasesFor window ++ if expectCheap then [] else
    (phasesFor .everything).filter (queuePriority · body.headersFrom < HEADERS_ONLY)

-- `widen_stored`: nothing if the window is everything already, or the caller has to ask.
def widenStored (cheap expectCheap : Bool) : Option State :=
  let window := s.db.window.getD .halfYear
  if window = .everything ∨ expectCheap ∧ ¬cheap then none
  else
    let body := s.db.bodyWindow.getD .month
    let kept := if cheap then body.keptFrom window else body
    some { s with
      db     := { s.db with
        bodyWindow := if kept ≠ body then some kept else s.db.bodyWindow, window := some .everything
        cleanup := some (if cheap then .ask else .no) }
      inside := if cheap then some (insideOf window kept expectCheap) else none
      mine   := if cheap then s.mine else [] }

-- The ids of a page go into the queue. Those that Clean Up's window brings are its own.
def enqueuePage (c : Call) (phase : Phase) (refetch : Bool) (page : List String) : State :=
  let priority := queuePriority phase c.headersFrom
  let db := s.db.enqueue priority page refetch
  let new (id : String) : Bool := (s.db.queue.find? id).isNone ∧ (db.queue.find? id).isSome ∧ id ∉ s.asked
  let own (inside : List Phase) (id : String) : Bool :=
    (s.mail.find? id).all fun m => inside.all (!found · m)
  { s with
    db
    tierings := c.headersFrom :: s.tierings
    mine := s.mine ++ match s.inside with
      | some inside => page.filter fun id => new id && own inside id && (priority ≥ HEADERS_ONLY || c.cleanup)
      | none        => [] }

def put (c : Call) : State :=
  { s with calls := s.calls.replace c }

theorem mem_put {s : State} {c c' : Call} (h : c' ∈ (s.put c).calls) : c' ∈ s.calls ∨ c' = c :=
  (Table.mem_replace.mp h).imp_left And.left

theorem mem_put_of_ne {s : State} {c d : Call} (h : d ∈ s.calls) (ne : d.id ≠ c.id) : d ∈ (s.put c).calls :=
  Table.mem_replace.mpr (.inl ⟨h, ne⟩)

theorem mem_put_self {s : State} {c : Call} : c ∈ (s.put c).calls :=
  Table.mem_replace.mpr (.inr rfl)

def drop (c : Call) : State :=
  { s with calls := s.calls.delete (·.id = c.id) }

-- The next instruction of a call.
def exec (c : Call) (answer : Nat) : State :=
  match c.prog with
  | []                                => s.drop c
  | .setWindow window :: prog         =>
    State.userAsked { s with db := { s.db with window := some window, cleanup := some .no } } |>.put
      { c with prog, changed := true, lists := true }
  | .setBodyWindow body :: prog       =>
    State.userAsked { s with db := { s.db with bodyWindow := some body } } |>.put { c with prog, changed := true }
  | .readCheap :: prog                => s.put { c with prog, cheap := s.cheap }
  | .widen expectCheap :: prog        =>
    match s.widenStored c.cheap expectCheap with
    | some s => s.put { c with prog, changed := true, lists := true }
    | none   => s.put { c with prog := [] }
  | .clear :: prog                    =>
    if s.db.bootstrapped then
      { s with db := s.db.clearFromPriority WINDOW_PRIORITY, broken := false, tierings := [] }.put
        { c with prog, changed := true, lists := true }
    else { s with db := s.db.clearFromPriority WINDOW_PRIORITY }.put { c with prog := prog.filter (· = Instr.writeWant) }
  | .readTiered :: prog               => s.put { c with prog, tiered := s.cheap }
  | .readWaits :: prog                => s.put { c with prog, tiered := c.tiered || s.waits }
  | .readBody :: prog                 =>
    s.put { c with prog, headersFrom := if c.tiered then (s.db.bodyWindow.getD .month).headersFrom else none }
  | .readWindow :: prog               => s.put { c with prog, window := s.db.window.getD .halfYear }
  | .record :: prog                   =>
    { s with db := { s.db with window := some c.window, tiers := some (tiersTag c.headersFrom) } }.put { c with prog }
  | .compare :: prog                  =>
    let want := tiersTag c.headersFrom
    s.put { c with want, prog := if s.db.tiers.getD "flat" = want then [.writeWant] else prog }
  | .list part refetch :: prog        =>
    s.put { c with prog := (part.of c.window).map (.phase · refetch) ++ prog }
  | .phase phase refetch :: prog      =>
    s.put { c with prog := .pages phase refetch :: prog, ids := (s.mail.rows.filter (found phase ·)).map (·.id) }
  | .pages phase refetch :: prog      =>
    let ids := c.ids.drop answer
    (s.enqueuePage found c phase refetch (c.ids.take answer)).put
      { c with prog := if ids = [] then prog else c.prog, ids }
  | .writeTiers :: prog               =>
    { s with db := { s.db with tiers := some (tiersTag c.headersFrom) } }.put { c with prog }
  | .writeWant :: prog                =>
    { s with db := { s.db with tiers := some c.want }, syncing := s.syncing || s.db.bootstrapped }.put { c with prog }
  | .setBootstrapped on :: prog       =>
    { s with db := { s.db with bootstrapped := on }, syncing := s.syncing || on }.put { c with prog }
  | .store :: prog                    =>
    { s with db := (s.db.store true (c.ids.filter fun id => (s.mail.find? id).isSome)).remove c.ids }.put { c with prog }
  | .fetchHeaders :: prog             =>
    if answer > 0 then
      { s with db := (s.db.store false (c.ids.filter fun id => (s.mail.find? id).isSome)).removeHeadersOnly c.ids }.put
        { c with prog := [] }
    else s.put { c with prog := if s.cheap then [] else prog }
  | .waits :: prog                    => s.put { c with prog := if s.waits then [] else prog }
  | .promote :: prog                  => { s with db := s.db.promoteHeadersOnly }.put { c with prog }

def step (a : Action) : Option State :=
  match a with
  | .bootstrapPrepare            => some (s.begin Download.bootstrapPrepare)
  | .bootstrapListRest           =>
    some (State.start { s with broken := false, tierings := [] }
      (fun id => { id, prog := Download.bootstrapListRest, changed := true, lists := true }) fun _ => rfl)
  | .setWindow window            => some (s.begin (Download.setWindow window))
  | .setBodyWindow body          => some (s.begin (Download.setBodyWindow body))
  | .loadEveryHeader expectCheap => some (s.begin (Download.loadEveryHeader expectCheap) expectCheap)
  | .loadEveryHeaderStored cheap expectCheap => do
    let s ← s.widenStored cheap expectCheap
    some { s with db := { s.db with tiers := some "stale" }, broken := true }
  | .loadWaitingHeaders          =>
    some (State.userAsked { s with db := { s.db.promoteHeadersOnly with cleanup := some .no } })
  | .ensureTiers                 => some (s.begin Download.ensureTiers)
  | .refetchAll                  => some (s.begin Download.refetchAll)
  | .startResync                 => some (s.begin Download.startResync)
  | .backfillBatch ids           =>
    if ids.all fun id => (s.db.queue.find? id).any (·.priority < HEADERS_ONLY) then
      some (s.start (fun id => { id, prog := [.store], ids }) fun _ => rfl)
    else none
  | .headersPass ids             =>
    if ids.all fun id => (s.db.queue.find? id).any fun q => q.priority ≥ HEADERS_ONLY || !s.db.has HEADERS_ONLY id then
      some (s.start (fun id => { id, prog := [.fetchHeaders, .waits, .promote], ids }) fun _ => rfl)
    else none
  | .goOn call answer            => (s.calls.find? call).map fun c => s.exec found c answer
  | .fail call                   =>
    (s.calls.find? call).map fun c => State.drop { s with broken := s.broken || c.owes } c
  | .restart                     =>
    some { s with calls := ∅, syncing := false, broken := s.broken || s.calls.rows.any (·.owes) }
  | .setCheap on                 => some { s with cheap := on }
  | .changed mail                => some (State.without { s with mail := s.mail.replace mail } [mail.id])
  | .urgent ids                  => some (State.without { s with db := s.db.enqueueUrgent ids } ids)
  | .opened ids                  => some (State.without { s with db := (s.db.store true ids).remove ids } ids)

end State

-- `found` is the server's search.
def engine (found : Phase → Mail → Bool) : System State Action where
  Start s := s.calls = ∅ ∧ s.inside = none ∧ s.mine = [] ∧ s.asked = []
  step s  := s.step found

end Kaluta.Download
