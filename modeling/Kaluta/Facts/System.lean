import Kaluta.Facts.Change
import Kaluta.Lib.Execution
import Mathlib.Logic.Function.Basic

-- An account's facts and the global ones, and the calls that change them: each writes to one store at a time, and
-- what it read or wrote before may have changed by then.
namespace Kaluta.Facts

open Guide (Unicode toLowercase eqIgnoreAsciiCase trim cleanText)

inductive Scope
  | account
  | global
  deriving DecidableEq

def Scope.other : Scope → Scope
  | account => global
  | global  => account

-- A row's place: ids are a store's own.
abbrev Place := Scope × FactId

-- A call that has begun, by the write that it does next.
inductive Call
  | applying (scope : Scope) (edits : List FactEdit) (categoryEdits : List CategoryEdit) (reason : String)
  -- Moves a fact: the other side first, then the account's side with the record, and last the global side.
  | copying (target : Scope) (fact : FactRow) (quotes : List FactEvidence) (category : Option CategoryRow)
  | recording (target : Scope) (fact : FactRow) (quotes : List FactEvidence) (moved : FactRow × List FactEvidence)
      (before after : Option CategoryRow)
  | removing (fact moved : FactRow)
  -- Undoes or redoes a change: the side that gets the fact back first.
  | replaying (scope : Scope) (change : Change) (undo : Bool)
  | finishing (scope : Scope) (change : Change) (undo : Bool)
  deriving DecidableEq

structure State where
  account : Db := {}
  global  : Db := {}
  calls   : List Call := []
  -- Where the fact of a row was first: a moved fact is the one that it was.
  origin  : Place → Place := id

namespace State

def store (s : State) : Scope → Db
  | .account => s.account
  | .global  => s.global

def setStore (s : State) : Scope → Db → State
  | .account, db => { s with account := db }
  | .global , db => { s with global := db }

-- For an account its own and the global custom categories, for the global store its own.
def categoriesFor (s : State) (scope : Scope) : List String :=
  categoriesFrom (s.store scope) ++ categoriesFrom s.global

end State

-- The fact ids and category keys on both sides of a change.
def touched (a b : List (FactRow × List FactEvidence)) (ca cb : List CategoryRow) : List FactId × List String :=
  (((a ++ b).map (·.1.id)).dedup, ((ca ++ cb).map (·.key)).dedup)

namespace Change

def target (c : Change) (undo : Bool) : Snapshot :=
  if undo then c.before else c.after

-- The change's own side.
def restoreHere (c : Change) (undo : Bool) (db : Db) : Except String Db :=
  let (ids, keys) := touched c.before.facts c.after.facts c.before.categories c.after.categories
  db.restore ids keys (c.target undo)

-- A move between stores: the global side goes back too.
def restoreGlobal (c : Change) (undo : Bool) (db : Db) : Except String Db :=
  let (ids, keys) :=
    touched c.before.globalFacts c.after.globalFacts c.before.globalCategories c.after.globalCategories
  db.restore ids keys { facts := (c.target undo).globalFacts, categories := (c.target undo).globalCategories }

def restoreSide (c : Change) (undo here : Bool) (db : Db) : Except String Db :=
  if here then c.restoreHere undo db else c.restoreGlobal undo db

-- Whether the side that gets the fact back is the change's own.
def hereFirst (c : Change) (undo : Bool) : Bool :=
  (c.target undo).globalFacts = []

end Change

namespace Db

-- What a move reads of a fact: its category goes with it when it is a custom one.
def readFact (db : Db) (id : FactId) : Except String (FactRow × List FactEvidence × Option CategoryRow) :=
  match db.get id with
  | none   => throw "that fact is gone"
  | some f => pure (f, db.evidenceOf id, if (builtin f.category).isNone then db.getCategory f.category else none)

-- A fact's category is copied where it lacks.
def withCategory (db : Db) : Option CategoryRow → Db
  | none   => db
  | some c => if (db.getCategory c.key).isNone then db.putCategory c else db

-- The side that a fact is moved to.
def copyFact (db : Db) (target : Scope) (f : FactRow) (quotes : List FactEvidence) (category : Option CategoryRow)
    (now : Millis) : Except String (Db × (FactRow × List FactEvidence) × Option CategoryRow × Option CategoryRow) := do
  if (db.list [.accepted]).any fun o =>
      o.category = f.category ∧ eqIgnoreAsciiCase o.label f.label ∧ f.status = .accepted then
    throw "it is there already; change or delete one first"
  let before := category.bind (db.getCategory ·.key)
  let (db, id) ← (db.withCategory category).insert { f with id := 0, updatedAt := now }
  -- Quotes are from one account's mail: the global copy has none.
  let db := if target = .account then db.addEvidence id quotes else db
  pure (db, ((db.get id).getD default, db.evidenceOf id), before, category.bind (db.getCategory ·.key))

-- The row that a move takes away, as it is now and not as first read.
def gone (db : Db) (f : FactRow) (quotes : List FactEvidence) : FactRow × List FactEvidence :=
  match db.get f.id with
  | some now => (now, db.evidenceOf now.id)
  | none     => (f, quotes)

-- The account's side of a move, and the record of it.
def recordMove (db : Db) (target : Scope) (f : FactRow) (quotes : List FactEvidence)
    (moved : FactRow × List FactEvidence) (before after : Option CategoryRow) : Db :=
  match target with
  | .global  =>
    let gone := db.gone f quotes
    ((db.delete gone.1.id).recordChange "make global"
      { facts := [gone], globalCategories := before.toList }
      { globalFacts := [moved], globalCategories := after.toList }).1
  | .account =>
    (db.recordChange "make this account's only"
      { globalFacts := [(f, quotes)], categories := before.toList }
      { facts := [moved], categories := after.toList }).1

end Db

inductive Action
  | apply (scope : Scope) (edits : List FactEdit) (categoryEdits : List CategoryEdit) (reason : String)
  | move (id : FactId) (target : Scope)
  | replay (scope : Scope) (id : ChangeId) (undo : Bool)
  | go (i : Nat) (now : Millis) -- A call's next write.
  | stop (i : Nat)              -- A write fails, and with it the call.
  | crash
  deriving DecidableEq

namespace State

variable [Letters]

def begin_ (s : State) (call : Call) : State :=
  { s with calls := s.calls ++ [call] }

def finish (s : State) (i : Nat) : State :=
  { s with calls := s.calls.eraseIdx i }

-- A transaction of a call; when it fails, nothing was written and the call is over.
def attempt (s : State) (i : Nat) (scope : Scope) (tx : Db → Except String Db) (next : Option Call) : State :=
  match tx (s.store scope) with
  | .error _ => s.finish i
  | .ok db   =>
    match next with
    | none      => (s.setStore scope db).finish i
    | some call => { s.setStore scope db with calls := s.calls.set i call }

def copy (s : State) (i : Nat) (target : Scope) (f : FactRow) (quotes : List FactEvidence)
    (category : Option CategoryRow) (now : Millis) : State :=
  match (s.store target).copyFact target f quotes category now with
  | .error _                           => s.finish i
  | .ok (db, moved, before, after) =>
    { s.setStore target db with
      calls  := s.calls.set i (.recording target f quotes moved before after)
      origin := Function.update s.origin (target, moved.1.id) (s.origin (target.other, f.id)) }

def go (s : State) (i : Nat) (now : Millis) : Call → State
  | .applying scope edits categoryEdits reason =>
    s.attempt i scope (fun db => (·.1) <$> db.applyFacts edits categoryEdits reason now) none
  | .copying target f quotes category => s.copy i target f quotes category now
  | .recording target f quotes moved before after =>
    s.attempt i .account (fun db => pure (db.recordMove target f quotes moved before after))
      (if target = .account then some (.removing f moved.1) else none)
  | .removing f _ => s.attempt i .global (fun db => pure (db.delete f.id)) none
  | .replaying scope change undo =>
    let here := change.hereFirst undo
    s.attempt i (if here then scope else .global) (change.restoreSide undo here) (some (.finishing scope change undo))
  | .finishing scope change undo =>
    let here := !change.hereFirst undo
    s.attempt i (if here then scope else .global) (change.restoreSide undo here) none

def step (s : State) : Action → Option State
  | .apply scope edits categoryEdits reason =>
    if edits = [] ∧ categoryEdits = [] then none
    else
      match validate (s.categoriesFor scope) edits categoryEdits with
      | .error _ => none
      | .ok _    => some (s.begin_ (.applying scope edits categoryEdits reason))
  | .move id target =>
    match (s.store target.other).readFact id with
    | .error _                 => none
    | .ok (f, quotes, category) => some (s.begin_ (.copying target f quotes category))
  | .replay scope id undo => ((s.store scope).getChange id).map fun c => s.begin_ (.replaying scope c undo)
  | .go i now => s.calls[i]?.map (s.go i now)
  | .stop i => if i < s.calls.length then some (s.finish i) else none
  | .crash => some { s with calls := [] }

end State

-- Stores as they were made, without a call.
def facts [Letters] : System State Action where
  Start s := s = {}
  step    := State.step

end Kaluta.Facts
