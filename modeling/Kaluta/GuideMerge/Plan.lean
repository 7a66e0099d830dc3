import Kaluta.Guide.Rescoped

-- Merging a writing guide into an account: what is the same is skipped, what is on other points is added, and where the
-- two differ an agent writes decisions.
namespace Kaluta.GuideMerge

open Guide (Unicode norm EntryId EntryRow Fields Edit)

-- What the agent's answer says, as far as it can be read as JSON.
inductive Value
  | null
  | bool (b : Bool)
  -- A number, where it is one that fits an `i64`.
  | number (i : Option Int)
  | string (s : String)
  | array (vs : List Value)
  | object (fields : List (String × Value))

namespace Value

def get (key : String) : Value → Option Value
  | object fields => (fields.find? (·.1 = key)).map (·.2)
  | _             => none

def asArray : Value → List Value
  | array vs => vs
  | _        => []

def asI64 : Value → Option Int
  | number i => i
  | _        => none

def asStr : Value → Option String
  | string s => some s
  | _        => none

end Value

-- One point where the guides differ: keep this account's entries, or take the incoming ones.
structure Decision where
  point    : String
  summary  : String
  mine     : List EntryRow
  incoming : List Fields

-- One category where the guides differ.
structure Conflict where
  category : String
  mine     : List EntryRow
  incoming : List Fields

structure Plan where
  additions : List Fields
  identical : Nat
  decisions : List Decision

section Plans

variable [Unicode]

def same (a : Fields) (b : EntryRow) : Bool :=
  a.category = b.category && norm a.statement = norm b.statement

-- Puts an entry to the conflict of its category, or begins one.
def addConflict (e : Fields) (here : List EntryRow) : List Conflict → List Conflict
  | []      => [{ category := e.category, mine := here, incoming := [e] }]
  | c :: cs =>
    if c.category = e.category then { c with incoming := c.incoming ++ [e] } :: cs
    else c :: addConflict e here cs

structure Split where
  additions : List Fields := []
  identical : Nat := 0
  conflicts : List Conflict := []

def splitOne (mine : List EntryRow) (split : Split) (e : Fields) : Split :=
  if mine.any (same e) then { split with identical := split.identical + 1 }
  else
    let here := mine.filter (·.category = e.category)
    if here.isEmpty && !e.category.startsWith "F" then { split with additions := split.additions ++ [e] }
    else { split with conflicts := addConflict e here split.conflicts }

-- The deterministic part of a plan. F entries are always conflicts.
def split (mine : List EntryRow) (incoming : List Fields) : Split :=
  incoming.foldl (splitOne mine) {}

end Plans

-- `categoryName` is the table of the categories' names.
section Decisions

variable (categoryName : String → String)

def fallback (conflicts : List Conflict) : List Decision :=
  conflicts.map fun c =>
    let summary := match c.mine.head?, c.incoming.head? with
      | some m, some i => "Here: " ++ m.statement ++ " Incoming: " ++ i.statement
      | none, some i   => "Incoming: " ++ i.statement
      | _, none        => ""
    { point := c.category ++ " " ++ categoryName c.category, summary, mine := c.mine, incoming := c.incoming }

-- Of the ids that an answer names, the entries that no decision has named before.
def takeMine (all : List EntryRow) : List EntryId → List Int → List EntryRow × List EntryId
  | used, []        => ([], used)
  | used, id :: ids =>
    match all.find? fun m => (m.id : Int) = id with
    | none   => takeMine all used ids
    | some m =>
      if m.id ∈ used then takeMine all used ids
      else
        let (ms, used) := takeMine all (m.id :: used) ids
        (m :: ms, used)

def takeIncoming (all : List Fields) : List Nat → List Int → List Fields × List Nat
  | used, []      => ([], used)
  | used, i :: is =>
    if h : 0 ≤ i ∧ i.toNat < all.length ∧ i.toNat ∉ used then
      let (es, used) := takeIncoming all (i.toNat :: used) is
      (all.get ⟨i.toNat, h.right.left⟩ :: es, used)
    else takeIncoming all used is

structure Reading where
  usedMine     : List EntryId := []
  usedIncoming : List Nat := []
  out          : List Decision := []

-- A decision without an incoming entry is left out, and what it names of this account's entries is used up.
def readOne (mineAll : List EntryRow) (incomingAll : List Fields) (r : Reading) (d : Value) : Reading :=
  let ids (key : String) := (d.get key).elim [] fun v => v.asArray.filterMap Value.asI64
  let (mine, usedMine) := takeMine mineAll r.usedMine (ids "mine")
  let (incoming, usedIncoming) := takeIncoming incomingAll r.usedIncoming (ids "incoming")
  if incoming.isEmpty then { r with usedMine, usedIncoming }
  else
    let text (key : String) := Guide.cleanText (((d.get key).bind Value.asStr).getD "")
    { usedMine, usedIncoming, out := r.out ++ [{ point := text "point", summary := text "summary", mine, incoming }] }

-- What no decision of the agent has.
def unused (offset : Nat) (used : List Nat) (incoming : List Fields) : List Fields :=
  ((incoming.zipIdx offset).filter (·.2 ∉ used)).map (·.1)

def rest (r : Reading) : Nat → List Conflict → List Conflict
  | _, []           => []
  | offset, c :: cs =>
    let left := unused offset r.usedIncoming c.incoming
    let others := rest r (offset + c.incoming.length) cs
    if left.isEmpty then others
    else { c with mine := c.mine.filter (·.id ∉ r.usedMine), incoming := left } :: others

-- Reads the agent's decisions; entries it left out get a decision of their own per category.
def parse (value : Value) (conflicts : List Conflict) : List Decision :=
  let mineAll := conflicts.flatMap (·.mine)
  let incomingAll := conflicts.flatMap (·.incoming)
  let decisions := (value.get "decisions").elim [] Value.asArray
  let r := decisions.foldl (readOne mineAll incomingAll) {}
  r.out ++ fallback categoryName (rest r 0 conflicts)

-- The plan of a merge of entries other than F3. `answer` is the first object with decisions in the agent's text.
def planGuideMerge [Unicode] (mine : List EntryRow) (incoming : List Fields) (answer : Option Value) : Plan :=
  let s := split mine incoming
  let decisions :=
    if s.conflicts.isEmpty then []
    else if mine.isEmpty then fallback categoryName s.conflicts
    else (answer.map (parse categoryName · s.conflicts)).getD (fallback categoryName s.conflicts)
  { additions := s.additions, identical := s.identical, decisions }

end Decisions

-- What the user chooses for a decision.
inductive Choice
  | mine
  | theirs
  | both (audience : String)

-- The edits that make the merge: the additions that are not skipped, and what the choices say.
def edits (plan : Plan) (origin : String) (skipped : Nat → Bool) (choices : Nat → Option Choice) : List Edit :=
  let add (fields : Fields) : Edit := .add fields .accepted .merged (some origin)
  ((plan.additions.zipIdx.filter fun e => !skipped e.2).map fun e => add e.1) ++
    plan.decisions.zipIdx.flatMap fun (d, i) =>
      match choices i with
      | some .theirs          => d.mine.map (fun m => .delete m.id) ++ d.incoming.map add
      | some (.both audience) => d.incoming.map fun f => add { f with scope := { f.scope with groups := [audience] } }
      | some .mine            => []
      | none                  => []

end Kaluta.GuideMerge
