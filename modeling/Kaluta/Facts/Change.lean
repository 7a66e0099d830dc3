import Mathlib.Algebra.GroupWithZero.Nat
import Kaluta.Guide.Entry
import Kaluta.Lib.Fallible
import Kaluta.Lib.Table

-- Facts about the user, as a store has them: an account's store and the global one have the same tables.
namespace Kaluta.Facts

open Guide (Unicode toLowercase eqIgnoreAsciiCase trim cleanText)

abbrev FactId   := Nat
abbrev ChangeId := Nat

inductive Use
  | free
  | ask
  | never
  deriving DecidableEq, Inhabited

inductive Source
  | you
  | learned
  | writingHelp
  deriving DecidableEq, Inhabited

inductive Status
  | proposed
  | accepted
  | rejected
  deriving DecidableEq, Inhabited

structure FactRow where
  id             : FactId := 0
  category       : String
  label          : String
  value          : String
  use_           : Use := .free
  asOf           : Option Millis := none
  source         : Source := .you
  status         : Status := .accepted
  createdAt      : Millis := 0
  updatedAt      : Millis := 0
  shareWithCloud : Option Bool := none -- None follows the default for its use and store.
  deriving DecidableEq, Inhabited

-- A custom category, or a built-in one's stored state.
structure CategoryRow where
  key         : String
  name        : String
  description : String := ""
  position    : Int := 0
  builtin     : Bool := false
  hidden      : Bool := false
  createdAt   : Millis := 0
  deriving DecidableEq

structure FactEvidence where
  messageId : MessageId
  quote     : String
  deriving DecidableEq

structure Evidence extends FactEvidence where
  factId : FactId
  deriving DecidableEq

-- What a change touched, and the global store's side of it when it moved a fact between the stores.
structure Snapshot where
  facts            : List (FactRow × List FactEvidence) := []
  categories       : List CategoryRow := []
  globalFacts      : List (FactRow × List FactEvidence) := []
  globalCategories : List CategoryRow := []
  deriving DecidableEq

structure Change where
  id     : ChangeId
  reason : String
  before : Snapshot
  after  : Snapshot
  deriving DecidableEq

structure Db where
  facts      : Table FactRow (·.id) := ∅
  lastFactId : FactId := 0
  evidence   : Table Evidence (fun e => (e.factId, e.messageId)) := ∅
  categories : Table CategoryRow (·.key) := ∅
  changes    : List Change := [] -- Newest first.

namespace Db

def list (db : Db) (statuses : List Status) : List FactRow :=
  db.facts.rows.filter (·.status ∈ statuses)

def get (db : Db) (id : FactId) : Option FactRow :=
  db.facts.find? id

-- The largest id ever used.
def lastId (db : Db) : FactId :=
  max (db.facts.nextRowid - 1) db.lastFactId

-- A new id when it has none, else that one.
def insert (db : Db) (f : FactRow) : Except String (Db × FactId) :=
  let id := if f.id = 0 then db.lastId + 1 else f.id
  match db.facts.insert? { f with id } with
  | none       => throw "UNIQUE constraint failed: facts.id"
  | some facts => pure ({ db with facts, lastFactId := max db.lastId id }, id)

-- Writes a fact back, if it is there.
def write (db : Db) (f : FactRow) : Db :=
  { db with facts := db.facts.update (·.id = f.id) (fun old => { f with id := old.id }) fun _ => rfl }

-- Evidence goes with its fact.
def delete (db : Db) (id : FactId) : Db :=
  { db with
    facts      := db.facts.delete (·.id = id)
    lastFactId := db.lastId
    evidence   := db.evidence.delete (·.factId = id) }

def evidenceOf (db : Db) (id : FactId) : List FactEvidence :=
  (db.evidence.rows.filter (·.factId = id)).map (·.toFactEvidence)

-- Repeats are ignored.
def addEvidence (db : Db) (id : FactId) (quotes : List FactEvidence) : Db :=
  { db with evidence := quotes.foldl (fun t q => t.insertOrIgnore { q with factId := id }) db.evidence }

def clearEvidence (db : Db) (id : FactId) : Db :=
  { db with evidence := db.evidence.delete (·.factId = id) }

def getCategory (db : Db) (key : String) : Option CategoryRow :=
  db.categories.find? key

def putCategory (db : Db) (c : CategoryRow) : Db :=
  { db with categories := db.categories.replace c }

def deleteCategory (db : Db) (key : String) : Db :=
  { db with categories := db.categories.delete (·.key = key) }

-- The facts and categories as they are now.
def snapshot (db : Db) (ids : List FactId) (keys : List String) : Snapshot where
  facts      := ids.filterMap fun id => (db.get id).map fun f => (f, db.evidenceOf id)
  categories := keys.filterMap db.getCategory

-- Writes a fact back, by its id also when it is gone.
def put (db : Db) (f : FactRow) : Except String Db :=
  if (db.get f.id).isSome then pure (db.write f) else (·.1) <$> db.insert f

def restoreFact (target : Snapshot) (db : Db) (id : FactId) : Except String Db :=
  match target.facts.find? (·.1.id = id) with
  | none             => pure (db.delete id)
  | some (f, quotes) => do
    let db ← db.put f
    pure ((db.clearEvidence id).addEvidence id quotes)

def restoreCategory (target : Snapshot) (db : Db) (key : String) : Db :=
  match target.categories.find? (·.key = key) with
  | some c => db.putCategory c
  | none   => db.deleteCategory key

-- Puts facts and categories back as the target has them: rows that it lacks are removed.
def restore (db : Db) (ids : List FactId) (keys : List String) (target : Snapshot) : Except String Db := do
  let db ← ids.foldlM (restoreFact target) db
  pure (keys.foldl (restoreCategory target) db)

-- The last changes that are kept.
def CHANGES_KEPT : Nat := 200

def recordChange (db : Db) (reason : String) (before after : Snapshot) : Db × ChangeId :=
  let id := (db.changes.head?.map (·.id)).getD 0 + 1
  ({ db with changes := ({ id, reason, before, after } :: db.changes).filter fun c => id < c.id + CHANGES_KEPT }, id)

def getChange (db : Db) (id : ChangeId) : Option Change :=
  db.changes.find? (·.id = id)

end Db

end Kaluta.Facts

-- Fact and category edits, applied as one change that is recorded for undo.
namespace Kaluta.Facts

open Guide (Unicode toLowercase eqIgnoreAsciiCase trim cleanText)

structure FactFields where
  category : String
  label    : String
  value    : String
  use_     : Use := .free
  asOf     : Option Millis := none
  deriving DecidableEq

inductive FactEdit
  | add (fields : FactFields) (status : Status) (source : Source)
  | update (id : FactId) (fields : FactFields)
  | decide (id : FactId) (status : Status)
  | delete (id : FactId)
  | share (id : FactId) (share : Bool)
  deriving DecidableEq

inductive CategoryEdit
  | add (name description : String)
  | update (key name description : String)
  | hide (key : String) (hidden : Bool)
  | reorder (keys : List String)
  | delete (key : String)
  deriving DecidableEq

-- The categories that every store has: key and name.
def BUILTINS : List (String × String) :=
  [("identity", "Identity"), ("contact", "Contact"), ("availability", "Availability"), ("people", "People"),
   ("work", "Work"), ("preferences", "Preferences"), ("other", "Other")]

-- The name of a built-in category.
def builtin (key : String) : Option String :=
  (BUILTINS.find? (·.1 = key)).map (·.2)

-- What the standard library knows of characters, besides the letters' lower case.
class Letters extends Unicode where
  isAlphanumeric  : Char → Bool
  charToLowercase : Char → List Char

-- All that a character is where none is outside ASCII.
abbrev ascii : Letters where
  toUnicode         := Guide.ascii
  isAlphanumeric    := Char.isAlphanum
  charToLowercase c := [c.toLower]

-- Lower case, letters and digits only: how names are compared.
def squash [Letters] (s : String) : List Char :=
  (s.toList.filter Letters.isAlphanumeric).flatMap Letters.charToLowercase

def utf8Length (s : List Char) : Nat :=
  (s.map Char.utf8Size).sum

-- Whether two category names are close enough to be the same one.
def similar [Letters] (a b : String) : Bool :=
  let a := squash a
  let b := squash b
  if a = [] ∨ b = [] then false
  else a = b ∨ 5 ≤ min (utf8Length a) (utf8Length b) ∧ (b <+: a ∨ a <+: b)

-- The custom categories of an account's store, or of the global one, that its facts can use, and the built-in ones.
def categoriesFrom (db : Db) : List String :=
  BUILTINS.map (·.1) ++ (db.categories.rows.filter (!·.builtin)).map (·.key)

def FactEdit.fields : FactEdit → Option FactFields
  | add fields _ _ | update _ fields         => some fields
  | decide _ _     | delete _      | share _ _ => none

-- The fact of an edit that is about one that there is.
def FactEdit.id : FactEdit → Option FactId
  | add _ _ _                                      => none
  | update id _ | decide id _ | delete id | share id _ => some id

-- The name of a category that an edit makes.
def CategoryEdit.newName : CategoryEdit → Option String
  | add name _ => some name
  | _          => none

-- What is checked before the store: `known` are the categories that the facts can use.
def validate (known : List String) (edits : List FactEdit) (categoryEdits : List CategoryEdit) : Except String Unit :=
  edits.forM fun e =>
    match e.fields with
    | none        => pure ()
    | some fields =>
      if cleanText fields.label = "" ∨ trim fields.value = "" then
        throw "a fact needs a label and a value"
      else if fields.category ∉ known ∧ fields.category ∉ categoryEdits.filterMap CategoryEdit.newName then
        throw "choose one of your categories"
      else
        pure ()

-- A change as it is made: the facts and categories that it touches, and the categories that it made, by name.
structure Editing where
  db    : Db
  ids   : List FactId := []
  keys  : List String := []
  added : List (String × String) := []

namespace Editing

-- A key not in use.
def newKey (db : Db) (key : String) : String :=
  (((List.range (db.categories.rows.length + 1)).map (key.pushn 'x')).find? fun k => (db.getCategory k).isNone).getD key

variable [Letters] (stored : List CategoryRow) (now : Millis)

def category (c : Editing) : CategoryEdit → Except String Editing
  | .add name description =>
    let name := cleanText name
    if name = "" then throw "a category needs a name"
    else if BUILTINS.any (similar ·.2 name) ∨ stored.any fun r => !r.builtin ∧ similar r.name name then
      throw "you already have a category like that"
    else
      let key := newKey c.db ("c" ++ toString now ++ toString c.added.length)
      let position := (stored.map (·.position)).max?.getD 0 + 1 + c.added.length
      pure { c with
        db    := c.db.putCategory { key, name, description := cleanText description, position, createdAt := now }
        keys  := c.keys ++ [key]
        added := c.added ++ [(name, key)] }
  | .update key name description =>
    match (c.db.getCategory key).filter (!·.builtin) with
    | none     => throw "built-in categories cannot be renamed"
    | some row =>
      if cleanText name = "" then throw "a category needs a name"
      else pure { c with db := c.db.putCategory { row with name := cleanText name, description := cleanText description } }
  | .hide key hidden =>
    match c.db.getCategory key, builtin key with
    | some row, _         => pure { c with db := c.db.putCategory { row with hidden } }
    | none    , some name => pure { c with db := c.db.putCategory { key, name, builtin := true, hidden, createdAt := now } }
    | none    , none      => throw "no such category"
  | .reorder keys =>
    let place (db : Db) (k : String × Nat) : Db :=
      match (db.getCategory k.1).filter (!·.builtin) with
      | some row => db.putCategory { row with position := k.2 }
      | none     => db
    pure { c with db := keys.zipIdx.foldl place c.db }
  | .delete key =>
    if (builtin key).isSome then throw "built-in categories cannot be deleted; hide them"
    else
      let other (db : Db) (f : FactRow) : Db :=
        if f.category = key then db.write { f with category := "other", updatedAt := now } else db
      pure { c with db := ((c.db.list [.proposed, .accepted, .rejected]).foldl other c.db).deleteCategory key }

-- A fact may go into a category that was made before it, by that name.
def resolve (c : Editing) (category : String) : String :=
  ((c.added.find? (·.1 = category)).map (·.2)).getD category

def existing (c : Editing) (id : FactId) : Except String FactRow :=
  match c.db.get id with
  | some f => pure f
  | none   => throw "that fact no longer exists"

def fact (c : Editing) : FactEdit → Except String Editing
  | .add fields status source => do
    let (db, id) ← c.db.insert {
      category := c.resolve fields.category
      label    := cleanText fields.label
      value    := trim fields.value
      use_     := fields.use_
      asOf     := fields.asOf
      source, status
      createdAt := now
      updatedAt := now }
    pure { c with db, ids := c.ids ++ [id] }
  | .update id fields => do
    let old ← c.existing id
    pure { c with db := c.db.write { old with
      category  := c.resolve fields.category
      label     := cleanText fields.label
      value     := trim fields.value
      use_      := fields.use_
      asOf      := fields.asOf
      updatedAt := now } }
  | .decide id status => do
    let old ← c.existing id
    pure { c with db := c.db.write { old with status, updatedAt := now } }
  | .delete id => pure { c with db := c.db.delete id }
  | .share id share => do
    let old ← c.existing id
    pure { c with db := c.db.write { old with shareWithCloud := some share, updatedAt := now } }

end Editing

-- The accepted facts of a category that a label stands for.
def Db.twins [Unicode] (db : Db) (f : FactRow) : List FactRow :=
  (db.list [.accepted]).filter fun o => o.category = f.category ∧ toLowercase o.label = toLowercase f.label

-- The facts that an edit of a category moves.
def Db.factsMoved (db : Db) : CategoryEdit → List FactId
  | .delete key => ((db.list [.proposed, .accepted, .rejected]).filter (·.category = key)).map (·.id)
  | _           => []

def CategoryEdit.keys : CategoryEdit → List String
  | add _ _        => []
  | update key _ _ => [key]
  | hide key _     => [key]
  | reorder keys   => keys
  | delete key     => [key]

-- Applies fact and category edits as one change; categories first.
def Db.applyFacts [Letters] (db : Db) (edits : List FactEdit) (categoryEdits : List CategoryEdit) (reason : String)
    (now : Millis) : Except String (Db × ChangeId) := do
  let ids := edits.filterMap FactEdit.id ++ categoryEdits.flatMap db.factsMoved
  let keys := categoryEdits.flatMap CategoryEdit.keys
  let before := db.snapshot ids keys
  let c ← categoryEdits.foldlM (Editing.category db.categories.rows now) { db, ids, keys }
  let c ← edits.foldlM (Editing.fact now) c
  if (c.db.list [.accepted]).any fun f => f.id ∈ c.ids ∧ 1 < (c.db.twins f).length then
    throw "you already have that in that category"
  else
    pure (c.db.recordChange reason before (c.db.snapshot c.ids c.keys))

end Kaluta.Facts
