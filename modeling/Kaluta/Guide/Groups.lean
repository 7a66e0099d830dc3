import Kaluta.Guide.Accepted

-- Audience groups: who is in one, to whom an entry applies, and the calls that rename or merge groups. Each of these
-- calls makes several transactions, and may be cut off between two of them.
namespace Kaluta.Guide

-- The message being drafted.
structure Target where
  recipients  : List String
  messageType : Option String := none

section Membership

variable [Unicode]

-- An address itself, or the domain that it is at.
def isMember (address : String) (members : List String) : Bool :=
  let a := (toLowercase (trim address)).toList
  members.any fun m =>
    let m := (toLowercase (trim m)).toList
    if m.head? = some '@' then m.isSuffixOf a else a = m

-- The confirmed groups that recipients belong to.
def Db.audienceFor (db : Db) (addresses : List String) : List String :=
  (db.listGroups.filter fun g => g.status = .confirmed ∧ addresses.any (isMember · g.members)).map (·.name)

-- People and audiences narrow a scope, and naming what the message is not keeps it out.
def appliesIn (scope : Scope) (target : Target) (audiences : List String) : Bool :=
  let people := scope.people = [] ∨ target.recipients.any (isMember · scope.people)
  let groups := scope.groups = [] ∨ scope.groups.any fun g => audiences.any (eqIgnoreAsciiCase · g)
  let types  := scope.messageTypes = [] ∨ target.messageType.any (· ∈ scope.messageTypes)
  people ∧ groups ∧ types

-- Whether an entry is accepted and applies to a message.
def Db.applies (db : Db) (target : Target) (id : EntryId) : Bool :=
  (db.getEntry id).any fun e => e.status = .accepted ∧ appliesIn e.scope target (db.audienceFor target.recipients)

end Membership

section Alike

-- Lists of texts that hold the same ones, however these are written.
def sameTexts (same : String → String → Bool) (l l' : List String) : Bool :=
  l.all (fun s => l'.any (same s)) ∧ l'.all fun s' => l.any (same · s')

-- Scopes that say the same of people, groups and message types.
def Scope.agrees [Unicode] (scope scope' : Scope) : Bool :=
  sameTexts (fun m m' => toLowercase (trim m) = toLowercase (trim m')) scope.people scope'.people ∧
  sameTexts eqIgnoreAsciiCase scope.groups scope'.groups ∧
  sameTexts (fun t t' => t = t') scope.messageTypes scope'.messageTypes

-- Whether mail can be for a group: it is confirmed, and has members.
def GroupRow.isOpen (g : GroupRow) : Bool :=
  g.status = .confirmed ∧ g.members ≠ []

end Alike

inductive Ending
  | done
  | failed (message : String)
  | cut
  deriving DecidableEq

-- What a call leaves, and how it ended.
structure Outcome where
  db     : Db
  ending : Ending

namespace Db

variable [Unicode]

def saveAudienceGroup (db : Db) (g : GroupRow) : Except String Db :=
  let name := cleanText g.name
  if name = "" then
    throw "a group needs a name"
  else
    pure (db.saveGroup { g with
      name, description := cleanText g.description, position := 0, members := (g.members.map cleanText).filter (· ≠ "") })

-- Renames a group; entries scoped to it follow. It may be cut off when they have.
def renameAudienceGroup (db : Db) (id : GroupId) (name : String) (now : Millis) (cut : Bool) : Outcome :=
  let name := cleanText name
  if name = "" then { db, ending := .failed "a group needs a name" }
  else match db.groups.find? id with
    | none     => { db, ending := .failed "no such group" }
    | some old =>
      if db.groups.rows.any fun g => g.id ≠ id ∧ eqIgnoreAsciiCase g.name name then
        { db, ending := .failed s!"there is already a group called {name}; merge them instead" }
      else match db.rescopeGroup old.name (some name) now with
        | .error e => { db, ending := .failed e }
        | .ok r    =>
          if cut then { db := r.1, ending := .cut }
          else match r.1.renameGroup id name with
            | .error e => { db := r.1, ending := .failed e }
            | .ok db   => { db, ending := .done }

-- Merges a group into another: its members join, entries scoped to it are scoped to the other, and it goes. It may be
-- cut off after its first or its second transaction.
def mergeAudienceGroups (db : Db) (into source : GroupId) (now : Millis) (cut : Option Nat) : Outcome :=
  match db.groups.find? into, db.groups.find? source with
  | some target, some source =>
    if target.id = source.id then { db, ending := .failed "a group cannot merge into itself" }
    else match db.rescopeGroup source.name (some target.name) now with
      | .error e => { db, ending := .failed e }
      | .ok r    =>
        if cut = some 1 then { db := r.1, ending := .cut }
        else
          let members := target.members ++ source.members.filter (· ∉ target.members)
          match r.1.saveAudienceGroup { target with members } with
          | .error e => { db := r.1, ending := .failed e }
          | .ok db   =>
            if cut = some 2 then { db, ending := .cut } else { db := db.deleteGroup source.id, ending := .done }
  | _, _ => { db, ending := .failed "no such group" }

-- A group name is taken once, in any case.
def GroupsDistinct (db : Db) : Prop :=
  ∀ g ∈ db.groups.rows, ∀ g' ∈ db.groups.rows, eqIgnoreAsciiCase g.name g'.name → g.id = g'.id

instance (db : Db) : Decidable db.GroupsDistinct :=
  inferInstanceAs (Decidable (∀ g ∈ db.groups.rows, ∀ g' ∈ db.groups.rows, _ → _))

-- That the entries of a group pass validation once they name another.
def rescopes (db : Db) (old new : String) : Bool :=
  db.entries.rows.all fun e => !e.names old || (Edit.rescope old (some new) e).checked.isOk

-- A rename that is refused: a name that is empty or taken, no such group, or an entry of it that is not valid.
def refusesRename (db : Db) (id : GroupId) (name : String) : Bool :=
  let name := cleanText name
  name = "" ∨ (db.groups.find? id).all fun old =>
    db.groups.rows.any (fun g => g.id ≠ id ∧ eqIgnoreAsciiCase g.name name) ∨ ¬db.rescopes old.name name

-- Cleaning leaves a scope that names another group instead as it is, but for how it is written.
def keepsScope (old new : String) (e : EntryRow) : Bool :=
  let scope := e.scope.rescoped old (some new)
  scope.agrees scope.cleaned

-- What renaming a group needs of the accepted entries, unless it is refused: of those that name it, that cleaning
-- their new scope changes nothing and that the call is not cut off; of the others, that they do not name the new name
-- already.
def renamesAlike (db : Db) (id : GroupId) (name : String) (cut : Bool) : Bool :=
  db.refusesRename id name ∨ (db.groups.find? id).all fun old => db.entries.rows.all fun e =>
    e.status ≠ .accepted ∨
      if e.names old.name then keepsScope old.name (cleanText name) e ∧ (cut → ¬old.isOpen)
      else cut ∨ ¬old.isOpen ∨ ¬e.names (cleanText name)

-- A member that saving a group keeps as it is.
def isSaved (m : String) : Bool :=
  m ≠ "" ∧ cleanText m ≠ "" ∧ toLowercase (trim (cleanText m)) = m

def refusesMerge (db : Db) (into source : GroupId) : Bool :=
  (db.groups.find? into).all fun target => (db.groups.find? source).all fun source =>
    target.id = source.id ∨ ¬db.rescopes source.name target.name

-- What merging two groups needs, unless it is refused: that both are as saving keeps them, and of the accepted entries
-- that name the one that goes, that cleaning their new scope changes nothing and that the other is confirmed if mail
-- can be for the one. When the call is cut off, that no accepted entry names the one that goes, nor the other once its
-- members have joined.
def mergesAlike (db : Db) (into source : GroupId) (cut : Option Nat) : Bool :=
  db.refusesMerge into source ∨
    (db.groups.find? into).all fun target => (db.groups.find? source).all fun source =>
      target.name ≠ "" ∧ cleanText target.name = target.name ∧ (target.members ++ source.members).all isSaved ∧
      db.entries.rows.all fun e =>
        e.status ≠ .accepted ∨
          (e.names source.name → keepsScope source.name target.name e ∧
            (source.isOpen → target.status = .confirmed) ∧ cut ≠ some 1 ∧ cut ≠ some 2) ∧
          (e.names target.name → cut ≠ some 2)

end Db

end Kaluta.Guide
