import Kaluta.Facts.Tidy
import Kaluta.Lib.Keyset

-- An account's facts as a file, and such a file merged into another account.
namespace Kaluta.Facts

open Guide (Unicode toLowercase eqIgnoreAsciiCase trim cleanText splitWhitespace)

structure ExportedCategory where
  key         : String
  name        : String
  description : String
  deriving DecidableEq

structure ExportedFact where
  category : String
  label    : String
  value    : String
  use_     : String
  asOf     : Option Millis
  deriving DecidableEq

-- What the file says.
structure Exported where
  kalutaFacts : Nat
  categories  : List ExportedCategory
  facts       : List ExportedFact
  deriving DecidableEq

structure FactMergeResult where
  changeId        : ChangeId
  added           : Nat
  proposed        : Nat
  skipped         : Nat
  categoriesAdded : Nat
  deriving DecidableEq

structure CategoryInfo where
  key         : String
  name        : String
  description : String
  builtin     : Bool
  deriving DecidableEq

-- What a proposal carries.
structure FactPayload where
  kind     : String
  category : String
  label    : String
  value    : String
  asOf     : Option Millis
  factId   : Option FactId
  quote    : String
  deriving DecidableEq

inductive ProposalStatus
  | watching
  | proposed
  | accepted
  | rejected
  deriving DecidableEq

structure Proposal where
  target    : String
  op        : String
  entryId   : Option FactId
  category  : String
  kind      : Option String
  statement : String
  matchKey  : String
  status    : ProposalStatus := .watching
  support   : Nat := 1
  payload   : FactPayload
  updatedAt : Millis
  shownAt   : Option Millis := none
  deriving DecidableEq

namespace Use

def asStr : Use → String
  | free  => "free"
  | ask   => "ask"
  | never => "never"

def parse (s : String) : Use :=
  if s = "ask" then ask else if s = "never" then never else free

end Use

-- The descriptions of the built-in categories, in their order.
def DESCRIPTIONS : List String :=
  ["Who the user is: their name and how to refer to them",
   "How to reach the user",
   "When and where the user can be reached or meet",
   "Who the people the user mentions are to them, and how to refer to them",
   "The user's occupation, organisation and team",
   "How the user likes to be reached or to meet, and what to keep in mind when making plans",
   "Anything that fits nowhere else"]

namespace Db

section Order

open OrderDual (toDual)

-- `ORDER BY position, created_at, key`
def categoryRows (db : Db) : List CategoryRow :=
  Keyset.order (fun c => toDual (toLex (c.position, toLex (c.createdAt, c.key)))) db.categories.rows

-- `ORDER BY category, label COLLATE NOCASE, id`, of those that are accepted.
def accepted (db : Db) : List FactRow :=
  Keyset.order (fun f => toDual (toLex (f.category, toLex (f.label.toList.map Char.toLower, f.id)))) (db.list [.accepted])

end Order

-- The categories that are not built in.
def customs (db : Db) : List CategoryInfo :=
  (db.categoryRows.filter (!·.builtin)).map fun c =>
    { key := c.key, name := c.name, description := c.description, builtin := false }

end Db

-- Lower case, and blanks collapsed.
def loose [Unicode] (s : String) : String :=
  " ".intercalate ((splitWhitespace s).map toLowercase)

-- An account's store, the global one, and the account's proposals.
structure Stores where
  account   : Db
  global    : Db
  proposals : List Proposal := []

namespace Stores

-- The built-in categories and the account's own.
def own (w : Stores) : List CategoryInfo :=
  BUILTINS.zipWith (fun b description => { key := b.1, name := b.2, description, builtin := true }) DESCRIPTIONS ++
    w.account.customs

def factCategories (w : Stores) : List CategoryInfo :=
  w.own ++ w.global.customs.filter fun c => !w.own.any (·.key = c.key)

def exportFacts (w : Stores) : Exported where
  kalutaFacts := 1
  categories  := (w.factCategories.filter fun c => !c.builtin && w.account.accepted.any (·.category = c.key)).map fun c =>
    { key := c.key, name := c.name, description := c.description }
  facts       := w.account.accepted.map fun f =>
    { category := f.category, label := f.label, value := f.value, use_ := f.use_.asStr, asOf := f.asOf }

end Stores

-- Adds a proposal, or counts it once more. One that was decided is not raised again.
def upsertCounted (ps : List Proposal) (new : Proposal) (threshold : Nat) (now : Millis) : List Proposal :=
  let same (p : Proposal) : Bool := p.target = new.target && p.matchKey = new.matchKey
  let show_ (p : Proposal) : Proposal :=
    if p.status = .watching ∧ max threshold 1 ≤ p.support then { p with status := .proposed, shownAt := some now } else p
  match ps.find? same with
  | none   => ps ++ [show_ new]
  | some p =>
    if p.status = .accepted ∨ p.status = .rejected then ps
    else
      ps.map fun q =>
        if same q then show_ { q with support := q.support + 1, updatedAt := now, payload := new.payload } else q

def proposalOf [Unicode] (p : FactPayload) (now : Millis) : Proposal where
  target    := "fact"
  op        := "edit"
  entryId   := p.factId
  category  := p.category
  kind      := some "fact"
  statement := p.label ++ ": " ++ p.value
  matchKey  := "alter|" ++ toString (p.factId.getD 0) ++ "|" ++ loose p.value
  payload   := p
  updatedAt := now

-- What becomes of a fact that comes in.
inductive Outcome
  | skipped
  | proposed (p : FactPayload)
  | added (e : FactEdit)
  deriving DecidableEq

section Merge

variable [Letters]

-- Where an incoming category goes: a key here, or a name to make.
def target (have_ : List CategoryInfo) (incoming : Exported) (key : String) : String :=
  if have_.any fun c => c.key = key && c.builtin then key
  else
    match incoming.categories.find? (·.key = key) with
    | some c => ((have_.find? fun h => similar h.name c.name).map (·.key)).getD c.name
    | none   => "other"

def outcome (mine : List FactRow) (category : String) (f : ExportedFact) : Outcome :=
  match mine.find? fun m => m.category = category && eqIgnoreAsciiCase m.label f.label with
  | some m =>
    if trim m.value = trim f.value then .skipped
    else .proposed {
      kind := "fact", category := m.category, label := m.label, value := f.value, asOf := f.asOf, factId := some m.id
      quote := "From another account's facts" }
  | none   =>
    .added (.add { category, label := f.label, value := f.value, use_ := .parse f.use_, asOf := f.asOf } .accepted .you)

namespace Stores

variable (w : Stores) (incoming : Exported)

-- The categories that come in and that none here is like.
def made : List ExportedCategory :=
  incoming.categories.filter fun c =>
    !w.factCategories.any (similar ·.name c.name) && incoming.facts.any (·.category = c.key)

def outcomes : List Outcome :=
  incoming.facts.map fun f => outcome w.account.accepted (target w.factCategories incoming f.category) f

def edits : List FactEdit :=
  (w.outcomes incoming).filterMap fun | .added e => some e | _ => none

def proposed : List FactPayload :=
  (w.outcomes incoming).filterMap fun | .proposed p => some p | _ => none

def skipped : Nat :=
  (w.outcomes incoming).countP fun | .skipped => true | _ => false

def mergeFacts (now : Millis) : Except String (Stores × FactMergeResult) := do
  let edits := w.edits incoming
  let categoryEdits := (w.made incoming).map fun c => CategoryEdit.add c.name c.description
  let (account, changeId) ←
    if edits = [] ∧ categoryEdits = [] then pure (w.account, 0)
    else do
      validate (w.factCategories.map (·.key)) edits categoryEdits
      w.account.applyFacts edits categoryEdits "merge facts" now
  let proposals := (w.proposed incoming).foldl (fun ps p => upsertCounted ps (proposalOf p now) 1 now) w.proposals
  pure ({ w with account, proposals }, {
    changeId
    added           := edits.length
    proposed        := (w.proposed incoming).length
    skipped         := w.skipped incoming
    categoriesAdded := categoryEdits.length })

end Stores

end Merge

end Kaluta.Facts
