import Kaluta.Facts.Change
import Kaluta.Lib.Keyset
import Mathlib.Algebra.Order.Field.Basic
import Mathlib.Algebra.Order.Field.Rat

-- Matching what an AI wrote to the message that the user sent.
namespace Kaluta.Matching

open Guide (splitWhitespace toLowercase)
open Facts (Letters)

-- A record not matched within this long is given up on.
def MATCH_WINDOW_MS : Millis := 14 * 24 * 60 * 60 * 1000

-- A record whose draft is still open is not guessed at for this long.
def OPEN_DRAFT_MS : Millis := 24 * 60 * 60 * 1000

-- Under this overlap a message is another one than the draft.
def MIN_OVERLAP : Rat := 15 / 100

-- A cloud agent's records are of this and its name.
def CLOUD_AGENT_PREFIX : String := "cloud:"

inductive Method
  | sentDraft
  | threadNext
  | recipientNext
  deriving DecidableEq

inductive Outcome
  | matched (messageId : MessageId) (method : Method) (sentText : String) (distance : Rat)
  | unmatched -- Nothing within the window.
  deriving DecidableEq

inductive Kind
  | reply
  | forward
  | new
  deriving DecidableEq

structure Recipients where
  to_ : List String := []
  cc  : List String := []
  deriving DecidableEq

structure Composition where
  id              : Int
  createdAt       : Millis
  agent           : Option String := none
  kind            : Kind
  draftId         : Option Int := none
  threadId        : Option ThreadId := none
  recipients      : Recipients := {}
  aiText          : Option String := none
  rfc822MessageId : Option String := none
  deriving DecidableEq

-- A message the user sent.
structure SentCandidate where
  messageId       : MessageId
  threadId        : ThreadId
  rfc822MessageId : Option String := none
  sentAt          : Millis
  to_             : List String := []
  cc              : List String := []
  deriving DecidableEq

-- Linked to their sends by the report's own matching.
def isReported (c : Composition) : Bool :=
  c.draftId.isNone && c.agent.any (·.startsWith CLOUD_AGENT_PREFIX)

section Words

variable [Letters]

def trimMatches (p : Char → Bool) (s : String) : String :=
  .ofList ((s.toList.dropWhile p).reverse.dropWhile p).reverse

def words (text : String) : List String :=
  ((splitWhitespace text).map fun w => toLowercase (trimMatches (!Letters.isAlphanumeric ·) w)).filter (· ≠ "")

-- Shared words among all words.
def overlap (a b : String) : Rat :=
  let a := (words a).dedup
  let b := (words b).dedup
  let union := (a ++ b).dedup.length
  if union = 0 then 1 else (a.filter (· ∈ b)).length / union

-- The entries of a row right of `left`, from those of the previous row.
def nextRow (wa : String) : List String → Nat → List Nat → List Nat
  | wb :: b, left, diagonal :: above :: previous =>
    let here := min (min (diagonal + if wa ≠ wb then 1 else 0) (above + 1)) (left + 1)
    here :: nextRow wa b here (above :: previous)
  | _, _, _ => []

def row (b : List String) (previous : List Nat) (wa : String × Nat) : List Nat :=
  (wa.2 + 1) :: nextRow wa.1 b (wa.2 + 1) previous

def edits (a b : List String) : Nat :=
  let last := a.zipIdx.foldl (row b) (List.range (b.length + 1))
  last[b.length]?.getD 0

-- How many edits of words one text is from the other, over the longer one's length.
def distance (a b : String) : Rat :=
  let longest := max (words a).length (words b).length
  if longest = 0 then 0 else edits (words a) (words b) / longest

end Words

-- What matching has found so far.
structure Found where
  used    : List MessageId
  decided : List Int := []
  out     : List (Int × Outcome) := []

section Records

variable [Letters] (sent : List SentCandidate) (now : Millis) (text : MessageId → Option String)

def Found.matched (s : Found) (record : Composition) (c : SentCandidate) (method : Method) (sentText : String) :
    Found :=
  { s with
    used := c.messageId :: s.used
    out  := s.out ++ [(record.id, .matched c.messageId method sentText (distance (record.aiText.getD "") sentText))] }

-- The sent message with the record's Message-ID: of several the last.
def exact (record : Composition) : Option SentCandidate :=
  record.rfc822MessageId.bind fun id => sent.reverse.find? (·.rfc822MessageId = some id)

def matchExact (s : Found) (record : Composition) : Found :=
  match exact sent record with
  | none       => s
  | some found =>
    if found.messageId ∈ s.used then s
    else
      match text found.messageId with
      | none          => s
      | some sentText =>
        let s := s.matched record found .sentDraft sentText
        { s with decided := record.id :: s.decided }

def has (s : SentCandidate) (people : List String) : Bool :=
  (s.to_ ++ s.cc).any (· ∈ people)

-- The messages that a record is guessed to be, the first that fits.
def candidates (record : Composition) : List (SentCandidate × Method) :=
  let after := sent.filter (record.createdAt < ·.sentAt)
  let isOpen := record.draftId.isSome && now - record.createdAt < OPEN_DRAFT_MS
  if record.rfc822MessageId.isNone && !isOpen && !isReported record then
    let inThread :=
      if record.kind ≠ .new then record.threadId.bind fun thread => after.find? (·.threadId = thread) else none
    let toRecipient :=
      if record.kind ≠ .reply then
        (after.find? (has · record.recipients.to_)).or (after.find? (has · record.recipients.cc))
      else none
    inThread.toList.map (·, .threadNext) ++ toRecipient.toList.map (·, .recipientNext)
  else []

-- The text of a message that can be an edit of the record's.
def fits (record : Composition) (c : SentCandidate) : Option String :=
  (text c.messageId).filter fun sentText => !(overlap (record.aiText.getD "") sentText < MIN_OVERLAP)

def matchGuess (s : Found) (record : Composition) : Found :=
  let guess := (candidates sent now record).findSome? fun (c, method) =>
    if c.messageId ∈ s.used then none else (fits text record c).map fun sentText => (c, method, sentText)
  match guess with
  | some (c, method, sentText) => s.matched record c method sentText
  | none                       =>
    if MATCH_WINDOW_MS < now - record.createdAt then { s with out := s.out ++ [(record.id, .unmatched)] } else s

def age (record : Composition) : Int ×ₗ Int :=
  toLex (record.createdAt, record.id)

-- Records left out of the result keep waiting.
def matchRecords (waiting : List Composition) (used : List MessageId) : List (Int × Outcome) :=
  let s := waiting.foldl (matchExact sent text) { used }
  let rest := Keyset.order age (waiting.filter (·.id ∉ s.decided))
  (rest.foldl (matchGuess sent now text) s).out

end Records

end Kaluta.Matching
