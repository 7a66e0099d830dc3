import Kaluta.Search.Parse
import Kaluta.Lib.Fields

-- The entries of the writing guide, and what is checked of one before it is written.
namespace Kaluta.Guide

abbrev EntryId := Nat
abbrev RunId   := Nat

-- What the standard library knows of letters, ASCII's and all others.
class Unicode where
  toLowercase : String → String

export Unicode (toLowercase)

-- Lower case where no letter is outside ASCII.
abbrev ascii : Unicode where
  toLowercase s := .ofList (s.toList.map Char.toLower)

inductive Kind
  | rule
  | guideline
  | fact
  deriving DecidableEq

inductive Status
  | proposed
  | accepted
  | rejected
  deriving DecidableEq

inductive Source
  | learned
  | you
  | merged
  deriving DecidableEq

-- Where an entry applies; empty everywhere means always.
structure Scope where
  groups       : List String := []
  people       : List String := []
  messageTypes : List String := []
  languages    : List String := []
  deriving DecidableEq

inductive CheckKind
  | bannedPhrase
  | requiredPhrase
  | maxWords
  deriving DecidableEq

structure Check where
  kind  : CheckKind
  value : String
  deriving DecidableEq

-- What the user sets of an entry.
structure Fields where
  category  : String
  kind      : Kind
  statement : String
  scope     : Scope := {}
  check     : Option Check := none
  deriving DecidableEq

structure EntryRow extends Fields where
  id              : EntryId := 0
  status          : Status
  source          : Source
  origin          : Option String := none
  support         : Nat := 0
  contradict      : Nat := 0
  contradictionOf : Option EntryId := none
  runId           : Option RunId := none
  createdAt       : Millis
  updatedAt       : Millis
  decidedAt       : Option Millis := none
  deriving DecidableEq

-- A quote from the user's sent mail behind an entry.
structure EvidenceRow where
  messageId   : MessageId
  quote       : String
  contradicts : Bool := false
  deriving DecidableEq

-- An entry with its evidence: what undo puts back.
structure Snapshot where
  entry    : EntryRow
  evidence : List EvidenceRow
  deriving DecidableEq

-- The longest statement.
def STATEMENT_CAP : Nat := 400

def CATEGORIES : List String :=
  ["A1", "A2", "A3", "A4", "A5", "A6", "A7",
   "B1", "B2", "B3", "B4", "B5", "B6", "B7", "B8", "B9", "B10", "B11",
   "C1", "C2", "C3", "C4", "C5", "C6", "C7", "C8", "C9", "C10",
   "D1", "D2", "D3", "D4", "D5",
   "E1", "E2", "E3", "E4", "E5", "E6", "E7", "E8", "E9", "E10", "E11", "E12",
   "F1", "F2", "F3", "F4", "F5", "F6", "G1", "G2", "H1", "H2", "H3", "H4"]

def eqIgnoreAsciiCase (s₁ s₂ : String) : Bool :=
  s₁.toList.map Char.toLower = s₂.toList.map Char.toLower

def category (id : String) : Option String :=
  CATEGORIES.find? (eqIgnoreAsciiCase · id)

def splitWhitespace (s : String) : List String :=
  ((s.toList.splitOnP isWhitespace).filter (· ≠ [])).map .ofList

def trim (s : String) : String :=
  .ofList ((s.toList.dropWhile isWhitespace).reverse.dropWhile isWhitespace).reverse

def cleanText (s : String) : String :=
  " ".intercalate (splitWhitespace s)

section Texts

theorem trim_eq_self {s : String} (first : ∀ c ∈ s.toList.head?, isWhitespace c = false)
    (last : ∀ c ∈ s.toList.getLast?, isWhitespace c = false) : trim s = s := by
  have keep {cs : List Char} (h : ∀ c ∈ cs.head?, isWhitespace c = false) : cs.dropWhile isWhitespace = cs := by
    cases cs
    case nil       => rfl
    case cons c cs => exact List.dropWhile_cons_of_neg (by simp [h c rfl])
  have reversed : ∀ c ∈ s.toList.reverse.head?, isWhitespace c = false := by rwa [List.head?_reverse]
  rw [trim, keep first, keep reversed, List.reverse_reverse, String.ofList_toList]

theorem getLast?_trim {s : String} {c : Char} (h : c ∈ (trim s).toList.getLast?) : isWhitespace c = false := by
  rw [trim, String.toList_ofList, List.getLast?_reverse] at h
  have last := List.head?_dropWhile_not isWhitespace (s.toList.dropWhile isWhitespace).reverse
  rw [Option.mem_def.mp h] at last
  simpa using last

theorem head?_trim {s : String} {c : Char} (h : c ∈ (trim s).toList.head?) : isWhitespace c = false := by
  rw [trim, String.toList_ofList] at h
  have initial := (List.dropWhile_suffix (l := (s.toList.dropWhile isWhitespace).reverse) isWhitespace).reverse
  rw [List.reverse_reverse] at initial
  have first := List.head?_dropWhile_not isWhitespace s.toList
  obtain ⟨rest, eq⟩ := initial
  rw [← eq, List.head?_append, Option.mem_def.mp h] at first
  simpa using first

theorem trim_trim (s : String) : trim (trim s) = trim s :=
  trim_eq_self (fun _ => head?_trim) (fun _ => getLast?_trim)

theorem mem_splitWhitespace {s word : String} (h : word ∈ splitWhitespace s) :
    word.toList ≠ [] ∧ ∀ c ∈ word.toList, isWhitespace c = false := by
  obtain ⟨cs, mem, rfl⟩ := List.mem_map.mp h
  have ⟨mem, ne⟩ := List.mem_filter.mp mem
  rw [String.toList_ofList]
  exact ⟨of_decide_eq_true ne, Separated.visible_of_mem_splitOnP mem⟩

theorem toList_cleanText (s : String) :
    (cleanText s).toList = [' '].intercalate ((splitWhitespace s).map String.toList) := by
  rw [cleanText, String.toList_intercalate]
  rfl

theorem trim_cleanText (s : String) : trim (cleanText s) = cleanText s := by
  have words : ∀ word ∈ (splitWhitespace s).map String.toList, word ≠ [] ∧ ∀ c ∈ word, isWhitespace c = false :=
    List.forall_mem_map.mpr fun _ => mem_splitWhitespace
  refine trim_eq_self ?_ ?_
  · rw [toList_cleanText]
    exact Separated.head?_intercalate words
  · rw [toList_cleanText]
    exact Separated.getLast?_intercalate words

theorem cleanText_cleanText (s : String) : cleanText (cleanText s) = cleanText s := by
  have words : ∀ word ∈ (splitWhitespace s).map String.toList, word ≠ [] ∧ ∀ c ∈ word, isWhitespace c = false :=
    List.forall_mem_map.mpr fun _ => mem_splitWhitespace
  have again : splitWhitespace (cleanText s) = splitWhitespace s := by
    rw [splitWhitespace, toList_cleanText, Separated.words_intercalate (by decide) words, List.map_map]
    simp [Function.comp_def]
  rw [cleanText, again, ← cleanText]

end Texts

-- The statement as compared for merging: lower case, spaces collapsed, the final full stop dropped.
def norm [Unicode] (statement : String) : String :=
  let words := " ".intercalate ((splitWhitespace statement).map toLowercase)
  .ofList (words.toList.reverse.dropWhile fun c => c = '.' ∨ c = '!').reverse

namespace Scope

variable [Unicode]

-- What is kept of one list: cleaned texts, the first of those that differ in case only.
def clean (lower : Bool) : List String → List String → List String
  | _,    []        => []
  | seen, s :: more =>
    let s := if lower then toLowercase (cleanText s) else cleanText s
    if s ≠ "" ∧ toLowercase s ∉ seen then s :: clean lower (toLowercase s :: seen) more
    else clean lower seen more

def cleaned (scope : Scope) : Scope where
  groups       := clean false [] scope.groups
  people       := clean true [] scope.people
  messageTypes := (clean true [] scope.messageTypes).filter (· ∈ ["new", "reply", "forward"])
  languages    := clean false [] scope.languages

end Scope

def validateCheck (check : Check) : Except String (Option Check) :=
  let value := cleanText check.value
  if value = "" then
    pure none
  else if check.kind = .maxWords ∧ ((parseUnsigned (2 ^ 32) value.toList).all (· = 0)) then
    throw "a word limit is a whole number"
  else
    pure (some { check with value })

-- Checked and tidied fields, or why not.
def validate [Unicode] (fields : Fields) : Except String Fields := do
  match category fields.category with
  | none   => throw s!"{fields.category} is not a category"
  | some id =>
    if id = "F3" then throw "facts about you live in Analysis › Facts"
    let statement := cleanText fields.statement
    if statement = "" then throw "an entry needs a statement"
    if STATEMENT_CAP < statement.length then throw s!"keep an entry under {STATEMENT_CAP} characters"
    let check ← match fields.check with
      | none       => pure none
      | some check => validateCheck check
    pure { category := id, kind := fields.kind, statement, scope := fields.scope.cleaned, check }

def toRow (fields : Fields) (row : EntryRow) : EntryRow :=
  { row with toFields := fields }

end Kaluta.Guide
