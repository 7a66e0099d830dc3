import Kaluta.Lib.Lines

-- The streaming mbox reader, and the writer of its tests.
namespace Kaluta.Mbox

abbrev Bytes := List UInt8

def LF    : UInt8 := 10
def CR    : UInt8 := 13
def SPACE : UInt8 := 32
def GT    : UInt8 := 62
def FROM  : Bytes := [70, 114, 111, 109, 32]

structure MboxMessage where
  -- Byte offset of the `From ` separator line.
  offset : Nat
  raw    : Bytes
  deriving DecidableEq

-- `From ` followed by something, and a date.
def isSeparator (line : Bytes) : Bool :=
  FROM.isPrefixOf line && decide ((line.drop 5).countP (· = SPACE) ≥ 2) && !([SPACE].isPrefixOf (line.drop 5))

def isBlank (line : Bytes) : Bool :=
  line = [LF] ∨ line = [CR, LF]

-- Whether the line is `From `, behind any number of quotes.
def quotesFrom (line : Bytes) : Bool :=
  FROM.isPrefixOf (line.drop (line.takeWhile (· = GT)).length)

-- One `>` comes off any `>+From ` line.
def unescapeFrom (line out : Bytes) : Bytes :=
  if (line.takeWhile (· = GT)).length > 0 ∧ quotesFrom line then out ++ line.drop 1 else out ++ line

def trimOneTrailingBlankLine (raw : Bytes) : Bytes :=
  if [CR, LF, CR, LF].isSuffixOf raw then raw.take (raw.length - 2)
  else if [LF, LF].isSuffixOf raw then raw.take (raw.length - 1)
  else raw

structure MboxReader where
  -- The lines that reading up to a line feed, again and again, gives.
  input            : List Bytes
  position         : Nat := 0
  pendingSeparator : Option Nat := none
  started          : Bool := false
  done             : Bool := false

namespace MboxReader

def new (input : Bytes) : MboxReader :=
  { input := Lines.splitInclusive LF input }

-- Reads body lines into `raw` until the next separator, which is remembered, or the end.
def readBody : List Bytes → Nat → Bytes → Bool → MboxReader × Bytes
  | []           , position, raw, _             =>
    ({ input := [], position, started := true, done := true }, trimOneTrailingBlankLine raw)
  | line :: input, position, raw, previousBlank =>
    if previousBlank ∧ isSeparator line then
      ({ input, position := position + line.length, pendingSeparator := some position, started := true },
        trimOneTrailingBlankLine raw)
    else readBody input (position + line.length) (unescapeFrom line raw) (isBlank line)

-- The message whose separator, at `offset`, was read.
def message (offset : Nat) (input : List Bytes) (position : Nat) (raw : Bytes) : MboxReader × Option MboxMessage :=
  let (r, raw) := readBody input position raw (raw.isEmpty || isBlank raw)
  (r, some { offset, raw })

-- Finds the first separator, or the first content of a file that has none.
def findFirst (started : Bool) : List Bytes → Nat → MboxReader × Option MboxMessage
  | []           , position => ({ input := [], position, started, done := true }, none)
  | line :: input, position =>
    if isSeparator line then message position input (position + line.length) []
    else if ¬started ∧ ¬isBlank line then message position input (position + line.length) line
    else findFirst started input (position + line.length)

def nextMessage (r : MboxReader) : MboxReader × Option MboxMessage :=
  if r.done then (r, none)
  else match r.pendingSeparator with
    | some offset => message offset r.input r.position []
    | none        => findFirst r.started r.input r.position

def isAsciiWhitespace (b : UInt8) : Bool :=
  b = SPACE ∨ b = 9 ∨ b = LF ∨ b = 12 ∨ b = CR

-- How much there is to read, a separator already read included.
def left (r : MboxReader) : Nat :=
  if r.done then 0 else 2 * r.input.length + r.pendingSeparator.toList.length + 1

theorem left_readBody (input : List Bytes) (position : Nat) (raw : Bytes) (previousBlank : Bool) :
    (readBody input position raw previousBlank).1.left ≤ 2 * input.length := by
  induction input generalizing position raw previousBlank
  case nil                => simp [readBody, left]
  case cons line input ih =>
    unfold readBody
    split
    case isTrue  => simp only [left, Option.toList_some, List.length_cons, List.length_nil]; split <;> omega
    case isFalse =>
      have := ih (position + line.length) (unescapeFrom line raw) (isBlank line)
      rw [List.length_cons]
      omega

theorem left_findFirst {started : Bool} {input : List Bytes} {position : Nat}
    (h : (findFirst started input position).2 = some m) :
    (findFirst started input position).1.left < 2 * input.length := by
  induction input generalizing position
  case nil                => cases h
  case cons line input ih =>
    unfold findFirst at h ⊢
    split_ifs at h ⊢
    · have := left_readBody input (position + line.length) [] true
      simp only [message, List.isEmpty_nil, Bool.true_or, List.length_cons]
      omega
    · have := left_readBody input (position + line.length) line (line.isEmpty || isBlank line)
      simp only [message, List.length_cons]
      omega
    · have := ih h
      rw [List.length_cons]
      omega

theorem left_nextMessage {r : MboxReader} (h : r.nextMessage.2 = some m) : r.nextMessage.1.left < r.left := by
  unfold nextMessage at h ⊢
  split_ifs at h ⊢ with done_
  split at h
  case _ offset pending =>
    have := left_readBody r.input r.position [] true
    simp only [pending, message, List.isEmpty_nil, Bool.true_or, left, done_, Option.toList_some, List.length_cons]
    simp only [left] at this
    simp
    omega
  case _ pending =>
    have := left_findFirst h
    simp only [pending, left, done_, Option.toList_none, List.length_nil] at this ⊢
    simp
    omega

-- The iterator to its end: entries with nothing but white space are skipped.
def collect (r : MboxReader) : List MboxMessage :=
  match _h : r.nextMessage with
  | (_, none)    => []
  | (next, some m) => if m.raw.all isAsciiWhitespace then next.collect else m :: next.collect
termination_by r.left
decreasing_by
  all_goals
    have := left_nextMessage (r := r) (congrArg Prod.snd _h)
    rwa [_h] at this

end MboxReader

def readAll (input : Bytes) : List MboxMessage :=
  (MboxReader.new input).collect

-- `From sender@example.com Mon Sep  1 10:00:00 2025`
def SEPARATOR : Bytes :=
  [70, 114, 111, 109, 32, 115, 101, 110, 100, 101, 114, 64, 101, 120, 97, 109, 112, 108, 101, 46, 99, 111, 109, 32, 77,
    111, 110, 32, 83, 101, 112, 32, 32, 49, 32, 49, 48, 58, 48, 48, 58, 48, 48, 32, 50, 48, 50, 53, 10]

def escapeFrom (line out : Bytes) : Bytes :=
  (if quotesFrom line then out ++ [GT] else out) ++ line

def buildOne (out message : Bytes) : Bytes :=
  let out := (Lines.splitInclusive LF message).foldl (fun out line => escapeFrom line out) (out ++ SEPARATOR)
  let out := if [LF].isSuffixOf out then out else out ++ [LF]
  out ++ [LF]

def build (messages : List Bytes) : Bytes :=
  messages.foldl buildOne []

end Kaluta.Mbox
