import Kaluta.Store.Basic
import Kaluta.Lib.Fallible

namespace Kaluta

inductive Mailbox
  | inbox
  | archive
  | sent
  | drafts
  | trash
  | spam
  | starred
  | anywhere -- Everything, including spam and trash.
  deriving DecidableEq

inductive Flag
  | unread
  | read
  | starred
  | important
  deriving DecidableEq

inductive SearchExpr
  | and (all : List SearchExpr)
  | or (any : List SearchExpr)
  | not (expr : SearchExpr)
  | text (value : String)       -- A word anywhere in subject, addresses, body or attachment names.
  | phrase (value : String)     -- An exact phrase anywhere.
  | «from» (value : String)
  | to (value : String)
  | cc (value : String)
  | bcc (value : String)
  | subject (value : String)
  | label (value : String)
  | «in» (mailbox : Mailbox)
  | is (flag : Flag)
  | hasAttachment
  | filename (value : String)
  | after (instant : Millis)        -- On or after this instant.
  | before (instant : Millis)       -- Strictly before this instant.
  | newerThan (days : UInt32)
  | olderThan (days : UInt32)
  | larger (bytes : UInt64)
  | smaller (bytes : UInt64)

-- `to_ascii_lowercase`
def asciiLower (s : String) : String :=
  .ofList (s.toList.map Char.toLower)

namespace SearchExpr

mutual

-- Whether the query asks for spam or trash. Otherwise a search leaves them out.
def mentionsSpamOrTrash : SearchExpr → Bool
  | and all     => anyMentions all
  | or any      => anyMentions any
  | not expr    => expr.mentionsSpamOrTrash
  | .in mailbox => mailbox = .trash || mailbox = .spam || mailbox = .anywhere
  | label value => asciiLower value = "spam" || asciiLower value = "trash"
  | _           => false

def anyMentions : List SearchExpr → Bool
  | []      => false
  | e :: es => e.mentionsSpamOrTrash || anyMentions es

end

def isEmpty : SearchExpr → Bool
  | and all => all.isEmpty
  | _       => false

end SearchExpr

end Kaluta

namespace Kaluta

inductive Kind
  | word (w : String)
  | quoted (q : String)
  | field (f : String) -- `field:` immediately followed by its value token.
  | minus
  | «open»
  | close
  | or
  deriving DecidableEq

structure Token where
  kind : Kind
  pos  : Nat

-- What an error says, with what its text shows.
inductive ParseProblem
  | unexpected (k : Kind)
  | needsValue (field : String)
  | unclosedQuote
  | expectedTerm
  | unexpectedEnd
  | missingClose
  | unknownMailbox (value : String)
  | unknownIs (value : String)
  | unknownHas (value : String)
  | unknownField (field : String)
  | datesLookLike (value : String)
  | badYear (value : String)
  | badMonth (value : String)
  | badDay (value : String)
  | notADate (value : String)
  | agesLookLike (value : String)
  | sizesLookLike (value : String)

structure ParseError where
  message  : ParseProblem
  position : Nat

-- A call that does not return a value. The fuel is the model's: there is always enough of it.
inductive Fault (ε : Type)
  | error (e : ε)
  | panic
  | outOfFuel

def FIELDS : List String := [
  "from", "to", "cc", "bcc", "subject", "label", "in", "is", "has", "filename", "after", "before",
  "older_than", "newer_than", "larger", "smaller"
]

-- Unicode's `White_Space`.
def isWhitespace (c : Char) : Bool :=
  let n := c.toNat
  (0x9 ≤ n && n ≤ 0xD) || n = 0x20 || n = 0x85 || n = 0xA0 || n = 0x1680 || (0x2000 ≤ n && n ≤ 0x200A) ||
    n = 0x2028 || n = 0x2029 || n = 0x202F || n = 0x205F || n = 0x3000

def isWordChar (c : Char) : Bool :=
  !isWhitespace c && c ≠ '(' && c ≠ ')' && c ≠ '"'

-- `char_indices`
def charIndices : Nat → List Char → List (Nat × Char)
  | _, []        => []
  | pos, c :: cs => (pos, c) :: charIndices (pos + c.utf8Size) cs

def splitOnce (sep : Char) : List Char → Option (List Char × List Char)
  | []      => none
  | c :: cs => if c = sep then some ([], cs) else (splitOnce sep cs).map fun (a, b) => (c :: a, b)

-- The value up to the next quote, and what follows that quote.
def readQuoted (opened : Nat) (chars : List (Nat × Char)) : Except ParseError (String × List (Nat × Char)) :=
  match chars.dropWhile (·.2 ≠ '"') with
  | []        => .error ⟨.unclosedQuote, opened⟩
  | _ :: next => .ok (.ofList ((chars.takeWhile (·.2 ≠ '"')).map (·.2)), next)

-- A word that starts with the name of a field: the name, and the rest of the word.
def fieldOf (word : List Char) : Option (String × List Char) :=
  match splitOnce ':' word with
  | none               => none
  | some (field, rest) => if asciiLower (.ofList field) ∈ FIELDS then some (.ofList field, rest) else none

def readWord (pos : Nat) (word : List Char) (rest : List (Nat × Char)) :
    Except ParseError (List Token × List (Nat × Char)) :=
  match fieldOf word with
  | some (field, value) =>
    let token := ⟨.field (asciiLower field), pos⟩
    if value ≠ [] then
      .ok ([token, ⟨.word (.ofList value), pos + field.utf8ByteSize + 1⟩], rest)
    else
      match rest with
      | (quote, '"') :: rest => do
        let (value, next) ← readQuoted quote rest
        .ok ([token, ⟨.quoted value, quote⟩], next)
      | _ => .error ⟨.needsValue field, pos⟩
  | none =>
    .ok ([⟨if word = ['O', 'R'] ∨ word = ['|'] then .or else .word (.ofList word), pos⟩], rest)

-- The tokens that start with a character, and what follows them.
def readTokens (pos : Nat) (c : Char) (cs : List (Nat × Char)) :
    Except ParseError (List Token × List (Nat × Char)) :=
  if isWhitespace c then
    .ok ([], cs)
  else if c = '(' then
    .ok ([⟨.open, pos⟩], cs)
  else if c = ')' then
    .ok ([⟨.close, pos⟩], cs)
  -- A leading `-` negates, inside a word it is text.
  else if c = '-' ∧ cs.head?.any (!isWhitespace ·.2) then
    .ok ([⟨.minus, pos⟩], cs)
  else if c = '"' then do
    let (value, next) ← readQuoted pos cs
    .ok ([⟨.quoted value, pos⟩], next)
  else
    readWord pos (c :: (cs.takeWhile (isWordChar ·.2)).map (·.2)) (cs.dropWhile (isWordChar ·.2))

theorem readQuoted_shorter (h : readQuoted opened chars = .ok (value, next)) : next.length < chars.length := by
  rw [readQuoted] at h
  split at h
  case h_1 => cases h
  case h_2 c rest hd =>
    cases h
    have := (List.dropWhile_suffix (l := chars) (·.2 ≠ '"')).length_le
    rw [hd, List.length_cons] at this
    omega

theorem readWord_shorter (h : readWord pos word rest = .ok (ts, next)) : next.length ≤ rest.length := by
  rw [readWord] at h
  split at h
  case h_1 =>
    split at h
    · cases h; exact le_rfl
    · split at h
      · have ⟨_, hq, h⟩ := Except.bind_eq_ok.mp h
        cases h
        have := readQuoted_shorter hq
        rw [List.length_cons]
        omega
      · cases h
  case h_2 => cases h; exact le_rfl

theorem readTokens_shorter (h : readTokens pos c cs = .ok (ts, next)) : next.length ≤ cs.length := by
  simp only [readTokens] at h
  split at h
  · cases h; exact le_rfl
  split at h
  · cases h; exact le_rfl
  split at h
  · cases h; exact le_rfl
  split at h
  · cases h; exact le_rfl
  split at h
  · have ⟨_, hq, h⟩ := Except.bind_eq_ok.mp h
    cases h
    exact (readQuoted_shorter hq).le
  · exact (readWord_shorter h).trans (List.dropWhile_suffix _).length_le

def tokenize : List (Nat × Char) → Except ParseError (List Token)
  | []             => .ok []
  | (pos, c) :: cs =>
    match _h : readTokens pos c cs with
    | .error e        => .error e
    | .ok (ts, next) => (ts ++ ·) <$> tokenize next
  termination_by chars => chars.length
  decreasing_by exact Nat.lt_succ_of_le (readTokens_shorter ‹_›)

-- `str::parse` for a type without a sign whose values are below the limit.
def parseUnsigned (limit : Nat) (digits : List Char) : Option Nat :=
  let digits := if digits.head? = some '+' then digits.tail else digits
  let n := Nat.ofDigitChars 10 digits 0
  if digits ≠ [] ∧ digits.all Char.isDigit ∧ n < limit then some n else none

def parseI64 (digits : List Char) : Option Int :=
  match digits with
  | '-' :: digits =>
    if digits.head? = some '+' then none else (parseUnsigned (2 ^ 63 + 1) digits).map fun n => -n
  | digits        => (parseUnsigned (2 ^ 63) digits).map fun n => n

-- Days since 1970-01-01 (Howard Hinnant's algorithm).
def daysFromCivil (y m d : Int) : Int :=
  let y   := if m ≤ 2 then y - 1 else y
  let era := y / 400
  let yoe := y - era * 400
  let mp  := (m + 9) % 12
  let doy := (153 * mp + 2) / 5 + d - 1
  let doe := yoe * 365 + yoe / 4 - yoe / 100 + doy
  era * 146097 + doe - 719468

-- `2026-01-31` or `2026/01/31`, as UTC midnight.
def parseDate (value : String) : Except ParseProblem Millis :=
  match value.toList.splitOnP fun c => c = '-' || c = '/' with
  | [y, m, d] => do
    let some y := parseI64 y | throw (.badYear value)
    let some m := parseI64 m | throw (.badMonth value)
    let some d := parseI64 d | throw (.badDay value)
    if 1970 ≤ y ∧ y ≤ 9999 ∧ 1 ≤ m ∧ m ≤ 12 ∧ 1 ≤ d ∧ d ≤ 31 then
      pure (daysFromCivil y m d * 86400000)
    else
      throw (.notADate value)
  | _         => throw (.datesLookLike value)

-- `7d`, `2m` (30-day months), `1y`. The last byte is split off, so that a last character of more bytes panics.
def parseAge (value : String) : Except (Fault ParseProblem) UInt32 :=
  match value.toList.getLast? with
  | none      => throw (.error (.agesLookLike value))
  | some unit =>
    if unit.utf8Size ≠ 1 then
      throw .panic
    else
      match parseUnsigned (2 ^ 32) value.toList.dropLast with
      | none   => throw (.error (.agesLookLike value))
      | some n =>
        let days (mult : Nat) := UInt32.ofNat (min (n * mult) (2 ^ 32 - 1))
        match unit.toLower with
        | 'd' => pure (days 1)
        | 'm' => pure (days 30)
        | 'y' => pure (days 365)
        | _   => throw (.error (.agesLookLike value))

def sizeUnit (lower : List Char) : List Char × Nat :=
  match lower.getLast? with
  | some 'k' => (lower.dropLast, 1024)
  | some 'm' => (lower.dropLast, 1024 * 1024)
  | some 'g' => (lower.dropLast, 1024 * 1024 * 1024)
  | _        => (lower, 1)

-- `5M`, `200K`, `1G`, or bytes.
def parseSize (value : String) : Except ParseProblem UInt64 :=
  let (n, mult) := sizeUnit (value.toList.map Char.toLower)
  match parseUnsigned (2 ^ 64) n with
  | none   => throw (.sizesLookLike value)
  | some n => pure (.ofNat (min (n * mult) (2 ^ 64 - 1)))

def Fault.lift (x : Except ParseProblem α) : Except (Fault ParseProblem) α :=
  x.mapError .error

def fieldExpr (field value : String) : Except (Fault ParseProblem) SearchExpr :=
  let lower := asciiLower value
  match field with
  | "from"       => pure (.from value)
  | "to"         => pure (.to value)
  | "cc"         => pure (.cc value)
  | "bcc"        => pure (.bcc value)
  | "subject"    => pure (.subject value)
  | "label"      => pure (.label value)
  | "filename"   => pure (.filename value)
  | "in"         =>
    match lower with
    | "inbox"                => pure (.in .inbox)
    | "archive" | "archived" => pure (.in .archive)
    | "sent"                 => pure (.in .sent)
    | "drafts" | "draft"     => pure (.in .drafts)
    | "trash"                => pure (.in .trash)
    | "spam"                 => pure (.in .spam)
    | "starred"              => pure (.in .starred)
    | "anywhere" | "all"     => pure (.in .anywhere)
    | _                      => throw (.error (.unknownMailbox value))
  | "is"         =>
    match lower with
    | "unread"    => pure (.is .unread)
    | "read"      => pure (.is .read)
    | "starred"   => pure (.is .starred)
    | "important" => pure (.is .important)
    | _           => throw (.error (.unknownIs value))
  | "has"        =>
    match lower with
    | "attachment" | "attachments" => pure .hasAttachment
    | _                            => throw (.error (.unknownHas value))
  | "after"      => return .after (← Fault.lift (parseDate value))
  | "before"     => return .before (← Fault.lift (parseDate value))
  | "newer_than" => return .newerThan (← parseAge value)
  | "older_than" => return .olderThan (← parseAge value)
  | "larger"     => return .larger (← Fault.lift (parseSize value))
  | "smaller"    => return .smaller (← Fault.lift (parseSize value))
  | _            => throw (.error (.unknownField field))

abbrev Parsed := Except (Fault ParseError)

def fails (message : ParseProblem) (position : Nat) : Parsed α :=
  .error (.error ⟨message, position⟩)

-- Or and and with one part are that part.
def collectOr : List SearchExpr → SearchExpr
  | [e] => e
  | any => .or any

def collectAnd : List SearchExpr → SearchExpr
  | [e] => e
  | all => .and all

namespace Parser

mutual

def or : Nat → List Token → Parsed (SearchExpr × List Token)
  | 0, _         => .error .outOfFuel
  | fuel + 1, ts => do
    let (first, ts) ← and fuel ts
    let (any, ts) ← orLoop fuel [first] ts
    pure (collectOr any, ts)

def orLoop : Nat → List SearchExpr → List Token → Parsed (List SearchExpr × List Token)
  | 0, _, _           => .error .outOfFuel
  | fuel + 1, any, ts =>
    match ts with
    | ⟨.or, _⟩ :: ts => do
      let (e, ts) ← and fuel ts
      orLoop fuel (any ++ [e]) ts
    | ts             => pure (any, ts)

def and : Nat → List Token → Parsed (SearchExpr × List Token)
  | 0, _         => .error .outOfFuel
  | fuel + 1, ts => do
    let (all, ts) ← andLoop fuel [] ts
    if all = [] then
      fails .expectedTerm ((ts.head?.map (·.pos)).getD 0)
    else
      pure (collectAnd all, ts)

def andLoop : Nat → List SearchExpr → List Token → Parsed (List SearchExpr × List Token)
  | 0, _, _           => .error .outOfFuel
  | fuel + 1, all, ts =>
    match ts with
    | [] | ⟨.or, _⟩ :: _ | ⟨.close, _⟩ :: _ => pure (all, ts)
    | ts => do
      let (e, ts) ← unary fuel ts
      andLoop fuel (all ++ [e]) ts

def unary : Nat → List Token → Parsed (SearchExpr × List Token)
  | 0, _         => .error .outOfFuel
  | fuel + 1, ts =>
    match ts with
    | ⟨.minus, _⟩ :: ts => do
      let (e, ts) ← unary fuel ts
      pure (.not e, ts)
    | ts                => atom fuel ts

def atom : Nat → List Token → Parsed (SearchExpr × List Token)
  | 0, _         => .error .outOfFuel
  | fuel + 1, ts =>
    match ts with
    | []                          => fails .unexpectedEnd 0
    | ⟨.open, pos⟩ :: ts => do
      let (inner, ts) ← or fuel ts
      match ts with
      | ⟨.close, _⟩ :: ts => pure (inner, ts)
      | _                 => fails .missingClose pos
    | ⟨.quoted q, _⟩ :: ts        => pure (.phrase q, ts)
    | ⟨.word w, _⟩ :: ts          => pure (.text w, ts)
    | ⟨.field field, pos⟩ :: rest =>
      match rest with
      | ⟨.word value, _⟩ :: ts | ⟨.quoted value, _⟩ :: ts =>
        match fieldExpr field value with
        | .ok e                   => pure (e, ts)
        | .error (.error message) => fails message pos
        | .error .panic           => .error .panic
        | .error .outOfFuel       => .error .outOfFuel
      | _ => fails (.needsValue field) pos
    | ⟨other, pos⟩ :: _           => fails (.unexpected other) pos

end

end Parser

-- An empty query is an empty `and`.
def parse (input : String) : Parsed SearchExpr :=
  match tokenize (charIndices 0 input.toList) with
  | .error e => .error (.error e)
  | .ok []   => pure (.and [])
  | .ok ts   => do
    let (expr, rest) ← Parser.or (5 * ts.length + 5) ts
    match rest with
    | []     => pure expr
    | t :: _ => fails (.unexpected t.kind) t.pos

end Kaluta
