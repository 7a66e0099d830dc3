import Kaluta.Search.Parse
import Mathlib.Data.List.DropRight

-- What is taken out of a text before it is written to a log.
namespace Kaluta.Logging

-- Query parameters that carry a signature or a credential in a presigned URL.
def SIGNED_QUERY : List String :=
  ["x-amz-signature", "x-amz-credential", "x-amz-security-token", "x-goog-signature", "x-goog-credential", "signature",
   "sig", "token", "access_token", "key-pair-id", "policy"]

-- Of the API keys of the agents' mail services.
def KEY_PREFIXES : List String :=
  ["am_", "prim_"]

def isLocal (c : Char) : Bool :=
  c.isAlphanum || "._%+-".toList.contains c

def isDomain (c : Char) : Bool :=
  c.isAlphanum || ".-".toList.contains c

def isToken (c : Char) : Bool :=
  c.isAlphanum || "._-".toList.contains c

def isName (c : Char) : Bool :=
  c.isAlphanum || "_-".toList.contains c

-- Where the value of a query parameter ends.
def isDelimiter (c : Char) : Bool :=
  isWhitespace c || "&#)\"'>],".toList.contains c

inductive Marker
  | token
  | redacted
  | email
  deriving DecidableEq

def Marker.text : Marker → List Char
  | token    => "<token>".toList
  | redacted => "<redacted>".toList
  | email    => "<email>".toList

-- What there is at a place of a text: its lengths.
inductive Found
  | token (len : Nat)
  | param (shown value : Nat)
  | address (written len : Nat) -- The characters before the `@`, and those from it on.
  | plain
  deriving DecidableEq

-- How many characters of the text are gone through.
def Found.len : Found → Nat
  | token len         => len
  | param shown value => shown + value
  | address _ len     => len
  | plain             => 1

section Patterns

variable (past rest : List Char)

def startsWord : Bool :=
  past.getLast?.all (!isToken ·)

def accessToken : Option Found :=
  if startsWord past ∧ "ya29.".toList <+: rest then
    some (.token (5 + ((rest.drop 5).takeWhile isToken).length))
  else
    none

def apiKey : Option Found :=
  if startsWord past then
    (KEY_PREFIXES.find? (·.toList.isPrefixOf rest)).bind fun start =>
      let len := start.length + ((rest.drop start.length).takeWhile isToken).length
      if start.length + 5 ≤ len then some (.token len) else none
  else
    none

def signedParam : Option Found :=
  match rest with
  | []        => none
  | c :: rest =>
    let name := rest.takeWhile isName
    let value := (rest.drop (name.length + 1)).takeWhile (!isDelimiter ·)
    if (c = '?' ∨ c = '&') ∧ (rest.drop name.length).head? = some '=' ∧
        String.ofList (name.map Char.toLower) ∈ SIGNED_QUERY then
      some (.param (name.length + 2) value.length)
    else
      none

def refreshToken : Option Found :=
  let len := 3 + ((rest.drop 3).takeWhile isToken).length
  if startsWord past ∧ "1//".toList <+: rest ∧ 23 ≤ len then some (.token len) else none

def address : Option Found :=
  match rest with
  | []        => none
  | c :: rest =>
    let written := past.rtakeWhile isLocal
    let domain := (rest.takeWhile isDomain).rdropWhile (· = '.')
    if c = '@' ∧ written ≠ [] ∧ '.' ∈ domain ∧ domain.head? ≠ some '.' then
      some (.address written.length (1 + domain.length))
    else
      none

def found : Found :=
  accessToken past rest |>.or (apiKey past rest) |>.or (signedParam rest) |>.or (refreshToken past rest)
    |>.or (address past rest) |>.getD .plain

end Patterns

-- The loop over a text: how far it is, what is left of the text and what is made of it so far.
def scan (write : List Char → List Char → γ → Found → γ) : Nat → List Char → List Char → γ → γ
  | 0,        _,    _,         out => out
  | _ + 1,    _,    [],        out => out
  | fuel + 1, past, c :: rest, out =>
    let at' := found past (c :: rest)
    scan write fuel (past ++ (c :: rest).take at'.len) ((c :: rest).drop at'.len) (write past (c :: rest) out at')

-- An address takes back as many characters of what is written as the text has before the `@`.
def write (_ rest out : List Char) : Found → List Char
  | .token _           => out ++ Marker.token.text
  | .param shown _     => out ++ rest.take shown ++ Marker.redacted.text
  | .address written _ => out.rdrop written ++ Marker.email.text
  | .plain             => out ++ rest.take 1

def scrubbed (text : List Char) : List Char :=
  scan write text.length [] text []

def scrub (text : String) : String :=
  .ofList (scrubbed text.toList)

-- A character that is written, and where it comes from: a place of the text, or the marker in place of the piece of
-- the text from `first` to `last`.
inductive Cell
  | kept (place : Nat) (c : Char)
  | mark (marker : Marker) (first last i : Nat)
  deriving DecidableEq

namespace Cell

def char : Cell → Char
  | kept _ c          => c
  | mark marker _ _ i => marker.text.getD i ' '

end Cell

def keep (place : Nat) : List Char → List Cell
  | []      => []
  | c :: cs => .kept place c :: keep (place + 1) cs

def mark (marker : Marker) (first last : Nat) : List Cell :=
  (List.range marker.text.length).map (.mark marker first last)

-- As `write`, with where each character comes from.
def trace (past rest : List Char) (out : List Cell) : Found → List Cell
  | .token len           => out ++ mark .token past.length (past.length + len)
  | .param shown value   =>
    out ++ keep past.length (rest.take shown) ++
      mark .redacted (past.length + shown) (past.length + shown + value)
  | .address written len => out.rdrop written ++ mark .email (past.length - written) (past.length + len)
  | .plain               => out ++ keep past.length (rest.take 1)

def traced (text : List Char) : List Cell :=
  scan trace text.length [] text []

@[simp]
theorem map_char_keep (place : Nat) (cs : List Char) : (keep place cs).map Cell.char = cs := by
  induction cs generalizing place
  case nil          => rfl
  case cons c cs ih => rw [keep, List.map_cons, ih]; rfl

@[simp]
theorem map_char_mark (marker : Marker) (first last : Nat) : (mark marker first last).map Cell.char = marker.text := by
  cases marker <;> rfl

theorem map_char_trace (past rest : List Char) (out : List Cell) (at' : Found) :
    (trace past rest out at').map Cell.char = write past rest (out.map Cell.char) at' := by
  cases at' <;> simp [trace, write, List.rdrop, List.map_take]

theorem map_char_scan (fuel : Nat) (past rest : List Char) (out : List Cell) :
    (scan trace fuel past rest out).map Cell.char = scan write fuel past rest (out.map Cell.char) := by
  induction fuel generalizing past rest out
  case zero => rfl
  case succ fuel ih =>
    cases rest
    case nil         => rfl
    case cons c rest => rw [scan, scan, ih, map_char_trace]

-- The origins say of each character what is written.
theorem map_char_traced (text : List Char) : (traced text).map Cell.char = scrubbed text :=
  map_char_scan ..

end Kaluta.Logging
