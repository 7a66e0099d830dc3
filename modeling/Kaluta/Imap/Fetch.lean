import Mathlib.Data.List.ReduceOption
import Kaluta.Lib.Attempt
import Kaluta.Provider.Http
import Kaluta.Wire.Payload
import Kaluta.Store.Undo
import Kaluta.RateLimit.ClientKey

-- Gmail over IMAP: a message is found through a map of its folder and UID, and what IMAP does not return is fetched
-- from the REST API, whose ids are the same numbers in hexadecimal.
namespace Kaluta

def SystemLabels.IMPORTANT : LabelId := "IMPORTANT"

namespace Imap

open Provider (ProviderError)
open Wire (Bytes FetchedBody FetchedAttachment)
open Guide (eqIgnoreAsciiCase cleanText)
open RateLimit (hex)
open SystemLabels

-- The folders synced: All Mail holds everything but spam and trash.
inductive Folder
  | allMail
  | drafts
  | spam
  | trash
  deriving DecidableEq

namespace Folder

def ALL : List Folder :=
  [allMail, drafts, spam, trash]

-- The label a message has for being in this folder.
def label : Folder → Option LabelId
  | allMail => none
  | drafts  => some DRAFT
  | spam    => some SPAM
  | trash   => some TRASH

end Folder

structure Located where
  folder : Folder
  uid    : UInt32
  size   : UInt32
  deriving DecidableEq

-- One of the things that a FETCH response says of a message.
inductive AttributeValue
  | uid (uid : UInt32)
  | gmailMsgId (msgid : UInt64)
  | gmailThrId (thrid : UInt64)
  | rfc822Size (size : UInt32)
  | bodySection (text : Bool) (data : Option Bytes) -- `text`: of the section TEXT.
  | rfc822 (data : Option Bytes)
  | internalDate (date : String)
  | flags (flags : List String)
  | gmailLabels (names : List String)
  | other
  deriving DecidableEq

abbrev Attributes := List AttributeValue

section Ids

def hexDigit (c : Char) : Option Nat :=
  if '0' ≤ c ∧ c ≤ '9' then some (c.toNat - '0'.toNat)
  else if 'a' ≤ c ∧ c ≤ 'f' then some (c.toNat - 'a'.toNat + 10)
  else if 'A' ≤ c ∧ c ≤ 'F' then some (c.toNat - 'A'.toNat + 10)
  else none

-- A further digit, as long as the number fits 64 bits.
def pushDigit (n : Nat) (c : Char) : Option Nat :=
  (hexDigit c).bind fun d => if 16 * n + d < UInt64.size then some (16 * n + d) else none

-- A number may begin with a plus sign.
def digits : List Char → List Char
  | '+' :: d :: ds => d :: ds
  | ds             => ds

def fromStrRadix16 (id : MessageId) : Option UInt64 :=
  if digits id.toList = [] then none else ((digits id.toList).foldlM pushDigit 0).map UInt64.ofNat

def messageId (msgid : UInt64) : MessageId :=
  .ofList (hex msgid.toNat)

-- The message that an id is about.
abbrev Key := UInt64 ⊕ MessageId

def key (id : MessageId) : Key :=
  match fromStrRadix16 id with
  | some msgid => .inl msgid
  | none       => .inr id

end Ids

section Labels

-- The escapes of a quoted string undone; an atom has none.
def unescape : List Char → List Char
  | []               => []
  | ['\\']           => ['\\']
  | '\\' :: next :: cs => if next = '\\' ∨ next = '"' then next :: unescape cs else '\\' :: next :: unescape cs
  | c :: cs          => c :: unescape cs

def unescapeLabel (name : String) : String :=
  .ofList (unescape name.toList)

-- IMAP's names for Gmail's system labels.
def systemLabel : String → Option LabelId
  | "\\Inbox"     => some INBOX
  | "\\Sent"      => some SENT
  | "\\Important" => some IMPORTANT
  | "\\Starred"   => some STARRED
  | "\\Draft"     => some DRAFT
  | "\\Spam"      => some SPAM
  | "\\Trash"     => some TRASH
  | _             => none

-- By its name as the label list has it: Gmail's label names to label ids.
abbrev LabelNames := String → Option LabelId

def labelOf (labels : LabelNames) (name : String) : Option LabelId :=
  match systemLabel (unescapeLabel name) with
  | some id => some id
  | none    => labels (unescapeLabel name) -- One not in the label list yet is skipped.

end Labels

section Messages

structure ParsedAttachment where
  filename  : String
  mimeType  : String
  size      : Nat
  contentId : Option String
  isInline  : Bool
  data      : Bytes

structure ParsedMessage (η : Type) where
  headers     : η
  text        : Option String
  html        : Option String
  attachments : List ParsedAttachment

-- How raw messages and dates are read.
class Mail where
  Headers           : Type
  date              : Headers → Option Millis
  parse             : Bytes → Option (ParsedMessage Headers)
  parseInternalDate : String → Option Millis

structure FetchedMessage [Mail] where
  id           : MessageId
  threadId     : ThreadId
  labelIds     : List LabelId
  snippet      : String
  internalDate : Millis
  sizeEstimate : Nat
  headers      : Mail.Headers
  body         : Option FetchedBody

def SNIPPET_CHARS : Nat := 160
def SNIPPET_TEXT_BYTES : Nat := 2048

def snippet (text : String) : String :=
  .ofList ((cleanText text).toList.take SNIPPET_CHARS)

-- The header block followed by the first bytes of the text, cut back to the last whole line.
def withPartialText (header text : Bytes) : Bytes :=
  let whole :=
    if SNIPPET_TEXT_BYTES ≤ text.length ∧ 10 ∈ text then (text.reverse.dropWhile (· ≠ 10)).reverse else text
  let ended := [13, 10, 13, 10].isSuffixOf header ∨ [10, 10].isSuffixOf header
  (if ended then header else header ++ [13, 10]) ++ whole

-- The last attribute of a kind counts.
def last (kind : AttributeValue → Option α) (attrs : Attributes) : Option α :=
  (attrs.filterMap kind).getLast?

def uid : Attributes → Option UInt32 :=
  last fun | .uid uid => some uid | _ => none

def msgid : Attributes → Option UInt64 :=
  last fun | .gmailMsgId msgid => some msgid | _ => none

def thrid : Attributes → Option UInt64 :=
  last fun | .gmailThrId thrid => some thrid | _ => none

def size : Attributes → Option Nat :=
  last fun | .rfc822Size size => some size.toNat | _ => none

def internalDate : Attributes → Option String :=
  last fun | .internalDate date => some date | _ => none

def raw : Attributes → Option Bytes :=
  last fun | .bodySection false data => data | .rfc822 data => data | _ => none

def partialText : Attributes → Option Bytes :=
  last fun | .bodySection true data => data | _ => none

def flags (attrs : Attributes) : List String :=
  (last (fun | .flags flags => some flags | _ => none) attrs).getD []

def seen (attrs : Attributes) : Bool :=
  (flags attrs).any (eqIgnoreAsciiCase · "\\Seen")

def flagged (attrs : Attributes) : Bool :=
  (flags attrs).any (eqIgnoreAsciiCase · "\\Flagged")

-- All the label names shown, over several attributes too.
def gmailLabels (attrs : Attributes) : List String :=
  attrs.flatMap fun | .gmailLabels names => names | _ => []

def labelIds (attrs : Attributes) (labels : LabelNames) (folder : Folder) : List LabelId :=
  btreeSet <|
    (gmailLabels attrs).filterMap (labelOf labels) ++
    (if seen attrs then [] else [UNREAD]) ++
    (if flagged attrs then [STARRED] else []) ++
    folder.label.toList

-- An attachment comes with the message: nothing to fetch later.
def fetchedAttachment (a : ParsedAttachment) (i : Nat) : FetchedAttachment where
  partId       := some (toString (i + 1))
  attachmentId := none
  filename     := a.filename
  mimeType     := a.mimeType
  size         := a.size
  contentId    := a.contentId
  isInline     := a.isInline
  data         := some a.data

-- One FETCH response as a provider message.
def toFetched [Mail] (attrs : Attributes) (labels : LabelNames) (folder : Folder) : Option FetchedMessage := do
  let msgid ← msgid attrs
  let thrid ← thrid attrs
  let raw ← raw attrs
  let parsed ← Mail.parse <|
    match partialText attrs with
    | some text => withPartialText raw text
    | none      => raw
  return {
    id           := messageId msgid
    threadId     := .ofList (hex thrid.toNat)
    labelIds     := labelIds attrs labels folder
    snippet      := snippet ((parsed.text.or parsed.html).getD "")
    internalDate := (((internalDate attrs).bind Mail.parseInternalDate).or (Mail.date parsed.headers)).getD 0
    sizeEstimate := (size attrs).getD raw.length
    headers      := parsed.headers
    body         := some {
      text        := parsed.text
      html        := parsed.html
      attachments := parsed.attachments.zipIdx.map fun (a, i) => fetchedAttachment a i
    }
  }

end Messages

section State

variable (ω : Type) [Preorder ω] [Mail]

-- A step outside this code: it ends well or not, in a world no earlier.
structure Op (α : Type) where
  run   : ω → Except ProviderError α × ω
  later : ∀ w, w ≤ (run w).2

-- The IMAP server, the sign-in to it, and the REST API; a world is all that they, and time, depend on.
structure Server where
  now        : ω → Millis
  login      : Op ω Bool -- One connection and login with the cached token; `false`: refused.
  invalidate : Op ω Unit
  examine    : Folder → Op ω Bool -- `false`: the answer is NO.
  scan       : Option Folder → Op ω (List Attributes) -- UID FETCH 1:* (UID X-GM-MSGID RFC822.SIZE)
  bodies     : Option Folder → List UInt32 → Op ω (List Attributes)
  getMessage : MessageId → Op ω (Option FetchedMessage)

-- What the source keeps, and the world around it.
structure Mem where
  connected  : Bool
  selected   : Option Folder -- The folder the session has open.
  map        : UInt64 → Option Located
  refusedAt  : Millis -- 0: not refused.
  day        : Int
  bytesToday : Nat
  world      : ω

-- Something that leaves the id map alone: a wait, another command over the session, bytes counted.
structure Aside where
  run      : Mem ω → Mem ω
  keepsMap : ∀ m, (run m).map = m.map
  later    : ∀ m, m.world ≤ (run m).world

-- What other calls do to the state while this one does not hold it.
inductive Turn
  | aside (a : Aside ω)
  | reload
  | forget (msgid : UInt64)

structure ImapConfig where
  maxMessageBytes  : Nat
  dailyBudgetBytes : Nat
  batch            : Nat
  refusalLasts     : Nat

structure ImapBackfill where
  config : ImapConfig
  server : Server ω
  labels : LabelNames
  others : Mem ω → List (Turn ω)

end State

section Engine

variable {ω : Type} [Preorder ω] [Mail]

abbrev ImapResult (ω α : Type) := Attempt (Mem ω) ProviderError α

def Op.call (op : Op ω α) : ImapResult ω α :=
  .ofFn fun m => ((op.run m.world).1, { m with world := (op.run m.world).2 })

-- Whatever the error was, it is one of the connection.
def orNetwork (x : ImapResult ω α) : ImapResult ω α :=
  .ofFn fun m =>
    match x.exec m with
    | (.ok a, m')    => (.ok a, m')
    | (.error _, m') => (.error .network, m')

def lastIndex (ids : List MessageId) (id : MessageId) : Nat :=
  if id ∈ ids then ids.length - ids.reverse.idxOf id else ids.length + 1

namespace ImapBackfill

variable (source : ImapBackfill ω)

def isRefused (m : Mem ω) : Bool :=
  m.refusedAt ≠ 0 ∧ source.server.now m.world - m.refusedAt < source.config.refusalLasts

def today (m : Mem ω) : Int :=
  source.server.now m.world / 86400000

def overBudget (m : Mem ω) : Bool :=
  source.config.dailyBudgetBytes ≤ if m.day = source.today m then m.bytesToday else 0

def available : ImapResult ω Unit := do
  let m ← get
  if source.isRefused m then throw (.unavailable "IMAP sign-in was refused for this account")
  else if source.overBudget m then throw (.unavailable "today's IMAP download budget is used")
  else pure ()

def countBytes (bytes : Nat) : ImapResult ω Unit :=
  modify fun m =>
    { m with day := source.today m, bytesToday := (if m.day = source.today m then m.bytesToday else 0) + bytes }

-- Only a second refusal, with a fresh token, turns IMAP off for a while.
def connect : ImapResult ω Unit := do
  let accepted ← source.server.login.call
  if accepted then modify ({ · with refusedAt := 0 })
  else do
    source.server.invalidate.call
    let accepted ← source.server.login.call
    if accepted then modify ({ · with refusedAt := 0 })
    else do
      modify fun m => { m with refusedAt := max (source.server.now m.world) 1 }
      throw (.forbidden "IMAP login refused")

-- Takes the session: a call that fails does not put it back.
def session : ImapResult ω Unit := do
  let m ← get
  if m.connected then modify ({ · with connected := false })
  else do
    source.connect
    modify ({ · with selected := none })

def putBack : ImapResult ω Unit :=
  modify ({ · with connected := true })

-- `false` when the account has no such folder.
def openFolder (folder : Folder) : ImapResult ω Bool := do
  let m ← get
  if m.selected = some folder then pure true
  else do
    let found ← (source.server.examine folder).call
    if found then do
      modify ({ · with selected := some folder })
      pure true
    else if folder = .allMail then throw .network
    else do
      modify ({ · with selected := none })
      pure false

end ImapBackfill

def place (folder : Folder) (attrs : Attributes) : Option (UInt64 × Located) := do
  let uid ← uid attrs
  let msgid ← msgid attrs
  return (msgid, { folder, uid, size := ((last (fun | .rfc822Size size => some size | _ => none) attrs).getD 0) })

-- The first place found for a message is kept.
def orInsert (map : UInt64 → Option Located) (found : UInt64 × Located) : UInt64 → Option Located :=
  if map found.1 = none then Function.update map found.1 (some found.2) else map

def byFolder (wanted : List (UInt64 × Located)) : List (Folder × List UInt32) :=
  (Folder.ALL.map fun f => (f, (wanted.filter (·.2.folder = f)).map (·.2.uid))).filter (·.2 ≠ [])

-- Over IMAP, where the map has it and it is not too large.
def route (map : UInt64 → Option Located) (maxBytes : Nat) (id : MessageId) : (UInt64 × Located) ⊕ MessageId :=
  match (fromStrRadix16 id).bind fun msgid => (map msgid).map (msgid, ·) with
  | some found => if found.2.size.toNat ≤ maxBytes then .inl found else .inr id
  | none       => .inr id

def viaImap (map : UInt64 → Option Located) (maxBytes : Nat) (ids : List MessageId) : List (UInt64 × Located) :=
  ids.filterMap fun id => (route map maxBytes id).getLeft?

def viaRest (map : UInt64 → Option Located) (maxBytes : Nat) (ids : List MessageId) : List MessageId :=
  ids.filterMap fun id => (route map maxBytes id).getRight?

-- What IMAP did not return: moved since the map was loaded, or unparseable.
def stale (wanted : List (UInt64 × Located)) (out : List FetchedMessage) : List UInt64 :=
  (wanted.map (·.1)).filter fun msgid => messageId msgid ∉ out.map (·.id)

namespace ImapBackfill

variable (source : ImapBackfill ω)

def scanFolder (folder : Folder) : ImapResult ω (List (UInt64 × Located)) := do
  let opened ← source.openFolder folder
  if opened then do
    let m ← get
    let answers ← orNetwork (source.server.scan m.selected).call
    pure (answers.filterMap (place folder))
  else pure []

-- All Mail first, so a message in two folders keeps its place there.
def loadMap : ImapResult ω Unit := do
  let found ← Folder.ALL.mapM source.scanFolder
  modify ({ · with map := found.flatten.foldl orInsert fun _ => none })

def turn (m : Mem ω) : Turn ω → Mem ω
  | .aside a      => a.run m
  | .reload       => ((do source.session; source.loadMap; putBack : ImapResult ω Unit).exec m).2
  | .forget msgid => { m with map := Function.update m.map msgid none }

-- Waiting for the state: others have had it meanwhile.
def lock : ImapResult ω Unit :=
  modify fun m => (source.others m).foldl source.turn m

def fetchChunk (folder : Folder) (chunk : List UInt32) : ImapResult ω (List FetchedMessage) := do
  let m ← get
  let answers ← (source.server.bodies m.selected chunk).call
  pure (answers.filterMap (toFetched · source.labels folder))

def fetchFolder (located : Folder × List UInt32) : ImapResult ω (List FetchedMessage) := do
  let opened ← source.openFolder located.1
  if opened then do
    let out ← (chunks (max source.config.batch 1) located.2).mapM (source.fetchChunk located.1)
    pure out.flatten
  else pure []

def fetchImap (wanted : List (UInt64 × Located)) : ImapResult ω (List FetchedMessage) :=
  if wanted = [] then pure []
  else do
    source.lock
    source.session
    let out ← (byFolder wanted).mapM source.fetchFolder
    putBack
    source.countBytes (out.flatten.map (·.sizeEstimate)).sum
    pure out.flatten

-- The API's messages, those it does not find left out; in the order of `ids`, whatever order the answers come in.
def fetchMessages (ids : List MessageId) : ImapResult ω (List FetchedMessage) := do
  let found ← ids.mapM fun id => (source.server.getMessage id).call
  pure (found.reduceOption.insertionSort fun a b => lastIndex ids a.id ≤ lastIndex ids b.id)

-- Loads the map again for ids it does not know.
def refresh (ids : List MessageId) : ImapResult ω Unit := do
  source.lock
  let m ← get
  if (ids.filterMap fromStrRadix16).any (m.map · = none) then do
    source.lock
    source.session
    source.loadMap
    putBack
  else pure ()

def forget (stale : List UInt64) : ImapResult ω Unit :=
  if stale = [] then pure ()
  else do
    source.lock
    modify fun m => { m with map := stale.foldl (Function.update · · none) m.map }

def fetch (ids : List MessageId) : ImapResult ω (List FetchedMessage) := do
  source.available
  source.refresh ids
  source.lock
  let m ← get
  let wanted := viaImap m.map source.config.maxMessageBytes ids
  let out ← orNetwork (source.fetchImap wanted)
  source.forget (stale wanted out)
  let rest := viaRest m.map source.config.maxMessageBytes ids ++ (stale wanted out).map messageId
  if rest = [] then pure out
  else do
    let more ← source.fetchMessages rest
    pure (out ++ more)

end ImapBackfill

end Engine

section Calls

open Attempt

variable {ω : Type}

theorem orNetwork_eq_ok {x : ImapResult ω α} : (orNetwork x).exec m = (.ok a, m') ↔ x.exec m = (.ok a, m') := by
  rw [orNetwork, exec_ofFn]
  rcases x.exec m with ⟨e | a', m₁⟩
  case error => simp
  case ok    => simp

variable [Preorder ω]

theorem Op.call_eq_ok {op : Op ω α} :
    op.call.exec m = (.ok a, m') ↔ ∃ w, op.run m.world = (.ok a, w) ∧ m' = { m with world := w } := by
  rw [Op.call, exec_ofFn]
  constructor
  case mp =>
    intro h
    rw [Prod.mk.injEq] at h
    exact ⟨(op.run m.world).2, Prod.ext h.left rfl, h.right.symm⟩
  case mpr =>
    rintro ⟨w, run, rfl⟩
    rw [run]

-- Time goes on, and `P` stays true of the id map.
structure Onward (P : (UInt64 → Option Located) → Prop) (m m' : Mem ω) : Prop where
  later : m.world ≤ m'.world
  keeps : P m.map → P m'.map

theorem Onward.trans {m₁ m₂ m₃ : Mem ω} (a : Onward P m₁ m₂) (b : Onward P m₂ m₃) : Onward P m₁ m₃ :=
  ⟨a.later.trans b.later, b.keeps ∘ a.keeps⟩

instance : IsPreorder (Mem ω) (Onward P) where
  refl _          := ⟨le_rfl, id⟩
  trans _ _ _ a b := a.trans b

end Calls

end Imap

end Kaluta
