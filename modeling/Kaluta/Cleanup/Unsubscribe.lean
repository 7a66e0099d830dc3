import Kaluta.Cleanup.Address
import Kaluta.Guide.Entry

-- Unsubscribing from the lists that the user ticked and confirmed.
namespace Kaluta.Cleanup

open Guide (Unicode toLowercase trim eqIgnoreAsciiCase)

def ONE_CLICK_BODY : String := "List-Unsubscribe=One-Click"

-- A parsed address. It names no port if that is the scheme's default.
structure Url where
  scheme   : String
  username : String := ""
  password : Option String := none
  hostStr  : Option String
  port     : Option Nat := none
  -- As written out.
  text     : String
  deriving DecidableEq

structure Mailto where
  to_     : List String := []
  cc      : List String := []
  subject : String := ""
  body    : String := ""
  deriving DecidableEq

inductive Method
  | oneClick (url : Url)
  | mailto (m : Mailto)
  deriving DecidableEq

inductive CleanupUnsubscribeMethod
  | oneClick (host : String)
  | mailto (m : Mailto)
  deriving DecidableEq

structure CleanupUnsubscribeTarget where
  keys       : List String
  messageIds : List String
  name       : String
  method     : CleanupUnsubscribeMethod
  deriving DecidableEq

structure EmailAddress where
  name  : Option String
  email : String
  deriving DecidableEq

-- A group's newest message's list headers.
structure ListHeadersOf where
  key             : String
  messageId       : String
  listId          : Option String
  listName        : Option String
  sender          : Option EmailAddress
  unsubscribe     : Option String
  unsubscribePost : Option String
  deriving DecidableEq

inductive CleanupView
  | sender | people | subject | mailingList | time | social | promotions | size
  deriving DecidableEq

inductive UnsubscribeKind
  | list
  | sender

def unsubscribeKind : CleanupView → Option UnsubscribeKind
  | .mailingList      => some .list
  | .sender | .people => some .sender
  | _                 => none

section Headers

-- The URIs of a `List-Unsubscribe` header, each in angle brackets. White space inside is folding.
def urisFrom : Nat → List Char → List String
  | 0       , _      => []
  | fuel + 1, header =>
    match header.dropWhile (· ≠ '<') with
    | []         => []
    | _ :: after =>
      match after.dropWhile (· ≠ '>') with
      | []        => []
      | _ :: rest =>
        let uri := (after.takeWhile (· ≠ '>')).filter (¬isWhitespace ·)
        if uri ≠ [] then .ofList uri :: urisFrom fuel rest else urisFrom fuel rest

-- Each URI takes characters, so their number is enough fuel.
def uris (header : String) : List String :=
  urisFrom header.toList.length header.toList

def isOneClick (post : Option String) : Bool :=
  post.any fun p => eqIgnoreAsciiCase (trim p) ONE_CLICK_BODY

def PRIVATE_SUFFIXES : List String :=
  ["local", "localhost", "internal", "lan", "home.arpa", "intranet", "corp"]

-- Host names as compared: lower case, without the final dots.
def asciiHost (host : String) : String :=
  .ofList ((host.toList.reverse.dropWhile (· = '.')).reverse.map Char.toLower)

def trimBrackets (host : String) : String :=
  .ofList (((host.toList.dropWhile (· = '[')).reverse.dropWhile (· = ']')).reverse)

-- An address the one-click POST may go to.
def postable (url : Url) : Bool :=
  if url.username ≠ "" ∨ url.password.isSome then false
  else match url.hostStr with
    | none      => false
    | some host =>
      if isIpAddr (trimBrackets host) then false
      else
        let host := asciiHost host
        let private_ := PRIVATE_SUFFIXES.any fun s => host = s ∨ ("." ++ s).toList.isSuffixOf host.toList
        url.scheme = "https" && url.port.isNone && decide ('.' ∈ host.toList) && !private_

def shownHost (url : Url) : String :=
  match url.port with
  | some port => url.hostStr.getD "" ++ ":" ++ toString port
  | none      => url.hostStr.getD ""

def COUNTRY_SECOND_LEVELS : List String :=
  ["ac", "co", "com", "edu", "gov", "ne", "net", "or", "org", "go"]

-- A host's last two labels, or three under a country's own second level.
def registrable (host : String) : String :=
  let host := asciiHost (trim host)
  if isIpAddr host then host
  else
    let labels := ((host.toList.splitOn '.').filter (· ≠ [])).map String.ofList
    let n := labels.length
    let take := if n ≥ 3 ∧ (labels.getD (n - 1) "").utf8ByteSize = 2 ∧ labels.getD (n - 2) "" ∈ COUNTRY_SECOND_LEVELS then 3
      else 2
    ".".intercalate (labels.drop (n - take))

-- What follows the last `@`.
def domainOf (email : String) : Option String :=
  if '@' ∈ email.toList then some (.ofList (email.toList.reverse.takeWhile (· ≠ '@')).reverse) else none

-- The domains that a list's mail says it is from.
def owners (listId fromEmail : Option String) : List String :=
  ((listId.toList ++ (fromEmail.bind domainOf).toList).map registrable).filter (· ≠ "")

end Headers

section Mailto

def isHex (b : UInt8) : Option Nat :=
  if 48 ≤ b ∧ b ≤ 57 then some (b.toNat - 48)
  else if 97 ≤ b ∧ b ≤ 102 then some (b.toNat - 87)
  else if 65 ≤ b ∧ b ≤ 70 then some (b.toNat - 55)
  else none

-- `from_str_radix` of two bytes, which takes a sign.
def hexByte (hi lo : UInt8) : Option UInt8 :=
  if hi = 43 then (isHex lo).map UInt8.ofNat
  else do some (.ofNat (16 * (← isHex hi) + (← isHex lo)))

-- Percent-decoding, where `+` stays a plus.
def decodeBytes : List UInt8 → List UInt8
  | b :: hi :: lo :: rest =>
    match if b = 37 then hexByte hi lo else none with
    | some byte => byte :: decodeBytes rest
    | none      => b :: decodeBytes (hi :: lo :: rest)
  | bytes                 => bytes

-- The continuation bytes that a first byte asks for: how many, and the range of the first of them.
def continuation (b : UInt8) : Option (Nat × UInt8 × UInt8) :=
  if b < 0x80 then some (0, 0, 0)
  else if 0xC2 ≤ b ∧ b ≤ 0xDF then some (1, 0x80, 0xBF)
  else if b = 0xE0 then some (2, 0xA0, 0xBF)
  else if b = 0xED then some (2, 0x80, 0x9F)
  else if 0xE1 ≤ b ∧ b ≤ 0xEF then some (2, 0x80, 0xBF)
  else if b = 0xF0 then some (3, 0x90, 0xBF)
  else if 0xF1 ≤ b ∧ b ≤ 0xF3 then some (3, 0x80, 0xBF)
  else if b = 0xF4 then some (3, 0x80, 0x8F)
  else none

-- A character's code so far takes bytes from what follows; what is not its continuation ends it.
def lossy : List UInt8 → Option (Nat × Nat × UInt8 × UInt8) → List Char
  | []       , none               => []
  | []       , some _             => ['\ufffd']
  | b :: rest, none               =>
    match continuation b with
    | none              => '\ufffd' :: lossy rest none
    | some (0, _, _)    => Char.ofNat b.toNat :: lossy rest none
    | some (n, low, up) =>
      lossy rest (some (n, b.toNat % (if n = 1 then 32 else if n = 2 then 16 else 8), low, up))
  | b :: rest, some (n, code, low, up) =>
    if low ≤ b ∧ b ≤ up then
      let code := 64 * code + b.toNat % 64
      if n ≤ 1 then Char.ofNat code :: lossy rest none else lossy rest (some (n - 1, code, 0x80, 0xBF))
    else
      '\ufffd' :: match continuation b with
        | none              => '\ufffd' :: lossy rest none
        | some (0, _, _)    => Char.ofNat b.toNat :: lossy rest none
        | some (n, low, up) =>
          lossy rest (some (n, b.toNat % (if n = 1 then 32 else if n = 2 then 16 else 8), low, up))

def decode (s : List Char) : String :=
  .ofList (lossy (decodeBytes (String.ofList s).toUTF8.toList) none)

def addresses (s : List Char) : List String :=
  ((s.splitOn ',').map fun a => trim (decode a)).filter fun a => '@' ∈ a.toList

def splitAt_ (c : Char) (s : List Char) : List Char × List Char :=
  (s.takeWhile (· ≠ c), (s.dropWhile (· ≠ c)).drop 1)

-- A `mailto:` URI's recipients, subject and body; none unless it names at least one address.
def parseMailto (uri : String) : Option Mailto :=
  if (uri.toList.take 7).map Char.toLower ≠ "mailto:".toList then none
  else
    let (recipients, query) := splitAt_ '?' (uri.toList.drop 7)
    let m := ((query.splitOn '&').filter (· ≠ [])).foldl (fun m pair =>
      let (name, value) := splitAt_ '=' pair
      match (decode name).toList.map Char.toLower |> String.ofList with
      | "to"      => { m with to_ := m.to_ ++ addresses value }
      | "cc"      => { m with cc := m.cc ++ addresses value }
      | "subject" => { m with subject := decode value }
      | "body"    => { m with body := decode value }
      | _         => m) ({ to_ := addresses recipients } : Mailto)
    if m.to_ = [] then none else some m

end Mailto

-- The parser of addresses.
variable (parse : String → Option Url)

-- How to leave a list from its headers.
def method (unsubscribe : String) (post : Option String) (owners : List String) : Option Method :=
  let url := if isOneClick post then
      (uris unsubscribe).findSome? fun u => ((parse u).filter postable).filter fun url =>
        url.hostStr.any (registrable · ∈ owners)
    else none
  match url with
  | some url => some (.oneClick url)
  | none     => ((uris unsubscribe).findSome? parseMailto).map .mailto

structure Resolved where
  target     : CleanupUnsubscribeTarget
  method     : Method
  identities : List String
  deriving DecidableEq

section Resolving

variable [Unicode]

-- What tells the lists apart.
def listOf (row : ListHeadersOf) : Method → String
  | method => match row.listId, method with
    | some id, _             => "list:" ++ toLowercase id
    | none   , .oneClick url => "url:" ++ url.text
    | none   , .mailto m     => "mailto:" ++ toLowercase (",".intercalate m.to_)

def unsubscribeIdentity (kind : UnsubscribeKind) (key : String) : String :=
  match kind with
  | .list   => "list:" ++ toLowercase key
  | .sender => "from:" ++ toLowercase key

def identitiesOf (kind : UnsubscribeKind) (row : ListHeadersOf) : List String :=
  unsubscribeIdentity kind row.key ::
    match kind, row.listId with
    | .sender, some id => [unsubscribeIdentity .list id]
    | _      , _       => []

def nameOf (row : ListHeadersOf) : String :=
  let given (name : Option String) := name.filter (trim · ≠ "")
  ((given row.listName).or ((given (row.sender.bind (·.name))).or
    (row.listId.or (row.sender.map (·.email))))).getD row.key

def shown : Method → CleanupUnsubscribeMethod
  | .oneClick url => .oneClick (shownHost url)
  | .mailto m     => .mailto m

def methodOf (row : ListHeadersOf) : Option Method :=
  row.unsubscribe.bind fun h =>
    method parse h row.unsubscribePost (owners row.listId (row.sender.map (·.email)))

-- One more of the ticked groups, its list's if that is there.
def resolveOne (kind : UnsubscribeKind) (byList : List (String × Resolved)) (row : ListHeadersOf) :
    List (String × Resolved) :=
  match methodOf parse row with
  | none        => byList
  | some method =>
    let list := listOf row method
    if list ∈ byList.map Prod.fst then
      byList.map fun (l, r) =>
        if l = list then
          (l, { r with
            target     := { r.target with
              keys := r.target.keys ++ [row.key], messageIds := r.target.messageIds ++ [row.messageId] }
            identities := r.identities ++ identitiesOf kind row })
        else (l, r)
    else byList ++ [(list, {
      target     := { keys := [row.key], messageIds := [row.messageId], name := nameOf row, method := shown method }
      method     := method
      identities := identitiesOf kind row })]

-- The newest headers of the ticked groups as targets, one per list.
def resolve (view : CleanupView) (rows : List ListHeadersOf) : List (String × Resolved) :=
  match unsubscribeKind view with
  | none      => []
  | some kind => rows.foldl (resolveOne parse kind) []

end Resolving

-- The addresses that a host resolved to, if every one is public.
def checkedAddresses (host : String) (addrs : List IpAddr) : Except String (List IpAddr) :=
  if addrs.isEmpty then .error (host ++ " could not be found")
  else if addrs.any (¬publicAddress ·) then .error (host ++ " leads to a private address")
  else .ok addrs

-- A client that connects to `addrs`, on the port of the request's address, for `host`.
structure Client where
  host      : String
  addrs     : List IpAddr
  redirects : Bool := false
  proxy     : Bool := false

structure Post where
  client : Client
  url    : Url
  body   : String

inductive Answer
  | success
  -- Where it points, if that is an address.
  | redirection (location : Option String)
  | other (status : String)
  | timeout
  | unreachable

-- What the outside says to one target: the newest messages in the store then, the addresses of a name, whether the
-- client can be built, and the answer to the POST.
structure Turn where
  rows   : List String → List ListHeadersOf
  lookup : String → Option (List IpAddr)
  client : Option String := none
  answer : Answer := .success

def postResolved (url : Url) (turn : Turn) : Option Post × Except String Unit :=
  let host := url.hostStr.getD "the list"
  let shown := shownHost url
  if ¬postable url then (none, .error (shown ++ " is not a secure address"))
  else match turn.lookup host with
    | none       => (none, .error (host ++ " could not be found"))
    | some found =>
      match checkedAddresses host found with
      | .error e  => (none, .error e)
      | .ok addrs =>
        match turn.client with
        | some e => (none, .error e)
        | none   =>
          (some { client := { host, addrs }, url, body := ONE_CLICK_BODY }, match turn.answer with
            | .success               => .ok ()
            | .redirection (some page) => .error ("the list wants you to open a page at " ++ page ++ " to finish")
            | .redirection none      => .error "the list wants you to open a page to finish"
            | .other status          => .error (shown ++ " answered " ++ status)
            | .timeout               => .error (shown ++ " did not answer in time")
            | .unreachable           => .error (shown ++ " could not be reached"))

def REVIEW_AGAIN : String := "New mail arrived from this list; review it again"

structure CleanupUnsubscribeResult where
  keys  : List String
  name  : String
  host  : String
  error : Option String

-- What one call did: its POSTs, each with its list, what it says, and what it remembers.
structure Call where
  posts   : List (String × Post) := []
  results : List CleanupUnsubscribeResult := []
  done    : List String := []

variable [Unicode] (view : CleanupView)

-- What is left of a confirmed target: nothing if its newest messages are others, or the host is not the one shown.
def current (confirmed : CleanupUnsubscribeTarget) (turn : Turn) : Option (String × Url × Resolved) :=
  let rows := turn.rows confirmed.keys
  let resolved := if rows.map (·.messageId) = confirmed.messageIds then resolve parse view rows else []
  match resolved, confirmed.method with
  | [(list, one)], .oneClick host =>
    match one.method with
    | .oneClick url => if shownHost url = host then some (list, url, one) else none
    | .mailto _     => none
  | _, _ => none

def unsubscribe (confirmed : CleanupUnsubscribeTarget) (turn : Turn) : Call :=
  match confirmed.method with
  | .mailto _       => {}
  | .oneClick shown =>
    match current parse view confirmed turn with
    | none =>
      { results := [{ keys := confirmed.keys, name := confirmed.name, host := shown, error := some REVIEW_AGAIN }] }
    | some (list, url, resolved) =>
      let (post, outcome) := postResolved url turn
      let result error :=
        [{ keys := resolved.target.keys, name := resolved.target.name, host := shownHost url, error }]
      { posts   := (post.map fun p => (list, p)).toList
        results := match outcome with | .ok _ => result none | .error e => result (some e)
        done    := match outcome with | .ok _ => resolved.identities | .error _ => [] }

-- The targets one after another. A turn that is missing is a store that could not be read.
def unsubscribeAll : List CleanupUnsubscribeTarget → List Turn → Call
  | confirmed :: targets, turn :: turns =>
    let first := unsubscribe parse view confirmed turn
    let rest := unsubscribeAll targets turns
    { posts := first.posts ++ rest.posts, results := first.results ++ rest.results, done := first.done ++ rest.done }
  | _, _ => {}

def CleanupUnsubscribeTarget.isOneClick (t : CleanupUnsubscribeTarget) : Bool :=
  match t.method with
  | .oneClick _ => true
  | .mailto _   => false

-- No one-click lists given.
def invalid (targets : List CleanupUnsubscribeTarget) : Bool :=
  targets.isEmpty || targets.any fun t => t.keys.isEmpty || t.keys.length ≠ t.messageIds.length

def cleanupUnsubscribe (targets : List CleanupUnsubscribeTarget) (turns : List Turn) : Call :=
  let targets := targets.filter (·.isOneClick)
  if invalid targets then {} else unsubscribeAll parse view targets turns

end Kaluta.Cleanup
