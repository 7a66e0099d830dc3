import Mathlib.Data.List.Infix
import Mathlib.Algebra.GroupWithZero.Nat
import Kaluta.Guide.Entry

-- Folding the quoted history out of a message for the reader.
namespace Kaluta.Quotes

open Guide (Unicode toLowercase splitWhitespace)

abbrev Chars := List Char

-- The wrapper the reader styles.
def OPEN : Chars :=
  "<details class=\"kaluta-quote\"><summary title=\"Show the quoted text\">•••</summary>".toList

def CLOSE : Chars :=
  "</details>".toList

-- Text of a reply between or after quotes beyond which the message is taken to answer inline.
def INLINE_REPLY_CHARS : Nat := 300

def VOID : List Chars :=
  ["br", "hr", "img", "wbr", "col", "area", "base", "embed", "input", "link", "meta", "source", "track"].map
    String.toList

inductive Node
  | text (t : Chars)
  | element (name opening : Chars) (children : List Node) (closed : Bool)

-- An element that is not closed yet. On a stack the innermost is the first.
structure Frame where
  name     : Chars
  opening  : Chars
  children : List Node := []

section Parse

-- Marks a finished element closed.
def finished : Node → Node
  | .text t                               => .text t
  | .element name opening children closed => .element name opening children (closed || (name ∉ VOID && name ≠ []))

def pushChild (node : Node) : List Frame → List Frame
  | []          => []
  | top :: rest => { top with children := top.children ++ [finished node] } :: rest

def pop : List Frame → List Frame
  | []          => []
  | top :: rest => pushChild (.element top.name top.opening top.children false) rest

-- Closes up to the matching element, but never the root.
def closeUpTo (name : Chars) (stack : List Frame) : List Frame :=
  match stack.findIdx? (·.name = name) with
  | none       => stack
  | some above => pop^[min (above + 1) (stack.length - 1)] stack

-- How much of what follows `<` is the tag, minding quoted attribute values.
def tagEnd : Option Char → Chars → Nat
  | _, []           => 0
  | some q, c :: cs => 1 + tagEnd (if c = q then none else some q) cs
  | none, c :: cs   => if c = '>' then 1 else 1 + tagEnd (if c = '"' ∨ c = '\'' then some c else none) cs

def trimEndMatches (p : Char → Bool) (cs : Chars) : Chars :=
  (cs.reverse.dropWhile p).reverse

def trimmed (cs : Chars) : Chars :=
  trimEndMatches isWhitespace (cs.dropWhile isWhitespace)

def readTag (stack : List Frame) (tag : Chars) : List Frame :=
  match tag with
  | '<' :: '/' :: name => closeUpTo ((trimmed (trimEndMatches (· = '>') name)).map Char.toLower) stack
  | _                  =>
    let name := ((tag.drop 1).takeWhile Char.isAlphanum).map Char.toLower
    if name ∈ VOID ∨ "/>".toList <:+ tag ∨ name = [] then pushChild (.element name tag [] false) stack
    else { name, opening := tag } :: stack

def parseFrom (stack : List Frame) : Chars → List Frame
  | []      => stack
  | c :: cs =>
    if c = '<' then
      let len := tagEnd none cs
      parseFrom (readTag stack ('<' :: cs.take len)) (cs.drop len)
    else parseFrom (pushChild (.text (c :: cs.takeWhile (· ≠ '<'))) stack) (cs.dropWhile (· ≠ '<'))
  termination_by cs => cs.length
  decreasing_by
    · exact Nat.lt_succ_of_le (List.drop_sublist _ _).length_le
    · exact Nat.lt_succ_of_le (List.dropWhile_sublist _).length_le

def parse (html : Chars) : List Node :=
  let stack := parseFrom [{ name := [], opening := [] }] html
  match pop^[stack.length - 1] stack with
  | root :: _ => root.children
  | []        => []

end Parse

-- What is written behind an element.
def closingTag (name opening : Chars) (closed : Bool) : Chars :=
  if closed && name ∉ VOID && name ≠ [] then
    if opening = OPEN then CLOSE else "</".toList ++ name ++ ['>']
  else []

mutual

def write : Node → Chars
  | .text t                               => t
  | .element name opening children closed => opening ++ writeAll children ++ closingTag name opening closed

def writeAll : List Node → Chars
  | []            => []
  | node :: nodes => write node ++ writeAll nodes

end

section Text

-- What replaces each occurrence of a text, from the left.
def replace (pat new : Chars) : Chars → Chars
  | []      => []
  | c :: cs =>
    if pat.isPrefixOf (c :: cs) then new ++ replace pat new (cs.drop (pat.length - 1)) else c :: replace pat new cs
  termination_by cs => cs.length
  decreasing_by
    · exact Nat.lt_succ_of_le (List.drop_sublist _ _).length_le
    · exact Nat.lt_succ_self _

def decode (s : Chars) : Chars :=
  [("&nbsp;", " "), ("&lt;", "<"), ("&gt;", ">"), ("&quot;", "\""), ("&#39;", "'"), ("&amp;", "&")].foldl
    (fun s (pat, new) => replace pat.toList new.toList s) s

-- The length in bytes.
def len (s : Chars) : Nat :=
  (s.map Char.utf8Size).sum

mutual

def contains (tag : Chars) : Node → Bool
  | .text _                    => false
  | .element name _ children _ => name = tag || anyContains tag children

def anyContains (tag : Chars) : List Node → Bool
  | []            => false
  | node :: nodes => contains tag node || anyContains tag nodes

end

mutual

def collectText : Node → Chars
  | .text t                    => decode t
  | .element name _ children _ =>
    (if name = "br".toList then ['\n'] else []) ++ collectTexts children ++
      if name = "div".toList ∨ name = "p".toList then ['\n'] else []

def collectTexts : List Node → Chars
  | []            => []
  | node :: nodes => collectText node ++ collectTexts nodes

end

def textOf (node : Node) : String :=
  " ".intercalate (splitWhitespace (.ofList (collectText node)))

mutual

def textOutsideQuotes : Node → Nat
  | .text t                    => len (trimmed (decode t))
  | .element name _ children _ => if name = "blockquote".toList then 0 else textsOutsideQuotes children

def textsOutsideQuotes : List Node → Nat
  | []            => 0
  | node :: nodes => textOutsideQuotes node + textsOutsideQuotes nodes

end

end Text

section Quotes

variable [Unicode]

-- How mail clients end the line above a quote.
def ATTRIBUTIONS : List Chars :=
  ["wrote:", "schrieb:", "a écrit :", "a écrit:", "escribió:", "ha scritto:", "skrev:", "schreef:", "napisał:"].map
    String.toList

def isAttribution (text : Chars) : Bool :=
  let t := (toLowercase (.ofList (trimmed text))).toList
  len t ≤ 400 && ATTRIBUTIONS.any (·.isSuffixOf t)

def isOutlookHeader (text : Chars) : Bool :=
  let t := trimmed text
  let holds (s : String) : Bool := s.toList <:+: t
  "-----Original Message-----".toList.isPrefixOf t ||
    (len t ≤ 2000 && ("From:".toList.isPrefixOf t || "From :".toList.isPrefixOf t) &&
      (holds "Sent:" || holds "Date:") && (holds "To:" || holds "Subject:"))

def isBlank : Node → Bool
  | .text t        => (trimmed (decode t)).isEmpty
  | .element ..    => false

def isNamed (name : String) : Node → Bool
  | .text _          => false
  | .element n _ _ _ => n = name.toList

-- Whether the next node with content is or holds a blockquote.
def nextIsQuote (after : List Node) : Bool :=
  (after.find? fun n => !isBlank n && !isNamed "br" n).any (contains "blockquote".toList)

def containsBlockChildren : Node → Bool
  | .text _                 => false
  | .element _ _ children _ =>
    children.any fun c => contains "blockquote".toList c || contains "table".toList c

-- Outlook's header starts at the rule above it, when there is one.
def headerStart (nodes : List Node) (i : Nat) : Nat :=
  if 0 < i ∧ (nodes[i - 1]?).any (isNamed "hr") then i - 1 else i

-- Where a quote starts at a position of nodes, if it does there.
def quoteStart (nodes : List Node) (i : Nat) : Option Nat :=
  match nodes[i]? with
  | none                                  => none
  | some (.text t)                        =>
    if isAttribution (decode t) && nextIsQuote (nodes.drop (i + 1)) then some i else none
  | some node@(.element name _ _ _) =>
    if name = "blockquote".toList then some i
    else
      let text := (textOf node).toList
      if isAttribution text && nextIsQuote (nodes.drop (i + 1)) then some i
      else if isOutlookHeader text && name ∉ ["body".toList, "html".toList] && !containsBlockChildren node then
        some (headerStart nodes i)
      else none

-- Whether there is too much reply text among quotes to fold them.
def inlineReply (range : List Node) : Bool :=
  let first := range.head?.elim 0 fun n => if contains "blockquote".toList n then 0 else len (textOf n).toList
  INLINE_REPLY_CHARS < textsOutsideQuotes range - first && !range.any fun n => isOutlookHeader (textOf n).toList

def wrapper (quoted : List Node) : Node :=
  .element "details".toList OPEN quoted true

mutual

-- Folds the first quote in a node, if there is one: what the node becomes, and whether text was seen.
def foldNode : Node → Bool → Option Node × Bool
  | .text t, seen                               => (none, seen || !(trimmed (decode t)).isEmpty)
  | .element name opening children closed, seen =>
    match foldFrom children 0 children (seen || name = "img".toList) with
    | (some children, seen) => (some (.element name opening children closed), seen)
    | (none, seen)          => (none, seen)

-- Folds the first quote found from a position of nodes on.
def foldFrom (nodes : List Node) (i : Nat) : List Node → Bool → Option (List Node) × Bool
  | [], seen            => (none, seen)
  | node :: after, seen =>
    match quoteStart nodes i with
    | some start =>
      -- Nothing before it: the whole message is the quote.
      if !seen || inlineReply (nodes.drop start) then (none, seen)
      else (some (nodes.take start ++ [wrapper (nodes.drop start)]), seen)
    | none =>
      match foldNode node seen with
      | (some node, seen) => (some (nodes.take i ++ node :: after), seen)
      | (none, seen)      => foldFrom nodes (i + 1) after seen

end

-- Sanitized HTML with its quoted history folded.
def foldQuotedHtml (html : Chars) : Chars :=
  let nodes := parse html
  match foldFrom nodes 0 nodes false with
  | (some folded, _) => writeAll folded
  | (none, _)        => html

end Quotes

end Kaluta.Quotes
