import Kaluta.Guide.Entry

-- Gmail's message payloads, and what is read of them as a message's body.
namespace Kaluta.Wire

open Guide (eqIgnoreAsciiCase trim)

abbrev Bytes := List UInt8

structure Header where
  name  : String
  value : String
  deriving DecidableEq

structure PartBody where
  attachmentId : Option String := none
  size         : Nat := 0
  data         : Option String := none
  deriving DecidableEq

structure Part where
  partId   : Option String := none
  mimeType : String := ""
  filename : String := ""
  headers  : List Header := []
  body     : Option PartBody := none
  parts    : List Part := []

structure FetchedAttachment where
  partId       : Option String
  attachmentId : Option String
  filename     : String
  mimeType     : String
  size         : Nat
  contentId    : Option String
  isInline     : Bool
  data         : Option Bytes
  deriving DecidableEq

structure FetchedBody where
  text        : Option String
  html        : Option String
  attachments : List FetchedAttachment
  deriving DecidableEq

-- What the libraries for base64 and MIME make of a text.
class Decoding where
  -- URL-safe base64, without and with padding.
  noPad          : String → Option Bytes
  padded         : String → Option Bytes
  decodeTextPart : Bytes → String → String
  htmlToText     : String → String

section Read

variable [Decoding]

-- Sometimes padded, sometimes not.
def decodeBase64url (data : String) : Option Bytes :=
  let trimmed := trim data
  (Decoding.noPad (.ofList (trimmed.toList.reverse.dropWhile (· = '=')).reverse)).or (Decoding.padded trimmed)

def toAsciiLowercase (s : String) : String :=
  .ofList (s.toList.map Char.toLower)

def startsWith (s front : String) : Bool :=
  front.toList.isPrefixOf s.toList

namespace PartBody

-- The content is there, or there is an id to fetch it by.
def hasContent (b : PartBody) : Bool :=
  b.data.isSome || b.attachmentId.isSome

end PartBody

namespace Part

def header (part : Part) (name : String) : Option String :=
  (part.headers.find? (eqIgnoreAsciiCase ·.name name)).map (·.value)

def mime (part : Part) : String :=
  toAsciiLowercase part.mimeType

def disposition (part : Part) : String :=
  toAsciiLowercase ((part.header "Content-Disposition").getD "")

def contentId (part : Part) : Option String :=
  (part.header "Content-ID").map fun c =>
    .ofList ((((trim c).toList.dropWhile (· ∈ ['<', '>'])).reverse.dropWhile (· ∈ ['<', '>'])).reverse)

def isAttachmentDisposition (part : Part) : Bool :=
  startsWith part.disposition "attachment"

def isMultipart (part : Part) : Bool :=
  startsWith part.mime "multipart/"

-- A part that is read as the message's own text.
def isBodyText (part : Part) : Bool :=
  part.filename = "" && !part.isAttachmentDisposition && (part.mime = "text/plain" || part.mime = "text/html")

def ownContent (part : Part) : Bool :=
  part.body.any PartBody.hasContent

end Part

mutual

-- A metadata fetch has headers but no part bodies.
def hasContent : Part → Bool
  | part@⟨_, _, _, _, _, parts⟩ => part.ownContent || anyHasContent parts

def anyHasContent : List Part → Bool
  | []            => false
  | part :: parts => hasContent part || anyHasContent parts

end

def defaultName (mime : String) : String :=
  if mime = "message/rfc822" then "forwarded-message.eml"
  else if mime = "text/calendar" then "invite.ics"
  else "attachment"

def attachment (part : Part) (body : PartBody) : FetchedAttachment where
  partId       := part.partId
  attachmentId := body.attachmentId
  filename     := if part.filename = "" then defaultName part.mime else part.filename
  mimeType     := if part.mime = "" then "application/octet-stream" else part.mime
  size         := body.size
  contentId    := part.contentId
  isInline     := startsWith part.disposition "inline" || (part.contentId.isSome && !part.isAttachmentDisposition)
  data         := if body.attachmentId = none then body.data.bind decodeBase64url else none

structure Walk where
  texts       : List String := []
  htmls       : List String := []
  attachments : List FetchedAttachment := []
  deriving DecidableEq

-- What the walk does with the part itself.
def Walk.visitBody (w : Walk) (part : Part) : Walk :=
  match (part.body.bind (·.data)).bind decodeBase64url with
  | some bytes =>
    let text := Decoding.decodeTextPart bytes ((part.header "Content-Type").getD part.mimeType)
    if part.mime = "text/html" then { w with htmls := w.htmls ++ [text] } else { w with texts := w.texts ++ [text] }
  | none       => w

mutual

-- Inside an attached message, the parts belong to the attachment.
def Walk.visit (w : Walk) : Part → Bool → Walk
  | part@⟨_, _, _, _, _, parts⟩, inAttachment =>
    if part.isMultipart then w.visitAll parts inAttachment
    else if !inAttachment && part.isBodyText then w.visitBody part
    else if inAttachment then w
    else
      match part.body with
      | none      => w
      | some body =>
        if body.attachmentId = none ∧ body.data = none then w
        else
          let w := { w with attachments := w.attachments ++ [attachment part body] }
          if part.mime = "message/rfc822" then w.visitAll parts true else w

def Walk.visitAll (w : Walk) : List Part → Bool → Walk
  | []           , _            => w
  | part :: parts, inAttachment => (w.visit part inAttachment).visitAll parts inAttachment

end

-- The body of a message with this payload.
def fetchedBody (payload : Part) : Option FetchedBody :=
  if hasContent payload then
    let walk := Walk.visit {} payload false
    some {
      text        :=
        if walk.texts = [] then walk.htmls.head?.map Decoding.htmlToText else some ("\n\n".intercalate walk.texts)
      html        := if walk.htmls = [] then none else some ("\n<hr>\n".intercalate walk.htmls)
      attachments := walk.attachments
    }
  else none

end Read
end Kaluta.Wire
