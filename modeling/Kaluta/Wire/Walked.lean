import Kaluta.Wire.Payload

-- Which parts of a payload are shown, and when that is each leaf with content, once and in order.
namespace Kaluta.Wire

inductive Item
  | text (s : String)
  | html (s : String)
  | attachment (a : FetchedAttachment)

namespace Item

def text? : Item → Option String
  | text s => some s
  | _      => none

def html? : Item → Option String
  | html s => some s
  | _      => none

def attachment? : Item → Option FetchedAttachment
  | attachment a => some a
  | _            => none

end Item

section Leaves

variable {part : Part} {parts : List Part}

def Part.isMessage (part : Part) : Bool :=
  part.mime = "message/rfc822"

-- A part that the tree ends in: an attached message counts as a whole.
def Part.isLeaf (part : Part) : Bool :=
  part.isMessage || part.parts.isEmpty

mutual

-- The leaves outside attached messages, in the order of the tree.
def leaves : Part → List Part
  | part@⟨_, _, _, _, _, parts⟩ => if part.isLeaf then [part] else leavesAll parts

def leavesAll : List Part → List Part
  | []            => []
  | part :: parts => leaves part ++ leavesAll parts

end

theorem not_multipart_of_isMessage (h : part.isMessage) : part.isMultipart = false := by
  rw [Part.isMultipart, of_decide_eq_true h]
  decide

-- The leaves to be shown.
def content (parts : List Part) : List Part :=
  parts.filter Part.ownContent

theorem content_append (parts parts' : List Part) : content (parts ++ parts') = content parts ++ content parts' :=
  List.filter_append ..

theorem leaves_of_isLeaf (h : part.isLeaf) : leaves part = [part] := by
  cases part
  rw [leaves, if_pos h]

mutual

theorem isLeaf_leaves (part : Part) : ∀ p ∈ leaves part, p.isLeaf := by
  match part with
  | ⟨_, _, _, _, _, parts⟩ =>
    rw [leaves]
    split
    case isTrue leaf => exact fun p mem => List.mem_singleton.mp mem ▸ leaf
    case isFalse     => exact isLeaf_leavesAll parts
  termination_by structural part

theorem isLeaf_leavesAll (parts : List Part) : ∀ p ∈ leavesAll parts, p.isLeaf := by
  match parts with
  | []            => exact fun _ he => absurd he List.not_mem_nil
  | part :: parts => exact List.forall_mem_append.mpr ⟨isLeaf_leaves part, isLeaf_leavesAll parts⟩
  termination_by structural parts

end

theorem isLeaf_content {parts : List Part} (h : ∀ p ∈ parts, p.isLeaf) : ∀ p ∈ content parts, p.isLeaf :=
  fun p mem => h p (List.mem_filter.mp mem).left

end Leaves

section Shown

variable [Decoding]

-- The bytes that are there with the part.
def Part.bytes (part : Part) : Option Bytes :=
  (part.body.bind (·.data)).bind decodeBase64url

def bodyItem (part : Part) (bytes : Bytes) : Item :=
  let text := Decoding.decodeTextPart bytes ((part.header "Content-Type").getD part.mimeType)
  if part.mime = "text/html" then .html text else .text text

-- What the walk makes of a part that is no multipart.
def presented (part : Part) : Option Item :=
  if part.isBodyText then part.bytes.map (bodyItem part)
  else (part.body.filter PartBody.hasContent).map fun body => .attachment (attachment part body)

mutual

-- What a walk shows, each item with the part that it is of.
def shown : Part → List (Part × Item)
  | part@⟨_, _, _, _, _, parts⟩ =>
    if part.isMultipart then shownAll parts else (presented part).toList.map (part, ·)

def shownAll : List Part → List (Part × Item)
  | []            => []
  | part :: parts => shown part ++ shownAll parts

end

def Walk.push (w : Walk) (items : List Item) : Walk where
  texts       := w.texts ++ items.filterMap Item.text?
  htmls       := w.htmls ++ items.filterMap Item.html?
  attachments := w.attachments ++ items.filterMap Item.attachment?

omit [Decoding] in
theorem Walk.push_nil (w : Walk) : w.push [] = w := by
  simp [push]

omit [Decoding] in
theorem Walk.push_append (w : Walk) (items items' : List Item) : w.push (items ++ items') = (w.push items).push items' := by
  simp [push]

theorem Walk.visitBody_eq (w : Walk) (part : Part) : w.visitBody part = w.push (part.bytes.map (bodyItem part)).toList := by
  rw [visitBody, Part.bytes]
  split
  case h_2 none        => rw [none, Option.map_none, Option.toList_none, push_nil]
  case h_1 bytes found =>
    rw [found, Option.map_some, Option.toList_some, bodyItem]
    dsimp only
    split <;> simp [push, Item.text?, Item.html?, Item.attachment?]

mutual

-- Nothing inside an attached message is shown.
theorem Walk.visit_attached (w : Walk) (part : Part) : w.visit part true = w := by
  match part with
  | ⟨_, _, _, _, _, parts⟩ =>
    rw [visit, Walk.visitAll_attached w parts, Bool.not_true, Bool.false_and]
    simp
  termination_by structural part

theorem Walk.visitAll_attached (w : Walk) (parts : List Part) : w.visitAll parts true = w := by
  match parts with
  | []            => rfl
  | part :: parts => rw [visitAll, Walk.visit_attached w part, Walk.visitAll_attached w parts]
  termination_by structural parts

end

mutual

theorem Walk.visit_eq (w : Walk) (part : Part) : w.visit part false = w.push ((shown part).map Prod.snd) := by
  match part with
  | ⟨a, b, c, d, body, parts⟩ =>
    rw [visit, shown]
    by_cases multi : (⟨a, b, c, d, body, parts⟩ : Part).isMultipart
    case pos => rw [if_pos multi, if_pos multi, Walk.visitAll_eq w parts]
    case neg =>
      rw [if_neg multi, if_neg multi, presented, Bool.not_false, Bool.true_and, if_neg Bool.false_ne_true]
      by_cases text : (⟨a, b, c, d, body, parts⟩ : Part).isBodyText
      case pos =>
        rw [if_pos text, if_pos text, visitBody_eq]
        cases Option.map (bodyItem _) _ <;> rfl
      case neg =>
        rw [if_neg text, if_neg text]
        cases body
        case none      => exact (push_nil w).symm
        case some body =>
          dsimp only
          split
          case isTrue empty  =>
            have : body.hasContent = false := by simp [PartBody.hasContent, empty]
            simp [Option.filter, this, push_nil]
          case isFalse some' =>
            have : body.hasContent := by
              rw [PartBody.hasContent]
              cases ha : body.attachmentId <;> cases hd : body.data <;> simp_all
            simp only [visitAll_attached, ite_self]
            simp [Option.filter, this, push, Item.text?, Item.html?, Item.attachment?]
  termination_by structural part

theorem Walk.visitAll_eq (w : Walk) (parts : List Part) :
    w.visitAll parts false = w.push ((shownAll parts).map Prod.snd) := by
  match parts with
  | []            => exact (push_nil w).symm
  | part :: parts => rw [visitAll, Walk.visit_eq w part, Walk.visitAll_eq _ parts, shownAll, List.map_append, push_append]
  termination_by structural parts

end

section Kept

variable {part : Part} {parts : List Part}

-- A part that is read as text has its content with it, encoded as it should be; any other has content.
def Part.readable (part : Part) : Bool :=
  if part.isBodyText then part.bytes.isSome else part.ownContent

mutual

-- Each leaf that has content can be shown, and what is neither multipart nor an attached message has no parts with any.
def Kept : Part → Prop
  | part@⟨_, _, _, _, _, parts⟩ =>
    if part.isMultipart then (parts.isEmpty → part.ownContent = false) ∧ KeptAll parts
    else if part.isLeaf then part.ownContent → part.readable
    else part.readable = false ∧ (leavesAll parts).filter Part.ownContent = []

def KeptAll : List Part → Prop
  | []            => True
  | part :: parts => Kept part ∧ KeptAll parts

end

def sources (items : List (Part × Item)) : List Part :=
  items.map Prod.fst

omit [Decoding] in
theorem sources_append (items items' : List (Part × Item)) : sources (items ++ items') = sources items ++ sources items' :=
  List.map_append

-- An item holds what its part has: the text that its bytes decode to, or the bytes or the id of an attachment.
def Carries (part : Part) : Item → Prop
  | .text s       => ∃ bytes, part.bytes = some bytes ∧
    s = Decoding.decodeTextPart bytes ((part.header "Content-Type").getD part.mimeType)
  | .html s       => ∃ bytes, part.bytes = some bytes ∧
    s = Decoding.decodeTextPart bytes ((part.header "Content-Type").getD part.mimeType)
  | .attachment a => ∃ body, part.body = some body ∧ a.attachmentId = body.attachmentId ∧
    (body.attachmentId = none → a.data = part.bytes)

theorem presented_carries (h : presented part = some item) : Carries part item := by
  rw [presented] at h
  split at h
  case isTrue =>
    obtain ⟨bytes, found, rfl⟩ := Option.map_eq_some_iff.mp h
    rw [bodyItem]
    split <;> exact ⟨bytes, found, rfl⟩
  case isFalse =>
    obtain ⟨body, found, rfl⟩ := Option.map_eq_some_iff.mp h
    have there := (Option.filter_eq_some_iff.mp found).left
    refine ⟨body, there, rfl, fun none => ?_⟩
    rw [attachment, if_pos none, Part.bytes, there]
    rfl

theorem isSome_presented (part : Part) : (presented part).isSome = part.readable := by
  rw [presented, Part.readable]
  split
  case isTrue  => exact Option.isSome_map
  case isFalse => rw [Option.isSome_map, Part.ownContent]; cases part.body <;> simp [Option.filter]; split <;> simp_all

theorem ownContent_of_readable (h : part.readable) : part.ownContent := by
  rw [Part.readable] at h
  split at h
  case isFalse => exact h
  case isTrue  =>
    rw [Part.bytes] at h
    cases body : part.body
    case none => simp [body] at h
    case some b =>
      cases data : b.data
      case none   => simp [body, data] at h
      case some _ => simp [Part.ownContent, body, PartBody.hasContent, data]

theorem sources_presented (part : Part) :
    sources ((presented part).toList.map (part, ·)) = if part.readable then [part] else [] := by
  rw [← isSome_presented part]
  cases presented part <;> simp [sources]

mutual

theorem shown_carries (part : Part) : ∀ e ∈ shown part, Carries e.1 e.2 := by
  match part with
  | ⟨_, _, _, _, _, parts⟩ =>
    rw [shown]
    split
    case isTrue  => exact shownAll_carries parts
    case isFalse =>
      intro e mem
      obtain ⟨item, found, rfl⟩ := List.mem_map.mp mem
      exact presented_carries (Option.mem_toList.mp found)
  termination_by structural part

theorem shownAll_carries (parts : List Part) : ∀ e ∈ shownAll parts, Carries e.1 e.2 := by
  match parts with
  | []            => exact fun _ he => absurd he List.not_mem_nil
  | part :: parts => exact List.forall_mem_append.mpr ⟨shown_carries part, shownAll_carries parts⟩
  termination_by structural parts

end

theorem shown_of_not_multipart (h : part.isMultipart = false) :
    sources (shown part) = if part.readable then [part] else [] := by
  cases part
  rw [shown, if_neg (by simp [h]), sources_presented]

-- A leaf that is no multipart is shown exactly where its content can be.
theorem shown_leaf (multi : part.isMultipart = false) (leaf : part.isLeaf) :
    (sources (shown part)).Sublist (content (leaves part)) ∧
    (sources (shown part) = content (leaves part) ↔ (part.ownContent → part.readable)) := by
  rw [shown_of_not_multipart multi, leaves_of_isLeaf leaf, content]
  cases readable : part.readable
  case true =>
    have own := ownContent_of_readable readable
    simp [own]
  case false =>
    cases own : part.ownContent <;> simp [own]

mutual

-- Where only leaves are shown, they are shown in order and each once; all of them exactly when the payload is kept.
theorem shown_spec (part : Part) (h : ∀ p ∈ sources (shown part), p.isLeaf) :
    (sources (shown part)).Sublist (content (leaves part)) ∧ (sources (shown part) = content (leaves part) ↔ Kept part) := by
  match part with
  | ⟨a, b, c, d, e, parts⟩ =>
    rw [Kept]
    by_cases multi : (⟨a, b, c, d, e, parts⟩ : Part).isMultipart
    case pos =>
      have message : (⟨a, b, c, d, e, parts⟩ : Part).isMessage = false := by
        by_contra message
        rw [not_multipart_of_isMessage (by simpa using message)] at multi
        cases multi
      rw [shown, if_pos multi] at h
      have ⟨sub, iff_⟩ := shownAll_spec parts h
      rw [shown, if_pos multi, if_pos multi, leaves, Part.isLeaf, message, Bool.false_or]
      cases parts
      case nil =>
        simp [shownAll, sources, content, KeptAll]
      case cons p ps => simpa using ⟨sub, iff_⟩
    case neg =>
      have notMulti := Bool.eq_false_iff.mpr multi
      rw [if_neg multi]
      by_cases leaf : (⟨a, b, c, d, e, parts⟩ : Part).isLeaf
      case pos => rw [if_pos leaf]; exact shown_leaf notMulti leaf
      case neg =>
        rw [shown_of_not_multipart notMulti] at h ⊢
        cases readable : (⟨a, b, c, d, e, parts⟩ : Part).readable
        case true  => exact absurd (h _ (by simp [readable])) leaf
        case false =>
          rw [if_neg leaf, leaves, if_neg leaf, if_neg Bool.false_ne_true]
          exact ⟨List.nil_sublist _, fun eq => ⟨rfl, eq.symm⟩, fun none => none.right.symm⟩
  termination_by structural part

theorem shownAll_spec (parts : List Part) (h : ∀ p ∈ sources (shownAll parts), p.isLeaf) :
    (sources (shownAll parts)).Sublist (content (leavesAll parts)) ∧
    (sources (shownAll parts) = content (leavesAll parts) ↔ KeptAll parts) := by
  match parts with
  | []            => simp [shownAll, sources, leavesAll, content, KeptAll]
  | part :: parts =>
    rw [shownAll, sources_append] at h
    have ⟨first, rest⟩ := List.forall_mem_append.mp h
    have ⟨sub, iff_⟩ := shown_spec part first
    have ⟨subs, iffs⟩ := shownAll_spec parts rest
    rw [shownAll, sources_append, leavesAll, content_append, KeptAll, ← iff_, ← iffs]
    refine ⟨sub.append subs, fun eq => ?_, fun ⟨eq, eqs⟩ => congrArg₂ (· ++ ·) eq eqs⟩
    have total := congrArg List.length eq
    have := sub.length_le
    have := subs.length_le
    rw [List.length_append, List.length_append] at total
    exact ⟨sub.eq_of_length (by omega), subs.eq_of_length (by omega)⟩
  termination_by structural parts

end

mutual

theorem isLeaf_shown (part : Part) (h : Kept part) : ∀ p ∈ sources (shown part), p.isLeaf := by
  match part with
  | ⟨a, b, c, d, e, parts⟩ =>
    rw [Kept] at h
    by_cases multi : (⟨a, b, c, d, e, parts⟩ : Part).isMultipart
    case pos =>
      rw [if_pos multi] at h
      rw [shown, if_pos multi]
      exact isLeaf_shownAll parts h.right
    case neg =>
      rw [if_neg multi] at h
      rw [shown_of_not_multipart (Bool.eq_false_iff.mpr multi)]
      by_cases leaf : (⟨a, b, c, d, e, parts⟩ : Part).isLeaf
      case pos =>
        split
        · exact fun p mem => List.mem_singleton.mp mem ▸ leaf
        · exact fun _ hp => absurd hp List.not_mem_nil
      case neg =>
        rw [if_neg leaf] at h
        rw [h.left]
        exact fun _ hp => absurd hp List.not_mem_nil
  termination_by structural part

theorem isLeaf_shownAll (parts : List Part) (h : KeptAll parts) : ∀ p ∈ sources (shownAll parts), p.isLeaf := by
  match parts with
  | []            => exact fun _ he => absurd he List.not_mem_nil
  | part :: parts =>
    rw [shownAll, sources_append]
    exact List.forall_mem_append.mpr ⟨isLeaf_shown part h.left, isLeaf_shownAll parts h.right⟩
  termination_by structural parts

end

-- What a list of items comes to in a message's body.
def bodyOf (items : List Item) : FetchedBody where
  text        :=
    if items.filterMap Item.text? = [] then (items.filterMap Item.html?).head?.map Decoding.htmlToText
    else some ("\n\n".intercalate (items.filterMap Item.text?))
  html        :=
    if items.filterMap Item.html? = [] then none else some ("\n<hr>\n".intercalate (items.filterMap Item.html?))
  attachments := items.filterMap Item.attachment?

-- The body is made of what is shown, each item holds its part's content, and the parts shown are the leaves with
-- content outside attached messages, each once and in order, exactly when the payload is kept.
theorem fetchedBody_whole_iff (payload : Part) :
    fetchedBody payload = (if hasContent payload then some (bodyOf ((shown payload).map Prod.snd)) else none) ∧
    (∀ e ∈ shown payload, Carries e.1 e.2) ∧
    ((shown payload).map Prod.fst = (leaves payload).filter Part.ownContent ↔ Kept payload) := by
  refine ⟨?_, shown_carries payload, fun eq => ?_, fun kept => ?_⟩
  · rw [fetchedBody, Walk.visit_eq]
    simp only [Walk.push, List.nil_append, bodyOf]
    congr
  · have leaf : ∀ p ∈ sources (shown payload), p.isLeaf := by
      rw [sources, eq]
      exact isLeaf_content (isLeaf_leaves payload)
    exact (shown_spec payload leaf).right.mp eq
  · exact (shown_spec payload (isLeaf_shown payload kept)).right.mpr kept

end Kept
end Shown

-- A body that Gmail gives by an id alone, as it may whatever the part's type.
def byId : Part :=
  { mimeType := "text/plain", body := some { attachmentId := some "ANGjdJ8", size := 30000 } }

-- What the libraries say of a text that is never asked for.
abbrev unasked : Decoding where
  noPad _            := none
  padded _           := none
  decodeTextPart _ _ := ""
  htmlToText _       := ""

-- The part has content, and the message is shown without a text or an attachment.
theorem text_lost : (leaves byId).filter Part.ownContent = [byId] ∧
    @fetchedBody unasked byId = some { text := none, html := none, attachments := [] } ∧
    (@shown unasked byId).map Prod.fst ≠ (leaves byId).filter Part.ownContent := by
  refine ⟨rfl, rfl, ?_⟩
  exact (List.cons_ne_nil _ _).symm

end Kaluta.Wire
