import Kaluta.Quotes.Fold

-- What the sanitizer emits, which parsing and writing give back.
namespace Kaluta.Quotes

-- Text of sanitized HTML, in which `<` is escaped.
abbrev Text := { t : Chars // '<' ∉ t }

structure Attribute where
  name   : Chars
  value  : Chars
  plain  : ∀ c ∈ name, c ≠ '"' ∧ c ≠ '\'' ∧ c ≠ '>'
  quoted : '"' ∉ value

structure Tag where
  name       : Chars
  attributes : List Attribute := []
  nonempty   : name ≠ []
  lower      : ∀ c ∈ name, c.isLower ∨ c.isDigit

-- A list of nodes of sanitized HTML: each element with the text in front of it, and the text behind the last.
inductive Html
  | last (t : Text)
  | void (t : Text) (tag : Tag) (isVoid : tag.name ∈ VOID) (rest : Html)
  | element (t : Text) (tag : Tag) (notVoid : tag.name ∉ VOID) (children rest : Html)

def Attribute.render (a : Attribute) : Chars :=
  ' ' :: a.name ++ "=\"".toList ++ a.value ++ ['"']

namespace Tag

-- What stands between `<` and `>`.
def inner (tag : Tag) : Chars :=
  tag.name ++ tag.attributes.flatMap Attribute.render

def opening (tag : Tag) : Chars :=
  '<' :: tag.inner ++ ['>']

def closing (tag : Tag) : Chars :=
  "</".toList ++ tag.name ++ ['>']

end Tag

namespace Html

def render : Html → Chars
  | last t                  => t
  | void t tag _ rest       => t ++ tag.opening ++ rest.render
  | element t tag _ cs rest => t ++ tag.opening ++ cs.render ++ tag.closing ++ rest.render

-- A text is a node where it is not empty.
def textNode (t : Chars) : List Node :=
  if t = [] then [] else [.text t]

def nodes : Html → List Node
  | last t                        => textNode t
  | void t tag _ rest             => textNode t ++ .element tag.name tag.opening [] false :: rest.nodes
  | element t tag _ children rest => textNode t ++ .element tag.name tag.opening children.nodes true :: rest.nodes

end Html

section Tags

variable {cs rest : Chars} {top : Frame}

theorem tagEnd_plain (plain : ∀ c ∈ cs, c ≠ '"' ∧ c ≠ '\'' ∧ c ≠ '>') :
    tagEnd none (cs ++ rest) = cs.length + tagEnd none rest := by
  induction cs
  case nil          => simp
  case cons c cs ih =>
    have ⟨⟨double, single, close⟩, plain⟩ := List.forall_mem_cons.mp plain
    rw [List.cons_append, tagEnd, if_neg close, if_neg (by simp [double, single]), ih plain, List.length_cons]
    omega

theorem tagEnd_quoted (quoted : '"' ∉ cs) :
    tagEnd (some '"') (cs ++ '"' :: rest) = cs.length + 1 + tagEnd none rest := by
  induction cs
  case nil          => simp [tagEnd]
  case cons c cs ih =>
    have ⟨other, quoted⟩ := not_or.mp (List.mem_cons.not.mp quoted)
    rw [List.cons_append, tagEnd, if_neg (Ne.symm other), ih quoted, List.length_cons]
    omega

theorem tagEnd_attribute (a : Attribute) : tagEnd none (a.render ++ rest) = a.render.length + tagEnd none rest := by
  have split : a.render ++ rest = (' ' :: a.name ++ ['=']) ++ '"' :: (a.value ++ '"' :: rest) := by
    simp [Attribute.render]
  have plain : ∀ c ∈ ' ' :: a.name ++ ['='], c ≠ '"' ∧ c ≠ '\'' ∧ c ≠ '>' := by
    simp only [List.cons_append, List.forall_mem_cons, List.forall_mem_append, List.mem_singleton, forall_eq]
    exact ⟨by decide, a.plain, by decide⟩
  rw [split, tagEnd_plain plain, tagEnd, if_neg (by decide), if_pos (by decide), tagEnd_quoted a.quoted]
  simp [Attribute.render]
  omega

theorem tagEnd_attributes (as : List Attribute) :
    tagEnd none (as.flatMap Attribute.render ++ rest) = (as.flatMap Attribute.render).length + tagEnd none rest := by
  induction as
  case nil          => simp
  case cons a as ih =>
    rw [List.flatMap_cons, List.append_assoc, tagEnd_attribute, ih, List.length_append]
    omega

theorem Tag.plain (tag : Tag) : ∀ c ∈ tag.name, c ≠ '"' ∧ c ≠ '\'' ∧ c ≠ '>' := by
  intro c mem
  have lower := tag.lower c mem
  refine ⟨?_, ?_, ?_⟩ <;> rintro rfl <;> exact absurd lower (by decide)

theorem tagEnd_inner (tag : Tag) : tagEnd none (tag.inner ++ '>' :: rest) = tag.inner.length + 1 := by
  rw [Tag.inner, List.append_assoc, tagEnd_plain tag.plain, tagEnd_attributes, tagEnd, if_pos rfl, List.length_append]
  omega

theorem tagEnd_closing (tag : Tag) : tagEnd none ('/' :: tag.name ++ '>' :: rest) = tag.name.length + 2 := by
  have plain : ∀ c ∈ '/' :: tag.name, c ≠ '"' ∧ c ≠ '\'' ∧ c ≠ '>' :=
    List.forall_mem_cons.mpr ⟨by decide, tag.plain⟩
  rw [tagEnd_plain plain, tagEnd, if_pos rfl, List.length_cons]

-- The wrapper is not one tag.
theorem Tag.opening_ne (tag : Tag) : tag.opening ≠ OPEN := by
  intro eq
  have tail : tag.inner ++ ['>'] = OPEN.tail := congrArg List.tail eq
  have ends := @tagEnd_inner [] tag
  have all := congrArg List.length tail
  rw [tail] at ends
  rw [List.length_append, List.length_singleton, ← ends] at all
  exact absurd all (by decide +kernel)

theorem Tag.code (tag : Tag) {c : Char} (mem : c ∈ tag.name) :
    48 ≤ c.toNat ∧ c.toNat ≤ 57 ∨ 97 ≤ c.toNat ∧ c.toNat ≤ 122 := by
  rcases tag.lower c mem with lower | digit
  · obtain ⟨ge, le⟩ := Bool.and_eq_true_iff.mp lower
    have lower := And.intro (of_decide_eq_true ge) (of_decide_eq_true le)
    exact .inr ⟨UInt32.le_iff_toNat_le.mp lower.left, UInt32.le_iff_toNat_le.mp lower.right⟩
  · simp only [Char.isDigit, Bool.and_eq_true, decide_eq_true_eq] at digit
    exact .inl ⟨UInt32.le_iff_toNat_le.mp digit.left, UInt32.le_iff_toNat_le.mp digit.right⟩

theorem Tag.alphanum (tag : Tag) {c : Char} (mem : c ∈ tag.name) : c.isAlphanum = true := by
  rcases tag.lower c mem with lower | digit
  · exact Bool.or_eq_true_iff.mpr (.inl (Bool.or_eq_true_iff.mpr (.inr lower)))
  · exact Bool.or_eq_true_iff.mpr (.inr digit)

-- The last character of a tag is no slash.
theorem Tag.last (tag : Tag) : ∃ cs c, tag.inner = cs ++ [c] ∧ c ≠ '/' := by
  rcases List.eq_nil_or_concat tag.attributes with none' | ⟨as, a, eq⟩
  · obtain ⟨cs, c, eq⟩ := (List.eq_nil_or_concat tag.name).resolve_left tag.nonempty
    have mem : c ∈ tag.name := by simp [eq]
    refine ⟨cs, c, by rw [inner, none', List.flatMap_nil, List.append_nil, eq, List.concat_eq_append], ?_⟩
    rintro rfl
    exact absurd (tag.lower _ mem) (by decide)
  · refine ⟨tag.name ++ as.flatMap Attribute.render ++ (' ' :: a.name ++ "=\"".toList ++ a.value), '"', ?_, by decide⟩
    simp [inner, eq, Attribute.render]

theorem Tag.map_toLower (tag : Tag) : tag.name.map Char.toLower = tag.name := by
  refine (List.map_congr_left fun c mem => ?_).trans (List.map_id _)
  have code := tag.code mem
  have upper : ¬(c.val ≥ 'A'.val ∧ c.val ≤ 'Z'.val) := by
    rintro ⟨ge, le⟩
    have ge : 65 ≤ c.toNat := UInt32.le_iff_toNat_le.mp ge
    have le : c.toNat ≤ 90 := UInt32.le_iff_toNat_le.mp le
    omega
  exact dif_neg upper

theorem Tag.not_whitespace (tag : Tag) {c : Char} (mem : c ∈ tag.name) : isWhitespace c = false := by
  have code := tag.code mem
  simp only [isWhitespace, Bool.or_eq_false_iff, Bool.and_eq_false_iff, decide_eq_false_iff_not]
  omega

theorem trimEndMatches_eq {p : Char → Bool} (h : ∀ c ∈ cs, p c = false) : trimEndMatches p cs = cs := by
  have same : cs.reverse.dropWhile p = cs.reverse := by
    cases eq : cs.reverse
    case nil       => rfl
    case cons c rs =>
      have mem : c ∈ cs := List.mem_reverse.mp (eq ▸ List.mem_cons_self)
      rw [List.dropWhile_cons_of_neg (by simp [h c mem])]
  rw [trimEndMatches, same, List.reverse_reverse]

theorem readTag_closing (tag : Tag) (stack : List Frame) : readTag stack tag.closing = closeUpTo tag.name stack := by
  have notClose : ∀ c ∈ tag.name, decide (c = '>') = false := fun c mem => decide_eq_false (tag.plain c mem).right.right
  have name : trimEndMatches (· = '>') (tag.name ++ ['>']) = tag.name := by
    rw [trimEndMatches, List.reverse_append, List.reverse_singleton, List.singleton_append,
      List.dropWhile_cons_of_pos (by decide)]
    exact trimEndMatches_eq notClose
  have front : tag.name.dropWhile isWhitespace = tag.name := by
    cases eq : tag.name
    case nil       => rfl
    case cons c cs => rw [List.dropWhile_cons_of_neg (by simp [tag.not_whitespace (eq ▸ List.mem_cons_self)])]
  have trim : trimmed tag.name = tag.name := by
    rw [trimmed, front, trimEndMatches_eq fun c mem => tag.not_whitespace mem]
  change closeUpTo ((trimmed (trimEndMatches (· = '>') (tag.name ++ ['>']))).map Char.toLower) stack = _
  rw [name, trim, tag.map_toLower]

-- What is read of a tag that opens an element.
theorem readTag_opening (tag : Tag) (stack : List Frame) :
    readTag stack tag.opening =
      if tag.name ∈ VOID then pushChild (.element tag.name tag.opening [] false) stack
      else { name := tag.name, opening := tag.opening } :: stack := by
  have name : ((tag.opening.drop 1).takeWhile Char.isAlphanum).map Char.toLower = tag.name := by
    have behind : (tag.attributes.flatMap Attribute.render ++ ['>']).takeWhile Char.isAlphanum = [] := by
      cases tag.attributes <;> rfl
    have inner : tag.opening.drop 1 = tag.name ++ (tag.attributes.flatMap Attribute.render ++ ['>']) :=
      List.append_assoc _ _ _
    rw [inner, List.takeWhile_append_of_pos fun c mem => tag.alphanum mem, behind, List.append_nil, tag.map_toLower]
  have notClosed : ¬"/>".toList <:+ tag.opening := by
    rintro ⟨front, eq⟩
    have ⟨before, c, is, ne⟩ := tag.last
    have eq : (front ++ ['/']) ++ ['>'] = ('<' :: before ++ [c]) ++ ['>'] := by
      rw [List.append_assoc, List.cons_append, List.cons_append, ← is]
      exact eq
    have eq := List.append_inj_left' eq rfl
    exact ne (List.singleton_inj.mp (List.append_inj_right' eq rfl)).symm
  rw [readTag]
  · simp only [name, notClosed, tag.nonempty, or_false]
  · intro cs eq
    obtain ⟨c, name, first⟩ := List.exists_cons_of_ne_nil tag.nonempty
    have : c = '/' := by
      rw [Tag.opening, Tag.inner, first] at eq
      exact (List.cons.inj (List.cons.inj eq).right).left
    exact absurd (tag.lower c (first ▸ List.mem_cons_self)) (this ▸ by decide)

variable (stack : List Frame)

-- A tag is read as a whole.
theorem parseFrom_opening (tag : Tag) :
    parseFrom stack (tag.opening ++ rest) = parseFrom (readTag stack tag.opening) rest := by
  have chars : tag.opening ++ rest = '<' :: (tag.inner ++ '>' :: rest) := by simp [Tag.opening]
  have len : tag.inner.length + 1 = (tag.inner ++ ['>']).length := by simp
  rw [chars, parseFrom, if_pos rfl]
  simp only [tagEnd_inner]
  rw [List.append_cons, len, List.take_left, List.drop_left]
  rfl

theorem parseFrom_closing (tag : Tag) :
    parseFrom stack (tag.closing ++ rest) = parseFrom (readTag stack tag.closing) rest := by
  have chars : tag.closing ++ rest = '<' :: ('/' :: tag.name ++ '>' :: rest) := by simp [Tag.closing]
  have len : tag.name.length + 2 = ('/' :: tag.name ++ ['>']).length := by simp
  rw [chars, parseFrom, if_pos rfl]
  simp only [tagEnd_closing]
  rw [List.append_cons, len, List.take_left, List.drop_left]
  rfl

-- Where text ends.
def AtTag (rest : Chars) : Prop :=
  rest.head?.all (· = '<')

theorem parseFrom_text (t : Text) (next : AtTag rest) : parseFrom (top :: stack) (t ++ rest) =
    parseFrom ({ top with children := top.children ++ Html.textNode t } :: stack) rest := by
  obtain ⟨t, escaped⟩ := t
  cases t
  case nil          => simp [Html.textNode]
  case cons c cs =>
    have ⟨first, others⟩ : '<' ≠ c ∧ '<' ∉ cs := not_or.mp (List.mem_cons.not.mp escaped)
    have plain : ∀ c ∈ cs, decide (c ≠ '<') = true := fun c mem => decide_eq_true fun is => others (is ▸ mem)
    have ⟨stops, rests⟩ : rest.takeWhile (· ≠ '<') = [] ∧ rest.dropWhile (· ≠ '<') = rest := by
      cases rest
      case nil         => exact ⟨rfl, rfl⟩
      case cons c rest =>
        have : c = '<' := by simpa [AtTag] using next
        simp [this]
    rw [List.cons_append, parseFrom, if_neg (Ne.symm first), List.takeWhile_append_of_pos plain,
      List.dropWhile_append_of_pos plain, stops, rests, List.append_nil]
    rfl

-- Well-formed HTML closes the innermost element.
theorem closeUpTo_top {frame : Frame} (notVoid : frame.name ∉ VOID) (some' : frame.name ≠ []) :
    closeUpTo frame.name (frame :: top :: stack) =
      { top with children := top.children ++ [.element frame.name frame.opening frame.children true] } :: stack := by
  simp [closeUpTo, List.findIdx?_cons, pop, pushChild, finished, notVoid, some']

-- Sanitized HTML is read as its nodes.
theorem parseFrom_render (h : Html) (next : AtTag rest) : parseFrom (top :: stack) (h.render ++ rest) =
    parseFrom ({ top with children := top.children ++ h.nodes } :: stack) rest := by
  induction h generalizing top stack rest
  case last t => exact parseFrom_text stack t next
  case void t tag isVoid tail ih =>
    rw [Html.render, List.append_assoc, List.append_assoc, parseFrom_text stack t (by simp [AtTag, Tag.opening]),
      parseFrom_opening, readTag_opening, if_pos isVoid, pushChild, ih _ next, Html.nodes]
    simp [finished, isVoid]
  case element t tag notVoid children tail ihChildren ihTail =>
    have closed := @closeUpTo_top { top with children := top.children ++ Html.textNode t } stack
      { name := tag.name, opening := tag.opening, children := [] ++ children.nodes } notVoid tag.nonempty
    have close : AtTag (tag.closing ++ (tail.render ++ rest)) := by simp [AtTag, Tag.closing]
    rw [Html.render, List.append_assoc, List.append_assoc, List.append_assoc, List.append_assoc,
      parseFrom_text stack t (by simp [AtTag, Tag.opening]), parseFrom_opening, readTag_opening, if_neg notVoid,
      ihChildren _ close, parseFrom_closing, readTag_closing, closed, ihTail _ next, Html.nodes]
    simp

-- Parsing sanitized HTML and writing it gives it back.
theorem parse_render (h : Html) : parse h.render = h.nodes := by
  have := @parseFrom_render [] { name := [], opening := [] } [] h (by simp [AtTag])
  rw [List.append_nil, List.nil_append, parseFrom] at this
  rw [parse, this]
  rfl

theorem writeAll_textNode (t : Chars) (ns : List Node) : writeAll (Html.textNode t ++ ns) = t ++ writeAll ns := by
  rw [Html.textNode]
  split
  case isTrue none' => rw [none']; rfl
  case isFalse      => rw [List.singleton_append, writeAll, write]

theorem writeAll_nodes (h : Html) : writeAll h.nodes = h.render := by
  induction h
  case last t => rw [Html.nodes, ← List.append_nil (Html.textNode t), writeAll_textNode]; exact List.append_nil _
  case void t tag isVoid rest ih =>
    rw [Html.nodes, writeAll_textNode, writeAll, write, ih, Html.render]
    simp [writeAll, closingTag]
  case element t tag notVoid children rest ihChildren ihRest =>
    rw [Html.nodes, writeAll_textNode, writeAll, write, ihChildren, ihRest, Html.render, closingTag,
      if_neg tag.opening_ne, if_pos (by simp [notVoid, tag.nonempty])]
    simp [Tag.closing]

end Tags

end Kaluta.Quotes
