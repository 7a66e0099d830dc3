import Kaluta.PlainText.ToHtml
import Kaluta.Quotes.Sanitized
import Mathlib.Data.Bool.AllAny

-- What a reader finds in a plain-text body rendered as HTML: the text, and anchors of one form.
namespace Kaluta.PlainText

open Quotes (Chars Attribute Tag trimEndMatches tagEnd tagEnd_inner tagEnd_closing)

def IsAddress (url : Chars) : Prop :=
  HTTPS <+: url ∨ HTTP <+: url

-- The tag that opens the anchor of an address.
def opening (url : Chars) : Chars :=
  HREF ++ url.flatMap escape ++ TARGET

-- A text is rendered in parts: what stands between addresses, and the addresses.
inductive Part
  | plain (s : Chars)
  | link (url : Chars)

namespace Part

def text : Part → Chars
  | plain s  => s
  | link url => url

def html : Part → Chars
  | plain s  => s.flatMap escape
  | link url => opening url ++ url.flatMap escape ++ CLOSING

def tokens : Part → List Token
  | plain s  => s.map .text
  | link url => .tag (opening url) :: url.map .text ++ [.tag CLOSING]

def url? : Part → Option Chars
  | plain _  => none
  | link url => some url

end Part

theorem trimEndMatches_begins (p : Char → Bool) (s : Chars) : trimEndMatches p s <+: s := by
  rw [trimEndMatches, ← List.reverse_suffix, List.reverse_reverse]
  exact List.dropWhile_suffix p

theorem urlOf_begins (tail : Chars) : urlOf tail <+: tail :=
  (trimEndMatches_begins ..).trans (List.takeWhile_prefix _)

theorem urlOf_append (tail : Chars) : urlOf tail ++ tail.drop (urlOf tail).length = tail := by
  obtain ⟨r, eq⟩ := urlOf_begins tail
  have left : (urlOf tail ++ r).drop (urlOf tail).length = r := List.drop_left
  rw [eq] at left
  rw [left, eq]

-- Nothing of the text is lost on the way, and each link is an address.
theorem textToHtmlFrom_parts (out rest : Chars) : ∃ parts : List Part,
    textToHtmlFrom out rest = out ++ parts.flatMap Part.html ∧ parts.flatMap Part.text = rest ∧
    ∀ url ∈ parts.filterMap Part.url?, IsAddress url := by
  induction out, rest using textToHtmlFrom.induct
  case case1 out rest none =>
    refine ⟨[.plain rest], ?_, by simp [Part.text], by simp [Part.url?]⟩
    rw [textToHtmlFrom]
    split
    case h_1           => simp [escapeInto, Part.html]
    case h_2 some' =>
      rw [none] at some'
      cases some'
  case case2 out rest start found tail url out₁ out₂ out₃ ih =>
    obtain ⟨parts, html, text, links⟩ := ih
    have cut : rest.take start ++ (url ++ tail.drop url.length) = rest := by
      rw [urlOf_append, List.take_append_drop]
    refine ⟨.plain (rest.take start) :: .link url :: parts, ?_, ?_, ?_⟩
    · rw [textToHtmlFrom]
      split
      case h_1 none =>
        rw [none] at found
        cases found
      case h_2 start' found' =>
        cases found.symm.trans found'
        refine html.trans ?_
        simp only [Part.html, out₃, out₂, out₁, escapeInto, opening, List.flatMap_cons, List.append_assoc]
    · rw [List.flatMap_cons, List.flatMap_cons, text]
      exact cut
    · simp only [List.filterMap_cons, Part.url?, List.forall_mem_cons]
      exact ⟨begins_urlOf (findUrl_begins found), links⟩

section Read

theorem read_tag {inner rest : Chars} (ends : tagEnd none (inner ++ '>' :: rest) = inner.length + 1) :
    read ('<' :: inner ++ '>' :: rest) = .tag ('<' :: inner ++ ['>']) :: read rest := by
  have len : inner.length + 1 = (inner ++ ['>']).length := by simp
  rw [List.cons_append, read, if_pos rfl, ends, List.append_cons, len, List.take_left, List.drop_left]
  rfl

theorem read_opened (tag : Tag) (rest : Chars) : read (tag.opening ++ rest) = .tag tag.opening :: read rest := by
  have parts : tag.opening ++ rest = '<' :: tag.inner ++ '>' :: rest := by simp [Tag.opening]
  rw [parts, read_tag (tagEnd_inner tag)]
  rfl

theorem read_closed (tag : Tag) (rest : Chars) : read (tag.closing ++ rest) = .tag tag.closing :: read rest := by
  have parts : tag.closing ++ rest = '<' :: ('/' :: tag.name) ++ '>' :: rest := by simp [Tag.closing]
  rw [parts, read_tag (tagEnd_closing tag)]
  rfl

theorem read_char (tag : c ≠ '<') (ref : c ≠ '&') : read (c :: cs) = .text c :: read cs := by
  rw [read, if_neg tag, if_neg ref]

theorem read_reference (h : reference s = some (c, cs)) : read ('&' :: s) = .text c :: read cs := by
  rw [read, if_neg (by decide), if_pos rfl]
  split
  case h_1 found => cases h.symm.trans found; rfl
  case h_2 none  => cases h.symm.trans none

theorem read_escape (c : Char) (rest : Chars) : read (escape c ++ rest) = .text c :: read rest := by
  unfold escape
  split
  case h_6 tag _ ref _ => exact read_char (by rintro rfl; contradiction) (by rintro rfl; contradiction)
  all_goals exact read_reference rfl

theorem read_escaped (s rest : Chars) : read (s.flatMap escape ++ rest) = s.map .text ++ read rest := by
  induction s
  case nil          => rfl
  case cons c cs ih => rw [List.flatMap_cons, List.append_assoc, read_escape, ih, List.map_cons, List.cons_append]

theorem quote_not_mem_escaped (s : Chars) : '"' ∉ s.flatMap escape := by
  rw [List.mem_flatMap]
  rintro ⟨c, _, mem⟩
  unfold escape at mem
  split at mem
  case h_6 => cases List.mem_singleton.mp mem; contradiction
  all_goals exact absurd mem (by decide)

-- The tag of an anchor has three attributes, whatever the address.
def anchor (url : Chars) : Tag where
  name       := "a".toList
  attributes := [
    { name := "href".toList, value := url.flatMap escape, plain := List.all_iff_forall_prop.mp (by decide), quoted := quote_not_mem_escaped url },
    { name := "target".toList, value := "_blank".toList, plain := List.all_iff_forall_prop.mp (by decide), quoted := by decide },
    { name := "rel".toList, value := "noopener noreferrer".toList, plain := List.all_iff_forall_prop.mp (by decide), quoted := by decide }
  ]
  nonempty   := by decide
  lower      := List.all_iff_forall_prop.mp (by decide)

def wrapper : Tag where
  name       := "div".toList
  attributes := [
    { name := "style".toList, value := "white-space: pre-wrap".toList, plain := List.all_iff_forall_prop.mp (by decide), quoted := by decide }
  ]
  nonempty   := by decide
  lower      := List.all_iff_forall_prop.mp (by decide)

theorem opening_anchor (url : Chars) : (anchor url).opening = opening url := by
  simp only [Tag.opening, Tag.inner, Attribute.render, anchor, opening, List.flatMap_cons, List.flatMap_nil,
    List.append_assoc, List.cons_append]
  rfl

theorem read_opening (url rest : Chars) : read (opening url ++ rest) = .tag (opening url) :: read rest :=
  opening_anchor url ▸ read_opened (anchor url) rest

theorem read_closing (rest : Chars) : read (CLOSING ++ rest) = .tag CLOSING :: read rest :=
  read_closed (anchor []) rest

theorem read_html (part : Part) (rest : Chars) : read (part.html ++ rest) = part.tokens ++ read rest := by
  cases part
  case plain s  => exact read_escaped s rest
  case link url =>
    rw [Part.html, Part.tokens, List.append_assoc, List.append_assoc, read_opening, read_escaped, read_closing]
    simp

theorem read_parts (parts : List Part) (rest : Chars) :
    read (parts.flatMap Part.html ++ rest) = parts.flatMap Part.tokens ++ read rest := by
  induction parts
  case nil          => rfl
  case cons p ps ih => rw [List.flatMap_cons, List.append_assoc, read_html, ih, List.flatMap_cons, List.append_assoc]

end Read

section Tokens

theorem visible_append (ts us : List Token) : visible (ts ++ us) = visible ts ++ visible us :=
  List.filterMap_append

theorem visible_text (s : Chars) : visible (s.map .text) = s := by
  rw [visible, List.filterMap_map]
  exact List.filterMap_some

theorem tags_text (s : Chars) : tags (s.map .text) = [] := by
  rw [tags, List.filterMap_map]
  exact List.filterMap_eq_nil_iff.mpr fun _ _ => rfl

theorem visible_tokens (part : Part) : visible part.tokens = part.text := by
  cases part
  case plain s  => exact visible_text s
  case link url =>
    have shown := visible_append (url.map .text) [.tag CLOSING]
    rw [visible_text] at shown
    exact shown.trans (List.append_nil url)

theorem visible_parts (parts : List Part) : visible (parts.flatMap Part.tokens) = parts.flatMap Part.text := by
  induction parts
  case nil          => rfl
  case cons p ps ih => rw [List.flatMap_cons, visible_append, visible_tokens, ih, List.flatMap_cons]

-- The address that an anchor's tag names is the one it was written with.
theorem href_opening (url : Chars) : href (opening url) = some url := by
  have front : HREF.isPrefixOf (opening url) :=
    List.isPrefixOf_iff_prefix.mpr ((List.prefix_append ..).trans (List.prefix_append ..))
  have stop : TARGET.takeWhile (fun c => decide (c ≠ '"')) = [] := by decide
  have value : ((opening url).drop HREF.length).takeWhile (fun c => decide (c ≠ '"')) = url.flatMap escape := by
    rw [opening, List.append_assoc, List.drop_left, List.takeWhile_append_of_pos, stop, List.append_nil]
    intro c mem
    exact decide_eq_true (ne_of_mem_of_not_mem mem (quote_not_mem_escaped url))
  have shown := read_escaped url []
  rw [List.append_nil, read, List.append_nil] at shown
  rw [href, if_pos front, value, shown, visible_text]

theorem anchors_text (s : Chars) (ts : List Token) : anchors (s.map .text ++ ts) = anchors ts := by
  induction s
  case nil          => rfl
  case cons c cs ih => exact ih

theorem anchors_tokens (part : Part) (ts : List Token) :
    anchors (part.tokens ++ ts) = (part.url?.map fun url => (url, url)).toList ++ anchors ts := by
  cases part
  case plain s  => exact anchors_text s ts
  case link url =>
    have shown : visible (((url.map Token.text ++ [Token.tag CLOSING]) ++ ts).takeWhile Token.isText) = url := by
      rw [List.append_assoc, List.takeWhile_append_of_pos (by simp [Token.isText])]
      exact (congrArg visible (List.append_nil _)).trans (visible_text url)
    have later : anchors ((url.map Token.text ++ [Token.tag CLOSING]) ++ ts) = anchors ts := by
      rw [List.append_assoc, anchors_text]
      rfl
    rw [Part.tokens, List.cons_append, List.cons_append, anchors, href_opening, later]
    simp only [Option.map_some, shown]
    rfl

theorem anchors_parts (parts : List Part) (ts : List Token) :
    anchors (parts.flatMap Part.tokens ++ ts) =
      (parts.filterMap Part.url?).map (fun url => (url, url)) ++ anchors ts := by
  induction parts
  case nil          => rfl
  case cons p ps ih =>
    rw [List.flatMap_cons, List.append_assoc, anchors_tokens, ih]
    cases p <;> rfl

theorem tags_parts (parts : List Part) :
    tags (parts.flatMap Part.tokens) = (parts.filterMap Part.url?).flatMap fun url => [opening url, CLOSING] := by
  induction parts
  case nil          => rfl
  case cons p ps ih =>
    rw [List.flatMap_cons, tags, List.filterMap_append, ← tags, ← tags, ih]
    cases p
    case plain s  => rw [Part.tokens, tags_text]; rfl
    case link url =>
      have front : tags (Part.link url).tokens = [opening url, CLOSING] := by
        rw [Part.tokens, tags, List.cons_append, List.filterMap_cons, List.filterMap_append, ← tags, tags_text]
        rfl
      rw [front]
      rfl

end Tokens

-- Whatever the text holds, the reader finds it again in what it is rendered as, in one wrapper, with no tags but those
-- of anchors that name the address they show.
theorem textToHtml_links (text : Chars) :
    visible (read (textToHtml text)) = text ∧
    (∃ urls : List Chars, tags (read (textToHtml text)) =
      WRAPPER :: urls.flatMap (fun url => [opening url, CLOSING]) ++ ["</div>".toList]) ∧
    ∀ a ∈ anchors (read (textToHtml text)), a.1 = a.2 ∧ IsAddress a.1 := by
  obtain ⟨parts, html, text', links⟩ := textToHtmlFrom_parts WRAPPER text
  have opened : read (WRAPPER ++ (parts.flatMap Part.html ++ "</div>".toList)) = _ := read_opened wrapper _
  have closed : read "</div>".toList = [.tag "</div>".toList] := (read_closed wrapper []).trans (by rw [read]; rfl)
  have tokens : read (textToHtml text) =
      .tag WRAPPER :: (parts.flatMap Part.tokens ++ [.tag "</div>".toList]) := by
    rw [textToHtml, html, List.append_assoc, opened, read_parts, closed]
    rfl
  rw [tokens]
  refine ⟨?_, ⟨parts.filterMap Part.url?, ?_⟩, ?_⟩
  · exact (visible_append ..).trans (by rw [visible_parts, text']; exact List.append_nil text)
  · rw [tags, List.filterMap_cons, List.filterMap_append, ← tags, tags_parts]
    rfl
  · have noHref : href WRAPPER = none := by decide
    have noHref' : href "</div>".toList = none := by decide
    rw [anchors, noHref, anchors_parts, anchors, noHref']
    simp only [Option.map_none, Option.toList_none, List.nil_append, List.append_nil, anchors]
    rintro _ mem
    obtain ⟨url, here, rfl⟩ := List.mem_map.mp mem
    exact ⟨rfl, links url here⟩

-- An address ends in front of a quote, and what stands behind it goes on as text.
example : textToHtml "http://a\"o".toList =
    WRAPPER ++ "<a href=\"http://a\" target=\"_blank\" rel=\"noopener noreferrer\">http://a</a>&quot;o</div>".toList := by
  decide +kernel

end Kaluta.PlainText
