import Kaluta.Quotes.Fold
import Mathlib.Data.List.Induction

-- Plain-text bodies rendered through the same reader as HTML: escaped, bare addresses linked.
namespace Kaluta.PlainText

open Quotes (Chars trimEndMatches tagEnd)

def HTTPS : Chars :=
  "https://".toList

def HTTP : Chars :=
  "http://".toList

def WRAPPER : Chars :=
  "<div style=\"white-space: pre-wrap\">".toList

-- What is written in front of an anchor's address, between it and the text shown, and behind that.
def HREF : Chars :=
  "<a href=\"".toList

def TARGET : Chars :=
  "\" target=\"_blank\" rel=\"noopener noreferrer\">".toList

def CLOSING : Chars :=
  "</a>".toList

section Render

variable {pat s rest : Chars}

-- Where a text first occurs.
def find (pat : Chars) : Chars → Option Nat
  | []      => if pat = [] then some 0 else none
  | c :: cs => if pat.isPrefixOf (c :: cs) then some 0 else (find pat cs).map (· + 1)

def findUrl (s : Chars) : Option Nat :=
  match find HTTPS s, find HTTP s with
  | some a, some b => some (min a b)
  | a     , b      => a.or b

def escape : Char → Chars
  | '&'  => "&amp;".toList
  | '<'  => "&lt;".toList
  | '>'  => "&gt;".toList
  | '"'  => "&quot;".toList
  | '\'' => "&#39;".toList
  | c    => [c]

def escapeInto (out s : Chars) : Chars :=
  out ++ s.flatMap escape

def endsUrl (c : Char) : Bool :=
  isWhitespace c || c ∈ ['<', '>', '"', '\'']

def isTrailing (c : Char) : Bool :=
  c ∈ ['.', ',', ')', ';', ':', '!', '?']

-- The address that a text begins with; trailing punctuation usually ends the sentence, not the address.
def urlOf (tail : Chars) : Chars :=
  trimEndMatches isTrailing (tail.takeWhile (!endsUrl ·))

theorem find_begins (h : find pat s = some i) : pat <+: s.drop i := by
  induction s generalizing i
  case nil =>
    rw [find] at h
    split at h <;> cases h
    case isTrue empty => exact empty ▸ List.nil_prefix
  case cons c cs ih =>
    rw [find] at h
    split at h
    case isTrue here => cases h; exact List.isPrefixOf_iff_prefix.mp here
    case isFalse     =>
      obtain ⟨j, found, rfl⟩ := Option.map_eq_some_iff.mp h
      exact ih found

-- What is found begins with one of the two schemes.
theorem findUrl_begins (h : findUrl s = some start) : HTTPS <+: s.drop start ∨ HTTP <+: s.drop start := by
  rw [findUrl] at h
  split at h
  case h_1 a b https http =>
    cases h
    rcases Nat.le_total a b with le | le
    · exact .inl (by rw [Nat.min_eq_left le]; exact find_begins https)
    · exact .inr (by rw [Nat.min_eq_right le]; exact find_begins http)
  case h_2 =>
    rcases Option.or_eq_some_iff.mp h with https | ⟨_, http⟩
    · exact .inl (find_begins https)
    · exact .inr (find_begins http)

-- Trimming stops at a character that it does not trim.
theorem begins_trimEndMatches (pat : Chars) {p : Char → Bool} (stays : p c = false) (h : pat ++ [c] <+: s) :
    pat ++ [c] <+: trimEndMatches p s := by
  obtain ⟨r, rfl⟩ := h
  rw [trimEndMatches]
  induction r using List.reverseRecOn
  case nil => simp [stays]
  case append_singleton r x ih =>
    rw [← List.append_assoc, List.reverse_append, List.reverse_singleton, List.singleton_append]
    cases trims : p x
    case true  => rwa [List.dropWhile_cons_of_pos trims]
    case false =>
      rw [List.dropWhile_cons_of_neg (by simp [trims]), List.reverse_cons, List.reverse_reverse, List.append_assoc]
      exact List.prefix_append ..

theorem begins_takeWhile {p : Char → Bool} (all : pat.all p) (h : pat <+: s) : pat <+: s.takeWhile p := by
  obtain ⟨r, rfl⟩ := h
  rw [List.takeWhile_append_of_pos (List.all_eq_true.mp all)]
  exact List.prefix_append ..

theorem begins_urlOf (h : HTTPS <+: s ∨ HTTP <+: s) : HTTPS <+: urlOf s ∨ HTTP <+: urlOf s :=
  h.imp
    (fun h => begins_trimEndMatches "https:/".toList (by decide) (begins_takeWhile (by decide +kernel) h))
    (fun h => begins_trimEndMatches "http:/".toList (by decide) (begins_takeWhile (by decide +kernel) h))

theorem urlOf_ne_nil (h : findUrl s = some start) : urlOf (s.drop start) ≠ [] := by
  intro none
  rcases none ▸ begins_urlOf (findUrl_begins h) with h | h <;> exact absurd (List.prefix_nil.mp h) (by decide)

-- Renders what is left of the text behind what has been written.
def textToHtmlFrom (out rest : Chars) : Chars :=
  match _h : findUrl rest with
  | none       => escapeInto out rest
  | some start =>
    let tail := rest.drop start
    let url  := urlOf tail
    let out  := escapeInto out (rest.take start)
    let out  := escapeInto (out ++ HREF) url
    let out  := escapeInto (out ++ TARGET) url
    textToHtmlFrom (out ++ CLOSING) (tail.drop url.length)
  termination_by rest.length
  decreasing_by
    have goes := List.length_pos_iff.mpr (urlOf_ne_nil _h)
    have some' : 0 < (rest.drop start).length :=
      List.length_pos_iff.mpr fun none => by
        rcases findUrl_begins _h with h | h <;> exact absurd (List.prefix_nil.mp (none ▸ h)) (by decide)
    rw [List.length_drop] at some'
    simp only [List.length_drop]
    omega

def textToHtml (text : Chars) : Chars :=
  textToHtmlFrom WRAPPER text ++ "</div>".toList

end Render

section Read

-- What a reader of HTML takes apart.
inductive Token
  | tag (t : Chars)
  | text (c : Char)
  deriving DecidableEq

def Token.isText : Token → Bool
  | text _ => true
  | tag _  => false

-- The character that stands behind `&`, and what follows it.
def reference : Chars → Option (Char × Chars)
  | 'a' :: 'm' :: 'p' :: ';' :: cs        => some ('&', cs)
  | 'l' :: 't' :: ';' :: cs               => some ('<', cs)
  | 'g' :: 't' :: ';' :: cs               => some ('>', cs)
  | 'q' :: 'u' :: 'o' :: 't' :: ';' :: cs => some ('"', cs)
  | '#' :: '3' :: '9' :: ';' :: cs        => some ('\'', cs)
  | _                                     => none

theorem reference_length (h : reference s = some (c, cs)) : cs.length < s.length := by
  unfold reference at h
  split at h <;> cases h <;> simp <;> omega

-- Tags up to their end, minding quoted values, and text with its escapes undone.
def read : Chars → List Token
  | []      => []
  | c :: cs =>
    if c = '<' then .tag ('<' :: cs.take (tagEnd none cs)) :: read (cs.drop (tagEnd none cs))
    else if c = '&' then
      match _h : reference cs with
      | some (c, rest) => .text c :: read rest
      | none           => .text c :: read cs
    else .text c :: read cs
  termination_by cs => cs.length
  decreasing_by
    · exact Nat.lt_succ_of_le (List.drop_sublist _ _).length_le
    · exact Nat.lt_succ_of_lt (reference_length _h)
    · exact Nat.lt_succ_self _
    · exact Nat.lt_succ_self _

-- What is left when the tags are removed.
def visible (ts : List Token) : Chars :=
  ts.filterMap fun | .text c => some c | .tag _ => none

def tags (ts : List Token) : List Chars :=
  ts.filterMap fun | .tag t => some t | .text _ => none

-- The address of a tag that opens an anchor.
def href (t : Chars) : Option Chars :=
  if HREF.isPrefixOf t then some (visible (read ((t.drop HREF.length).takeWhile (· ≠ '"')))) else none

-- The anchors with what is shown of each, the text up to the next tag.
def anchors : List Token → List (Chars × Chars)
  | []            => []
  | .text _ :: ts => anchors ts
  | .tag t :: ts  => ((href t).map fun url => (url, visible (ts.takeWhile Token.isText))).toList ++ anchors ts

end Read
end Kaluta.PlainText
