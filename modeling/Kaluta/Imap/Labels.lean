import Kaluta.Imap.Fetch

namespace Kaluta.Imap

open SystemLabels
open RateLimit (hex)

section Ids

theorem hexDigit_digitChar (h : d < 16) : hexDigit d.digitChar = some d := by
  interval_cases d <;> rfl

theorem foldlM_pushDigit_hex (h : n < UInt64.size) : (hex n).foldlM pushDigit 0 = some n := by
  induction n using Nat.strong_induction_on
  case h n ih =>
    rw [hex]
    by_cases small : n < 16
    case pos =>
      rw [Nat.toDigits_of_lt_base small]
      simp [pushDigit, hexDigit_digitChar small, h]
    case neg =>
      have front := ih (n / 16) (by omega) (by omega)
      rw [hex] at front
      rw [Nat.toDigits_of_base_le (by omega) (by omega), List.foldlM_append, front]
      have eq : 16 * (n / 16) + n % 16 = n := by omega
      simp [pushDigit, hexDigit_digitChar (Nat.mod_lt n _), eq, h]

theorem digits_hex (h : n < UInt64.size) : digits (hex n) = hex n := by
  have value := foldlM_pushDigit_hex h
  rw [digits.eq_def]
  split
  case h_1 d ds eq =>
    rw [eq] at value
    cases value
  case h_2 => rfl

theorem fromStrRadix16_messageId (msgid : UInt64) : fromStrRadix16 (messageId msgid) = some msgid := by
  have small := msgid.toNat_lt_size
  have ne : hex msgid.toNat ≠ [] := Nat.toDigits_ne_nil
  rw [fromStrRadix16, messageId, String.toList_ofList, digits_hex small, if_neg ne, foldlM_pushDigit_hex small,
    Option.map_some, UInt64.ofNat_toNat]

-- The API's id of an IMAP message is about that message.
@[simp]
theorem key_messageId (msgid : UInt64) : key (messageId msgid) = .inl msgid := by
  rw [key, fromStrRadix16_messageId]

end Ids

section Spelling

-- A name as IMAP's quoted strings have it.
def escape (cs : List Char) : List Char :=
  cs.flatMap fun c => if c = '\\' ∨ c = '"' then ['\\', c] else [c]

-- What can stand without quotes.
def IsAtom (cs : List Char) : Prop :=
  '"' ∉ cs ∧ '\\' ∉ cs.tail

inductive Spells (name shown : String) : Prop
  | quoted (eq : shown.toList = escape name.toList)
  | atom (eq : shown = name) (isAtom : IsAtom name.toList)

theorem unescape_cons (h : c ≠ '\\') (cs : List Char) : unescape (c :: cs) = c :: unescape cs := by
  rw [unescape]
  case x_1 => exact fun eq _ => h eq
  case x_2 => exact fun _ _ eq _ => h eq

theorem unescape_escape (cs : List Char) : unescape (escape cs) = cs := by
  induction cs
  case nil => rfl
  case cons c cs ih =>
    rw [escape, List.flatMap_cons, ← escape]
    by_cases special : c = '\\' ∨ c = '"'
    case pos =>
      rw [if_pos special, List.cons_append, List.cons_append, List.nil_append, unescape, if_pos special, ih]
    case neg =>
      rw [if_neg special, List.cons_append, List.nil_append, unescape_cons (not_or.mp special).left, ih]

theorem unescape_of_plain (h : '\\' ∉ cs) : unescape cs = cs := by
  induction cs
  case nil => rfl
  case cons c cs ih =>
    rw [List.mem_cons, not_or] at h
    rw [unescape_cons (Ne.symm h.left), ih h.right]

theorem unescape_of_atom (h : IsAtom cs) : unescape cs = cs := by
  have ⟨noQuote, noEscape⟩ := h
  match cs with
  | []          => rfl
  | [c]         => by_cases eq : c = '\\'
                   · rw [eq, unescape]
                   · rw [unescape_cons eq, unescape]
  | c :: d :: ds =>
    rw [List.tail_cons, List.mem_cons, not_or] at noEscape
    by_cases eq : c = '\\'
    case neg => rw [unescape_cons eq, unescape_of_plain (by simpa using noEscape)]
    case pos =>
      have plain : ¬(d = '\\' ∨ d = '"') := by
        simp only [List.mem_cons, not_or] at noQuote
        exact not_or.mpr ⟨Ne.symm noEscape.left, Ne.symm noQuote.right.left⟩
      rw [eq, unescape, if_neg plain, unescape_of_plain noEscape.right]

theorem Spells.unescapeLabel_eq (h : Spells name shown) : unescapeLabel shown = name := by
  cases h
  case quoted eq      => rw [unescapeLabel, eq, unescape_escape, String.ofList_toList]
  case atom eq isAtom => rw [unescapeLabel, eq, unescape_of_atom isAtom, String.ofList_toList]

end Spelling

section Described

variable {labels : LabelNames} {called : LabelId → Option String} {here : List LabelId} {attrs : Attributes} {f : Folder}

-- A response about a message with the labels `here`: it names them, but neither the categories nor the folder's own.
structure Describes (f : Folder) (here : List LabelId) (called : LabelId → Option String) (attrs : Attributes) :
    Prop where
  unread  : UNREAD ∈ here ↔ seen attrs = false
  starred : STARRED ∈ here ↔ flagged attrs = true
  folder  : f.label = some l → l ∈ here
  shown   : s ∈ gmailLabels attrs → ∃ l ∈ here, ∃ name, called l = some name ∧ Spells name s
  named   : l ∈ here → l ∈ PRIMARY :: CATEGORIES ∨ l = UNREAD ∨ l = STARRED ∨ f.label = some l ∨
    ∃ s ∈ gmailLabels attrs, ∃ name, called l = some name ∧ Spells name s

-- What labels are called over IMAP: the system labels have names of their own, and the label list is right in
-- what it knows of the others.
structure Naming (labels : LabelNames) (called : LabelId → Option String) : Prop where
  category : l ∈ PRIMARY :: CATEGORIES → called l = none
  unread   : called UNREAD = none
  system   : systemLabel name = some l → (called l' = some name ↔ l' = l)
  listed   : labels name = some l → called l' = some name → l = l'

-- A label whose name IMAP does not reserve is in the label list.
def Listed (labels : LabelNames) (called : LabelId → Option String) (l : LabelId) : Prop :=
  ∀ name, called l = some name → systemLabel name = none → labels name = some l

theorem labelOf_eq_some (spells : Spells name shown) :
    labelOf labels shown = some l ↔ systemLabel name = some l ∨ systemLabel name = none ∧ labels name = some l := by
  rw [labelOf, spells.unescapeLabel_eq]
  cases systemLabel name
  case none   => simp
  case some _ => simp

theorem mem_labelIds : l ∈ labelIds attrs labels f ↔
    (∃ shown ∈ gmailLabels attrs, labelOf labels shown = some l) ∨ (l = UNREAD ∧ seen attrs = false) ∨
    (l = STARRED ∧ flagged attrs = true) ∨ f.label = some l := by
  rw [labelIds, mem_btreeSet]
  cases seen attrs <;> cases flagged attrs <;> simp

namespace Naming

theorem listed_of_system (h : Naming labels called) (system : systemLabel name = some l) : Listed labels called l := by
  intro name' hn free
  have hc : called l = some name := (h.system system).mpr rfl
  rw [hc, Option.some.injEq] at hn
  rw [← hn, system] at free
  cases free

theorem not_category_of_system (h : Naming labels called) (system : systemLabel name = some l) :
    l ∉ PRIMARY :: CATEGORIES := by
  intro category
  have hc : called l = some name := (h.system system).mpr rfl
  rw [h.category category] at hc
  cases hc

-- The name that IMAP has for a folder's label.
theorem system_of_folder (h : f.label = some l) : ∃ name, systemLabel name = some l := by
  cases f
  case allMail => cases h
  case drafts  => exact ⟨"\\Draft", h⟩
  case spam    => exact ⟨"\\Spam", h⟩
  case trash   => exact ⟨"\\Trash", h⟩

theorem labelOf_iff (h : Naming labels called) (hc : called l' = some name) (spells : Spells name shown) :
    labelOf labels shown = some l ↔ l = l' ∧ l ∉ PRIMARY :: CATEGORIES ∧ Listed labels called l := by
  rw [labelOf_eq_some spells]
  constructor
  case mp =>
    rintro (system | ⟨free, known⟩)
    · obtain rfl := (h.system system).mp hc
      exact ⟨rfl, h.not_category_of_system system, h.listed_of_system system⟩
    · obtain rfl := h.listed known hc
      refine ⟨rfl, fun category => ?_, fun name' hn _ => ?_⟩
      · rw [h.category category] at hc
        cases hc
      · rw [hc, Option.some.injEq] at hn
        exact hn ▸ known
  case mpr =>
    rintro ⟨rfl, -, listed⟩
    rcases system : systemLabel name with _ | l'
    case none => exact .inr ⟨rfl, listed name hc system⟩
    case some => exact .inl (congrArg some ((h.system system).mp hc).symm)

end Naming

-- The labels of a message read over IMAP.
theorem Describes.mem_labelIds (h : Describes f here called attrs) (naming : Naming labels called) :
    l ∈ labelIds attrs labels f ↔ l ∈ here ∧ l ∉ PRIMARY :: CATEGORIES ∧ Listed labels called l := by
  rw [Imap.mem_labelIds]
  constructor
  case mp =>
    rintro (⟨shown, mem, label⟩ | ⟨rfl, unseen⟩ | ⟨rfl, starred⟩ | folder)
    · have ⟨l', hl', name, hc, spells⟩ := h.shown mem
      obtain ⟨rfl, rest⟩ := (naming.labelOf_iff hc spells).mp label
      exact ⟨hl', rest⟩
    · refine ⟨h.unread.mpr unseen, by decide, fun name hn => ?_⟩
      rw [naming.unread] at hn
      cases hn
    · have system : systemLabel "\\Starred" = some STARRED := rfl
      exact ⟨h.starred.mpr starred, naming.not_category_of_system system, naming.listed_of_system system⟩
    · have ⟨name, system⟩ := Naming.system_of_folder folder
      exact ⟨h.folder folder, naming.not_category_of_system system, naming.listed_of_system system⟩
  case mpr =>
    rintro ⟨mem, noCategory, listed⟩
    rcases h.named mem with category | rfl | rfl | folder | ⟨shown, hs, name, hc, spells⟩
    · exact absurd category noCategory
    · exact .inr (.inl ⟨rfl, h.unread.mp mem⟩)
    · exact .inr (.inr (.inl ⟨rfl, h.starred.mp mem⟩))
    · exact .inr (.inr (.inr folder))
    · exact .inl ⟨shown, hs, (naming.labelOf_iff hc spells).mpr ⟨rfl, noCategory, listed⟩⟩

end Described

section Fetched

variable [Mail] {labels : LabelNames} {attrs : Attributes} {f : Folder} {m : FetchedMessage}

theorem toFetched_eq_some (h : toFetched attrs labels f = some m) :
    ∃ k, msgid attrs = some k ∧ m.id = messageId k ∧ m.labelIds = labelIds attrs labels f := by
  simp only [toFetched, Option.bind_eq_bind, Option.bind_eq_some_iff] at h
  obtain ⟨k, hk, _, _, _, _, _, _, h⟩ := h
  cases h
  exact ⟨k, hk, rfl, rfl⟩

end Fetched

end Kaluta.Imap
