import Mathlib.Data.List.Infix
import Kaluta.Lib.Condition
import Kaluta.Lib.Fields
import Kaluta.Store.Paged
import Kaluta.WritingGuide.Recognised

-- Searching the store: a query compiled to SQL, and what the statement finds.
namespace Kaluta

open WritingGuide (Alphanumeric isAlphanumeric)
open Condition (Operand Whole Broken Refused parens join)

def DAY : Millis := 86400000

def MAX_RESULTS : Nat := 500

-- What a statement asks of a message: the numbers are those of its parameters, from 1.
inductive Ask
  | always
  | found (param : Nat)
  | hasLabel (param : Nat)
  | labelled (param : Nat)
  | participant (role : String) (param : Nat)
  | starred
  | read (is : Bool)
  | attachments
  | since (param : Nat)
  | until_ (param : Nat)
  | larger (param : Nat)
  | smaller (param : Nat)
  deriving DecidableEq

namespace Sql

abbrev Text := List (Condition.Token Ask)

def bind (params : List SqlValue) (v : SqlValue) : Nat × List SqlValue :=
  (params.length + 1, params ++ [v])

-- One question of a parameter.
def asking (params : List SqlValue) (v : SqlValue) (ask : Nat → Ask) : Text × List SqlValue :=
  let (p, params) := bind params v
  ([.atom (ask p)], params)

def always (params : List SqlValue) : Text × List SqlValue :=
  ([.atom .always], params)

def fts (params : List SqlValue) (query : String) : Text × List SqlValue :=
  asking params (.text query) .found

def hasLabel (params : List SqlValue) (id : LabelId) : Text × List SqlValue :=
  asking params (.text id) .hasLabel

variable [Alphanumeric]

-- Turns text into a safe FTS5 phrase: its words, quoted. Of a prefix the last word is only begun.
def ftsPhrase (value : String) (isPrefix : Bool) : Option String :=
  let tokens := (value.toList.splitOnP fun c => !isAlphanumeric c).filter (· ≠ [])
  if tokens = [] then none
  else
    let phrase := "\"" ++ " ".intercalate (tokens.map String.ofList) ++ "\""
    some (if isPrefix then phrase ++ "*" else phrase)

def column (params : List SqlValue) (column value : String) : Text × List SqlValue :=
  match ftsPhrase value true with
  | some q => fts params (column ++ " : " ++ q)
  | none   => always params

def text (params : List SqlValue) (value : String) (isPrefix : Bool) : Text × List SqlValue :=
  match ftsPhrase value isPrefix with
  | some q => fts params q
  | none   => always params

def participant (params : List SqlValue) (role value : String) : Text × List SqlValue :=
  let pattern := String.ofList ('%' :: value.toList.filter (fun c => c ≠ '%' && c ≠ '_') ++ ['%'])
  asking params (.text pattern) (.participant role)

-- A condition for each label that a message is to be without.
def without (params : List SqlValue) : List LabelId → List Text × List SqlValue
  | []        => ([], params)
  | id :: ids =>
    let (label, params) := hasLabel params id
    let (parts, params) := without params ids
    ((.not :: parens label) :: parts, params)

def inMailbox (params : List SqlValue) : Mailbox → Text × List SqlValue
  | .inbox    => hasLabel params "INBOX"
  | .sent     => hasLabel params "SENT"
  | .drafts   => hasLabel params "DRAFT"
  | .trash    => hasLabel params "TRASH"
  | .spam     => hasLabel params "SPAM"
  | .starred  => ([.atom .starred], params)
  | .anywhere => always params
  | .archive  =>
    let (parts, params) := without params ["INBOX", "SPAM", "TRASH"]
    (join .and parts, params)

def flagged (params : List SqlValue) : Flag → Text × List SqlValue
  | .unread    => ([.atom (.read false)], params)
  | .read      => ([.atom (.read true)], params)
  | .starred   => ([.atom .starred], params)
  | .important => hasLabel params "IMPORTANT"

mutual

def compile (now : Millis) (params : List SqlValue) : SearchExpr → Text × List SqlValue
  | .and []         => always params
  | .and (e :: es)  =>
    let (parts, params) := compileAll now params (e :: es)
    (join .and parts, params)
  | .or any         =>
    let (parts, params) := compileAll now params any
    (join .or parts, params)
  | .not expr       =>
    let (text, params) := compile now params expr
    (.not :: parens text, params)
  | .text value     => text params value true
  | .phrase value   => text params value false
  | .subject value  => column params "subject" value
  | .from value     => column params "from_text" value
  | .to value       => column params "to_text" value
  | .filename value => column params "attachment_names" value
  | .cc value       => participant params "cc" value
  | .bcc value      => participant params "bcc" value
  | .label value    => asking params (.text value) .labelled
  | .in mailbox     => inMailbox params mailbox
  | .is flag        => flagged params flag
  | .hasAttachment  => ([.atom .attachments], params)
  | .after instant  => asking params (.integer instant) .since
  | .before instant => asking params (.integer instant) .until_
  | .newerThan days => asking params (.integer (now - days.toNat * DAY)) .since
  | .olderThan days => asking params (.integer (now - days.toNat * DAY)) .until_
  | .larger bytes   => asking params (.integer bytes.toInt64.toInt) .larger
  | .smaller bytes  => asking params (.integer bytes.toInt64.toInt) .smaller

def compileAll (now : Millis) (params : List SqlValue) : List SearchExpr → List Text × List SqlValue
  | []      => ([], params)
  | e :: es =>
    let (text, params) := compile now params e
    let (parts, params) := compileAll now params es
    (parens text :: parts, params)

end

end Sql

-- A row of the table of a message's correspondents.
structure ParticipantRow where
  messageId : Rowid
  role      : String
  email     : String
  name      : Option String

-- What a search reads that `Store` does not keep. FTS5 finds the rows of a query in its own index, and SQLite has a
-- message for each text that is no condition.
structure Columns where
  sizeEstimate : Rowid → Int
  participants : List ParticipantRow
  labelName    : Rowid → String
  found        : String → Rowid → Bool
  refusal      : Sql.Text → String
  deriving Inhabited

-- `LIKE`, which tells no ASCII letters apart by case.
def like : List Char → List Char → Bool
  | []       , []      => true
  | []       , _ :: _  => false
  | '%' :: ps, []      => like ps []
  | '%' :: ps, c :: cs => like ps (c :: cs) || like ('%' :: ps) cs
  | _ :: _   , []      => false
  | p :: ps  , c :: cs => (p = '_' || p.toLower = c.toLower) && like ps cs

-- `COLLATE NOCASE`
def sameName (a b : String) : Bool :=
  asciiLower a = asciiLower b

def hyphenated (name : String) : String :=
  .ofList (name.toList.map fun c => if c = ' ' then '-' else c)

section Meaning

variable [Alphanumeric] (db : Columns) (s : Store) (now : Millis) (m : MessageRow)

-- Whether a message carries a label of a kind.
def carriesLabel (p : LabelRow → Bool) : Bool :=
  s.messageLabels.rows.any fun ml => ml.messageId = m.id && s.labels.rows.any fun l => l.id = ml.labelId && p l

def correspondsWith (role : String) (p : String → Bool) : Bool :=
  db.participants.any fun x => x.messageId = m.id && x.role = role && (p x.email || x.name.any p)

def ofText (v : Option SqlValue) (p : String → Bool) : Bool :=
  match v with
  | some (.text t) => p t
  | _              => false

def ofInteger (v : Option SqlValue) (p : Int → Bool) : Bool :=
  match v with
  | some (.integer i) => p i
  | _                 => false

def goesBy (name : String) (l : LabelRow) : Bool :=
  l.gmailId = name || sameName (db.labelName l.id) name || sameName (hyphenated (db.labelName l.id)) name

def Ask.holds (values : List SqlValue) : Ask → Bool
  | .always           => true
  | .found p          => ofText (bound values p) (db.found · m.id)
  | .hasLabel p       => ofText (bound values p) fun id => carriesLabel s m (·.gmailId = id)
  | .labelled p       => ofText (bound values p) fun name => carriesLabel s m (goesBy db name)
  | .participant r p  => ofText (bound values p) fun pattern =>
    correspondsWith db m r fun t => like pattern.toList t.toList
  | .starred          => m.isStarred
  | .read is          => m.isRead = is
  | .attachments      => m.hasAttachments
  | .since p          => ofInteger (bound values p) (· ≤ m.internalDate)
  | .until_ p         => ofInteger (bound values p) (m.internalDate < ·)
  | .larger p         => ofInteger (bound values p) (· < db.sizeEstimate m.id)
  | .smaller p        => ofInteger (bound values p) (db.sizeEstimate m.id < ·)

-- Whether a message holds the words of a text, in one column if the search is restricted to it.
def askText (value : String) (isPrefix : Bool) (restricted : String) : Bool :=
  (Sql.ftsPhrase value isPrefix).all fun q => db.found (restricted ++ q) m.id

def labelled (id : LabelId) : Bool :=
  carriesLabel s m (·.gmailId = id)

-- Whether a text holds another, letters of ASCII in either case.
def containsText (value text : String) : Bool :=
  (value.toList.filter fun c => c ≠ '%' && c ≠ '_').map Char.toLower <:+: text.toList.map Char.toLower

def Mailbox.matches : Mailbox → Bool
  | .inbox    => labelled s m "INBOX"
  | .sent     => labelled s m "SENT"
  | .drafts   => labelled s m "DRAFT"
  | .trash    => labelled s m "TRASH"
  | .spam     => labelled s m "SPAM"
  | .starred  => m.isStarred
  | .anywhere => true
  | .archive  => !labelled s m "INBOX" && !labelled s m "SPAM" && !labelled s m "TRASH"

def Flag.matches : Flag → Bool
  | .unread    => !m.isRead
  | .read      => m.isRead
  | .starred   => m.isStarred
  | .important => labelled s m "IMPORTANT"

mutual

-- What a query asks of a message. A size bound is asked for as the signed number that it is given as.
def SearchExpr.matches (db : Columns) (s : Store) (now : Millis) (m : MessageRow) : SearchExpr → Bool
  | .and all         => SearchExpr.allMatch db s now m all
  | .or any          => SearchExpr.anyMatches db s now m any
  | .not expr        => !expr.matches db s now m
  | .text value      => askText db m value true ""
  | .phrase value    => askText db m value false ""
  | .subject value   => askText db m value true "subject : "
  | .from value      => askText db m value true "from_text : "
  | .to value        => askText db m value true "to_text : "
  | .filename value  => askText db m value true "attachment_names : "
  | .cc value        => correspondsWith db m "cc" (containsText value)
  | .bcc value       => correspondsWith db m "bcc" (containsText value)
  | .label value     => carriesLabel s m (goesBy db value)
  | .in mailbox      => mailbox.matches s m
  | .is flag         => flag.matches s m
  | .hasAttachment   => m.hasAttachments
  | .after instant   => instant ≤ m.internalDate
  | .before instant  => m.internalDate < instant
  | .newerThan days  => now - days.toNat * DAY ≤ m.internalDate
  | .olderThan days  => m.internalDate < now - days.toNat * DAY
  | .larger bytes    => bytes.toInt64.toInt < db.sizeEstimate m.id
  | .smaller bytes   => db.sizeEstimate m.id < bytes.toInt64.toInt

def SearchExpr.allMatch (db : Columns) (s : Store) (now : Millis) (m : MessageRow) : List SearchExpr → Bool
  | []      => true
  | e :: es => e.matches db s now m && SearchExpr.allMatch db s now m es

def SearchExpr.anyMatches (db : Columns) (s : Store) (now : Millis) (m : MessageRow) : List SearchExpr → Bool
  | []      => false
  | e :: es => e.matches db s now m || SearchExpr.anyMatches db s now m es

end

mutual

-- A query with no OR of nothing in it.
def SearchExpr.sound : SearchExpr → Bool
  | .and all  => SearchExpr.allSound all
  | .or any   => !any.isEmpty && SearchExpr.allSound any
  | .not expr => expr.sound
  | _         => true

def SearchExpr.allSound : List SearchExpr → Bool
  | []      => true
  | e :: es => e.sound && SearchExpr.allSound es

end

end Meaning

attribute [grind =] Sql.compile SearchExpr.matches Ask.holds like

section Like

variable {ps v t : List Char}

theorem like_percent : like ['%'] t = true := by
  induction t
  case nil          => simp [like]
  case cons c cs ih => rw [like, ih, Bool.or_true]

theorem like_plain (plain : ∀ c ∈ v, c ≠ '%' ∧ c ≠ '_') :
    like (v ++ ['%']) t = true ↔ v.map Char.toLower <+: t.map Char.toLower := by
  induction v generalizing t
  case nil => simp [like_percent]
  case cons p ps ih =>
    obtain ⟨percent, any⟩ := plain p List.mem_cons_self
    have rest := fun c mem => plain c (List.mem_cons_of_mem _ mem)
    cases t
    case nil => simp [like]
    case cons c cs =>
      rw [List.cons_append, like]
      · simp [any, ih rest, List.cons_prefix_cons]
      · exact fun eq => percent eq

theorem like_anywhere : like ('%' :: ps) t = true ↔ ∃ t', t' <:+ t ∧ like ps t' = true := by
  induction t
  case nil => simp [like, List.suffix_nil]
  case cons c cs ih =>
    rw [like, Bool.or_eq_true, ih]
    constructor
    · rintro (here | ⟨t', suffix, later⟩)
      · exact ⟨_, List.suffix_rfl, here⟩
      · exact ⟨t', suffix.trans (List.suffix_cons _ _), later⟩
    · rintro ⟨t', suffix, h⟩
      rcases List.suffix_cons_iff.mp suffix with rfl | suffix
      · exact .inl h
      · exact .inr ⟨t', suffix, h⟩

theorem like_contains (plain : ∀ c ∈ v, c ≠ '%' ∧ c ≠ '_') :
    like ('%' :: v ++ ['%']) t = decide (v.map Char.toLower <:+: t.map Char.toLower) := by
  refine Bool.eq_iff_iff.mpr ?_
  rw [List.cons_append, like_anywhere, decide_eq_true_iff, List.infix_iff_prefix_suffix]
  constructor
  · rintro ⟨t', suffix, h⟩
    exact ⟨t'.map Char.toLower, (like_plain plain).mp h, suffix.map _⟩
  · rintro ⟨folded, begins, suffix⟩
    obtain ⟨front, eq⟩ := suffix
    obtain ⟨a, b, rfl, -, rfl⟩ := List.map_eq_append_iff.mp eq.symm
    exact ⟨b, List.suffix_append a b, (like_plain plain).mpr begins⟩

end Like

theorem bound_own {values more : List SqlValue} {v : SqlValue} (h : values ++ [v] <+: more) :
    bound more (values.length + 1) = some v := by
  obtain ⟨rest, rfl⟩ := h
  simp [bound]

theorem bound_grows {values more : List SqlValue} {v : SqlValue} {p : Nat} (grows : values <+: more)
    (h : bound values p = some v) : bound more p = some v := by
  obtain ⟨rest, rfl⟩ := grows
  unfold bound at h ⊢
  obtain ⟨lt, -⟩ := List.getElem?_eq_some_iff.mp h
  rw [List.getElem?_append_left lt, h]

section Given

variable [Alphanumeric]

-- A query that FTS5 can only take for words, in one column at most.
def Quoted (q : String) : Prop :=
  ∃ column ∈ ["", "subject : ", "from_text : ", "to_text : ", "attachment_names : "], ∃ words : List String,
    words ≠ [] ∧ (∀ w ∈ words, w ≠ "" ∧ ∀ c ∈ w.toList, isAlphanumeric c = true) ∧
      ∃ last ∈ ["", "*"], q = column ++ ("\"" ++ " ".intercalate words ++ "\"" ++ last)

-- A parameter that is bound to a value a statement may be given there.
def Ask.Given (values : List SqlValue) : Ask → Prop
  | .always | .starred | .read _ | .attachments   => True
  | .hasLabel p | .labelled p                     => ∃ id, bound values p = some (.text id)
  | .since p | .until_ p | .larger p | .smaller p => ∃ i, bound values p = some (.integer i)
  | .found p                                      => ∃ q, bound values p = some (.text q) ∧ Quoted q
  | .participant _ p                              =>
    ∃ v, bound values p = some (.text (.ofList ('%' :: v ++ ['%']))) ∧ ∀ c ∈ v, c ≠ '%' ∧ c ≠ '_'

theorem Ask.Given.grows {values more : List SqlValue} {ask : Ask} (grows : values <+: more) (h : ask.Given values) :
    ask.Given more := by
  cases ask <;> try trivial
  case found =>
    obtain ⟨q, there, quoted⟩ := h
    exact ⟨q, bound_grows grows there, quoted⟩
  case participant =>
    obtain ⟨v, there, plain⟩ := h
    exact ⟨v, bound_grows grows there, plain⟩
  all_goals
    obtain ⟨v, there⟩ := h
    exact ⟨v, bound_grows grows there⟩

theorem quoted_ftsPhrase {value q column : String} {isPrefix : Bool} (h : Sql.ftsPhrase value isPrefix = some q)
    (of : column ∈ ["", "subject : ", "from_text : ", "to_text : ", "attachment_names : "]) : Quoted (column ++ q) := by
  unfold Sql.ftsPhrase at h
  generalize eq : List.filter _ _ = tokens at h
  simp only at h
  split at h
  case isTrue => cases h
  case isFalse some' =>
    refine ⟨column, of, tokens.map String.ofList, mt List.map_eq_nil_iff.mp some', fun w mem => ?_,
      if isPrefix then "*" else "", ?_, ?_⟩
    · obtain ⟨token, ht, rfl⟩ := List.mem_map.mp mem
      obtain ⟨there, ne⟩ := List.mem_filter.mp (eq ▸ ht)
      refine ⟨fun eq => ?_, fun c hc => ?_⟩
      · rw [String.ofList_eq_empty_iff] at eq
        exact of_decide_eq_true ne eq
      · rw [String.toList_ofList] at hc
        simpa using Separated.visible_of_mem_splitOnP there c hc
    · cases isPrefix <;> simp
    · cases isPrefix
      case false => simpa using h.symm
      case true  => simpa [String.append_assoc] using h.symm

end Given

section Compile

variable [Alphanumeric] {db : Columns} {s : Store} {now : Millis} {e : SearchExpr} {es : List SearchExpr}
variable {params : List SqlValue}

-- A query as a text that asks for it, behind the parameters so far.
structure Compiled (db : Columns) (s : Store) (now : Millis) (e : SearchExpr) (params : List SqlValue)
    (out : Sql.Text × List SqlValue) : Prop where
  grows  : params <+: out.2
  given  : ∀ ask, .atom ask ∈ out.1 → ask.Given out.2
  whole  : e.sound = true → ∃ c, Whole out.1 c ∧
    ∀ values m, out.2 <+: values → c.eval (Ask.holds db s m values) = e.matches db s now m
  broken : e.sound = false → Broken out.1

structure CompiledAll (db : Columns) (s : Store) (now : Millis) (es : List SearchExpr) (params : List SqlValue)
    (out : List Sql.Text × List SqlValue) : Prop where
  grows  : params <+: out.2
  given  : ∀ p ∈ out.1, ∀ ask, .atom ask ∈ p → ask.Given out.2
  each   : ∀ p ∈ out.1, (∃ c, Operand p c) ∨ Refused p
  whole  : SearchExpr.allSound es = true → ∃ cs, List.Forall₂ Operand out.1 cs ∧
    ∀ values m, out.2 <+: values →
      cs.all (·.eval (Ask.holds db s m values)) = SearchExpr.allMatch db s now m es ∧
        cs.any (·.eval (Ask.holds db s m values)) = SearchExpr.anyMatches db s now m es
  broken : SearchExpr.allSound es = false → ∃ p ∈ out.1, Refused p

theorem Compiled.of_atom {ask : Ask} {own : List SqlValue} (sound : e.sound = true) (given : ask.Given (params ++ own))
    (holds : ∀ values m, params ++ own <+: values → ask.holds db s m values = e.matches db s now m) :
    Compiled db s now e params ([.atom ask], params ++ own) where
  grows          := List.prefix_append _ _
  given _ mem    := by cases List.mem_singleton.mp mem; exact given
  whole _        := ⟨.atom ask, (Condition.operand_atom ask).whole, fun values m le => holds values m le⟩
  broken unsound := by rw [sound] at unsound; cases unsound

theorem Compiled.constant {ask : Ask} (sound : e.sound = true) (given : ask.Given params)
    (holds : ∀ values m, ask.holds db s m values = e.matches db s now m) :
    Compiled db s now e params ([.atom ask], params) := by
  have given' : ask.Given (params ++ []) := (List.append_nil params).symm ▸ given
  have := Compiled.of_atom sound given' fun values m _ => holds values m
  rwa [List.append_nil] at this

theorem Compiled.asking {v : SqlValue} {ask : Nat → Ask} (sound : e.sound = true)
    (given : ∀ values p, bound values p = some v → (ask p).Given values)
    (holds : ∀ values m p, bound values p = some v → (ask p).holds db s m values = e.matches db s now m) :
    Compiled db s now e params (Sql.asking params v ask) :=
  .of_atom sound (given _ _ (bound_own List.prefix_rfl)) fun values m le => holds values m _ (bound_own le)

theorem CompiledAll.nil : CompiledAll db s now [] params ([], params) where
  grows  := List.prefix_rfl
  given  := by simp
  each   := by simp
  whole  := fun _ => ⟨[], .nil, fun _ _ _ => ⟨rfl, rfl⟩⟩
  broken := by simp [SearchExpr.allSound]

theorem CompiledAll.cons {text : Sql.Text} {parts : List Sql.Text} {params₁ params₂ : List SqlValue}
    (first : Compiled db s now e params (text, params₁)) (rest : CompiledAll db s now es params₁ (parts, params₂)) :
    CompiledAll db s now (e :: es) params (parens text :: parts, params₂) where
  grows  := first.grows.trans rest.grows
  given  := by
    intro p mem ask ha
    rcases List.mem_cons.mp mem with rfl | mem
    · exact (first.given ask (Condition.mem_parens.mp ha)).grows rest.grows
    · exact rest.given p mem ask ha
  each   := by
    intro p mem
    rcases List.mem_cons.mp mem with rfl | mem
    · cases sound : e.sound
      case false => exact .inr (first.broken sound).parens
      case true  =>
        obtain ⟨c, whole, -⟩ := first.whole sound
        exact .inl ⟨c, whole.parens⟩
    · exact rest.each p mem
  whole  := by
    intro sound
    rw [SearchExpr.allSound, Bool.and_eq_true] at sound
    obtain ⟨c, whole, means⟩ := first.whole sound.1
    obtain ⟨cs, operands, mean⟩ := rest.whole sound.2
    refine ⟨c :: cs, .cons whole.parens operands, fun values m le => ?_⟩
    obtain ⟨all, any⟩ := mean values m le
    rw [List.all_cons, List.any_cons, means values m (rest.grows.trans le), all, any]
    exact ⟨rfl, rfl⟩
  broken := by
    intro unsound
    rw [SearchExpr.allSound, Bool.and_eq_false_iff] at unsound
    rcases unsound with unsound | unsound
    · exact ⟨_, List.mem_cons_self, (first.broken unsound).parens⟩
    · obtain ⟨p, mem, refused⟩ := rest.broken unsound
      exact ⟨p, List.mem_cons_of_mem _ mem, refused⟩

theorem CompiledAll.and {p : Sql.Text} {ps : List Sql.Text} {params' : List SqlValue}
    (h : CompiledAll db s now es params (p :: ps, params')) :
    Compiled db s now (.and es) params (join .and (p :: ps), params') where
  grows  := h.grows
  given  := by
    intro ask ha
    dsimp only at ha
    obtain ⟨p', mem, ha⟩ := Condition.mem_of_mem_join (.inl rfl) ha
    exact h.given p' mem ask ha
  whole  := by
    intro sound
    obtain ⟨_, operands, mean⟩ := h.whole sound
    cases operands with | cons first operands => ?_
    refine ⟨_, Condition.whole_and first operands, fun values m le => ?_⟩
    rw [Condition.eval_and, SearchExpr.matches, ← (mean values m le).1, List.all_cons]
  broken := fun unsound => (Condition.refused_join (.inl rfl) h.each (h.broken unsound)).broken

theorem CompiledAll.or {p : Sql.Text} {ps : List Sql.Text} {params' : List SqlValue}
    (h : CompiledAll db s now (e :: es) params (p :: ps, params')) :
    Compiled db s now (.or (e :: es)) params (join .or (p :: ps), params') where
  grows  := h.grows
  given  := by
    intro ask ha
    dsimp only at ha
    obtain ⟨p', mem, ha⟩ := Condition.mem_of_mem_join (.inr rfl) ha
    exact h.given p' mem ask ha
  whole  := by
    intro sound
    obtain ⟨_, operands, mean⟩ := h.whole sound
    cases operands with | cons first operands => ?_
    refine ⟨_, Condition.whole_or first operands, fun values m le => ?_⟩
    rw [Condition.eval_or, SearchExpr.matches, ← (mean values m le).2, List.any_cons]
  broken := fun unsound => (Condition.refused_join (.inr rfl) h.each (h.broken unsound)).broken

theorem Compiled.not (text : Sql.Text) {params' : List SqlValue} (h : Compiled db s now e params (text, params')) :
    Compiled db s now (.not e) params (.not :: parens text, params') where
  grows  := h.grows
  given  := fun ask ha => h.given ask (Condition.mem_parens.mp ((List.mem_cons.mp ha).resolve_left (by simp)))
  whole  := by
    intro sound
    obtain ⟨c, whole, means⟩ := h.whole sound
    refine ⟨.not c, whole.parens.not.whole, fun values m le => ?_⟩
    rw [Condition.Tree.eval, SearchExpr.matches, means values m le]
  broken := fun unsound => (h.broken unsound).parens.not.broken

-- A message that is to be without labels.
theorem without_spec (db : Columns) (s : Store) (params : List SqlValue) (ids : List LabelId) :
    params <+: (Sql.without params ids).2 ∧
    (∀ p ∈ (Sql.without params ids).1, ∀ ask, .atom ask ∈ p → ask.Given (Sql.without params ids).2) ∧
    ∃ cs, List.Forall₂ Operand (Sql.without params ids).1 cs ∧
      ∀ values m, (Sql.without params ids).2 <+: values →
        cs.all (·.eval (Ask.holds db s m values)) = ids.all fun id => !labelled s m id := by
  induction ids generalizing params
  case nil => exact ⟨List.prefix_rfl, fun _ mem => (by cases mem), [], .nil, fun _ _ _ => rfl⟩
  case cons id ids ih =>
    obtain ⟨grows, given, cs, operands, mean⟩ := ih (params ++ [.text id])
    have own : params ++ [.text id] <+: (Sql.without params (id :: ids)).2 := grows
    have first : Operand (.not :: parens [.atom (Ask.hasLabel (params.length + 1))]) _ :=
      (Condition.operand_atom _).whole.parens.not
    refine ⟨(List.prefix_append _ _).trans own, fun p mem ask ha => ?_, _ :: cs, .cons first operands,
      fun values m le => ?_⟩
    · rcases List.mem_cons.mp mem with rfl | mem
      · have ha : ask = .hasLabel (params.length + 1) := by simpa [Sql.hasLabel, Sql.asking, Sql.bind, parens] using ha
        exact ha ▸ ⟨id, bound_own own⟩
      · exact given p mem ask ha
    · rw [List.all_cons, List.all_cons, mean values m le, Condition.Tree.eval, Condition.Tree.eval, Ask.holds,
        bound_own (own.trans le)]
      rfl

theorem compiled_text {value : String} {isPrefix : Bool} (sound : e.sound = true)
    (is : ∀ m, e.matches db s now m = askText db m value isPrefix "") :
    Compiled db s now e params (Sql.text params value isPrefix) := by
  unfold Sql.text
  split
  case _ q phrase =>
    have quoted := quoted_ftsPhrase phrase List.mem_cons_self
    rw [String.empty_append] at quoted
    refine .asking sound (fun values p there => ⟨q, there, quoted⟩) fun values m p there => ?_
    rw [is, askText, phrase, Ask.holds, there, Option.all_some, String.empty_append, ofText]
  case _ none' =>
    refine .constant sound trivial fun values m => ?_
    rw [is, askText, none', Ask.holds, Option.all_none]

theorem compiled_column {value column : String} (restricted : String) (eq : restricted = column ++ " : ")
    (of : restricted ∈ ["", "subject : ", "from_text : ", "to_text : ", "attachment_names : "]) (sound : e.sound = true)
    (is : ∀ m, e.matches db s now m = askText db m value true restricted) :
    Compiled db s now e params (Sql.column params column value) := by
  subst eq
  unfold Sql.column
  split
  case _ q phrase =>
    refine .asking sound (fun values p there => ⟨_, there, quoted_ftsPhrase phrase of⟩) fun values m p there => ?_
    rw [is, askText, phrase, Ask.holds, there, Option.all_some, ofText]
  case _ none' =>
    refine .constant sound trivial fun values m => ?_
    rw [is, askText, none', Ask.holds, Option.all_none]

theorem compiled_participant {role value : String} (sound : e.sound = true)
    (is : ∀ m, e.matches db s now m = correspondsWith db m role (containsText value)) :
    Compiled db s now e params (Sql.participant params role value) := by
  have plain : ∀ c ∈ value.toList.filter fun c => c ≠ '%' && c ≠ '_', c ≠ '%' ∧ c ≠ '_' :=
    fun c mem => by simpa using (List.mem_filter.mp mem).2
  refine .asking sound (fun values p there => ⟨_, there, plain⟩) fun values m p there => ?_
  have contains (t : String) := like_contains (t := t.toList) plain
  simp only [is, Ask.holds, there, ofText, String.toList_ofList, contains]
  rfl

theorem compiled_hasLabel {id : LabelId} (sound : e.sound = true)
    (is : ∀ m, e.matches db s now m = labelled s m id) : Compiled db s now e params (Sql.hasLabel params id) := by
  refine .asking sound (fun values p there => ⟨id, there⟩) fun values m p there => ?_
  rw [is, Ask.holds, there]
  rfl

theorem compiled_in (mailbox : Mailbox) : Compiled db s now (.in mailbox) params (Sql.inMailbox params mailbox) := by
  have sound : (SearchExpr.in mailbox).sound = true := rfl
  cases mailbox <;> try exact compiled_hasLabel sound fun _ => by rw [SearchExpr.matches, Mailbox.matches]
  case starred  => exact .constant sound trivial fun _ _ => by rw [SearchExpr.matches, Mailbox.matches, Ask.holds]
  case anywhere => exact .constant sound trivial fun _ _ => by rw [SearchExpr.matches, Mailbox.matches, Ask.holds]
  case archive  =>
    obtain ⟨grows, given, _, operands, mean⟩ := without_spec db s params ["INBOX", "SPAM", "TRASH"]
    refine ⟨grows, fun ask ha => ?_, fun _ => ?_, fun unsound => by cases unsound⟩
    case refine_1 =>
      have ha : .atom ask ∈ join .and (Sql.without params ["INBOX", "SPAM", "TRASH"]).1 := ha
      obtain ⟨p, mem, ha⟩ := Condition.mem_of_mem_join (.inl rfl) ha
      exact given p mem ask ha
    cases operands with | cons first operands => ?_
    refine ⟨_, Condition.whole_and first operands, fun values m le => ?_⟩
    rw [Condition.eval_and, SearchExpr.matches, Mailbox.matches]
    have := mean values m le
    simpa [Bool.and_assoc] using this

theorem compiled_is (flag : Flag) : Compiled db s now (.is flag) params (Sql.flagged params flag) := by
  have sound : (SearchExpr.is flag).sound = true := rfl
  cases flag
  case important => exact compiled_hasLabel sound fun _ => by rw [SearchExpr.matches, Flag.matches]
  all_goals
    refine .constant sound trivial fun _ m => ?_
    cases h : m.isRead <;> simp [SearchExpr.matches, Flag.matches, Ask.holds, h]

mutual

theorem compile_spec (db : Columns) (s : Store) (now : Millis) (params : List SqlValue) (e : SearchExpr) :
    Compiled db s now e params (Sql.compile now params e) := by
  cases e
  case and all =>
    cases all
    case nil       => exact .constant rfl trivial fun _ _ => by rw [Ask.holds, SearchExpr.matches, SearchExpr.allMatch]
    case cons e es => exact (compileAll_spec db s now params (e :: es)).and
  case or any =>
    cases any
    case nil       =>
      refine ⟨List.prefix_rfl, fun _ mem => (by cases mem), fun sound => ?_, fun _ => Condition.broken_nil⟩
      cases sound
    case cons e es => exact (compileAll_spec db s now params (e :: es)).or
  case not e          => exact .not _ (compile_spec db s now params e)
  case text value     => exact compiled_text rfl fun _ => by rw [SearchExpr.matches]
  case phrase value   => exact compiled_text rfl fun _ => by rw [SearchExpr.matches]
  case subject value =>
    exact compiled_column "subject : " rfl (by simp) rfl fun _ => by rw [SearchExpr.matches]
  case «from» value =>
    exact compiled_column "from_text : " rfl (by simp) rfl fun _ => by rw [SearchExpr.matches]
  case «to» value =>
    exact compiled_column "to_text : " rfl (by simp) rfl fun _ => by rw [SearchExpr.matches]
  case filename value =>
    exact compiled_column "attachment_names : " rfl (by simp) rfl fun _ => by rw [SearchExpr.matches]
  case cc value       => exact compiled_participant rfl fun _ => by rw [SearchExpr.matches]
  case bcc value      => exact compiled_participant rfl fun _ => by rw [SearchExpr.matches]
  case «in» mailbox   => exact compiled_in mailbox
  case is flag        => exact compiled_is flag
  case hasAttachment  => exact .constant rfl trivial fun _ _ => by rw [Ask.holds, SearchExpr.matches]
  all_goals
    refine .asking rfl (fun values p there => ⟨_, there⟩) fun values m p there => ?_
    simp [Ask.holds, there, ofText, ofInteger, SearchExpr.matches]

theorem compileAll_spec (db : Columns) (s : Store) (now : Millis) (params : List SqlValue) (es : List SearchExpr) :
    CompiledAll db s now es params (Sql.compileAll now params es) := by
  cases es
  case nil       => exact .nil
  case cons e es =>
    exact .cons (compile_spec db s now params e) (compileAll_spec db s now (Sql.compile now params e).2 es)

end

end Compile

end Kaluta
