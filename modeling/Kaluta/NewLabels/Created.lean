import Kaluta.Guide.Rescoped
import Kaluta.WritingGuide.Recognised
import Kaluta.Lib.Execution
import Kaluta.Lib.Fields

-- Calls that create labels, each reading what is stored, asking the provider, and storing its answer.
namespace Kaluta.NewLabels

open Guide (eqIgnoreAsciiCase eqIgnoreAsciiCase_symm eqIgnoreAsciiCase_trans trim)
open WritingGuide (Alphanumeric isAlphanumeric)
open Separated (cut_right)

-- Where an account's labels are made. The demo mailbox has no server.
inductive Provider
  | gmail
  | primitive
  | agentmail
  | demo
  deriving DecidableEq

structure Label where
  id   : LabelId
  name : String

-- A stored label. The messages that carry it refer to its row.
structure Row where
  rowid   : Rowid
  gmailId : LabelId
  name    : String
  kind    : LabelRowKind
  deriving DecidableEq

-- `name.trim().trim_matches('/')`
def tidied (name : String) : String :=
  .ofList ((((trim name).toList.dropWhile (· = '/')).reverse.dropWhile (· = '/')).reverse)

-- A path's parents, and the path itself.
def paths (name : String) : List String :=
  let segments := ((tidied name).toList.splitOn '/').map String.ofList
  (List.range (segments.length - 1)).map (fun depth => "/".intercalate (segments.take (depth + 1))) ++ [tidied name]

def SYSTEM : List String :=
  ["SPAM", "TRASH", "DRAFT", "SENT", "INBOX", "UNREAD", "STARRED", "IMPORTANT"]

-- A name that a single label may have.
def checkedName (name : String) : Except String String :=
  let name := tidied name
  if name = "" ∨ 225 < name.utf8ByteSize ∨ (name.toList.splitOn '/').any (fun part => trim (.ofList part) = "") then
    .error "a label needs a name (nest with /)"
  else if SYSTEM.any (eqIgnoreAsciiCase · name) then
    .error (name ++ " is a system label")
  else .ok name

section Providers

variable [Alphanumeric]

-- What AgentMail keeps for itself.
def RESERVED : List String := [
  "received", "sent", "read", "unread", "trash", "spam", "blocked", "unauthenticated", "draft", "drafts", "opened",
  "delivered", "bounced", "complained", "rejected", "scheduled", "inbox", "starred", "archived"]

def isReserved (label : String) : Bool :=
  RESERVED.any (eqIgnoreAsciiCase · (trim label))

def slug (name : String) : List Char :=
  name.toList.map fun c => if isAlphanumeric c then c else '_'

def localId (now number : Nat) : LabelId :=
  .ofList ("Label_local_".toList ++ (toString now).toList ++ '_' :: (toString number).toList)

end Providers

inductive Phase
  | reading -- The stored labels are read next.
  | asking
  | writing (label : Label)

-- A call of `create_label`: the names still to be created, the first one now.
structure Call where
  names : List String
  phase : Phase

abbrev CallId := Nat

structure World where
  rows      : List Row
  calls     : CallId → Option Call := fun _ => none
  made      : List String := [] -- The names for which a label has been returned.
  server    : List LabelId := [] -- The ids that the server has given.
  nextLocal : Nat := 0

inductive Action
  | create (c : CallId) (name : String)
  | read (c : CallId)
  | answer (c : CallId) (drawn : LabelId) (now : Nat) -- With what a server or the clock adds.
  | fail (c : CallId)
  | write (c : CallId)

-- The labels of `list_labels`.
def listed (rows : List Row) : List Row :=
  rows.filter (·.kind ≠ .virtual)

def upsertLabel (rows : List Row) (l : Label) : List Row :=
  if ∃ row ∈ rows, row.gmailId = l.id then
    rows.map fun row => if row.gmailId = l.id then { row with name := l.name, kind := .user } else row
  else
    rows ++ [{ rowid := (rows.map (·.rowid)).foldl max 0 + 1, gmailId := l.id, name := l.name, kind := .user }]

namespace World

variable [Alphanumeric] (p : Provider) (w : World)

def put (c : CallId) (call : Option Call) : World :=
  { w with calls := Function.update w.calls c call }

-- A label was returned for the first name: on to the next.
def returned (c : CallId) (name : String) (rest : List String) : World :=
  { w.put c (if rest = [] then none else some ⟨rest, .reading⟩) with made := name :: w.made }

-- The label that the provider makes.
def answer (name : String) (drawn : LabelId) (now : Nat) : Option Label :=
  match p with
  | .gmail     => if drawn ∈ w.server then none else some ⟨drawn, name⟩
  | .primitive => some ⟨.ofList ("Local_".toList ++ slug name), name⟩
  | .agentmail => if isReserved name ∨ trim name = "" then none else some ⟨trim name, trim name⟩
  | .demo      => some ⟨localId now w.nextLocal, name⟩

def step : Action → Option World
  | .create c name =>
    match w.calls c with
    | none   => some (w.put c (some ⟨paths name, .reading⟩))
    | some _ => none
  | .read c =>
    match w.calls c with
    | some ⟨name :: rest, .reading⟩ =>
      match checkedName name with
      | .error _ => some (w.put c none)
      | .ok name =>
        if (listed w.rows).any fun row => eqIgnoreAsciiCase row.name name then some (w.returned c name rest)
        else some (w.put c (some ⟨name :: rest, .asking⟩))
    | _ => none
  | .answer c drawn now =>
    match w.calls c with
    | some ⟨name :: rest, .asking⟩ =>
      (w.answer p name drawn now).map fun label =>
        { w.put c (some ⟨name :: rest, .writing label⟩) with
          server    := label.id :: w.server
          nextLocal := w.nextLocal + 1 }
    | _ => none
  | .fail c =>
    match w.calls c with
    | some ⟨_, .asking⟩ => some (w.put c none)
    | _                 => none
  | .write c =>
    match w.calls c with
    | some ⟨name :: rest, .writing label⟩ => some ({ w with rows := upsertLabel w.rows label }.returned c name rest)
    | _                                   => none

end World

-- Whether a text is a name with `_` for whatever is neither a letter nor a digit.
def Spells [Alphanumeric] (text name : List Char) : Prop :=
  List.Forall₂ (fun r c => isAlphanumeric c = true ∧ r = c ∨ isAlphanumeric c = false ∧ r = '_') text name

-- What a call is creating, between its reading of the stored labels and its writing.
def Call.busy (call : Call) : Option String :=
  match call.phase with
  | .reading => none
  | _        => call.names.head?

section Conditions

variable [Alphanumeric] (p : Provider)

-- Whether a stored label has the id of a new name.
def Taken (row : Row) (name : String) : Prop :=
  match p with
  | .primitive => ∃ rest, row.gmailId.toList = "Local_".toList ++ rest ∧ Spells rest name.toList
  | .agentmail => row.gmailId = name
  | _          => False

-- Whether two names are the same, or so alike that they get one id.
def Alike (a b : String) : Prop :=
  eqIgnoreAsciiCase a b = true ∨ p = .primitive ∧ ∃ text, Spells text a.toList ∧ Spells text b.toList

-- A name that no stored label has is created by one call at a time, and no stored label or other call's name is so alike
-- that it has the same id.
def Apart (w : World) : Action → Prop
  | .read c => ∀ given rest name, w.calls c = some ⟨given :: rest, .reading⟩ → checkedName given = .ok name →
      (∀ row ∈ listed w.rows, eqIgnoreAsciiCase row.name name = false) →
      (p = .agentmail → trim name = name) ∧ (∀ row ∈ w.rows, ¬Taken p row name) ∧
      ∀ c' call other, w.calls c' = some call → call.busy = some other → ¬Alike p name other
  | _ => True

-- Labels as they are stored before any of the calls: distinct, and with ids that the server knows.
structure Fresh (w : World) : Prop where
  ids    : (w.rows.map (·.gmailId)).Nodup
  names  : ∀ row ∈ listed w.rows, ∀ row' ∈ listed w.rows, eqIgnoreAsciiCase row.name row'.name = true → row = row'
  known  : ∀ row ∈ w.rows, (p = .gmail → row.gmailId ∈ w.server) ∧
    (p = .demo → ∀ now n, w.nextLocal ≤ n → row.gmailId ≠ localId now n)
  calls  : ∀ c, w.calls c = none
  made   : w.made = []

def labels : System World Action where
  Start := Fresh p
  step  := fun w a => w.step p a

end Conditions

section Ids

variable [Alphanumeric] {p : Provider} {w w' : World} {a b : String} {id : LabelId}

-- The ids that the provider may give to a name from now on.
def MayAnswer (p : Provider) (w : World) (name : String) (id : LabelId) : Prop :=
  match p with
  | .gmail     => id ∉ w.server
  | .primitive => id.toList = "Local_".toList ++ slug name
  | .agentmail => id = trim name
  | .demo      => ∃ now n, w.nextLocal ≤ n ∧ id = localId now n

-- An id that a server, or the counter, does not give again.
def Known (p : Provider) (w : World) (id : LabelId) : Prop :=
  (p = .gmail → id ∈ w.server) ∧ (p = .demo → ∀ now n, w.nextLocal ≤ n → id ≠ localId now n)

structure Later (w w' : World) : Prop where
  server    : w.server ⊆ w'.server
  nextLocal : w.nextLocal ≤ w'.nextLocal

theorem MayAnswer.earlier (h : MayAnswer p w' a id) (later : Later w w') : MayAnswer p w a id := by
  cases p
  case gmail     => exact fun mem => h (later.server mem)
  case primitive => exact h
  case agentmail => exact h
  case demo =>
    have ⟨now, n, le, eq⟩ := h
    exact ⟨now, n, later.nextLocal.trans le, eq⟩

omit [Alphanumeric] in
theorem Known.later (h : Known p w id) (later : Later w w') : Known p w' id :=
  ⟨fun gmail => later.server (h.left gmail), fun demo now n le => h.right demo now n (later.nextLocal.trans le)⟩

theorem spells_slug (name : String) : Spells (slug name) name.toList := by
  rw [Spells, slug, List.forall₂_map_left_iff, List.forall₂_same]
  intro c _
  cases letter : isAlphanumeric c
  case true  => exact .inl ⟨rfl, if_pos rfl⟩
  case false => exact .inr ⟨rfl, if_neg Bool.false_ne_true⟩

omit [Alphanumeric] in
theorem localId_inj {now now' n n' : Nat} (h : localId now n = localId now' n') : n = n' := by
  have free (n : Nat) : '_' ∉ (toString n).toList := by
    rw [Nat.toString_eq_repr, Nat.toList_repr]
    exact fun mem => absurd (Nat.isDigit_of_mem_toDigits (by decide) (by decide) mem) (by decide)
  have cut := (cut_right (free n) (free n') (String.ofList_inj.mp h)).right
  rw [Nat.toString_eq_repr, Nat.toString_eq_repr, Nat.toList_repr, Nat.toList_repr] at cut
  rw [← Nat.ofDigitChars_ten_toDigits (n := n), cut, Nat.ofDigitChars_ten_toDigits]

theorem Alike.symm (h : Alike p a b) : Alike p b a :=
  h.imp eqIgnoreAsciiCase_symm (And.imp_right fun ⟨text, ha, hb⟩ => ⟨text, hb, ha⟩)

-- What a provider makes of a name is one of the ids that it may give.
theorem answer_mayAnswer {drawn : LabelId} {now : Nat} {label : Label} (h : w.answer p a drawn now = some label) :
    MayAnswer p w a label.id := by
  cases p <;> simp only [World.answer] at h
  case gmail =>
    have ⟨new, eq⟩ := Option.ite_none_left_eq_some.mp h
    cases eq
    exact new
  case primitive => cases h; exact String.toList_ofList
  case agentmail =>
    have ⟨_, eq⟩ := Option.ite_none_left_eq_some.mp h
    cases eq
    rfl
  case demo => cases h; exact ⟨now, w.nextLocal, le_rfl, rfl⟩

theorem answer_name {drawn : LabelId} {now : Nat} {label : Label} (h : w.answer p a drawn now = some label)
    (trimmed : p = .agentmail → trim a = a) : label.name = a := by
  cases p <;> simp only [World.answer] at h
  case gmail =>
    have ⟨_, eq⟩ := Option.ite_none_left_eq_some.mp h
    cases eq
    rfl
  case primitive => cases h; rfl
  case agentmail =>
    have ⟨_, eq⟩ := Option.ite_none_left_eq_some.mp h
    cases eq
    exact trimmed rfl
  case demo => cases h; rfl

-- An id that a name has been given.
structure Owns (p : Provider) (w : World) (name : String) (id : LabelId) : Prop where
  known     : Known p w id
  primitive : p = .primitive → id.toList = "Local_".toList ++ slug name
  agentmail : p = .agentmail → id = name

theorem answer_owns {drawn : LabelId} {now : Nat} {label : Label} (h : w.answer p a drawn now = some label)
    (given : label.id ∈ w'.server) (count : w.nextLocal < w'.nextLocal) (trimmed : p = .agentmail → trim a = a) :
    Owns p w' a label.id := by
  refine ⟨⟨fun _ => given, fun demo now' n le eq => ?_⟩, fun primitive => ?_, fun agentmail => ?_⟩
  · cases demo
    simp only [World.answer] at h
    cases h
    exact absurd (localId_inj eq) (Nat.ne_of_lt (count.trans_le le))
  · cases primitive
    exact answer_mayAnswer h
  · have own := answer_mayAnswer h
    rw [agentmail] at own
    exact own.trans (trimmed agentmail)

-- A name that is not alike does not get it.
theorem Owns.not_mayAnswer (own : Owns p w a id) (apart : ¬Alike p b a) (trimmed : p = .agentmail → trim b = b) :
    ¬MayAnswer p w b id := by
  intro may
  cases p
  case gmail => exact may (own.known.left rfl)
  case primitive =>
    have same : slug b = slug a := List.append_cancel_left (may.symm.trans (own.primitive rfl))
    exact apart (.inr ⟨rfl, slug b, spells_slug b, same ▸ spells_slug a⟩)
  case agentmail =>
    have same : b = a := (trimmed rfl).symm.trans (may.symm.trans (own.agentmail rfl))
    exact apart (.inl (same ▸ by rw [eqIgnoreAsciiCase]; exact decide_eq_true rfl))
  case demo =>
    have ⟨now, n, le, eq⟩ := may
    exact own.known.right rfl now n le eq

theorem Owns.later (h : Owns p w a id) (later : Later w w') : Owns p w' a id :=
  { h with known := h.known.later later }

theorem Known.not_mayAnswer {row : Row} (known : Known p w row.gmailId) (free : ¬Taken p row a)
    (trimmed : p = .agentmail → trim a = a) : ¬MayAnswer p w a row.gmailId := by
  intro may
  cases p
  case gmail     => exact may (known.left rfl)
  case primitive => exact free ⟨slug a, may, spells_slug a⟩
  case agentmail => exact free (may.trans (trimmed rfl))
  case demo =>
    have ⟨now, n, le, eq⟩ := may
    exact known.right rfl now n le eq

end Ids

-- The ids that a call may yet store.
def Call.mayTake [Alphanumeric] (p : Provider) (w : World) (call : Call) (id : LabelId) : Prop :=
  match call.phase with
  | .reading       => False
  | .asking        => ∃ name, call.busy = some name ∧ MayAnswer p w name id
  | .writing label => id = label.id

structure Kept [Alphanumeric] (p : Provider) (w : World) : Prop where
  ids     : (w.rows.map (·.gmailId)).Nodup
  names   : ∀ row ∈ listed w.rows, ∀ row' ∈ listed w.rows, eqIgnoreAsciiCase row.name row'.name = true → row = row'
  known   : ∀ row ∈ w.rows, Known p w row.gmailId
  made    : ∀ name ∈ w.made, ∃ row ∈ listed w.rows, eqIgnoreAsciiCase row.name name = true
  trimmed : w.calls c = some call → call.busy = some name → p = .agentmail → trim name = name
  writing : w.calls c = some call → call.phase = .writing label → call.busy = some label.name ∧ Owns p w label.name label.id
  free    : w.calls c = some call → call.busy = some name → ∀ row ∈ listed w.rows, eqIgnoreAsciiCase row.name name = false
  taken   : w.calls c = some call → ∀ row ∈ w.rows, ¬call.mayTake p w row.gmailId
  apart   : c ≠ c' → w.calls c = some call → w.calls c' = some call' → call.busy = some name → call'.busy = some name' →
    ¬Alike p name name'
  given   : c ≠ c' → w.calls c = some call → w.calls c' = some call' → call'.phase = .writing label →
    ¬call.mayTake p w label.id

section Steps

variable [Alphanumeric] {p : Provider} {w w' : World} {c c' : CallId} {call call' : Call} {name : String} {rest : List String}

omit [Alphanumeric] in
theorem calls_put (w : World) (c c' : CallId) (x : Option Call) :
    (w.put c x).calls c' = if c' = c then x else w.calls c' :=
  Function.update_apply ..

omit [Alphanumeric] in
theorem Call.busy_of_reading (h : call.phase = .reading) : call.busy = none := by
  rw [Call.busy, h]

theorem Call.mayTake_earlier (later : Later w w') {id : LabelId} (h : call.mayTake p w' id) : call.mayTake p w id := by
  rw [Call.mayTake] at h ⊢
  cases phase : call.phase <;> rw [phase] at h
  case reading => exact h
  case asking =>
    have ⟨name, on, may⟩ := h
    exact ⟨name, on, may.earlier later⟩
  case writing => exact h

theorem Call.not_mayTake_of_reading (h : call.phase = .reading) (id : LabelId) : ¬call.mayTake p w id := by
  rw [Call.mayTake, h]
  exact not_false

-- A call that ends, or goes on to its next name.
theorem Kept.idle (h : Kept p w) (c : CallId) (x : Option Call) (idle : ∀ call ∈ x, call.phase = .reading) :
    Kept p (w.put c x) := by
  have old {c' : CallId} {call : Call} (get : (w.put c x).calls c' = some call) (on : call.phase ≠ .reading) :
      w.calls c' = some call := by
    rw [calls_put] at get
    split at get
    case isTrue  => exact absurd (idle call get) on
    case isFalse => exact get
  have busy {call : Call} {name : String} (h : call.busy = some name) : call.phase ≠ .reading :=
    fun reading => absurd (h.symm.trans (Call.busy_of_reading reading)) (Option.some_ne_none name)
  have writing {call : Call} {label : Label} (h : call.phase = .writing label) : call.phase ≠ .reading := by
    rw [h]
    exact nofun
  have may {call : Call} {id : LabelId} (h : call.mayTake p (w.put c x) id) : call.phase ≠ .reading :=
    fun reading => Call.not_mayTake_of_reading reading id h
  exact {
    ids       := h.ids
    names     := h.names
    known     := h.known
    made      := h.made
    trimmed   := fun get on => h.trimmed (old get (busy on)) on
    writing   := fun get on => (h.writing (old get (writing on)) on).imp_right (·.later ⟨List.Subset.refl _, le_rfl⟩)
    free      := fun get on => h.free (old get (busy on)) on
    taken     := fun get row mem may' => h.taken (old get (may may')) row mem may'
    apart     := fun ne get get' on on' => h.apart ne (old get (busy on)) (old get' (busy on')) on on'
    given     := fun ne get get' on may' => h.given ne (old get (may may')) (old get' (writing on)) on may' }

theorem Kept.return (h : Kept p w) (stored : ∃ row ∈ listed w.rows, eqIgnoreAsciiCase row.name name = true) :
    Kept p { w with made := name :: w.made } :=
  { h with
    made    := List.forall_mem_cons.mpr ⟨stored, h.made⟩
    writing := fun get on => (h.writing get on).imp_right (·.later ⟨List.Subset.refl _, le_rfl⟩) }

-- A call that found no label of its name.
theorem Kept.ask (h : Kept p w) (trimmed : p = .agentmail → trim name = name)
    (new : ∀ row ∈ listed w.rows, eqIgnoreAsciiCase row.name name = false) (free : ∀ row ∈ w.rows, ¬Taken p row name)
    (alone : ∀ c' call other, w.calls c' = some call → call.busy = some other → ¬Alike p name other) :
    Kept p (w.put c (some ⟨name :: rest, .asking⟩)) := by
  have split_ {c' : CallId} {call : Call} (get : (w.put c (some ⟨name :: rest, .asking⟩)).calls c' = some call) :
      c' = c ∧ call = ⟨name :: rest, .asking⟩ ∨ c' ≠ c ∧ w.calls c' = some call := by
    rw [calls_put] at get
    split at get
    case isTrue same  => exact .inl ⟨same, (Option.some.inj get).symm⟩
    case isFalse ne   => exact .inr ⟨ne, get⟩
  refine { h with trimmed := ?trimmed, writing := ?writing, free := ?free, taken := ?taken, apart := ?apart, given := ?given }
  case trimmed =>
    intro c' call name' get on
    rcases split_ get with ⟨_, rfl⟩ | ⟨_, old⟩
    · cases on
      exact trimmed
    · exact h.trimmed old on
  case writing =>
    intro c' call label get on
    rcases split_ get with ⟨_, rfl⟩ | ⟨_, old⟩
    · cases on
    · exact (h.writing old on).imp_right (·.later ⟨List.Subset.refl _, le_rfl⟩)
  case free =>
    intro c' call name' get on
    rcases split_ get with ⟨_, rfl⟩ | ⟨_, old⟩
    · cases on
      exact new
    · exact h.free old on
  case taken =>
    intro c' call get row mem may
    rcases split_ get with ⟨_, rfl⟩ | ⟨_, old⟩
    · have ⟨_, on, may⟩ := may
      cases on
      exact (h.known row mem).not_mayAnswer (free row mem) trimmed may
    · exact h.taken old row mem may
  case apart =>
    intro c₁ c₂ call call' name₁ name₂ ne get get' on on'
    rcases split_ get with ⟨same, rfl⟩ | ⟨_, old⟩ <;> rcases split_ get' with ⟨same', rfl⟩ | ⟨_, old'⟩
    · exact absurd (same.trans same'.symm) ne
    · cases on
      exact alone c₂ call' name₂ old' on'
    · cases on'
      exact fun alike => alone c₁ call name₁ old on alike.symm
    · exact h.apart ne old old' on on'
  case given =>
    intro c₁ c₂ call call' label ne get get' on may
    rcases split_ get' with ⟨same', rfl⟩ | ⟨_, old'⟩
    · cases on
    · rcases split_ get with ⟨same, rfl⟩ | ⟨_, old⟩
      · have ⟨_, on₁, may⟩ := may
        cases on₁
        have ⟨busy, own⟩ := h.writing old' on
        exact own.not_mayAnswer (alone c₂ call' label.name old' busy) trimmed may
      · exact h.given ne old old' on may

-- A call whose name was given an id.
theorem Kept.answered {drawn : LabelId} {now : Nat} {label : Label} (h : Kept p w)
    (mine : w.calls c = some ⟨name :: rest, .asking⟩) (answer : w.answer p name drawn now = some label) :
    Kept p { w.put c (some ⟨name :: rest, .writing label⟩) with server := label.id :: w.server, nextLocal := w.nextLocal + 1 } := by
  have trimmed := h.trimmed mine rfl
  have named := answer_name answer trimmed
  have later : Later w { w.put c (some ⟨name :: rest, .writing label⟩) with
    server := label.id :: w.server, nextLocal := w.nextLocal + 1 } := ⟨List.subset_cons_self _ _, Nat.le_succ _⟩
  generalize eq : ({ w.put c (some ⟨name :: rest, .writing label⟩) with
    server := label.id :: w.server, nextLocal := w.nextLocal + 1 } : World) = w' at later
  have own : Owns p w' name label.id := answer_owns answer (eq ▸ List.mem_cons_self) (eq ▸ Nat.lt_succ_self _) trimmed
  have rows : w'.rows = w.rows := eq ▸ rfl
  have split_ {c' : CallId} {call : Call} (get : w'.calls c' = some call) :
      c' = c ∧ call = ⟨name :: rest, .writing label⟩ ∨ c' ≠ c ∧ w.calls c' = some call := by
    rw [← eq] at get
    rw [calls_put] at get
    split at get
    case isTrue same => exact .inl ⟨same, (Option.some.inj get).symm⟩
    case isFalse ne  => exact .inr ⟨ne, get⟩
  have may {call : Call} {id : LabelId} (may : call.mayTake p w' id) : call.mayTake p w id :=
    Call.mayTake_earlier later may
  exact {
    ids   := rows ▸ h.ids
    names := rows ▸ h.names
    known := fun row mem => (h.known row (rows ▸ mem)).later later
    made  := by rw [rows, ← eq]; exact h.made
    trimmed := by
      intro c' call name' get on
      rcases split_ get with ⟨_, rfl⟩ | ⟨_, old⟩
      · cases on
        exact trimmed
      · exact h.trimmed old on
    writing := by
      intro c' call label' get on
      rcases split_ get with ⟨_, rfl⟩ | ⟨_, old⟩
      · cases on
        rw [named]
        exact ⟨rfl, own⟩
      · exact (h.writing old on).imp_right (·.later later)
    free := by
      intro c' call name' get on
      rw [rows]
      rcases split_ get with ⟨_, rfl⟩ | ⟨_, old⟩
      · exact h.free mine on
      · exact h.free old on
    taken := by
      intro c' call get row mem may'
      rw [rows] at mem
      rcases split_ get with ⟨_, rfl⟩ | ⟨_, old⟩
      · exact h.taken mine row mem ⟨name, rfl, (show row.gmailId = label.id from may') ▸ answer_mayAnswer answer⟩
      · exact h.taken old row mem (may may')
    apart := by
      intro c₁ c₂ call call' name₁ name₂ ne get get' on on'
      rcases split_ get with ⟨same, rfl⟩ | ⟨_, old⟩ <;> rcases split_ get' with ⟨same', rfl⟩ | ⟨_, old'⟩
      · exact absurd (same.trans same'.symm) ne
      · exact h.apart (same ▸ ne) mine old' on on'
      · exact h.apart (same' ▸ ne) old mine on on'
      · exact h.apart ne old old' on on'
    given := by
      intro c₁ c₂ call call' label' ne get get' on may'
      rcases split_ get with ⟨same, rfl⟩ | ⟨other, old⟩ <;> rcases split_ get' with ⟨same', rfl⟩ | ⟨other', old'⟩
      · exact absurd (same.trans same'.symm) ne
      · refine h.given (same ▸ ne) mine old' on ⟨name, rfl, ?_⟩
        rw [show label'.id = label.id from may']
        exact answer_mayAnswer answer
      · cases on
        rw [Call.mayTake] at may'
        cases phase : call.phase <;> rw [phase] at may'
        case reading => exact may'
        case asking =>
          have ⟨name', on', may'⟩ := may'
          refine own.not_mayAnswer (h.apart (same' ▸ ne) old mine on' rfl) (h.trimmed old on') may'
        case writing label' =>
          refine h.given (same' ▸ ne).symm mine old phase ⟨name, rfl, ?_⟩
          rw [← show label.id = label'.id from may']
          exact answer_mayAnswer answer
      · exact h.given ne old old' on (may may') }

omit [Alphanumeric] in
theorem upsertLabel_new {rows : List Row} {label : Label} (fresh : ∀ row ∈ rows, row.gmailId ≠ label.id) :
    ∃ rowid, upsertLabel rows label = rows ++ [⟨rowid, label.id, label.name, .user⟩] := by
  rw [upsertLabel, if_neg fun ⟨row, mem, same⟩ => fresh row mem same]
  exact ⟨_, rfl⟩

-- A label that is new is stored.
theorem Kept.store {label : Label} (h : Kept p w) (known : Known p w label.id)
    (fresh : ∀ row ∈ w.rows, row.gmailId ≠ label.id)
    (new : ∀ row ∈ listed w.rows, eqIgnoreAsciiCase row.name label.name = false)
    (others : ∀ c call, w.calls c = some call → ¬call.mayTake p w label.id ∧
      ∀ name, call.busy = some name → eqIgnoreAsciiCase label.name name = false) :
    Kept p { w with rows := upsertLabel w.rows label } := by
  have ⟨rowid, rows⟩ := upsertLabel_new fresh
  have shown : listed (upsertLabel w.rows label) = listed w.rows ++ [⟨rowid, label.id, label.name, .user⟩] := by
    rw [rows, listed, List.filter_append]
    rfl
  have same : Later w { w with rows := upsertLabel w.rows label } := ⟨List.Subset.refl _, le_rfl⟩
  exact {
    ids := by
      rw [rows, List.map_append, List.nodup_append]
      refine ⟨h.ids, List.nodup_singleton _, fun id mem id' mem' => ?_⟩
      have ⟨row, stored, eq⟩ := List.mem_map.mp mem
      rw [List.map_singleton, List.mem_singleton] at mem'
      rw [mem', ← eq]
      exact fresh row stored
    names := by
      intro row mem row' mem' same
      rw [shown, List.mem_append, List.mem_singleton] at mem mem'
      rcases mem with mem | rfl <;> rcases mem' with mem' | rfl
      · exact h.names row mem row' mem' same
      · exact absurd same (Bool.eq_false_iff.mp (new row mem))
      · exact absurd (eqIgnoreAsciiCase_symm same) (Bool.eq_false_iff.mp (new row' mem'))
      · rfl
    known := by
      intro row mem
      rw [rows, List.mem_append, List.mem_singleton] at mem
      rcases mem with mem | rfl
      · exact (h.known row mem).later same
      · exact known.later same
    made := by
      intro name mem
      have ⟨row, stored, eq⟩ := h.made name mem
      exact ⟨row, shown ▸ List.mem_append_left _ stored, eq⟩
    trimmed := h.trimmed
    writing := fun get on => (h.writing get on).imp_right (·.later same)
    free := by
      intro c call name get on row mem
      rw [shown, List.mem_append, List.mem_singleton] at mem
      rcases mem with mem | rfl
      · exact h.free get on row mem
      · exact (others c call get).right name on
    taken := by
      intro c call get row mem may
      rw [rows, List.mem_append, List.mem_singleton] at mem
      rcases mem with mem | rfl
      · exact h.taken get row mem may
      · exact (others c call get).left may
    apart := h.apart
    given := h.given }

-- What is stored stays.
def Grows (rows rows' : List Row) : Prop :=
  ∀ row ∈ rows, row ∈ rows'

theorem Kept.write {label : Label} (h : Kept p w) (mine : w.calls c = some ⟨name :: rest, .writing label⟩) :
    Kept p ({ w with rows := upsertLabel w.rows label }.returned c name rest) ∧
    Grows w.rows (upsertLabel w.rows label) := by
  have ⟨busy, own⟩ := h.writing mine rfl
  have named : name = label.name := Option.some.inj busy
  have fresh (row : Row) (mem : row ∈ w.rows) : row.gmailId ≠ label.id := h.taken mine row mem
  have ⟨rowid, rows⟩ := upsertLabel_new fresh
  refine ⟨?_, fun row mem => rows ▸ List.mem_append_left _ mem⟩
  have idle := h.idle c (if rest = [] then none else some ⟨rest, .reading⟩) (by
    intro call on
    split at on
    case isTrue  => cases on
    case isFalse => cases on; rfl)
  have stored := idle.store (own.known.later ⟨List.Subset.refl _, le_rfl⟩) fresh
    (named ▸ h.free mine rfl) (fun c' call get => by
      rw [calls_put] at get
      split at get
      case isTrue =>
        split at get
        case isTrue => cases get
        case isFalse =>
          cases get
          exact ⟨Call.not_mayTake_of_reading rfl _, fun _ on => nomatch on⟩
      case isFalse other =>
        refine ⟨fun may => h.given other get mine rfl may, fun name' on => ?_⟩
        refine Bool.eq_false_iff.mpr fun same => h.apart (Ne.symm other) mine get rfl on (.inl ?_)
        rw [named]
        exact same)
  refine stored.return ⟨⟨rowid, label.id, label.name, .user⟩, ?_, ?_⟩
  · change _ ∈ listed (upsertLabel w.rows label)
    rw [rows]
    exact List.mem_filter.mpr ⟨List.mem_append_right _ List.mem_cons_self, rfl⟩
  · rw [named, eqIgnoreAsciiCase]
    exact decide_eq_true rfl

theorem Kept.step {a : Action} (h : Kept p w) (apart : Apart p w a) (hs : w.step p a = some w') :
    Kept p w' ∧ Grows w.rows w'.rows := by
  have same {w' : World} (kept : Kept p w') (rows : w'.rows = w.rows) : Kept p w' ∧ Grows w.rows w'.rows :=
    ⟨kept, fun _ mem => rows ▸ mem⟩
  cases a
  case create c name =>
    simp only [World.step] at hs
    split at hs
    case h_1 =>
      cases hs
      exact same (h.idle c (some ⟨paths name, .reading⟩) fun call on => Option.some.inj on ▸ rfl) rfl
    case h_2 => cases hs
  case read c =>
    simp only [World.step] at hs
    split at hs
    case h_2 => cases hs
    case h_1 given rest mine =>
      split at hs
      case h_1 =>
        cases hs
        exact same (h.idle c none fun _ on => nomatch on) rfl
      case h_2 name checked =>
        split at hs
        case isTrue found =>
          cases hs
          have ⟨row, mem, eq⟩ := List.any_eq_true.mp found
          have idle := h.idle c (if rest = [] then none else some ⟨rest, .reading⟩) (by
            intro call on
            split at on
            case isTrue  => cases on
            case isFalse => cases on; rfl)
          exact same (idle.return ⟨row, mem, eq⟩) rfl
        case isFalse new =>
          cases hs
          have none_ (row : Row) (mem : row ∈ listed w.rows) : eqIgnoreAsciiCase row.name name = false :=
            Bool.eq_false_iff.mpr fun eq => new (List.any_eq_true.mpr ⟨row, mem, eq⟩)
          have ⟨trimmed, free, alone⟩ := apart given rest name mine checked none_
          exact same (h.ask trimmed none_ free alone) rfl
  case answer c drawn now =>
    simp only [World.step] at hs
    split at hs
    case h_2 => cases hs
    case h_1 name rest mine =>
      have ⟨label, answer, eq⟩ := Option.map_eq_some_iff.mp hs
      cases eq
      exact same (h.answered mine answer) rfl
  case fail c =>
    simp only [World.step] at hs
    split at hs
    case h_2 => cases hs
    case h_1 =>
      cases hs
      exact same (h.idle c none fun _ on => nomatch on) rfl
  case write c =>
    simp only [World.step] at hs
    split at hs
    case h_2 => cases hs
    case h_1 name rest label mine =>
      cases hs
      exact h.write mine

theorem Fresh.kept (h : Fresh p w) : Kept p w where
  ids     := h.ids
  names   := h.names
  known   := h.known
  made    := h.made ▸ fun _ mem => nomatch mem
  trimmed := fun get => nomatch (h.calls _).symm.trans get
  writing := fun get => nomatch (h.calls _).symm.trans get
  free    := fun get => nomatch (h.calls _).symm.trans get
  taken   := fun get => nomatch (h.calls _).symm.trans get
  apart   := fun _ get => nomatch (h.calls _).symm.trans get
  given   := fun _ get => nomatch (h.calls _).symm.trans get

theorem reachable_kept (h : (labels p).Reachable (Apart p) w) : Kept p w :=
  h.invariant (fun _ => Fresh.kept) fun _ _ _ kept apart hs => (kept.step apart hs).left

theorem Leads.grows (h : (labels p).Leads (Apart p) w w') (kept : Kept p w) : Grows w.rows w'.rows :=
  (h.invariant (P := fun w' => Kept p w' ∧ Grows w.rows w'.rows) ⟨kept, fun _ => id⟩
    fun _ _ _ ⟨kept, grown⟩ apart hs =>
      have ⟨kept', grows⟩ := kept.step apart hs
      ⟨kept', fun row mem => grows row (grown row mem)⟩).right

-- Every name has the one label that was returned for it, ids are told apart, and no label is renamed or replaced.
theorem reachable_distinct (h : (labels p).Reachable (Apart p) w) :
    (∀ name ∈ w.made, ∃! row, row ∈ listed w.rows ∧ eqIgnoreAsciiCase row.name name = true) ∧
    (w.rows.map (·.gmailId)).Nodup ∧
    ∀ w', (labels p).Leads (Apart p) w w' → Grows w.rows w'.rows := by
  have kept := reachable_kept h
  refine ⟨fun name mem => ?_, kept.ids, fun w' leads => Leads.grows leads kept⟩
  have ⟨row, stored, eq⟩ := kept.made name mem
  refine ⟨row, ⟨stored, eq⟩, fun row' ⟨stored', eq'⟩ => ?_⟩
  exact kept.names row' stored' row stored (eqIgnoreAsciiCase_trans eq' (eqIgnoreAsciiCase_symm eq))

end Steps

section Runs

@[reducible] def plain : Alphanumeric where
  isAlphanumeric := Char.isAlphanum

attribute [local instance] plain

def create (c : CallId) (name : String) : List Action :=
  [.create c name, .read c, .answer c "" 0, .write c]

def run (p : Provider) (as : List Action) : Option World :=
  as.foldlM (fun w a => w.step p a) { rows := [] }

-- What a call does besides reading the stored labels is not restricted.
theorem reachable_other {a : Action} (h : (labels p).Reachable (Apart p) w) (other : ∀ c, a ≠ .read c)
    (hs : w.step p a = some w') : (labels p).Reachable (Apart p) w' := by
  refine h.step ?_ hs
  cases a
  case read c => exact absurd rfl (other c)
  all_goals trivial

-- Two calls that overlap from their first step to their last.
def overlapping : List Action := [
  .create 0 "Work", .create 1 "Bills", .read 0, .read 1, .answer 0 "" 0, .answer 1 "" 0, .write 1, .write 0]

theorem reachable_distinct_overlapping : ∃ w, run .primitive overlapping = some w ∧ w.made = ["Work", "Bills"] ∧
    ∀ name ∈ w.made, ∃! row, row ∈ listed w.rows ∧ eqIgnoreAsciiCase row.name name = true := by
  have work : paths "Work" = ["Work"] := by decide +kernel
  have bills : paths "Bills" = ["Bills"] := by decide +kernel
  have fine : checkedName "Work" = .ok "Work" := by decide +kernel
  have fine' : checkedName "Bills" = .ok "Bills" := by decide +kernel
  have start : Fresh .primitive { rows := [] } :=
    ⟨List.nodup_nil, fun _ mem => (nomatch mem), fun _ mem => (nomatch mem), fun _ => rfl, rfl⟩
  let w₁ : World := ({ rows := [] } : World).put 0 (some ⟨["Work"], .reading⟩)
  have s₁ : World.step .primitive { rows := [] } (.create 0 "Work") = some w₁ := by
    simp only [w₁, ← work]
    rfl
  let w₂ : World := w₁.put 1 (some ⟨["Bills"], .reading⟩)
  have s₂ : w₁.step .primitive (.create 1 "Bills") = some w₂ := by
    simp only [w₂, ← bills]
    rfl
  let w₃ : World := w₂.put 0 (some ⟨["Work"], .asking⟩)
  have s₃ : w₂.step .primitive (.read 0) = some w₃ := by
    have get : w₂.calls 0 = some ⟨["Work"], .reading⟩ := rfl
    simp only [World.step, get, fine]
    rfl
  let w₄ : World := w₃.put 1 (some ⟨["Bills"], .asking⟩)
  have s₄ : w₃.step .primitive (.read 1) = some w₄ := by
    have get : w₃.calls 1 = some ⟨["Bills"], .reading⟩ := rfl
    simp only [World.step, get, fine']
    rfl
  let label : Label := ⟨.ofList ("Local_".toList ++ slug "Work"), "Work"⟩
  let w₅ : World := { w₄.put 0 (some ⟨["Work"], .writing label⟩) with server := [label.id], nextLocal := 1 }
  have s₅ : w₄.step .primitive (.answer 0 "" 0) = some w₅ := rfl
  let label' : Label := ⟨.ofList ("Local_".toList ++ slug "Bills"), "Bills"⟩
  let w₆ : World := { w₅.put 1 (some ⟨["Bills"], .writing label'⟩) with server := [label'.id, label.id], nextLocal := 2 }
  have s₆ : w₅.step .primitive (.answer 1 "" 0) = some w₆ := rfl
  let w₇ : World := { w₆ with rows := upsertLabel w₆.rows label' }.returned 1 "Bills" []
  have s₇ : w₆.step .primitive (.write 1) = some w₇ := rfl
  let w₈ : World := { w₇ with rows := upsertLabel w₇.rows label }.returned 0 "Work" []
  have s₈ : w₇.step .primitive (.write 0) = some w₈ := rfl
  have alone : Apart .primitive w₂ (.read 0) := by
    intro given rest name _ _ _
    refine ⟨nofun, fun _ mem => (nomatch mem), fun c call other get busy => ?_⟩
    have idle : call.phase = .reading := by
      simp only [w₂, w₁, calls_put] at get
      split at get
      case isTrue  => cases get; rfl
      case isFalse =>
        split at get <;> cases get
        rfl
    exact nomatch (Call.busy_of_reading idle).symm.trans busy
  -- Only the other call is busy, with a name of another length.
  have apart : Apart .primitive w₃ (.read 1) := by
    intro given rest name get checked _
    cases get
    cases fine'.symm.trans checked
    refine ⟨nofun, fun _ mem => (nomatch mem), fun c call other get busy => ?_⟩
    have is : other = "Work" := by
      simp only [w₃, w₂, w₁, calls_put] at get
      split at get
      case isTrue  => cases get; cases busy; rfl
      case isFalse =>
        split at get <;> cases get
        cases busy
    subst is
    rintro (same | ⟨_, text, spells, spells'⟩)
    · exact absurd same (by decide +kernel)
    · exact absurd (spells.length_eq.symm.trans spells'.length_eq) (by decide)
  have r₂ := reachable_other (reachable_other (.start start) (by rintro _ ⟨⟩) s₁) (by rintro _ ⟨⟩) s₂
  have r₄ := (r₂.step alone s₃).step apart s₄
  have r₆ := reachable_other (reachable_other r₄ (by rintro _ ⟨⟩) s₅) (by rintro _ ⟨⟩) s₆
  have r₈ := reachable_other (reachable_other r₆ (by rintro _ ⟨⟩) s₇) (by rintro _ ⟨⟩) s₈
  refine ⟨w₈, ?_, rfl, (reachable_distinct r₈).left⟩
  simp only [run, overlapping, List.foldlM_cons, s₁, Option.bind_eq_bind, Option.bind_some, s₂, s₃, s₄, s₅, s₆, s₇, s₈]
  rfl

-- The second of two names that get one id takes the first one's label, and two calls at once make two of one name.
theorem labels_taken :
    ((run .primitive (create 0 "a b" ++ create 1 "a_b")).map fun w => (w.made, w.rows)) =
      some (["a_b", "a b"], [⟨1, "Local_a_b", "a_b", .user⟩]) ∧
    ((run .agentmail [.create 0 "Work", .create 1 "work", .read 0, .read 1, .answer 0 "" 0, .answer 1 "" 0, .write 0,
      .write 1]).map (·.rows)) = some [⟨1, "Work", "Work", .user⟩, ⟨2, "work", "work", .user⟩] := by
  decide +kernel

end Runs

end Kaluta.NewLabels
