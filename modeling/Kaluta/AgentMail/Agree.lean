import Kaluta.AgentMail.Poll

-- The three tables mean the same: labels to local ones, label events, and local changes to labels.
namespace Kaluta.AgentMail

open Guide (trim trim_trim)

variable {L : List String} {l : LabelId} {label w : String} {plus minus : List String} {add remove : List LabelId}

-- The ids that are not user labels'.
def SYSTEM : List LabelId :=
  [UNREAD, SENT, INBOX, SPAM, TRASH, STARRED]

section Words

theorem word_trim : word (trim label) = word label := by
  simp only [word, trim_trim]

theorem isReserved_trim : isReserved (trim label) = isReserved label := by
  simp only [isReserved, word_trim]

theorem has_iff : has L w = true ↔ ∃ x ∈ L, word x = w := by
  simp [has]

theorem has_append : has (L ++ plus) w = true ↔ has L w = true ∨ has plus w = true := by
  simp only [has_iff, List.mem_append, or_and_right, exists_or]

end Words

section Local

-- A user label of a message.
def User (L : List String) (l : LabelId) : Prop :=
  (∃ x ∈ L, trim x = l) ∧ l ≠ "" ∧ isReserved l = false

theorem mem_toLocal : l ∈ toLocal L ↔ (l = UNREAD ∧ has L "unread") ∨ (l = SENT ∧ has L "sent") ∨
    (l = INBOX ∧ ¬has L "sent" ∧ ¬has L ARCHIVED ∧ ¬has L "spam" ∧ ¬has L "trash") ∨ (l = SPAM ∧ has L "spam") ∨
    (l = TRASH ∧ has L "trash") ∨ (l = STARRED ∧ has L "starred") ∨ User L l := by
  have one {p : Prop} [Decidable p] {id : LabelId} : l ∈ (if p then {id} else ∅ : Finset LabelId) ↔ l = id ∧ p := by
    split <;> simp [*]
  simp only [toLocal, Finset.mem_union, one, User, List.mem_toFinset, List.mem_filter, decide_eq_true_eq, ne_eq,
    Bool.not_eq_true, List.mem_map]
  by_cases sent : has L "sent" = true
  · simp [sent, or_assoc]
  · simp [sent, one, or_assoc]

theorem reserved_system : ∀ l ∈ SYSTEM, isReserved l = true := by decide

theorem user_not_system (h : User L l) : l ∉ SYSTEM :=
  fun system => Bool.false_ne_true (h.right.right.symm.trans (reserved_system l system))

theorem mem_toLocal_user (h : l ∉ SYSTEM) : l ∈ toLocal L ↔ User L l := by
  simp only [SYSTEM, List.mem_cons, List.not_mem_nil, or_false, not_or] at h
  simp [mem_toLocal, h]

theorem not_user (h : l ∈ SYSTEM) : ¬User L l :=
  fun user => user_not_system user h

@[simp]
theorem unread_mem : "UNREAD" ∈ toLocal L ↔ has L "unread" = true := by
  simp [mem_toLocal, not_user (l := "UNREAD") (by decide), ARCHIVED, UNREAD, SENT, INBOX, SPAM, TRASH, STARRED]

@[simp]
theorem sent_mem : "SENT" ∈ toLocal L ↔ has L "sent" = true := by
  simp [mem_toLocal, not_user (l := "SENT") (by decide), ARCHIVED, UNREAD, SENT, INBOX, SPAM, TRASH, STARRED]

@[simp]
theorem inbox_mem : "INBOX" ∈ toLocal L ↔
    ¬has L "sent" ∧ ¬has L "archived" ∧ ¬has L "spam" ∧ ¬has L "trash" := by
  simp [mem_toLocal, not_user (l := "INBOX") (by decide), ARCHIVED, UNREAD, SENT, INBOX, SPAM, TRASH, STARRED]

@[simp]
theorem spam_mem : "SPAM" ∈ toLocal L ↔ has L "spam" = true := by
  simp [mem_toLocal, not_user (l := "SPAM") (by decide), ARCHIVED, UNREAD, SENT, INBOX, SPAM, TRASH, STARRED]

@[simp]
theorem trash_mem : "TRASH" ∈ toLocal L ↔ has L "trash" = true := by
  simp [mem_toLocal, not_user (l := "TRASH") (by decide), ARCHIVED, UNREAD, SENT, INBOX, SPAM, TRASH, STARRED]

@[simp]
theorem starred_mem : "STARRED" ∈ toLocal L ↔ has L "starred" = true := by
  simp [mem_toLocal, not_user (l := "STARRED") (by decide), ARCHIVED, UNREAD, SENT, INBOX, SPAM, TRASH, STARRED]

-- Two sets of local labels are the same when they agree on each id of the store's own and on the user labels.
theorem toLocal_ext {s : Finset LabelId} (system : ∀ l ∈ SYSTEM, (l ∈ s ↔ l ∈ toLocal L))
    (user : ∀ l, l ∉ SYSTEM → (l ∈ s ↔ User L l)) : s = toLocal L := by
  ext l
  by_cases h : l ∈ SYSTEM
  · exact system l h
  · rw [user l h, mem_toLocal_user h]

end Local

section Relabelled

-- Another spelling of the same label.
def Alike (x y : String) : Prop :=
  trim y = trim x ∨ (isReserved x = true ∧ word y = word x)

-- Labels that the message has in no other spelling.
def SpelledOnce (L labels : List String) : Prop :=
  ∀ x ∈ labels, ∀ y ∈ L, Alike x y → y = x

-- What a message's labels are after some are taken off and some put on.
def relabelled (L plus minus : List String) : List String :=
  L.filter (· ∉ minus) ++ plus

theorem has_relabelled (plus : List String) (once : SpelledOnce L minus) (reserved : w ∈ RESERVED) :
    has (relabelled L plus minus) w = true ↔ (has L w = true ∧ ¬has minus w = true) ∨ has plus w = true := by
  rw [relabelled, has_append]
  refine or_congr_left ?_
  simp only [has_iff, List.mem_filter, decide_eq_true_eq]
  constructor
  · rintro ⟨y, ⟨mem, off⟩, rfl⟩
    refine ⟨⟨y, mem, rfl⟩, ?_⟩
    rintro ⟨x, hx, eq⟩
    have reserved' : isReserved x = true := by simpa [isReserved, eq] using reserved
    exact off (once x hx y mem (.inr ⟨reserved', eq.symm⟩) ▸ hx)
  · rintro ⟨⟨y, mem, rfl⟩, none⟩
    exact ⟨y, ⟨mem, fun hy => none ⟨y, hy, rfl⟩⟩, rfl⟩

theorem user_relabelled (plus : List String) (once : SpelledOnce L minus) :
    User (relabelled L plus minus) l ↔ (User L l ∧ ¬User minus l) ∨ User plus l := by
  by_cases named : l ≠ "" ∧ isReserved l = false
  case neg => simp [User, named]
  case pos =>
    simp only [User, named, ne_eq, not_false_eq_true, and_self, and_true, relabelled, List.mem_append, List.mem_filter,
      decide_eq_true_eq, or_and_right, exists_or]
    refine or_congr_left ?_
    constructor
    · rintro ⟨y, ⟨mem, off⟩, rfl⟩
      refine ⟨⟨y, mem, rfl⟩, ?_⟩
      rintro ⟨x, hx, eq⟩
      exact off (once x hx y mem (.inl eq.symm) ▸ hx)
    · rintro ⟨⟨y, mem, rfl⟩, none⟩
      exact ⟨y, ⟨mem, fun hy => none ⟨y, hy, rfl⟩⟩, rfl⟩

end Relabelled

section Events

variable {added : Bool}

-- The labels of a message after one label event.
def afterEvent (L : List String) (label : String) (added : Bool) : List String :=
  if added then relabelled L [label] [] else relabelled L [] [label]

theorem has_afterEvent (once : added = false → SpelledOnce L [label]) (reserved : w ∈ RESERVED) :
    has (afterEvent L label added) w = true ↔
      if added then has L w = true ∨ word label = w else has L w = true ∧ word label ≠ w := by
  cases added
  case true =>
    have none : SpelledOnce L [] := fun _ h => absurd h List.not_mem_nil
    simp only [afterEvent, ↓reduceIte, has_relabelled _ none reserved]
    simp [has]
  case false =>
    simp only [afterEvent, Bool.false_eq_true, ↓reduceIte, has_relabelled _ (once rfl) reserved]
    simp [has]

theorem user_afterEvent (once : added = false → SpelledOnce L [label]) :
    User (afterEvent L label added) l ↔
      if added then User L l ∨ User [label] l else User L l ∧ ¬User [label] l := by
  cases added
  case true =>
    have none : SpelledOnce L [] := fun _ h => absurd h List.not_mem_nil
    simp only [afterEvent, ↓reduceIte, user_relabelled _ none]
    simp [User]
  case false =>
    simp only [afterEvent, Bool.false_eq_true, ↓reduceIte, user_relabelled _ (once rfl)]
    simp [User]

-- What an event does with labels that the store keeps as one id.
theorem user_event (label l : String) (reserved : isReserved label = true ∨ trim label = "") : ¬User [label] l := by
  rintro ⟨⟨x, mem, rfl⟩, named, free⟩
  obtain rfl := List.mem_singleton.mp mem
  rw [isReserved_trim] at free
  exact reserved.elim (fun h => Bool.false_ne_true (free.symm.trans h)) named

theorem reserved_of_word (h : word label = w) (mem : w ∈ RESERVED) : isReserved label = true := by
  simpa [isReserved, h] using mem

theorem mem_putBack {p : Prop} [Decidable p] {s : Finset LabelId} {id : LabelId} :
    l ∈ (if p then insert id s else s) ↔ (p ∧ l = id) ∨ l ∈ s := by
  split <;> simp [*]

theorem event_agrees (once : added = false → SpelledOnce L [label]) (unsent : word label ≠ "sent")
    (inbox : word label = ARCHIVED → added = false → ¬has L "sent" ∧ ¬has L "spam" ∧ ¬has L "trash") :
    applyEvent label added (afterEvent L label added) (toLocal L) = toLocal (afterEvent L label added) := by
  have reserved (w : String) (h : w ∈ RESERVED) := has_afterEvent (w := w) once h
  have unread   := reserved "unread" (by decide)
  have sent     := reserved "sent" (by decide)
  have archived := reserved ARCHIVED (by decide)
  have spam     := reserved "spam" (by decide)
  have trash    := reserved "trash" (by decide)
  have starred  := reserved "starred" (by decide)
  have user (l : LabelId) := user_afterEvent (l := l) once
  clear reserved
  generalize afterEvent L label added = after at *
  simp only [ARCHIVED] at archived inbox
  refine toLocal_ext ?_ ?_
  case refine_1 =>
    simp only [SYSTEM, List.forall_mem_cons, List.not_mem_nil, false_imp_iff, implies_true, and_true]
    simp only [applyEvent, eventChange, leavesTheInbox, ARCHIVED, UNREAD, SENT, INBOX, SPAM, TRASH, STARRED]
    by_cases h₁ : word label = "unread"
    · cases added <;> simp_all
    by_cases h₂ : word label = "archived"
    · cases added <;> simp_all
    by_cases h₃ : word label = "starred"
    · cases added <;> simp_all
    by_cases h₄ : word label = "spam"
    · cases added <;> simp_all [mem_putBack]
    by_cases h₅ : word label = "trash"
    · cases added <;> simp_all [mem_putBack]
    by_cases free : trim label = "" ∨ isReserved label
    · cases added <;> simp_all
    · have other : ∀ id ∈ SYSTEM, id ≠ trim label := fun id system eq =>
        free (.inr (by rw [← isReserved_trim, ← eq]; exact reserved_system id system))
      simp only [SYSTEM, List.forall_mem_cons, List.not_mem_nil, false_imp_iff, implies_true, and_true, UNREAD, SENT, INBOX,
        SPAM, TRASH, STARRED] at other
      cases added <;> simp_all
  case refine_2 =>
    intro l system
    rw [user]
    have kept := mem_toLocal_user (L := L) system
    simp only [SYSTEM, List.mem_cons, List.not_mem_nil, or_false, not_or, UNREAD, SENT, INBOX, SPAM, TRASH,
      STARRED] at system
    simp only [applyEvent, eventChange, leavesTheInbox, ARCHIVED, UNREAD, INBOX, SPAM, TRASH, STARRED]
    by_cases free : trim label = "" ∨ isReserved label
    · have unnamed := user_event label l free.symm
      by_cases h₁ : word label = "unread"
      · cases added <;> simp_all
      by_cases h₂ : word label = "archived"
      · cases added <;> simp_all
      by_cases h₃ : word label = "starred"
      · cases added <;> simp_all
      by_cases h₄ : word label = "spam" ∨ word label = "trash"
      · cases added <;> rcases h₄ with h₄ | h₄ <;> simp_all [mem_putBack]
      · cases added <;> simp_all
    · have named : User [label] l ↔ l = trim label := by
        rw [not_or, Bool.not_eq_true, ← isReserved_trim] at free
        constructor
        · rintro ⟨⟨x, mem, rfl⟩, -, -⟩
          rw [List.mem_singleton.mp mem]
        · rintro rfl
          exact ⟨⟨label, List.mem_singleton_self label, rfl⟩, free⟩
      have unreserved (w : String) (h : w ∈ RESERVED) : word label ≠ w :=
        fun eq => free (.inr (reserved_of_word eq h))
      have h₁ := unreserved "unread" (by decide)
      have h₂ := unreserved "archived" (by decide)
      have h₃ := unreserved "starred" (by decide)
      have h₄ := unreserved "spam" (by decide)
      have h₅ := unreserved "trash" (by decide)
      cases added
      · simp_all
      · simp_all [or_comm]

end Events

section Changes

-- A local label that a change made in the app can carry to AgentMail.
-- A name in capitals, such as a category's, is taken for one of the store's own.
def Carried (id : LabelId) : Prop :=
  id = INBOX ∨ id = UNREAD ∨ id = STARRED ∨ (createLabel id = some id ∧ isSystemId id = false)

theorem createLabel_eq_some {name : String} (h : createLabel name = some l) :
    trim name = l ∧ l ≠ "" ∧ isReserved l = false := by
  unfold createLabel at h
  split at h
  case isTrue => cases h
  case isFalse made =>
    cases h
    rw [not_or, Bool.not_eq_true] at made
    exact ⟨rfl, made⟩

variable {localOnly : Bool}

theorem mem_on : w ∈ (onOff localOnly l).1 ↔ (l = UNREAD ∧ w = "unread") ∨ (l = STARRED ∧ w = "starred") ∨
    (l = w ∧ isSystemId w = false ∧ isReserved w = false) := by
  have own : ∀ l ∈ [INBOX, UNREAD, STARRED], isReserved l = true := by decide
  have distinct : INBOX ≠ UNREAD ∧ INBOX ≠ STARRED ∧ UNREAD ≠ STARRED := by decide
  unfold onOff
  split
  case isTrue h =>
    subst h
    have unfree := own INBOX (by decide)
    split <;> grind
  case isFalse h =>
    split
    case isTrue h =>
      subst h
      have unfree := own UNREAD (by decide)
      grind
    case isFalse h =>
      split
      case isTrue h =>
        subst h
        have unfree := own STARRED (by decide)
        grind
      case isFalse h => split <;> grind

theorem mem_off : w ∈ (onOff localOnly l).2 ↔
    (l = INBOX ∧ localOnly = false ∧ w = ARCHIVED) ∨ (l = UNREAD ∧ w = "read") := by
  have distinct : INBOX ≠ UNREAD ∧ INBOX ≠ STARRED ∧ UNREAD ≠ STARRED := by decide
  unfold onOff
  grind

-- What of a change goes to AgentMail: Trash and Spam stay on this Mac, and so does leaving the Inbox for them.
def goes (add : List LabelId) (id : LabelId) : Bool :=
  id ≠ SPAM ∧ id ≠ TRASH ∧ (id = INBOX → TRASH ∉ add ∧ SPAM ∉ add)

-- A change that the app can make to a message.
structure Change (add remove : List LabelId) : Prop where
  can   : ∀ id ∈ add ++ remove, id = SPAM ∨ id = TRASH ∨ Carried id
  apart : ∀ id ∈ add, id ∉ remove

-- The labels asked for, on one side, from the ids on it and on the other.
def Asked (localOnly : Prop) (these those : List LabelId) (w : String) : Prop :=
  (UNREAD ∈ these ∧ w = "unread") ∨ (STARRED ∈ these ∧ w = "starred") ∨
    (w ∈ these ∧ isSystemId w = false ∧ isReserved w = false) ∨
    (INBOX ∈ those ∧ ¬localOnly ∧ w = ARCHIVED) ∨ (UNREAD ∈ those ∧ w = "read")

theorem mem_asked (localOnly : Bool) (these those : List LabelId) :
    w ∈ these.flatMap (fun id => (onOff localOnly id).1) ++ those.flatMap (fun id => (onOff localOnly id).2) ↔
      Asked (localOnly = true) these those w := by
  simp only [List.mem_append, List.mem_flatMap, mem_on, mem_off, Asked, Bool.not_eq_true]
  constructor
  · rintro (⟨a, mem, h⟩ | ⟨a, mem, h⟩)
    · obtain ⟨rfl, rfl⟩ | ⟨rfl, rfl⟩ | ⟨rfl, user⟩ := h
      · exact .inl ⟨mem, rfl⟩
      · exact .inr (.inl ⟨mem, rfl⟩)
      · exact .inr (.inr (.inl ⟨mem, user⟩))
    · obtain ⟨rfl, here, rfl⟩ | ⟨rfl, rfl⟩ := h
      · exact .inr (.inr (.inr (.inl ⟨mem, here, rfl⟩)))
      · exact .inr (.inr (.inr (.inr ⟨mem, rfl⟩)))
  · rintro (⟨mem, rfl⟩ | ⟨mem, rfl⟩ | ⟨mem, user⟩ | ⟨mem, here, rfl⟩ | ⟨mem, rfl⟩)
    · exact .inl ⟨_, mem, .inl ⟨rfl, rfl⟩⟩
    · exact .inl ⟨_, mem, .inr (.inl ⟨rfl, rfl⟩)⟩
    · exact .inl ⟨_, mem, .inr (.inr ⟨rfl, user⟩)⟩
    · exact .inr ⟨_, mem, .inl ⟨rfl, here, rfl⟩⟩
    · exact .inr ⟨_, mem, .inr ⟨rfl, rfl⟩⟩

theorem Asked.apart {localOnly : Prop} (apart : ∀ id ∈ add, id ∉ remove) (on : Asked localOnly add remove w) :
    ¬Asked localOnly remove add w := by
  have own : ∀ l ∈ ["unread", "starred", ARCHIVED, "read"], isReserved l = true := by decide
  have distinct : "unread" ≠ "starred" ∧ "unread" ≠ ARCHIVED ∧ "unread" ≠ "read" ∧ "starred" ≠ ARCHIVED ∧
      "starred" ≠ "read" ∧ ARCHIVED ≠ "read" := by decide
  simp only [List.forall_mem_cons] at own
  unfold Asked at *
  grind

theorem mem_toServer (change : Change add remove) :
    (w ∈ (toServer add remove).1 ↔ Asked (TRASH ∈ add ∨ SPAM ∈ add) add remove w) ∧
      (w ∈ (toServer add remove).2 ↔ Asked (TRASH ∈ add ∨ SPAM ∈ add) remove add w) := by
  have plus  := mem_asked (w := w) (decide (TRASH ∈ add ∨ SPAM ∈ add)) add remove
  have minus := mem_asked (w := w) (decide (TRASH ∈ add ∨ SPAM ∈ add)) remove add
  rw [List.mem_append, or_comm, ← List.mem_append] at minus
  rw [decide_eq_true_eq] at plus minus
  have disjoint (on : Asked (TRASH ∈ add ∨ SPAM ∈ add) add remove w) := Asked.apart change.apart on
  simp only [toServer, List.mem_filter, decide_eq_true_eq]
  rw [plus, minus]
  exact ⟨⟨And.left, fun on => ⟨on, disjoint on⟩⟩, ⟨And.left, fun off => ⟨off, fun on => disjoint on off⟩⟩⟩

variable {labels : List String} {these those : List LabelId} {stays : Prop}

theorem has_asked (asked : ∀ w, w ∈ labels ↔ Asked stays these those w) (reserved : w ∈ RESERVED) :
    has labels w = true ↔ (UNREAD ∈ these ∧ w = "unread") ∨ (STARRED ∈ these ∧ w = "starred") ∨
      (INBOX ∈ those ∧ ¬stays ∧ w = ARCHIVED) ∨ (UNREAD ∈ those ∧ w = "read") := by
  have own : word "unread" = "unread" ∧ word "starred" = "starred" ∧ word ARCHIVED = ARCHIVED ∧ word "read" = "read" := by
    decide
  simp only [has_iff, asked, Asked]
  constructor
  · rintro ⟨x, ⟨mem, rfl⟩ | ⟨mem, rfl⟩ | ⟨-, -, free⟩ | ⟨mem, here, rfl⟩ | ⟨mem, rfl⟩, eq⟩
    · exact .inl ⟨mem, eq.symm.trans own.1⟩
    · exact .inr (.inl ⟨mem, eq.symm.trans own.2.1⟩)
    · exact absurd (reserved_of_word eq reserved) (Bool.not_eq_true _ ▸ free)
    · exact .inr (.inr (.inl ⟨mem, here, eq.symm.trans own.2.2.1⟩))
    · exact .inr (.inr (.inr ⟨mem, eq.symm.trans own.2.2.2⟩))
  · rintro (⟨mem, rfl⟩ | ⟨mem, rfl⟩ | ⟨mem, here, rfl⟩ | ⟨mem, rfl⟩)
    · exact ⟨_, .inl ⟨mem, rfl⟩, own.1⟩
    · exact ⟨_, .inr (.inl ⟨mem, rfl⟩), own.2.1⟩
    · exact ⟨_, .inr (.inr (.inr (.inl ⟨mem, here, rfl⟩))), own.2.2.1⟩
    · exact ⟨_, .inr (.inr (.inr (.inr ⟨mem, rfl⟩))), own.2.2.2⟩

theorem user_asked (asked : ∀ w, w ∈ labels ↔ Asked stays these those w)
    (can : ∀ id ∈ these, id = SPAM ∨ id = TRASH ∨ Carried id) (other : l ∉ SYSTEM) : User labels l ↔ l ∈ these := by
  have own : ∀ l ∈ ["unread", "starred", ARCHIVED, "read"], isReserved (trim l) = true := by decide
  simp only [List.forall_mem_cons] at own
  obtain ⟨unread, starred, archived, read, -⟩ := own
  have carried (id : LabelId) (mem : id ∈ these) (free : isReserved id = false) :
      trim id = id ∧ id ≠ "" ∧ isSystemId id = false := by
    have system : id ∉ SYSTEM := fun system => Bool.false_ne_true (free.symm.trans (reserved_system id system))
    simp only [SYSTEM, List.mem_cons, List.not_mem_nil, or_false, not_or] at system
    obtain rfl | rfl | rfl | rfl | rfl | ⟨made, own⟩ := can id mem
    case inr.inr.inr.inr.inr =>
      obtain ⟨trimmed, named, -⟩ := createLabel_eq_some made
      exact ⟨trimmed, named, own⟩
    all_goals simp at system
  constructor
  · rintro ⟨⟨x, mem, rfl⟩, -, free⟩
    obtain ⟨-, rfl⟩ | ⟨-, rfl⟩ | ⟨mem, -, -⟩ | ⟨-, -, rfl⟩ | ⟨-, rfl⟩ := (asked x).mp mem
    case inr.inr.inl =>
      rw [isReserved_trim] at free
      rwa [(carried x mem free).1]
    all_goals simp [*] at free
  · intro mem
    have free : isReserved l = false := by
      simp only [SYSTEM, List.mem_cons, List.not_mem_nil, or_false, not_or] at other
      obtain h | h | h | h | h | ⟨made, -⟩ := can l mem
      case inr.inr.inr.inr.inr => exact (createLabel_eq_some made).2.2
      all_goals simp [h] at other
    obtain ⟨trimmed, named, own⟩ := carried l mem free
    exact ⟨⟨l, (asked l).mpr (.inr (.inr (.inl ⟨mem, own, free⟩))), trimmed⟩, named, free⟩

theorem change_agrees (change : Change add remove) (received : ¬has L "sent" = true)
    (inbox : INBOX ∈ add → ¬has L "spam" = true ∧ ¬has L "trash" = true)
    (once : SpelledOnce L (toServer add remove).2) :
    toLocal (relabelled L (toServer add remove).1 (toServer add remove).2) =
      (toLocal L ∪ (add.filter (goes add)).toFinset) \ (remove.filter (goes add)).toFinset := by
  have plus (w : String)  := (mem_toServer (w := w) change).1
  have minus (w : String) := (mem_toServer (w := w) change).2
  have after (w : String) (h : w ∈ RESERVED) :=
    (has_relabelled (toServer add remove).1 once h).trans
      (or_congr (and_congr_right' (not_congr (has_asked minus h))) (has_asked plus h))
  have user (l : LabelId) (other : l ∉ SYSTEM) :=
    (user_relabelled (toServer add remove).1 (l := l) once).trans
      (or_congr
        (and_congr_right' (not_congr (user_asked minus (fun id h => change.can id (List.mem_append_right _ h)) other)))
        (user_asked plus (fun id h => change.can id (List.mem_append_left _ h)) other))
  have unread   := after "unread" (by decide)
  have sent     := after "sent" (by decide)
  have archived := after ARCHIVED (by decide)
  have spam     := after "spam" (by decide)
  have trash    := after "trash" (by decide)
  have starred  := after "starred" (by decide)
  clear after
  generalize relabelled L (toServer add remove).1 (toServer add remove).2 = after at *
  have apart := change.apart
  have neverSent : SENT ∉ add ++ remove := by
    intro mem
    obtain eq | eq | eq | eq | eq | ⟨made, -⟩ := change.can SENT mem
    case inr.inr.inr.inr.inr => exact absurd (createLabel_eq_some made).2.2 (by decide)
    all_goals exact absurd eq (by decide)
  refine (toLocal_ext ?_ ?_).symm
  case refine_1 =>
    simp only [SYSTEM, List.forall_mem_cons, List.not_mem_nil, false_imp_iff, implies_true, and_true]
    simp only [Finset.mem_sdiff, Finset.mem_union, List.mem_toFinset, List.mem_filter]
    have apartInbox := apart INBOX
    have apartUnread := apart UNREAD
    have apartStarred := apart STARRED
    clear apart plus minus user once change
    simp only [ARCHIVED, UNREAD, SENT, INBOX, SPAM, TRASH, STARRED] at *
    simp [goes, INBOX, SPAM, TRASH] at *
    grind
  case refine_2 =>
    intro l other
    rw [user l other, Finset.mem_sdiff, Finset.mem_union, mem_toLocal_user other]
    have goes' : goes add l = true := by
      simp only [SYSTEM, List.mem_cons, List.not_mem_nil, or_false, not_or] at other
      simp [goes, other]
    simp only [List.mem_toFinset, List.mem_filter, goes', and_true]
    constructor
    · rintro ⟨here | put, kept⟩
      · exact .inl ⟨here, kept⟩
      · exact .inr put
    · rintro (⟨here, kept⟩ | put)
      · exact ⟨.inl here, kept⟩
      · exact ⟨.inr put, apart l put⟩

end Changes

-- A label event does to a message's local labels what the label does to AgentMail's, but for the bookkeeping label
-- `sent`, and `archived` taken off mail that is not in the Inbox anyway.
-- A change made in the app is what a later poll reads, but for what stays on this Mac.
theorem labels_mean_the_same :
    (∀ L label added, (added = false → SpelledOnce L [label]) → word label ≠ "sent" →
      (word label = ARCHIVED → added = false → ¬has L "sent" ∧ ¬has L "spam" ∧ ¬has L "trash") →
      applyEvent label added (afterEvent L label added) (toLocal L) = toLocal (afterEvent L label added)) ∧
    ∀ L add remove, Change add remove → ¬has L "sent" → (INBOX ∈ add → ¬has L "spam" ∧ ¬has L "trash") →
      SpelledOnce L (toServer add remove).2 →
      toLocal (relabelled L (toServer add remove).1 (toServer add remove).2) =
        (toLocal L ∪ (add.filter (goes add)).toFinset) \ (remove.filter (goes add)).toFinset :=
  ⟨fun _ _ _ once unsent inbox => event_agrees once unsent inbox,
    fun _ _ _ change received inbox once => change_agrees change received inbox once⟩

-- Mail in the Inbox, archived in the app.
theorem labels_mean_the_same_archived :
    toLocal (relabelled ["received", "unread"] (toServer [] [INBOX]).1 (toServer [] [INBOX]).2) =
        (toLocal ["received", "unread"] ∪ (([] : List LabelId).filter (goes [])).toFinset) \
          ([INBOX].filter (goes [])).toFinset ∧
      applyEvent "spam" false (afterEvent ["spam"] "spam" false) (toLocal ["spam"]) =
        toLocal (afterEvent ["spam"] "spam" false) := by
  constructor
  · refine labels_mean_the_same.2 _ _ _ ⟨?_, ?_⟩ (by decide) (by decide) ?_
    · intro id mem
      exact .inr (.inr (.inl (List.mem_singleton.mp mem)))
    · exact fun _ h => absurd h List.not_mem_nil
    · intro x mem
      exact absurd mem (by rw [show (toServer [] [INBOX]).2 = [] from by decide]; exact List.not_mem_nil)
  · refine labels_mean_the_same.1 _ _ _ (fun _ x hx y hy _ => ?_) (by decide) (by decide)
    rw [List.mem_singleton.mp hx, List.mem_singleton.mp hy]

-- Sent mail that loses `archived` comes to the Inbox by the event, and not by its labels;
-- a label in two spellings stays when one is taken off; and mail moved to Spam in the app is in the Inbox at AgentMail.
theorem labels_differ :
    (¬∀ L label added, applyEvent label added (afterEvent L label added) (toLocal L) = toLocal (afterEvent L label added)) ∧
      applyEvent "Spam" false (afterEvent ["Spam", "spam"] "Spam" false) (toLocal ["Spam", "spam"]) ≠
        toLocal (afterEvent ["Spam", "spam"] "Spam" false) ∧
      toLocal (relabelled ["received"] (toServer [SPAM] [INBOX]).1 (toServer [SPAM] [INBOX]).2) ≠
        (toLocal ["received"] ∪ {SPAM}) \ {INBOX} := by
  refine ⟨fun same => ?_, by decide, by decide⟩
  exact absurd (same ["sent", "archived"] "archived" false) (by decide)

end Kaluta.AgentMail
