import Kaluta.Guide.Entry
import Kaluta.Lib.Fallible
import Kaluta.Lib.Table
import Kaluta.Provider.Http

-- Looking for the message that an earlier attempt of a send left at AgentMail.
namespace Kaluta.AgentMail

open Guide (trim eqIgnoreAsciiCase)
open Provider (ProviderError Outgoing Answer agentMailSend)

def OUTBOX_HEADER        : String := "X-Kaluta-Outbox-Id"
def LEGACY_OUTBOX_HEADER : String := "X-OpenAGC-Outbox-Id"

def OVERLAP_MS : Int := 60 * 60 * 1000

def header (headers : List (String × String)) (name : String) : Option String :=
  (headers.find? fun h => eqIgnoreAsciiCase h.1 name).map (trim ·.2)

-- The outbox entry a sent message came from, under either name.
def outboxHeader (headers : List (String × String)) : Option String :=
  (header headers OUTBOX_HEADER).or (header headers LEGACY_OUTBOX_HEADER)

structure Message where
  messageId    : String
  timestamp    : Int
  subject      : Option String := none
  labels       : List String := []
  headers      : List (String × String) := []
  -- Whether a listing gives its headers; asked for itself, it has them.
  listsHeaders : Bool := true
  deriving DecidableEq

inductive Request
  | list (page : Nat)
  | get (messageId : String)

-- An inbox at AgentMail, newest message first, and the requests that it does not answer.
structure Inbox where
  messages : Table Message Message.messageId
  pageSize : Nat := 100
  down     : Request → Bool := fun _ => false

namespace Inbox

variable (inbox : Inbox)

def since (after : Int) : List Message :=
  inbox.messages.rows.filter (after ≤ ·.timestamp)

-- A page of the messages from `after` on, and whether another follows.
def list (after : Int) (page : Nat) : Except ProviderError (List Message × Bool) :=
  if inbox.down (.list page) then .error .network
  else
    let rest := (inbox.since after).drop (page * inbox.pageSize)
    .ok (rest.take inbox.pageSize, inbox.pageSize < rest.length)

def get (messageId : String) : Except ProviderError Message :=
  if inbox.down (.get messageId) then .error .network
  else match inbox.messages.find? messageId with
    | some m => .ok m
    | none   => .error (.notFound "")

end Inbox

variable (outboxId subject : String)

-- The entry a listing shows a message to be of.
def Message.shown (m : Message) : Option String :=
  if m.listsHeaders then outboxHeader m.headers else none

-- A message without the header in the listing that could be this send.
def Message.couldBe (m : Message) : Bool :=
  m.shown = none ∧ trim (m.subject.getD "") = trim subject ∧ ¬m.labels.any (eqIgnoreAsciiCase · "received")

-- Goes through listed messages: the one that shows the entry, or else those that could be it.
def scan : List Message → List String → String ⊕ List String
  | []     , candidates => .inr candidates
  | m :: ms, candidates =>
    if m.shown = some outboxId then .inl m.messageId
    else scan ms (if m.couldBe subject then candidates ++ [m.messageId] else candidates)

-- Goes through some pages, from one on.
def scanPages (inbox : Inbox) (after : Int) : Nat → Nat → List String → Except ProviderError (String ⊕ List String)
  | 0    , _   , candidates => .ok (.inr candidates)
  | n + 1, page, candidates => do
    let (messages, more) ← inbox.list after page
    match scan outboxId subject messages candidates with
    | .inl found      => .ok (.inl found)
    | .inr candidates => if more then scanPages inbox after n (page + 1) candidates else .ok (.inr candidates)

def getFirst (inbox : Inbox) : List String → Except ProviderError (Option String)
  | []        => .ok none
  | id :: ids =>
    match inbox.get id with
    | .error (.notFound _) => getFirst inbox ids
    | .error e             => .error e
    | .ok full             =>
      if outboxHeader full.headers = some outboxId then .ok (some full.messageId) else getFirst inbox ids

def findSent (inbox : Inbox) (queued now : Int) : Except ProviderError (Option String) := do
  match ← scanPages outboxId subject inbox (min queued now - OVERLAP_MS) 3 0 [] with
  | .inl found      => .ok (some found)
  | .inr candidates => getFirst outboxId inbox (candidates.take 10)

end Kaluta.AgentMail

-- For which inboxes the lookup of an earlier send is exact.
namespace Kaluta.AgentMail

open Provider (ProviderError Outgoing Answer agentMailSend)

variable {inbox : Inbox} {outboxId subject : String} {after : Int} {messages : List Message} {candidates : List String}
  {found : String}

-- Whether a message is of an outbox entry.
def Message.isOf (outboxId : String) (m : Message) : Prop :=
  outboxHeader m.headers = some outboxId

theorem Message.isOf_of_shown {m : Message} (h : m.shown = some outboxId) : m.isOf outboxId := by
  unfold shown at h
  split at h
  case isTrue  => exact h
  case isFalse => cases h

attribute [grind =] scan scanPages getFirst

section Scan

theorem scan_append {more : List Message} : scan outboxId subject (messages ++ more) candidates =
    match scan outboxId subject messages candidates with
    | .inl found      => .inl found
    | .inr candidates => scan outboxId subject more candidates := by
  induction messages generalizing candidates with
  | nil => rfl
  | cons m ms ih =>
    simp only [List.cons_append, scan]
    split
    case isTrue  => rfl
    case isFalse => exact ih

theorem scan_inl (h : scan outboxId subject messages candidates = .inl found) :
    ∃ m ∈ messages, m.messageId = found ∧ m.shown = some outboxId := by
  induction messages generalizing candidates with
  | nil => cases h
  | cons m ms ih =>
    rw [scan] at h
    split at h
    case isTrue shown => cases h; exact ⟨m, List.mem_cons_self, rfl, shown⟩
    case isFalse =>
      obtain ⟨m', mem, rest⟩ := ih h
      exact ⟨m', List.mem_cons_of_mem _ mem, rest⟩

theorem scan_inr {candidates' : List String} (h : scan outboxId subject messages candidates = .inr candidates') :
    (∀ m ∈ messages, m.shown ≠ some outboxId) ∧
      candidates' = candidates ++ (messages.filter (·.couldBe subject)).map Message.messageId := by
  induction messages generalizing candidates with
  | nil => cases h; exact ⟨fun _ mem => absurd mem List.not_mem_nil, (List.append_nil _).symm⟩
  | cons m ms ih =>
    rw [scan] at h
    split at h
    case isTrue => cases h
    case isFalse hidden =>
      obtain ⟨none, rfl⟩ := ih h
      refine ⟨List.forall_mem_cons.mpr ⟨hidden, none⟩, ?_⟩
      by_cases could : m.couldBe subject
      · simp [could]
      · simp [could]

end Scan

section Pages

-- The messages that some pages hold, from one on.
def pages (inbox : Inbox) (after : Int) (n page : Nat) : List Message :=
  ((inbox.since after).drop (page * inbox.pageSize)).take (n * inbox.pageSize)

theorem pages_succ (n page : Nat) : pages inbox after (n + 1) page =
    ((inbox.since after).drop (page * inbox.pageSize)).take inbox.pageSize ++ pages inbox after n (page + 1) := by
  simp only [pages, Nat.succ_mul]
  rw [Nat.add_comm (n * inbox.pageSize), List.take_add, List.drop_drop]

-- What is answered, when all requests are.
theorem scanPages_ok {n page : Nat} {r : String ⊕ List String}
    (h : scanPages outboxId subject inbox after n page candidates = .ok r) :
    scan outboxId subject (pages inbox after n page) candidates = r := by
  induction n generalizing page candidates with
  | zero => cases h; simp [pages, scan]
  | succ n ih =>
    obtain ⟨⟨messages, more⟩, listed, h⟩ := Except.bind_eq_ok.mp h
    unfold Inbox.list at listed
    split at listed
    case isTrue => cases listed
    case isFalse =>
      cases listed
      rw [pages_succ, scan_append]
      dsimp only at h
      cases eq : scan outboxId subject (((inbox.since after).drop (page * inbox.pageSize)).take inbox.pageSize) candidates with
      | inl found => rw [eq] at h; cases h; rfl
      | inr rest =>
        rw [eq] at h
        dsimp only at h ⊢
        split at h
        case isTrue => exact ih h
        case isFalse last =>
          cases h
          rw [decide_eq_true_eq, Nat.not_lt, List.length_drop] at last
          have none : pages inbox after n (page + 1) = [] := by
            rw [pages, Nat.succ_mul, List.drop_eq_nil_of_le (by omega), List.take_nil]
          rw [none]
          rfl

theorem scanPages_up (up : inbox.down = fun _ => false) (n page : Nat) :
    scanPages outboxId subject inbox after n page candidates =
      .ok (scan outboxId subject (pages inbox after n page) candidates) := by
  cases eq : scanPages outboxId subject inbox after n page candidates with
  | ok r => rw [scanPages_ok eq]
  | error e =>
    exfalso
    induction n generalizing page candidates with
    | zero => cases eq
    | succ n ih =>
      rcases Except.bind_eq_error.mp eq with failed | ⟨⟨messages, more⟩, -, eq⟩
      · simp [Inbox.list, up] at failed
      · dsimp only at eq
        split at eq
        case h_1 => cases eq
        case h_2 =>
          split at eq
          case isTrue  => exact ih _ eq
          case isFalse => cases eq

end Pages

section Get

theorem getFirst_some {ids : List String} (h : getFirst outboxId inbox ids = .ok (some found)) :
    ∃ m ∈ inbox.messages, m.messageId ∈ ids ∧ m.messageId = found ∧ m.isOf outboxId := by
  induction ids with
  | nil => cases h
  | cons id ids ih =>
    have later (h : getFirst outboxId inbox ids = .ok (some found)) :
        ∃ m ∈ inbox.messages, m.messageId ∈ id :: ids ∧ m.messageId = found ∧ m.isOf outboxId :=
      (ih h).imp fun m hm => ⟨hm.1, List.mem_cons_of_mem id hm.2.1, hm.2.2⟩
    rw [getFirst] at h
    split at h
    case h_1 => exact later h
    case h_2 => cases h
    case h_3 full got =>
      split at h
      case isFalse => exact later h
      case isTrue own =>
        cases h
        unfold Inbox.get at got
        split at got
        case isTrue => cases got
        case isFalse =>
          split at got <;> cases got
          rename_i here
          exact ⟨full, Table.find?_mem here, Table.find?_key_eq here ▸ List.mem_cons_self, rfl, own⟩

theorem getFirst_none {ids : List String} (h : getFirst outboxId inbox ids = .ok none) :
    ∀ m ∈ inbox.messages, m.messageId ∈ ids → ¬m.isOf outboxId := by
  induction ids with
  | nil => exact fun _ _ mem => absurd mem List.not_mem_nil
  | cons id ids ih =>
    intro m mem listed
    rw [getFirst] at h
    rcases List.mem_cons.mp listed with rfl | listed
    case inr =>
      split at h
      case h_1 => exact ih h m mem listed
      case h_2 => cases h
      case h_3 =>
        split at h
        case isTrue  => cases h
        case isFalse => exact ih h m mem listed
    case inl =>
      unfold Inbox.get at h
      rw [Table.find?_key mem] at h
      split at h
      case h_1 got => split at got <;> cases got
      case h_2 => cases h
      case h_3 full got =>
        split at got <;> cases got
        split at h
        case isTrue        => cases h
        case isFalse other => exact other

theorem getFirst_up (up : inbox.down = fun _ => false) (ids : List String) :
    ∃ r, getFirst outboxId inbox ids = .ok r := by
  induction ids with
  | nil => exact ⟨_, rfl⟩
  | cons id ids ih =>
    obtain ⟨r, ih⟩ := ih
    cases here : inbox.messages.find? id with
    | none   => exact ⟨r, by simp [getFirst, Inbox.get, up, here, ih]⟩
    | some m =>
      by_cases own : outboxHeader m.headers = some outboxId
      · exact ⟨some m.messageId, by simp [getFirst, Inbox.get, up, here, own]⟩
      · exact ⟨r, by simp [getFirst, Inbox.get, up, here, own, ih]⟩

end Get

-- What is looked for from the queueing on, an hour taken off for clocks.
def sinceQueued (queued now : Int) : Int :=
  min queued now - OVERLAP_MS

-- Whatever requests fail, a lookup that is answered finds the entry's message when the inbox holds it, and no other;
-- and a send that looks first puts nothing out then.
def Exact (inbox : Inbox) (outboxId subject : String) (queued now : Int) : Prop :=
  ∀ down, let lookup := findSent outboxId subject { inbox with down } queued now
    (∀ found, lookup = .ok (some found) → ∃ m ∈ inbox.messages, m.messageId = found ∧ m.isOf outboxId) ∧
    ((∃ m ∈ inbox.messages, m.isOf outboxId) → lookup ≠ .ok none ∧
      ∀ (m : Outgoing) answers server, (agentMailSend lookup m answers server).server.out = server.out)

-- The messages a lookup reads: three pages of the newest.
def window (inbox : Inbox) (queued now : Int) : List Message :=
  (inbox.since (sinceQueued queued now)).take (3 * inbox.pageSize)

-- The entry's message is among the newest, and the listing shows whose it is;
-- or it is among the first ten that the listing shows nothing of and that have the entry's subject.
def Within (inbox : Inbox) (outboxId subject : String) (queued now : Int) : Prop :=
  (∃ m ∈ window inbox queued now, m.shown = some outboxId) ∨
    ∃ m ∈ ((window inbox queued now).filter (·.couldBe subject)).take 10, m.isOf outboxId

theorem window_mem {queued now : Int} {m : Message} (mem : m ∈ window inbox queued now) : m ∈ inbox.messages :=
  (List.mem_filter.mp (List.mem_of_mem_take mem)).1

theorem pages_window {queued now : Int} (down : Request → Bool) :
    pages { inbox with down } (sinceQueued queued now) 3 0 = window inbox queued now := by
  rw [pages, window, Nat.zero_mul, List.drop_zero]
  rfl

theorem findSent_some {queued now : Int} {down : Request → Bool}
    (h : findSent outboxId subject { inbox with down } queued now = .ok (some found)) :
    (∃ m ∈ inbox.messages, m.messageId = found ∧ m.isOf outboxId) ∧ Within inbox outboxId subject queued now := by
  obtain ⟨r, scanned, h⟩ := Except.bind_eq_ok.mp h
  have scanned := scanPages_ok scanned
  rw [← sinceQueued, pages_window] at scanned
  cases r with
  | inl found =>
    cases h
    obtain ⟨m, mem, id, shown⟩ := scan_inl scanned
    exact ⟨⟨m, window_mem mem, id, Message.isOf_of_shown shown⟩, .inl ⟨m, mem, shown⟩⟩
  | inr candidates =>
    dsimp only at h
    obtain ⟨-, rfl⟩ := scan_inr scanned
    obtain ⟨m, mem, listed, id, own⟩ := getFirst_some h
    refine ⟨⟨m, mem, id, own⟩, .inr ?_⟩
    rw [List.nil_append, ← List.map_take] at listed
    obtain ⟨m', mem', same⟩ := List.mem_map.mp listed
    have here := window_mem (List.mem_filter.mp (List.mem_of_mem_take mem')).1
    exact ⟨m', mem', Table.eq_of_key_eq here mem same ▸ own⟩

theorem findSent_none {queued now : Int} {down : Request → Bool}
    (h : findSent outboxId subject { inbox with down } queued now = .ok none) :
    ¬Within inbox outboxId subject queued now := by
  obtain ⟨r, scanned, h⟩ := Except.bind_eq_ok.mp h
  have scanned := scanPages_ok scanned
  rw [← sinceQueued, pages_window] at scanned
  cases r with
  | inl found => cases h
  | inr candidates =>
    obtain ⟨hidden, rfl⟩ := scan_inr scanned
    rintro (⟨m, mem, shown⟩ | ⟨m, mem, own⟩)
    · exact hidden m mem shown
    · have listed := window_mem (List.mem_filter.mp (List.mem_of_mem_take mem)).1
      refine getFirst_none h m listed ?_ own
      rw [List.nil_append, ← List.map_take]
      exact List.mem_map_of_mem mem

theorem findSent_up (outboxId subject : String) (inbox : Inbox) (queued now : Int) :
    ∃ r, findSent outboxId subject { inbox with down := fun _ => false } queued now = .ok r := by
  unfold findSent
  rw [scanPages_up rfl]
  cases scan outboxId subject _ [] with
  | inl found      => exact ⟨_, rfl⟩
  | inr candidates => exact getFirst_up rfl _

-- When the lookup of an earlier send is exact.
theorem lookup_exact_iff (inbox : Inbox) (outboxId subject : String) (queued now : Int) :
    Exact inbox outboxId subject queued now ↔
      ((∃ m ∈ inbox.messages, m.isOf outboxId) → Within inbox outboxId subject queued now) := by
  constructor
  · intro exact_ left
    obtain ⟨r, answered⟩ := findSent_up outboxId subject inbox queued now
    cases r with
    | some found => exact (findSent_some answered).2
    | none       => exact absurd answered ((exact_ fun _ => false).2 left).1
  · intro within down
    refine ⟨fun found h => (findSent_some h).1, fun left => ?_⟩
    have found : findSent outboxId subject { inbox with down } queued now ≠ .ok none :=
      fun none => findSent_none none (within left)
    refine ⟨found, fun m answers server => ?_⟩
    unfold agentMailSend
    split
    case h_1 => rfl
    case h_2 => rfl
    case h_3 none => exact absurd none found

-- A message of the inbox sent with a subject, of some entry.
def sent (n : Nat) (outboxId : String) : Message where
  messageId    := toString n
  timestamp    := n
  subject      := some "Report"
  labels       := ["sent"]
  headers      := [(OUTBOX_HEADER, outboxId)]
  listsHeaders := false

-- The entry's message, and ten sent later with its subject. The listing leaves the headers out.
def crowded : Inbox where
  messages := ⟨(List.range 10).map (fun n => sent (20 - n) "another") ++ [sent 1 "entry"], by decide⟩

theorem lookup_inexact : ¬∀ inbox outboxId subject queued now, Exact inbox outboxId subject queued now := by
  intro exact_
  have missed : (findSent "entry" "Report" crowded 1 30).toOption = some none := by decide +kernel
  have left : sent 1 "entry" ∈ crowded.messages ∧ (sent 1 "entry").isOf "entry" :=
    ⟨List.mem_append_right _ (List.mem_singleton_self _), by unfold Message.isOf; decide⟩
  have found := ((exact_ crowded "entry" "Report" 1 30 fun _ => false).2 ⟨_, left⟩).1
  cases lookup : findSent "entry" "Report" crowded 1 30 with
  | error _ =>
    rw [lookup] at missed
    cases missed
  | ok r =>
    rw [lookup] at missed
    cases missed
    exact found lookup

end Kaluta.AgentMail
