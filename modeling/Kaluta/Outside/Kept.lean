import Kaluta.Lib.Fallible
import Kaluta.Outside.Send

-- What the store's transactions keep of drafts, and what a call composes.
namespace Kaluta.Outside

open Guide (Unicode)

-- What a message says, and to whom.
structure Content where
  «to»    : List EmailAddress
  cc      : List EmailAddress
  bcc     : List EmailAddress
  subject : String
  html    : String
  deriving DecidableEq

def contentOf (d : DraftRecord) : Content where
  «to»    := d.to
  cc      := d.cc
  bcc     := d.bcc
  subject := d.subject
  html    := d.bodyHtml ++ d.quotedHtml

def OutboxCarries (op : OutboxOp) (content : Content) : Prop :=
  ∃ draftId raw threadId localId, op = .send draftId raw threadId localId ∧
    (⟨raw.to, raw.cc, raw.bcc, raw.subject, raw.html⟩ : Content) = content

section Rows

variable {db db' : Db} {id : Rowid} {saved : Option Rowid}

-- The drafts are those there were, but for one that is saved.
structure Keeps (db db' : Db) (saved : Option Rowid) : Prop where
  row : ∀ row' ∈ db'.drafts, saved ≠ some row'.id →
    ∃ row ∈ db.drafts, row.id = row'.id ∧ contentOf row.record = contentOf row'.record

theorem Keeps.of_eq (h : db'.drafts = db.drafts) : Keeps db db' saved :=
  ⟨fun row' mem _ => ⟨row', h ▸ mem, rfl, rfl⟩⟩

theorem Keeps.of_subset (h : ∀ row ∈ db'.drafts, row ∈ db.drafts) : Keeps db db' saved :=
  ⟨fun row' mem _ => ⟨row', h row' mem, rfl, rfl⟩⟩

theorem Keeps.trans {db'' : Db} (h : Keeps db db' none) (h' : Keeps db' db'' none) : Keeps db db'' none := by
  refine ⟨fun row'' mem _ => ?_⟩
  obtain ⟨row', mem', id', content'⟩ := h'.row row'' mem nofun
  obtain ⟨row, mem, id, content⟩ := h.row row' mem' nofun
  exact ⟨row, mem, id.trans id', content.trans content'⟩

theorem keeps_update {p : DraftRow → Bool} {f : DraftRow → DraftRow} {hf : ∀ row, (f row).id = row.id}
    (same : ∀ row, contentOf (f row).record = contentOf row.record) :
    Keeps db { db with drafts := db.drafts.update p f hf } saved := by
  refine ⟨fun row' (mem : row' ∈ db.drafts.update p f hf) _ => ?_⟩
  obtain ⟨kept, _⟩ | ⟨row, kept, _, rfl⟩ := Table.mem_update.mp mem
  case inl => exact ⟨row', kept, rfl, rfl⟩
  case inr => exact ⟨row, kept, (hf row).symm, (same row).symm⟩

theorem mem_setDraft {f : DraftRow → DraftRow} {hf : ∀ row, (f row).id = row.id} {row : DraftRow}
    (mem : row ∈ (db.setDraft id f hf).drafts) : row ∈ db.drafts ∨ row.id = id := by
  have mem : row ∈ db.drafts.update (·.id = id) f hf := mem
  obtain ⟨kept, _⟩ | ⟨row₀, _, is, rfl⟩ := Table.mem_update.mp mem
  case inl => exact .inl kept
  case inr => exact .inr ((hf row₀).trans (of_decide_eq_true is))

theorem keeps_setDraftState {state : DraftState} {error : Option String} :
    Keeps db (db.setDraftState id state error) saved :=
  keeps_update fun _ => rfl

theorem keeps_discardDraft {now : Millis} : Keeps db (db.discardDraft id now) saved := by
  refine .of_subset fun row mem => ?_
  unfold Db.discardDraft at mem
  split at mem
  case _ => exact mem
  case _ =>
    dsimp only at mem
    split at mem <;> exact (Table.mem_delete.mp mem).1

theorem not_mem_discardDraft {now : Millis} : ∀ row ∈ (db.discardDraft id now).drafts, row.id ≠ id := by
  intro row mem
  unfold Db.discardDraft at mem
  split at mem
  case _ absent    => exact Table.find?_eq_none_iff.mp absent row mem
  case _ =>
    dsimp only at mem
    split at mem <;> simpa using (Table.mem_delete.mp mem).2

theorem keeps_complete : Keeps db (db.complete id) saved := by
  unfold Db.complete
  split
  case _ => exact .of_eq rfl
  case _ row _ =>
    dsimp only
    split
    case _ draftId _ _ _ _ =>
      have keeps : Keeps db (db.discardDraft draftId row.createdAt) saved := keeps_discardDraft
      exact ⟨keeps.row⟩
    case _ => exact .of_eq rfl

theorem keeps_fail {error : String} {changes : ThreadChanges} (h : db.fail id error = .ok (db', changes)) :
    Keeps db db' saved := by
  unfold Db.fail at h
  split at h
  case _ => cases h
  case _ row _ =>
    obtain ⟨w, _, h⟩ := Except.bind_eq_ok.mp h
    obtain ⟨⟨mail, changes'⟩, _, h⟩ := Except.bind_eq_ok.mp h
    cases h
    split
    case _ draftId _ _ _ _ =>
      have keeps : Keeps db (db.setDraftState draftId .failed (some error)) saved := keeps_setDraftState
      exact ⟨keeps.row⟩
    case _ => exact .of_eq rfl

theorem keeps_cancelSend {now : Millis} {changes : Option ThreadChanges}
    (h : db.cancelSend id now = .ok (db', changes)) : Keeps db db' saved := by
  unfold Db.cancelSend at h
  split at h
  case _ => cases h; exact .of_eq rfl
  case _ =>
    split at h
    case _ =>
      obtain ⟨⟨mail, changes'⟩, _, h⟩ := Except.bind_eq_ok.mp h
      cases h
      have keeps : Keeps db (db.setDraftState id .editing none) saved := keeps_setDraftState
      exact ⟨keeps.row⟩
    case _ => cases h; exact .of_eq rfl

theorem keeps_setGmailDraftId {g : Option String} (h : db.setGmailDraftId id g = .ok db') : Keeps db db' saved := by
  unfold Db.setGmailDraftId at h
  split at h
  case _ => cases h
  case _ => cases h; exact keeps_update fun _ => rfl

-- Saving writes the draft of one row: a new one, or one that is there.
theorem saveDraft_ok {d : DraftRecord} {now : Millis} (h : db.saveDraft d now = .ok (db', id)) :
    id = (if d.id = 0 then db.drafts.nextRowid else d.id) ∧ Keeps db db' (some id) ∧
      (d.id ≠ 0 → ∃ row ∈ db.drafts, row.id = id) ∧
        ∀ row ∈ db'.drafts, row.id = id → d.id = 0 → contentOf row.record = contentOf d := by
  unfold Db.saveDraft at h
  split at h
  case isTrue new =>
    cases h
    refine ⟨(if_pos new).symm, ⟨fun row mem ne => ?_⟩, fun old => absurd new old, fun row mem same _ => ?_⟩
    case refine_1 =>
      obtain mem | rfl := Table.mem_insertRow.mp mem
      case inl => exact ⟨row, mem, rfl, rfl⟩
      case inr => exact absurd rfl ne
    case refine_2 =>
      obtain mem | rfl := Table.mem_insertRow.mp mem
      case inl => exact absurd same (Table.lt_nextRowid mem).ne
      case inr => simp [contentOf]
  case isFalse old =>
    split at h
    case _ => cases h
    case _ row found =>
      split at h
      case isTrue  => cases h
      case isFalse =>
        cases h
        refine ⟨(if_neg old).symm, ⟨fun row mem ne => ?_⟩, fun _ => ?_, fun _ _ _ new => absurd new old⟩
        case refine_1 =>
          obtain mem | is := mem_setDraft mem
          case inl => exact ⟨row, mem, rfl, rfl⟩
          case inr => exact absurd (congrArg some is.symm) ne
        case refine_2 => exact ⟨row, Table.find?_mem found, Table.find?_key_eq found⟩

theorem Change.keeps {change : Change} (h : change.apply db = .ok db') : Keeps db db' (change.saves db) := by
  cases change <;> simp only [Change.apply] at h
  case save d now =>
    obtain ⟨⟨_, id⟩, saved, rfl⟩ := Except.map_eq_ok.mp h
    obtain ⟨rfl, keeps, _⟩ := saveDraft_ok saved
    exact keeps
  case discard => cases h; exact keeps_discardDraft
  case cancelSend =>
    obtain ⟨_, cancelled, rfl⟩ := Except.map_eq_ok.mp h
    exact keeps_cancelSend cancelled
  case enqueue =>
    split at h
    case isTrue  => cases h
    case isFalse => cases h; exact .of_eq rfl
  case claimNext =>
    cases h
    refine .of_eq ?_
    unfold Db.claimNext
    split
    case isTrue  => rfl
    case isFalse => split <;> rfl
  case recoverInFlight  => cases h; exact .of_eq rfl
  case releaseHeldSends => cases h; exact .of_eq rfl
  case complete         => cases h; exact keeps_complete
  case retryLater       => cases h; exact .of_eq rfl
  case fail =>
    obtain ⟨_, failed, rfl⟩ := Except.map_eq_ok.mp h
    exact keeps_fail failed
  case takeDirty       => cases h; exact keeps_update fun _ => rfl
  case setGmailDraftId => exact keeps_setGmailDraftId h
  case mail            => cases h; exact .of_eq rfl

theorem keeps_push [Mime] {f : Frozen} (h : push db f = .ok db') : Keeps db db' none := by
  unfold push at h
  obtain ⟨w, _, h⟩ := Except.bind_eq_ok.mp h
  obtain ⟨⟨mail, changes⟩, _, h⟩ := Except.bind_eq_ok.mp h
  have kept : Keeps db (db.setDraftState f.draftId .sending none) none := keeps_setDraftState
  have sending : Keeps db ({ db with mail }.setDraftState f.draftId .sending none) none := ⟨kept.row⟩
  dsimp only at h
  split at h
  case isTrue  => cases h; exact ⟨sending.row⟩
  case isFalse => cases h; exact sending.trans keeps_discardDraft

-- A draft is frozen as it is stored.
theorem freeze_ok [Mime] {route : Route} {drawn : Drawn} {f : Frozen} (h : freeze db id route drawn = .ok f) :
    f.queue = route.queue ∧ f.draftId = id ∧
      ∃ row ∈ db.drafts, row.id = id ∧ OutboxCarries f.op (contentOf row.record) := by
  unfold freeze at h
  split at h
  case _ => cases h
  case _ draft found =>
    split at h
    case isTrue  => cases h
    case isFalse =>
      obtain ⟨m, made, h⟩ := Except.bind_eq_ok.mp h
      dsimp only at h
      split at h
      case isFalse => cases h
      cases h
      obtain ⟨row, stored, rfl⟩ := Option.map_eq_some_iff.mp found
      refine ⟨rfl, rfl, row, Table.find?_mem stored, Table.find?_key_eq stored, _, _, _, _, rfl, ?_⟩
      obtain ⟨attached, _, made⟩ := Except.bind_eq_ok.mp made
      cases made
      rfl

end Rows

section Asks

theorem addresses_some {l : List String} {to_ : Option (List EmailAddress)} (h : addresses (some l) = .ok to_) :
    ∃ as, to_ = some as ∧ l.mapM parseAddress = .ok as := by
  obtain ⟨as, parsed, rfl⟩ := Except.map_eq_ok.mp h
  exact ⟨as, rfl, parsed⟩

theorem fill_ok [Mime] {a : CreateDraftArgs} {base draft : DraftRecord} (h : fill a base = .ok draft) :
    ∃ to_ cc, addresses a.to = .ok to_ ∧ addresses a.cc = .ok cc ∧ draft = { base with
      «to»     := to_.getD base.to
      cc       := cc.getD base.cc
      subject  := a.subject.getD base.subject
      bodyHtml := markdownToHtml a.bodyMarkdown } := by
  obtain ⟨to_, parsed, h⟩ := Except.bind_eq_ok.mp h
  obtain ⟨cc, parsed', h⟩ := Except.bind_eq_ok.mp h
  cases h
  exact ⟨to_, cc, parsed, parsed', rfl⟩

theorem mapError_ok {α : Type u} {ε ε' : Type} {f : ε → ε'} {x : Except ε α} {a : α} (h : x.mapError f = .ok a) : x = .ok a := by
  cases x <;> cases h
  rfl

variable [Unicode] [Mime]

-- What the arguments of a call make of its message: a reply goes by the message it answers.
def Arguments.Asks : Arguments → Content → Prop
  | send to_ cc subject body, content =>
    to_.mapM parseAddress = .ok content.to ∧ cc.mapM parseAddress = .ok content.cc ∧ content.bcc = [] ∧
      content.subject = subject ∧ content.html = markdownToHtml body
  | reply id body all, content =>
    ∃ parent me base, parent.id = id ∧ replyDraft parent all me = .ok base ∧ content.to = base.to ∧
      content.cc = base.cc ∧ content.bcc = [] ∧ content.subject = base.subject ∧
      content.html = markdownToHtml body ++ base.quotedHtml

-- What a call asks for, if its arguments can be read.
def Wants (arguments : Except String Arguments) (content : Content) : Prop :=
  ∃ a, arguments = .ok a ∧ a.Asks content

theorem replyDraft_ok {parent : Parent} {all : Bool} {me : List String} {draft : DraftRecord}
    (h : replyDraft parent all me = .ok draft) : draft.id = 0 ∧ draft.bcc = [] := by
  obtain ⟨subject, _, h⟩ := Except.bind_eq_ok.mp h
  cases h
  exact ⟨rfl, rfl⟩

-- What is composed is new, and what the call asks for.
theorem compose_ok {s : State} {c : Call} {a : Arguments} {fault : Option CoreError} {draft : DraftRecord}
    (h : s.compose c a.draft fault = .ok draft) : draft.id = 0 ∧ a.Asks (contentOf draft) := by
  unfold State.compose at h
  cases a
  case send to_ cc subject body =>
    obtain ⟨to', cc', parsed, parsed', rfl⟩ := fill_ok h
    obtain ⟨as, rfl, is⟩ := addresses_some parsed
    obtain ⟨bs, rfl, is'⟩ := addresses_some parsed'
    refine ⟨rfl, is, is', rfl, rfl, ?_⟩
    simp [contentOf, Arguments.draft]
  case reply id body all =>
    dsimp only [Arguments.draft] at h
    split at h
    case _ none_     => cases none_
    case _           => cases h
    case _ id' is =>
      obtain rfl := Option.some.inj is
      split at h
      case _ => cases h
      case _ parent found =>
        split at h
        case isTrue  => cases h
        case isFalse =>
          split at h
          case isTrue  => cases h
          case isFalse =>
            obtain ⟨base, replied, h⟩ := Except.bind_eq_ok.mp h
            obtain ⟨to_, cc, parsed, parsed', rfl⟩ := fill_ok h
            cases parsed
            cases parsed'
            have replied := mapError_ok replied
            obtain ⟨new, bcc⟩ := replyDraft_ok replied
            exact ⟨new, parent, _, base, Table.find?_key_eq found, replied, rfl, rfl, bcc, rfl, rfl⟩

end Asks

end Kaluta.Outside
