import Kaluta.Lib.Overwrite
import Kaluta.Store.Checked

namespace Kaluta

namespace Store

variable {s s' : Store} {id id' : String} {ids : List LabelId} {message : Rowid}

-- What a store is for: each stored message with the labels it has.
def mailbox (s : Store) (id : MessageId) : Option (Set LabelId) :=
  (s.message? id).map fun row => { g | s.hasLabel row.id g }

def threadOf (s : Store) (id : MessageId) : Option ThreadId :=
  (s.message? id).bind fun row => s.threadIdOf row.threadId

theorem mailbox_eq_none : s.mailbox id = none ↔ s.message? id = none := by
  simp [mailbox]

theorem mailbox_of_message? (h : s.message? id = some row) :
    s.mailbox id = some { g | s.hasLabel row.id g } := by
  rw [mailbox, h, Option.map_some]

theorem SameMail.mailbox (h : SameMail s s') : s'.mailbox = s.mailbox := by
  funext id
  simp only [Store.mailbox, message?, hasLabel, h.labels, h.messages, h.messageLabels]

theorem SameMail.threadOf (h : SameMail s s') : s'.threadOf = s.threadOf := by
  funext id
  have : s'.message? id = s.message? id := by simp only [message?, h.messages]
  simp only [Store.threadOf, this]
  cases hm : s.message? id
  case none     => rfl
  case some row => exact h.threadIds row (List.mem_of_find?_eq_some hm)

-- The Archive's label, which no write takes away.
def HasArchive (s : Store) : Prop :=
  ∃ l ∈ s.labels, l.gmailId = ARCHIVE_LABEL ∧ l.kind = .virtual

theorem HasArchive.mono (h : s.HasArchive) (hl : ∀ l ∈ s.labels, l ∈ s'.labels) : s'.HasArchive :=
  h.imp fun l ⟨hm, ha⟩ => ⟨hl l hm, ha⟩

theorem HasArchive.exists (h : s.HasArchive) : ∃ l ∈ s.labels, l.gmailId = ARCHIVE_LABEL :=
  h.imp fun _ ⟨hm, ha, _⟩ => ⟨hm, ha⟩

-- A store between transactions.
structure Ready (s : Store) : Prop where
  consistent : s.Consistent ∅
  indexed    : s.Indexed ∅
  archive    : s.HasArchive

theorem ready_init : init.Ready where
  consistent := consistent_init
  indexed    := indexed_init
  archive    := ⟨⟨1, ARCHIVE_LABEL, .virtual⟩, Table.mem_insertRow.mpr (.inr rfl), rfl, rfl⟩

theorem Ready.not_mem_archive {labels : Set LabelId} (h : s.Ready)
    (hm : s.mailbox id = some labels) : ARCHIVE_LABEL ∉ labels := by
  obtain ⟨row, _, rfl⟩ := Option.map_eq_some_iff.mp hm
  exact h.consistent.wf.not_hasLabel_archive

theorem applyLabel_ok (hm : ∃ m ∈ s.messages, m.id = message) (ha : id ≠ ARCHIVE_LABEL) :
    ∃ s', s.applyLabel message id = .ok s' := by
  rw [applyLabel, if_neg ha]
  obtain ⟨row, _, he⟩ | ⟨_, kind, he⟩ := s.labelRowid_cases id <;>
  · simp only [he, insertMessageLabel]
    exact ⟨_, if_pos (find?_messages_isSome.mpr hm)⟩

theorem applyLabels_ok (hm : ∃ m ∈ s.messages, m.id = message) (ha : ARCHIVE_LABEL ∉ ids) :
    ∃ s', ids.foldlM (·.applyLabel message) s = .ok s' := by
  induction ids generalizing s
  case nil => exact ⟨s, rfl⟩
  case cons id ids ih =>
    rw [List.mem_cons, not_or] at ha
    have ⟨s₁, h₁⟩ := applyLabel_ok hm (Ne.symm ha.left)
    have ⟨_, _, he⟩ := applyLabel_frame h₁
    have ⟨s', hs⟩ := ih (s := s₁) (by rw [he]; exact hm) ha.right
    exact ⟨s', List.foldlM_cons_eq_ok.mpr ⟨s₁, h₁, hs⟩⟩

theorem not_mem_of_applyLabels (wf : s.WellFormed)
    (hs : ids.foldlM (·.applyLabel message) s = .ok s') : ARCHIVE_LABEL ∉ ids := by
  induction ids generalizing s
  case nil => exact List.not_mem_nil
  case cons id ids ih =>
    have ⟨s₁, h₁, hs⟩ := List.foldlM_cons_eq_ok.mp hs
    have ⟨ha, _⟩ := wf.applyLabel_cases h₁
    exact List.not_mem_cons_of_ne_of_not_mem (Ne.symm ha) (ih (wf.applyLabel h₁) hs)

-- Labels are put on a message without a label's row being lost.
theorem labels_applyLabels (wf : s.WellFormed) (hs : ids.foldlM (·.applyLabel message) s = .ok s')
    (hl : l ∈ s.labels) : l ∈ s'.labels := by
  refine (List.foldlM_preserves (P := fun s : Store => s.WellFormed ∧ l ∈ s.labels) hs ?_ ⟨wf, hl⟩).right
  intro s s' id _ ⟨wf, hl⟩ hs
  refine ⟨wf.applyLabel hs, ?_⟩
  obtain ⟨_, s₁, _, _, _, rfl | ⟨_, kind, rfl⟩, hs₁⟩ := wf.applyLabel_cases hs <;>
    rw [(insertMessageLabel_eq hs₁).right]
  · exact hl
  · exact Table.mem_insertRow.mpr (.inl hl)

theorem message?_setFlags : (s.setFlags message ids).message? id =
    (s.message? id).map fun row => if row.id = message then row.withFlags ids else row := by
  simp only [message?, setFlags, Table.update, List.find?_map, decide_eq_true_eq]
  congr 2
  funext row
  simp only [Function.comp_apply]
  split <;> rfl

theorem mailbox_setFlags : (s.setFlags message ids).mailbox = s.mailbox := by
  funext id
  simp only [mailbox, message?_setFlags, Option.map_map]
  congr 1
  funext row
  simp only [Function.comp_apply]
  split <;> rfl

theorem threadOf_setFlags : (s.setFlags message ids).threadOf = s.threadOf := by
  funext id
  simp only [threadOf, message?_setFlags, Option.bind_map]
  congr 1
  funext row
  simp only [Function.comp_apply]
  split <;> rfl

end Store

namespace MailWriter

variable {w w' : MailWriter} {id : MessageId} {add remove : List LabelId}

-- A transaction that may still finish.
structure Ready (w : MailWriter) : Prop where
  sound   : w.Sound ∅ ∅
  archive : w.tx.HasArchive

theorem ready_start {s : Store} (h : s.Ready) : ({ tx := s } : MailWriter).Ready where
  sound   := ⟨h.consistent.mono (Set.empty_subset _), h.indexed⟩
  archive := h.archive

namespace Ready

variable (h : w.Ready)
include h

theorem wf : w.tx.WellFormed :=
  h.sound.wf

-- A transaction that has gone well so far ends well, and says nothing new about any message.
theorem finish : ∃ s changes, w.finish = .ok (s, changes) ∧ s.Ready ∧
    s.mailbox = w.tx.mailbox ∧ s.threadOf = w.tx.threadOf := by
  have hc : w.tx.Consistent {t | w.isDirty t} := by simpa using h.sound.consistent
  have ⟨⟨s, changes⟩, hs⟩ := finish_ok hc h.archive.exists
  have ⟨hc, same⟩ := finish_consistent hc hs
  refine ⟨s, changes, hs, ⟨hc, ?_, h.archive.mono (same.labels ▸ fun _ => id)⟩, same.mailbox, same.threadOf⟩
  simpa [Store.Indexed, same.messagesFts, same.messages] using h.sound.indexed

-- A message's labels change as they are meant to.
theorem modifyMessageLabels (hs : w.modifyMessageLabels id add remove = .ok (w', found)) :
    w'.Ready ∧ w'.tx.mailbox = Cells.modify w.tx.mailbox id (Overwrite.edit add remove).apply ∧
    w'.tx.threadOf = w.tx.threadOf ∧ found = (w.tx.mailbox id).isSome := by
  have sound := h.sound.modifyMessageLabels hs
  rw [MailWriter.modifyMessageLabels] at hs
  split at hs
  case h_1 hn =>
    cases hs
    have hm := Store.mailbox_eq_none.mpr hn
    refine ⟨h, ?_, rfl, by rw [hm]; rfl⟩
    simp [Cells.modify, hm]
  case h_2 row hr =>
    obtain ⟨tx, htx, hs⟩ := Except.bind_eq_ok.mp hs
    cases Except.pure_eq_ok.mp hs
    have hasLabel := fun m g => h.wf.hasLabel_replaceMessageLabels (m := m) (g := g) htx
    have archive : tx.HasArchive :=
      h.archive.mono fun l hl => Store.labels_applyLabels h.wf.clearMessageLabels htx hl
    obtain ⟨_, _, he⟩ := Store.replaceMessageLabels_frame htx
    have messages : tx.message? = w.tx.message? := by rw [he]; rfl
    have mailbox : tx.mailbox = Cells.modify w.tx.mailbox id (Overwrite.edit add remove).apply := by
      funext id'
      by_cases hid : id' = id
      case pos =>
        subst hid
        rw [Cells.modify_self, Store.mailbox_of_message? hr,
          Store.mailbox_of_message? (s := tx) (messages ▸ hr), Option.map_some]
        congr 1
        ext g
        simp [hasLabel, Store.mem_messageLabelIds]
      case neg =>
        rw [Cells.modify_ne hid, Store.mailbox, Store.mailbox, messages]
        refine Option.map_congr fun row' hr' => ?_
        ext g
        have : row'.id ≠ row.id := fun he => hid <| by
          obtain ⟨hm, hg⟩ := h.wf.message?_eq_some.mp hr
          obtain ⟨hm', hg'⟩ := h.wf.message?_eq_some.mp hr'
          rw [← hg, ← hg', Table.eq_of_key_eq hm' hm he]
        simp [hasLabel, this]
    refine ⟨⟨sound, by rw [tx_markThreadRowid]; exact archive⟩, ?_, ?_, ?_⟩
    · rw [tx_markThreadRowid, Store.mailbox_setFlags, mailbox]
    · rw [tx_markThreadRowid, Store.threadOf_setFlags, he]
      rfl
    · rw [Store.mailbox_of_message? hr]
      rfl

-- The only label that cannot be put on a stored message is the virtual one.
theorem modifyMessageLabels_ok (remove : List LabelId) :
    (∃ r, w.modifyMessageLabels id add remove = .ok r) ↔
      ARCHIVE_LABEL ∈ add → w.tx.mailbox id = none := by
  rw [MailWriter.modifyMessageLabels]
  cases hr : w.tx.message? id
  case none     => simp [Store.mailbox_eq_none.mpr hr]
  case some row =>
    obtain ⟨hm, _⟩ := h.wf.message?_eq_some.mp hr
    have kept : ARCHIVE_LABEL ∉ (w.tx.messageLabelIds row.id).filter (· ∉ remove) := fun ha =>
      h.wf.not_hasLabel_archive (Store.mem_messageLabelIds.mp (List.mem_filter.mp ha).left)
    rw [Store.mailbox_of_message? hr]
    simp only [reduceCtorEq, imp_false]
    constructor
    · rintro ⟨_, hs⟩ ha
      obtain ⟨_, htx, _⟩ := Except.bind_eq_ok.mp hs
      exact Store.not_mem_of_applyLabels h.wf.clearMessageLabels htx (by simp [ha])
    · intro ha
      have labels : ARCHIVE_LABEL ∉
          btreeSet ((w.tx.messageLabelIds row.id).filter (· ∉ remove) ++ add) := by
        simpa [ha] using kept
      obtain ⟨_, htx⟩ := Store.applyLabels_ok (s := w.tx.clearMessageLabels row.id) ⟨row, hm, rfl⟩ labels
      exact Except.bind_ok htx ⟨_, rfl⟩

end Ready
end MailWriter
end Kaluta
