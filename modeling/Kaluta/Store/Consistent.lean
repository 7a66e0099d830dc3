import Mathlib.Data.Set.Insert
import Kaluta.Lib.Tally
import Kaluta.Store.Settled

namespace Kaluta

namespace Store

variable {s : Store} {dirty : Set Rowid} {id : String} {ids : List LabelId}
variable {label message thread : Rowid} {kind : LabelKind} {l : LabelRow} {m : IncomingMessage}

def categoryStat (s : Store) (category : LabelId) : Int × Int :=
  match s.inboxCategoryStats.find? category with
  | some stat => (stat.threadCount, stat.unreadThreadCount)
  | none      => (0, 0)

-- The rows' share in the counters of the mailboxes and the Inbox categories.
def labelTally (s : Store) : Rowid → Int × Int :=
  s.threadLabels.tally (some ·.labelId) (s.isUnread ·.threadId)

def categoryTally (s : Store) : LabelId → Int × Int :=
  s.threads.tally (inboxCategory ·.labelIds) (·.unread)

-- The invariant of a store inside a transaction: every thread but the dirty ones is settled, and the
-- counters agree with the rows they count.
structure Consistent (s : Store) (dirty : Set Rowid) : Prop where
  wf         : s.WellFormed
  labels     : s.labelStat = s.labelTally
  categories : s.categoryStat = s.categoryTally
  settled    : ∀ t ∈ s.threads, t.id ∉ dirty → s.Settled t

-- The search index covers exactly the messages, those still to be indexed aside.
def Indexed (s : Store) (unindexed : Set Rowid) : Prop :=
  ∀ id ∉ unindexed, id ∈ s.messagesFts ↔ ∃ m ∈ s.messages, m.id = id

theorem consistent_init : init.Consistent ∅ where
  wf         := wellFormed_init
  labels     := rfl
  categories := rfl
  settled    := by simp [init]

theorem indexed_init : init.Indexed ∅ := by
  simp [Indexed, init]

theorem labelTally_congr {threads : Table ThreadRow ThreadRow.id}
    (ht : ∀ tl ∈ s.threadLabels, threads.find? tl.threadId = s.threads.find? tl.threadId) :
    { s with threads }.labelTally = s.labelTally :=
  Table.tally_congr (fun _ _ => rfl) fun tl htl => by simp only [isUnread, ht tl htl]

namespace Consistent

variable (h : s.Consistent dirty)
include h

theorem mono (hd : dirty ⊆ dirty') : s.Consistent dirty' := { h with
  settled := fun t ht hn => h.settled t ht fun hm => hn (hd hm)
}

theorem insertLabel (hn : s.label? id = none) : (s.insertLabel id kind).Consistent dirty := { h with
  wf      := h.wf.insertLabel hn
  settled := fun t ht hd => (h.settled t ht hd).insertLabel h.wf hn
}

theorem retypeLabel : (s.retypeLabel label kind).Consistent dirty := { h with
  wf      := h.wf.retypeLabel
  settled := fun t ht hd => (h.settled t ht hd).retypeLabel h.wf
}

theorem upsertLabel (l : Label) : (s.upsertLabel l).Consistent dirty := by
  rw [Store.upsertLabel]
  cases hn : s.label? l.id
  case none     => exact h.insertLabel hn
  case some row => exact h.retypeLabel

-- A label goes with its mailbox, once every thread in it is marked.
theorem deleteLabel (hl : l ∈ s.labels) (hd : ∀ thread, s.isInMailbox thread l.id → thread ∈ dirty) :
    (s.deleteLabel l.id).Consistent dirty where
  wf         := h.wf.deleteLabel
  labels     := by
    funext i
    have hi := congrFun h.labels i
    simp only [labelStat, labelTally, Table.tally, Store.deleteLabel] at hi ⊢
    by_cases hid : i = l.id
    case pos =>
      subst hid
      have hs : (s.labelStats.delete (·.labelId = l.id)).find? l.id = none :=
        Table.find?_eq_none_iff.mpr (by simp)
      rw [hs, Table.count_eq_zero.mpr (by simp), Table.count_eq_zero.mpr (by simp +contextual)]
      rfl
    case neg =>
      have hs : (s.labelStats.delete (·.labelId = l.id)).find? i = s.labelStats.find? i :=
        Table.find?_eq_of_mem_iff (by simp +contextual [hid])
      have count_eq : ∀ q : ThreadLabel → Bool, (∀ tl, q tl = true → tl.labelId = i) →
          (s.threadLabels.delete (·.labelId = l.id)).count q = s.threadLabels.count q := by
        intro q hq
        rw [Table.count_delete]
        refine Table.count_congr fun tl _ => ?_
        cases hqt : q tl
        case false => rfl
        case true  => simp [hq tl hqt, hid]
      rw [hs, count_eq _ (by simp), count_eq _ (by simp +contextual)]
      exact hi
  categories := h.categories
  settled    := fun t ht hn => (h.settled t ht hn).deleteLabel h.wf hl fun hm => hn (hd t.id hm)

-- A write to the messages and their labels that leaves those of every settled thread as they were.
theorem writeMessages {messages messageLabels messagesFts}
    (wf : { s with messages, messageLabels, messagesFts : Store }.WellFormed)
    (hm : ∀ t ∉ dirty, messages.rows.filter (·.threadId = t) = s.messagesOf t)
    (hl : ∀ m ∈ s.messages, m.threadId ∉ dirty → ∀ l,
      MessageLabel.mk m.id l ∈ messageLabels ↔ MessageLabel.mk m.id l ∈ s.messageLabels) :
    { s with messages, messageLabels, messagesFts : Store }.Consistent dirty := { h with
  wf
  settled := by
    intro t ht hd
    refine (h.settled t ht hd).frame h.wf wf rfl (hm t.id hd) ?_ (fun _ _ => Iff.rfl)
    intro m hmt g
    have ⟨hms, hmt⟩ := mem_messagesOf.mp hmt
    simp only [hasLabel, hl m hms (hmt ▸ hd)]
}

theorem clearMessageLabels (hd : ∀ m ∈ s.messages, m.id = message → m.threadId ∈ dirty) :
    (s.clearMessageLabels message).Consistent dirty := by
  refine h.writeMessages h.wf.clearMessageLabels (fun _ _ => rfl) fun m hm hn l => ?_
  have : m.id ≠ message := fun he => hn (hd m hm he)
  simp [this]

theorem insertMessageLabel (hl : l ∈ s.labels) (ha : l.gmailId ≠ ARCHIVE_LABEL)
    (hd : ∀ m ∈ s.messages, m.id = message → m.threadId ∈ dirty)
    (hs : s.insertMessageLabel message l.id = .ok s') : s'.Consistent dirty := by
  have wf := h.wf.insertMessageLabel ⟨l, hl, rfl, ha⟩ hs
  have ⟨_, hs⟩ := insertMessageLabel_eq hs
  subst hs
  refine h.writeMessages wf (fun _ _ => rfl) fun m hm hn l => ?_
  have : m.id ≠ message := fun he => hn (hd m hm he)
  simp [Table.mem_insertOrIgnore_id, this]

theorem applyLabel (hd : ∀ m ∈ s.messages, m.id = message → m.threadId ∈ dirty)
    (hs : s.applyLabel message id = .ok s') : s'.Consistent dirty := by
  obtain ⟨ha, s₁, l, hl, rfl, rfl | ⟨hn, kind, rfl⟩, hs₁⟩ := h.wf.applyLabel_cases hs
  · exact h.insertMessageLabel hl ha hd hs₁
  · exact (h.insertLabel hn).insertMessageLabel hl ha hd hs₁

theorem replaceMessageLabels (hd : ∀ m ∈ s.messages, m.id = message → m.threadId ∈ dirty)
    (hs : s.replaceMessageLabels message ids = .ok s') : s'.Consistent dirty := by
  refine (List.foldlM_preserves (P := fun s' => s'.Consistent dirty ∧ s'.messages = s.messages) hs
    ?step ⟨h.clearMessageLabels hd, rfl⟩).left
  rintro s₁ s₂ id _ ⟨h, hm⟩ hs
  have ⟨_, _, he⟩ := applyLabel_frame hs
  exact ⟨h.applyLabel (hm ▸ hd) hs, by rw [he, hm]⟩

theorem insertThread (hn : s.thread? id = none) (hd : s.threads.nextRowid ∈ dirty) :
    (s.insertThread id).Consistent dirty where
  wf         := h.wf.insertThread hn
  labels     := by
    rw [Store.insertThread, labelTally_congr]
    · exact h.labels
    · intro tl htl
      obtain ⟨t, ht, hid⟩ := h.wf.mailboxThread tl htl
      exact Table.find?_insertRow_ne (hid ▸ (Table.lt_nextRowid ht).ne)
  categories := by
    have : ∀ t : ThreadRow, t.labelIds = [] → inboxCategory t.labelIds = none := by
      intro t ht
      simp [ht, inboxCategory]
    rw [categoryTally, Store.insertThread, Table.insertRow, Table.tally_insert, this _ rfl, bump_none]
    exact h.categories
  settled    := by
    intro t ht hn'
    obtain ht | rfl := Table.mem_insertRow.mp ht
    · exact (h.settled t ht hn').frame h.wf (h.wf.insertThread hn) rfl rfl (fun _ _ _ => Iff.rfl)
        (fun _ _ => Iff.rfl)
    · exact absurd hd hn'

theorem insertMessage (hn : s.message? m.id = none) (ht : ∃ t ∈ s.threads, t.id = thread)
    (hd : thread ∈ dirty) : (s.insertMessage thread m ids).Consistent dirty := by
  refine h.writeMessages (h.wf.insertMessage hn ht) (fun t hn => ?_) (fun _ _ _ _ => Iff.rfl)
  refine Table.filter_insert (decide_eq_false ?_)
  rintro rfl
  exact hn hd

theorem updateMessages {f : MessageRow → MessageRow} {hf : ∀ m, (f m).id = m.id}
    (hg : ∀ m, (f m).gmailId = m.gmailId)
    (ht : ∀ m ∈ s.messages, m.id = message → ∃ t ∈ s.threads, t.id = (f m).threadId)
    (hd : ∀ m ∈ s.messages, m.id = message → m.threadId ∈ dirty ∧ (f m).threadId ∈ dirty) :
    { s with messages := s.messages.update (·.id = message) f hf : Store }.Consistent dirty := by
  refine h.writeMessages (h.wf.updateMessages hg ht) (fun t hn => ?_) (fun _ _ _ _ => Iff.rfl)
  refine Table.filter_update fun m hm hid => ?_
  have ⟨hd, hd'⟩ := hd m hm (by simpa using hid)
  exact ⟨decide_eq_false fun he => hn (he ▸ hd), decide_eq_false fun he => hn (he ▸ hd')⟩

theorem updateMessage (ht : ∃ t ∈ s.threads, t.id = thread)
    (hd : ∀ m ∈ s.messages, m.id = message → m.threadId ∈ dirty) (hd' : thread ∈ dirty) :
    (s.updateMessage message thread m ids).Consistent dirty :=
  h.updateMessages (fun _ => rfl) (fun _ _ _ => ht) (fun m hm hid => ⟨hd m hm hid, hd'⟩)

theorem setFlags (hd : ∀ m ∈ s.messages, m.id = message → m.threadId ∈ dirty) :
    (s.setFlags message ids).Consistent dirty :=
  h.updateMessages (fun _ => rfl) (fun m hm _ => h.wf.messageThread m hm)
    (fun m hm hid => ⟨hd m hm hid, hd m hm hid⟩)

theorem renameMessage (hn : s.message? sent = none)
    (hd : ∀ m ∈ s.messages, m.gmailId = id → m.threadId ∈ dirty) :
    (s.renameMessage id sent).Consistent dirty := by
  refine h.writeMessages (h.wf.renameMessage hn) (fun t hn => ?_) (fun _ _ _ _ => Iff.rfl)
  refine Table.filter_update fun m hm hid => ?_
  have hd := hd m hm (by simpa using hid)
  exact ⟨decide_eq_false fun he => hn (he ▸ hd), decide_eq_false fun he => hn (he ▸ hd)⟩

theorem deleteMessage (hd : ∀ m ∈ s.messages, m.id = message → m.threadId ∈ dirty) :
    (s.deleteMessage message).Consistent dirty := by
  refine h.writeMessages h.wf.deleteMessage (fun t hn => ?_) fun m hm hn l => ?_
  · refine Table.filter_delete fun m hm hid => decide_eq_false ?_
    rintro rfl
    exact hn (hd m hm (by simpa using hid))
  · have : m.id ≠ message := fun he => hn (hd m hm he)
    simp [this]

theorem unindexMessage : (s.unindexMessage message).Consistent dirty :=
  h.writeMessages h.wf.unindexMessage (fun _ _ => rfl) (fun _ _ _ _ => Iff.rfl)

theorem indexMessage : (s.indexMessage message).Consistent dirty := by
  have wf : (s.indexMessage message).WellFormed := h.wf.indexMessage
  rw [Store.indexMessage] at wf ⊢
  split at wf
  case isTrue hm  => rw [if_pos hm]; exact h.writeMessages wf (fun _ _ => rfl) (fun _ _ _ _ => .rfl)
  case isFalse hm => rw [if_neg hm]; exact h.unindexMessage

end Consistent

namespace Indexed

variable {unindexed : Set Rowid} (h : s.Indexed unindexed)
include h

theorem mono (hu : unindexed ⊆ unindexed') : s.Indexed unindexed' :=
  fun id hn => h id fun hm => hn (hu hm)

-- A change of message rows that keeps their rowids.
theorem updateMessages {p : MessageRow → Bool} {f : MessageRow → MessageRow}
    {hf : ∀ m, (f m).id = m.id} :
    { s with messages := s.messages.update p f hf : Store }.Indexed unindexed := by
  intro id hn
  rw [h id hn]
  constructor
  · rintro ⟨m, hm, rfl⟩
    exact Table.exists_mem_update hf hm (by split <;> simp [hf])
  · simp only [Table.mem_update]
    rintro ⟨m, ⟨hm, _⟩ | ⟨m', hm', _, rfl⟩, rfl⟩
    · exact ⟨m, hm, rfl⟩
    · exact ⟨m', hm', (hf m').symm⟩

theorem insertMessage :
    (s.insertMessage thread m ids).Indexed (unindexed ∪ {s.messages.nextRowid}) := by
  intro id hn
  simp only [Set.mem_union, Set.mem_singleton_iff, not_or] at hn
  refine (h id hn.left).trans ?_
  constructor
  · rintro ⟨m, hm, hid⟩
    exact ⟨m, Table.mem_insertRow.mpr (.inl hm), hid⟩
  · rintro ⟨m, hm, rfl⟩
    obtain hm | rfl := Table.mem_insertRow.mp hm
    · exact ⟨m, hm, rfl⟩
    · exact absurd rfl hn.right

theorem deleteMessage : ((s.unindexMessage message).deleteMessage message).Indexed unindexed := by
  intro id hn
  simp only [Store.deleteMessage, Store.unindexMessage, Table.mem_delete, h id hn,
    decide_eq_false_iff_not]
  constructor
  · rintro ⟨⟨m, hm, rfl⟩, hne⟩; exact ⟨m, ⟨hm, hne⟩, rfl⟩
  · rintro ⟨m, ⟨hm, hne⟩, rfl⟩; exact ⟨⟨m, hm, rfl⟩, hne⟩

end Indexed

theorem indexed_indexMessage (h : s.Indexed {message}) : (s.indexMessage message).Indexed ∅ := by
  intro id _
  have hm : ((s.unindexMessage message).messages.find? message).isSome ↔
      ∃ m ∈ s.messages, m.id = message := find?_messages_isSome
  have messages : (s.indexMessage message).messages = s.messages := by
    rw [indexMessage]
    split <;> rfl
  rw [messages]
  by_cases hid : id = message
  case pos =>
    subst hid
    rw [indexMessage]
    split
    case isTrue h  => exact iff_of_true (Table.mem_insertOrIgnore_id.mpr (.inr rfl)) (hm.mp h)
    case isFalse h => exact iff_of_false (by simp [unindexMessage]) (fun hr => h (hm.mpr hr))
  case neg =>
    rw [← h id hid, indexMessage]
    split <;> simp [unindexMessage, Table.mem_insertOrIgnore_id, hid]

end Store
end Kaluta
