import Kaluta.Lib.Fallible
import Kaluta.Store.Recompute

namespace Kaluta

open SystemLabels

namespace Store

-- What the schema's constraints guarantee (unique provider ids, foreign keys) together with what
-- every write keeps besides: a thread is in a mailbox once, and only `@archive` is virtual and no
-- message carries it.
structure WellFormed (s : Store) : Prop where
  labelIds         : ∀ a ∈ s.labels, ∀ b ∈ s.labels, a.gmailId = b.gmailId → a = b
  threadIds        : ∀ a ∈ s.threads, ∀ b ∈ s.threads, a.gmailId = b.gmailId → a = b
  messageIds       : ∀ a ∈ s.messages, ∀ b ∈ s.messages, a.gmailId = b.gmailId → a = b
  messageThread    : ∀ m ∈ s.messages, ∃ t ∈ s.threads, t.id = m.threadId
  labelMessage     : ∀ ml ∈ s.messageLabels, ∃ m ∈ s.messages, m.id = ml.messageId
  labelLabel       : ∀ ml ∈ s.messageLabels, ∃ l ∈ s.labels, l.id = ml.labelId
  mailboxLabel     : ∀ tl ∈ s.threadLabels, ∃ l ∈ s.labels, l.id = tl.labelId
  mailboxThread    : ∀ tl ∈ s.threadLabels, ∃ t ∈ s.threads, t.id = tl.threadId
  mailboxOnce      : ∀ a ∈ s.threadLabels, ∀ b ∈ s.threadLabels,
                      a.labelId = b.labelId → a.threadId = b.threadId → a = b
  statLabel        : ∀ stat ∈ s.labelStats, ∃ l ∈ s.labels, l.id = stat.labelId
  virtualArchive   : ∀ l ∈ s.labels, l.kind = .virtual → l.gmailId = ARCHIVE_LABEL
  archiveUncarried : ∀ ml ∈ s.messageLabels, ∀ l ∈ s.labels,
                      l.id = ml.labelId → l.gmailId ≠ ARCHIVE_LABEL

variable {s s' : Store} {id : String} {ids : List LabelId} {label message thread : Rowid}
variable {kind : LabelKind} {m : IncomingMessage}

theorem wellFormed_init : init.WellFormed where
  labelIds         := by simp +contextual [init]
  threadIds        := by simp [init]
  messageIds       := by simp [init]
  messageThread    := by simp [init]
  labelMessage     := by simp [init]
  labelLabel       := by simp [init]
  mailboxLabel     := by simp [init]
  mailboxThread    := by simp [init]
  mailboxOnce      := by simp [init]
  statLabel        := by simp [init]
  virtualArchive   := by simp [init]
  archiveUncarried := by simp [init]

theorem label?_eq_none : s.label? id = none ↔ ∀ l ∈ s.labels, l.gmailId ≠ id := by
  simp [label?, Table.mem_rows]

theorem thread?_eq_none : s.thread? id = none ↔ ∀ t ∈ s.threads, t.gmailId ≠ id := by
  simp [thread?, Table.mem_rows]

theorem message?_eq_none : s.message? id = none ↔ ∀ m ∈ s.messages, m.gmailId ≠ id := by
  simp [message?, Table.mem_rows]

@[simp]
theorem carries_iff : s.carries message label = true ↔ ⟨message, label⟩ ∈ s.messageLabels := by
  simp [carries, Table.mem_rows]

theorem mem_messagesOf {m : MessageRow} : m ∈ s.messagesOf thread ↔ m ∈ s.messages ∧ m.threadId = thread := by
  simp [messagesOf, Table.mem_rows]

theorem find?_threads_isSome : (s.threads.find? thread).isSome ↔ ∃ t ∈ s.threads, t.id = thread := by
  simp only [Option.isSome_iff_exists, Table.find?_eq_some_iff]

theorem find?_messages_isSome :
    (s.messages.find? message).isSome ↔ ∃ m ∈ s.messages, m.id = message := by
  simp only [Option.isSome_iff_exists, Table.find?_eq_some_iff]

-- The row of a provider label id that is in the store already, or the placeholder put there for it.
theorem labelRowid_cases (s : Store) (id : LabelId) :
    (∃ row, s.label? id = some row ∧ s.labelRowid id = (s, row.id)) ∨
    (s.label? id = none ∧ ∃ kind, s.labelRowid id = (s.insertLabel id kind, s.labels.nextRowid)) := by
  rw [labelRowid]
  cases h : s.label? id
  case none     => exact .inr ⟨rfl, _, rfl⟩
  case some row => exact .inl ⟨row, rfl, rfl⟩

namespace WellFormed

variable (h : s.WellFormed)
include h

theorem label?_eq_some : s.label? id = some l ↔ l ∈ s.labels ∧ l.gmailId = id :=
  Table.find?_unique h.labelIds

theorem thread?_eq_some : s.thread? id = some t ↔ t ∈ s.threads ∧ t.gmailId = id :=
  Table.find?_unique h.threadIds

theorem message?_eq_some {m : MessageRow} : s.message? id = some m ↔ m ∈ s.messages ∧ m.gmailId = id :=
  Table.find?_unique h.messageIds

theorem insertLabel (hn : s.label? id = none) : (s.insertLabel id kind).WellFormed :=
  have old : ∀ {rowid}, (∃ l ∈ s.labels, l.id = rowid) →
      ∃ l ∈ (s.insertLabel id kind).labels, l.id = rowid
    | _, ⟨l, hl, hr⟩ => ⟨l, by simp [Store.insertLabel, hl], hr⟩
  { h with
    labelIds := by
      have := label?_eq_none.mp hn
      simp only [Store.insertLabel, Table.mem_insertRow]
      rintro a (ha | rfl) b (hb | rfl) hab
      · exact h.labelIds a ha b hb hab
      · exact absurd hab (this a ha)
      · exact absurd hab.symm (this b hb)
      · rfl
    labelLabel   := fun ml hm => old (h.labelLabel ml hm)
    mailboxLabel := fun tl ht => old (h.mailboxLabel tl ht)
    statLabel    := fun st hs => old (h.statLabel st hs)
    virtualArchive := by
      simp only [Store.insertLabel, Table.mem_insertRow]
      rintro l (hl | rfl) hv
      · exact h.virtualArchive l hl hv
      · cases kind <;> cases hv
    archiveUncarried := by
      simp only [Store.insertLabel, Table.mem_insertRow]
      rintro ml hm l (hl | rfl) hid
      · exact h.archiveUncarried ml hm l hl hid
      · have ⟨l, hl, hr⟩ := h.labelLabel ml hm
        exact absurd (hr.trans hid.symm) (Table.lt_nextRowid hl).ne
  }

theorem retypeLabel : (s.retypeLabel label kind).WellFormed := by
  have old : ∀ {rowid}, (∃ l ∈ s.labels, l.id = rowid) →
      ∃ l ∈ (s.retypeLabel label kind).labels, l.id = rowid := by
    rintro _ ⟨l, hl, rfl⟩
    exact Table.exists_mem_update (by intro; rfl) hl (by split <;> rfl)
  have new : ∀ l ∈ (s.retypeLabel label kind).labels, ∃ l' ∈ s.labels, l'.id = l.id ∧
      l'.gmailId = l.gmailId ∧ (l.kind = .virtual → l' = l) := by
    simp only [Store.retypeLabel, Table.mem_update]
    rintro l (⟨hl, _⟩ | ⟨l', hl', _, rfl⟩)
    · exact ⟨l, hl, rfl, rfl, fun _ => rfl⟩
    · exact ⟨l', hl', rfl, rfl, by cases kind <;> simp [LabelKind.row]⟩
  exact { h with
    labelIds := by
      intro a ha b hb hab
      have ⟨a', ha', hai, hag, _⟩ := new a ha
      have ⟨b', hb', hbi, hbg, _⟩ := new b hb
      have he := h.labelIds a' ha' b' hb' (by rw [hag, hbg, hab])
      exact Table.eq_of_key_eq ha hb (by rw [← hai, ← hbi, he])
    labelLabel   := fun ml hm => old (h.labelLabel ml hm)
    mailboxLabel := fun tl ht => old (h.mailboxLabel tl ht)
    statLabel    := fun st hs => old (h.statLabel st hs)
    virtualArchive := by
      intro l hl hv
      have ⟨l', hl', _, _, he⟩ := new l hl
      exact he hv ▸ h.virtualArchive l' hl' (he hv ▸ hv)
    archiveUncarried := by
      intro ml hm l hl hid
      have ⟨l', hl', hi, hg, _⟩ := new l hl
      exact hg ▸ h.archiveUncarried ml hm l' hl' (hi.trans hid)
  }

theorem upsertLabel (l : Label) : (s.upsertLabel l).WellFormed := by
  rw [Store.upsertLabel]
  cases hn : s.label? l.id
  case none     => exact h.insertLabel hn
  case some row => exact h.retypeLabel

theorem deleteLabel : (s.deleteLabel label).WellFormed := by
  have kept : ∀ {rowid}, rowid ≠ label → (∃ l ∈ s.labels, l.id = rowid) →
      ∃ l ∈ (s.deleteLabel label).labels, l.id = rowid := by
    rintro _ hne ⟨l, hl, rfl⟩
    exact ⟨l, by simp [Store.deleteLabel, hl, hne], rfl⟩
  constructor
  case labelIds =>
    intro a ha b hb
    simp only [Store.deleteLabel, Table.mem_delete] at ha hb
    exact h.labelIds a ha.left b hb.left
  case threadIds => exact h.threadIds
  case messageIds => exact h.messageIds
  case messageThread => exact h.messageThread
  case labelMessage =>
    intro ml hm
    exact h.labelMessage ml (by simp_all [Store.deleteLabel])
  case labelLabel =>
    intro ml hm
    simp only [Store.deleteLabel, Table.mem_delete, decide_eq_false_iff_not] at hm
    exact kept hm.right (h.labelLabel ml hm.left)
  case mailboxLabel =>
    intro tl ht
    simp only [Store.deleteLabel, Table.mem_delete, decide_eq_false_iff_not] at ht
    exact kept ht.right (h.mailboxLabel tl ht.left)
  case mailboxThread =>
    intro tl ht
    exact h.mailboxThread tl (by simp_all [Store.deleteLabel])
  case mailboxOnce =>
    intro a ha b hb
    simp only [Store.deleteLabel, Table.mem_delete] at ha hb
    exact h.mailboxOnce a ha.left b hb.left
  case statLabel =>
    intro st hs
    simp only [Store.deleteLabel, Table.mem_delete, decide_eq_false_iff_not] at hs
    exact kept hs.right (h.statLabel st hs.left)
  case virtualArchive =>
    intro l hl
    exact h.virtualArchive l (by simp_all [Store.deleteLabel])
  case archiveUncarried =>
    intro ml hm l hl
    simp only [Store.deleteLabel, Table.mem_delete] at hm hl
    exact h.archiveUncarried ml hm.left l hl.left

theorem clearMessageLabels : (s.clearMessageLabels message).WellFormed := { h with
  labelMessage     := fun ml hm => h.labelMessage ml (Table.mem_delete.mp hm).left
  labelLabel       := fun ml hm => h.labelLabel ml (Table.mem_delete.mp hm).left
  archiveUncarried := fun ml hm => h.archiveUncarried ml (Table.mem_delete.mp hm).left
}

theorem insertMessageLabel (hl : ∃ l ∈ s.labels, l.id = label ∧ l.gmailId ≠ ARCHIVE_LABEL)
    (hs : s.insertMessageLabel message label = .ok s') : s'.WellFormed := by
  rw [Store.insertMessageLabel] at hs
  split at hs <;> cases hs
  case isTrue hm =>
    obtain ⟨l, hl, hid, hg⟩ := hl
    exact { h with
      labelMessage := fun ml hml =>
        (Table.mem_of_mem_insertOrIgnore hml).elim (h.labelMessage ml)
          fun he => by subst he; exact find?_messages_isSome.mp hm
      labelLabel := fun ml hml =>
        (Table.mem_of_mem_insertOrIgnore hml).elim (h.labelLabel ml) fun he => ⟨l, hl, he ▸ hid⟩
      archiveUncarried := fun ml hml l' hl' hid' =>
        (Table.mem_of_mem_insertOrIgnore hml).elim (fun hml => h.archiveUncarried ml hml l' hl' hid')
          fun he => Table.eq_of_key_eq hl' hl (by rw [hid', he, hid]) ▸ hg
    }

theorem applyLabel (hs : s.applyLabel message id = .ok s') : s'.WellFormed := by
  rw [Store.applyLabel] at hs
  split at hs
  case isTrue  => cases hs
  case isFalse ha =>
    obtain ⟨row, hr, he⟩ | ⟨hn, kind, he⟩ := s.labelRowid_cases id <;> simp only [he] at hs
    · have ⟨hr, hg⟩ := h.label?_eq_some.mp hr
      exact h.insertMessageLabel ⟨row, hr, rfl, hg ▸ ha⟩ hs
    · exact (h.insertLabel hn).insertMessageLabel
        ⟨⟨s.labels.nextRowid, id, kind.row⟩, by simp [Store.insertLabel], rfl, ha⟩ hs

theorem insertThread (hn : s.thread? id = none) : (s.insertThread id).WellFormed :=
  have old : ∀ {rowid}, (∃ t ∈ s.threads, t.id = rowid) →
      ∃ t ∈ (s.insertThread id).threads, t.id = rowid
    | _, ⟨t, ht, hr⟩ => ⟨t, by simp [Store.insertThread, ht], hr⟩
  { h with
    threadIds := by
      have := thread?_eq_none.mp hn
      simp only [Store.insertThread, Table.mem_insertRow]
      rintro a (ha | rfl) b (hb | rfl) hab
      · exact h.threadIds a ha b hb hab
      · exact absurd hab (this a ha)
      · exact absurd hab.symm (this b hb)
      · rfl
    messageThread := fun m hm => old (h.messageThread m hm)
    mailboxThread := fun tl ht => old (h.mailboxThread tl ht)
  }

theorem insertMessage (hn : s.message? m.id = none) (ht : ∃ t ∈ s.threads, t.id = thread) :
    (s.insertMessage thread m ids).WellFormed := { h with
  messageIds := by
    have := message?_eq_none.mp hn
    simp only [Store.insertMessage, Table.mem_insertRow]
    rintro a (ha | rfl) b (hb | rfl) hab
    · exact h.messageIds a ha b hb hab
    · exact absurd hab (this a ha)
    · exact absurd hab.symm (this b hb)
    · rfl
  messageThread := by
    simp only [Store.insertMessage, Table.mem_insertRow]
    rintro a (ha | rfl)
    · exact h.messageThread a ha
    · exact ht
  labelMessage := by
    intro ml hml
    have ⟨m, hm, hid⟩ := h.labelMessage ml hml
    exact ⟨m, Table.mem_insertRow.mpr (.inl hm), hid⟩
}

-- A change of one message's row that keeps its ids.
theorem updateMessages {f : MessageRow → MessageRow} {hf : ∀ m, (f m).id = m.id}
    (hg : ∀ m, (f m).gmailId = m.gmailId)
    (ht : ∀ m ∈ s.messages, m.id = message → ∃ t ∈ s.threads, t.id = (f m).threadId) :
    { s with messages := s.messages.update (·.id = message) f hf : Store }.WellFormed := { h with
  messageIds := by
    intro a ha b hb hab
    have old : ∀ m ∈ s.messages.update (·.id = message) f hf,
        ∃ m' ∈ s.messages, m'.id = m.id ∧ m'.gmailId = m.gmailId := by
      simp only [Table.mem_update]
      rintro m (⟨hm, _⟩ | ⟨m', hm', _, rfl⟩)
      · exact ⟨m, hm, rfl, rfl⟩
      · exact ⟨m', hm', (hf m').symm, (hg m').symm⟩
    have ⟨a', ha', hai, hag⟩ := old a ha
    have ⟨b', hb', hbi, hbg⟩ := old b hb
    have he := h.messageIds a' ha' b' hb' (by rw [hag, hbg, hab])
    exact Table.eq_of_key_eq ha hb (by rw [← hai, ← hbi, he])
  messageThread := by
    simp only [Table.mem_update]
    rintro m (⟨hm, _⟩ | ⟨m', hm', hp, rfl⟩)
    · exact h.messageThread m hm
    · exact ht m' hm' (by simpa using hp)
  labelMessage := by
    intro ml hml
    have ⟨m, hm, hid⟩ := h.labelMessage ml hml
    exact Table.exists_mem_update hf hm (by split <;> simp [hf, hid])
}

theorem renameMessage (hn : s.message? sent = none) : (s.renameMessage id sent).WellFormed := by
  have hn := message?_eq_none.mp hn
  have old : ∀ m ∈ (s.renameMessage id sent).messages, ∃ m' ∈ s.messages, m'.id = m.id ∧
      m'.threadId = m.threadId ∧
      (m'.gmailId = m.gmailId ∨ (m'.gmailId = id ∧ m.gmailId = sent)) := by
    simp only [Store.renameMessage, Table.mem_update]
    rintro m (⟨hm, _⟩ | ⟨m', hm', hp, rfl⟩)
    · exact ⟨m, hm, rfl, rfl, .inl rfl⟩
    · exact ⟨m', hm', rfl, rfl, .inr ⟨by simpa using hp, rfl⟩⟩
  exact { h with
    messageIds := by
      intro a ha b hb hab
      have ⟨a', ha', hai, _, hag⟩ := old a ha
      have ⟨b', hb', hbi, _, hbg⟩ := old b hb
      suffices a'.gmailId = b'.gmailId by
        have he := h.messageIds a' ha' b' hb' this
        exact Table.eq_of_key_eq ha hb (by rw [← hai, ← hbi, he])
      obtain hag | ⟨hag, has⟩ := hag <;> obtain hbg | ⟨hbg, hbs⟩ := hbg
      · rw [hag, hbg, hab]
      · exact absurd (by rw [hag, hab, hbs]) (hn a' ha')
      · exact absurd (by rw [hbg, ← hab, has]) (hn b' hb')
      · rw [hag, hbg]
    messageThread := by
      intro m hm
      have ⟨m', hm', _, ht, _⟩ := old m hm
      exact ht ▸ h.messageThread m' hm'
    labelMessage := by
      intro ml hml
      have ⟨m, hm, hid⟩ := h.labelMessage ml hml
      exact Table.exists_mem_update (by intro; rfl) hm (by split <;> exact hid)
  }

theorem deleteMessage : (s.deleteMessage message).WellFormed := { h with
  messageIds    := fun a ha b hb =>
    h.messageIds a (Table.mem_delete.mp ha).left b (Table.mem_delete.mp hb).left
  messageThread := fun m hm => h.messageThread m (Table.mem_delete.mp hm).left
  labelMessage  := by
    intro ml hml
    simp only [Store.deleteMessage, Table.mem_delete, decide_eq_false_iff_not] at hml ⊢
    obtain ⟨m, hm, hid⟩ := h.labelMessage ml hml.left
    exact ⟨m, ⟨hm, hid ▸ hml.right⟩, hid⟩
  labelLabel       := fun ml hml => h.labelLabel ml (Table.mem_delete.mp hml).left
  archiveUncarried := fun ml hml => h.archiveUncarried ml (Table.mem_delete.mp hml).left
}

theorem unindexMessage : (s.unindexMessage message).WellFormed :=
  { h with }

theorem indexMessage : (s.indexMessage message).WellFormed := by
  rw [Store.indexMessage]
  split <;> exact { h with }

end WellFormed
end Store
end Kaluta
