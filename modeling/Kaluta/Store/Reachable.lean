import Kaluta.Store.Mailbox

namespace Kaluta

namespace Store

variable {s s' : Store} {message thread : Rowid}

theorem HasArchive.upsertLabel (h : s.HasArchive) {l : Label} (hl : l.id ≠ ARCHIVE_LABEL)
    (wf : s.WellFormed) : (s.upsertLabel l).HasArchive := by
  rw [Store.upsertLabel]
  cases hr : s.label? l.id
  case none => exact h.mono fun _ hm => Table.mem_insertRow.mpr (.inl hm)
  case some row =>
    obtain ⟨archive, hm, hg, hk⟩ := h
    obtain ⟨hr, hrg⟩ := wf.label?_eq_some.mp hr
    have hne : archive.id ≠ row.id := fun he => hl (hrg ▸ Table.eq_of_key_eq hm hr he ▸ hg)
    refine ⟨archive, ?_, hg, hk⟩
    simp only [retypeLabel, Table.mem_update]
    exact .inl ⟨hm, decide_eq_false hne⟩

end Store

namespace MailWriter

variable {w w' : MailWriter} {m : IncomingMessage}

theorem tx_markThreadsWithLabel {label : Rowid} : (w.markThreadsWithLabel label).tx = w.tx := by
  rw [markThreadsWithLabel]
  exact List.foldl_preserves (P := fun w' : MailWriter => w'.tx = w.tx)
    (fun _ _ h => tx_markThreadRowid.trans h) rfl

theorem labels_deleteMessage (id : MessageId) : (w.deleteMessage id).1.tx.labels = w.tx.labels := by
  rw [deleteMessage]
  split
  · rfl
  · rw [tx_markThreadRowid]
    rfl

theorem labels_adoptLocalCopy {localId sent : MessageId} :
    (w.adoptLocalCopy localId sent).tx.labels = w.tx.labels := by
  rw [adoptLocalCopy]
  split
  · exact labels_deleteMessage localId
  · split
    · rfl
    · rw [tx_markThreadRowid]
      rfl

theorem labels_ensureThread {id : ThreadId} : (w.ensureThread id).1.tx.labels = w.tx.labels := by
  rw [ensureThread]
  split <;> rfl

theorem labels_replaceLocalCopies : (w.replaceLocalCopies m).tx.labels = w.tx.labels := by
  rw [replaceLocalCopies]
  split
  · rfl
  · split
    · rfl
    · exact List.foldl_preserves (P := fun w' : MailWriter => w'.tx.labels = w.tx.labels)
        (fun id _ h => (labels_deleteMessage id).trans h) rfl

theorem labels_storeMessage {labels : List LabelId} :
    (w.storeMessage thread m labels).1.tx.labels = w.tx.labels := by
  rw [storeMessage]
  split
  · simp only [Store.updateMessage]
    split
    · rfl
    · rw [tx_markThreadRowid]
  · exact labels_replaceLocalCopies

namespace Ready

variable (h : w.Ready)
include h

theorem deleteMessage (id : MessageId) : (w.deleteMessage id).1.Ready :=
  ⟨h.sound.deleteMessage id, h.archive.mono fun _ hl => by rwa [labels_deleteMessage]⟩

theorem adoptLocalCopy (localId sent : MessageId) : (w.adoptLocalCopy localId sent).Ready :=
  ⟨h.sound.adoptLocalCopy localId sent, h.archive.mono fun _ hl => by rwa [labels_adoptLocalCopy]⟩

-- Listings of labels do not name the virtual one.
theorem upsertLabels {labels : List Label} (hl : ∀ l ∈ labels, l.id ≠ ARCHIVE_LABEL) :
    (w.upsertLabels labels).Ready := by
  refine ⟨h.sound.upsertLabels labels, ?_⟩
  refine (List.foldl_preserves (P := fun s : Store => s.WellFormed ∧ s.HasArchive)
    (fun l hm hs => ⟨hs.left.upsertLabel l, hs.right.upsertLabel (hl l hm) hs.left⟩)
    ⟨h.wf, h.archive⟩).right

theorem retainLabels (keep : List LabelId) : (w.retainLabels keep).Ready := by
  refine ⟨h.sound.retainLabels keep, ?_⟩
  have ⟨archive, ha, hg, hk⟩ := h.archive
  refine ⟨archive, ?_, hg, hk⟩
  refine List.foldl_preserves (P := fun w : MailWriter => archive ∈ w.tx.labels) (fun l hl hm => ?_) ha
  have ⟨hl, hv⟩ := List.mem_filter.mp (List.mem_filter.mp hl).left
  have hne : archive.id ≠ l.id := fun he =>
    of_decide_eq_true hv (Table.eq_of_key_eq ha hl he ▸ hk)
  refine Table.mem_delete.mpr ⟨?_, decide_eq_false hne⟩
  rwa [tx_markThreadsWithLabel]

theorem upsertMessage (hs : w.upsertMessage m = .ok w') : w'.Ready := by
  refine ⟨h.sound.upsertMessage hs, ?_⟩
  rw [MailWriter.upsertMessage] at hs
  cases he : w.ensureThread m.threadId
  case mk w₁ thread =>
    obtain ⟨h₁, ht⟩ := h.sound.ensureThread he
    have labels₁ : w₁.tx.labels = w.tx.labels :=
      (congrArg (·.1.tx.labels) he).symm.trans labels_ensureThread
    cases hm : w₁.storeMessage thread m (w₁.incomingLabels m)
    case mk w₂ message =>
      obtain ⟨h₂, _⟩ := h₁.storeMessage ht hm
      have labels₂ : w₂.tx.labels = w₁.tx.labels :=
        (congrArg (·.1.tx.labels) hm).symm.trans labels_storeMessage
      simp only [he, hm] at hs
      obtain ⟨_, hp, hs⟩ := Except.bind_eq_ok.mp hs
      obtain ⟨_, hl, hs⟩ := Except.bind_eq_ok.mp hs
      obtain ⟨_, hb, hs⟩ := Except.bind_eq_ok.mp hs
      cases Sound.insertChildren_eq hp
      cases Sound.replaceBody_eq hb
      cases Except.pure_eq_ok.mp hs
      refine h.archive.mono fun l hmem => ?_
      have hmem : l ∈ (w₂.tx.clearMessageLabels message).labels := by
        rw [← labels₁, ← labels₂] at hmem
        exact hmem
      have hmem := Store.labels_applyLabels h₂.wf.clearMessageLabels hl hmem
      simp only [insertDirty, Store.indexMessage]
      split <;> exact hmem

theorem write {op : MailWrite} (hop : ∀ labels, op = .upsertLabels labels → ∀ l ∈ labels, l.id ≠ ARCHIVE_LABEL)
    (hs : w.write op = .ok w') : w'.Ready := by
  cases op <;> simp only [MailWriter.write] at hs
  case upsertLabels labels         => cases hs; exact h.upsertLabels (hop labels rfl)
  case retainLabels keep           => cases hs; exact h.retainLabels keep
  case upsertMessage m             => exact h.upsertMessage hs
  case deleteMessage id            => cases hs; exact h.deleteMessage id
  case adoptLocalCopy localId sent => cases hs; exact h.adoptLocalCopy localId sent
  case modifyMessageLabels id add remove =>
    obtain ⟨⟨_, _⟩, hm, hw⟩ := Except.map_eq_ok.mp hs
    cases hw
    exact (h.modifyMessageLabels hm).left

end Ready
end MailWriter

-- No listing of labels in the transaction names the virtual one.
def Transaction.Provided (t : Transaction) : Prop :=
  ∀ labels, .upsertLabels labels ∈ t.writes → ∀ l ∈ labels, l.id ≠ ARCHIVE_LABEL

namespace Store

theorem Ready.commit {s : Store} (h : s.Ready) {t : Transaction} (ht : t.Provided) :
    (s.commit t).Ready := by
  simp only [Store.commit]
  split
  case h_2 => exact h
  case h_1 hs =>
    obtain ⟨w, hw, hf⟩ := Except.bind_eq_ok.mp hs
    have start : ({ tx := s, storedLabels := t.storedLabels } : MailWriter).Ready :=
      ⟨⟨h.consistent.mono (Set.empty_subset _), h.indexed⟩, h.archive⟩
    have ready := List.foldlM_preserves (P := MailWriter.Ready) hw
      (fun op hop h hs => h.write (fun labels he => ht labels (he ▸ hop)) hs)
      start
    obtain ⟨s', _, hf', hs', _⟩ := ready.finish
    cases hf.symm.trans hf'
    exact hs'

end Store
end Kaluta
