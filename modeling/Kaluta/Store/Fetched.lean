import Kaluta.Store.Reachable

namespace Kaluta

namespace Store

variable {s s₁ s' : Store} {id : MessageId} {labels : Set LabelId}

-- Some messages may be gone, and those that are left have the labels they had.
def Drops (s s' : Store) : Prop :=
  ∀ row ∈ s'.messages, row ∈ s.messages ∧ ∀ g, s'.hasLabel row.id g ↔ s.hasLabel row.id g

theorem Drops.refl (s : Store) : s.Drops s :=
  fun _ hr => ⟨hr, fun _ => Iff.rfl⟩

theorem Drops.trans (h : s.Drops s₁) (h' : s₁.Drops s') : s.Drops s' :=
  fun row hr =>
    have ⟨hr₁, hl'⟩ := h' row hr
    have ⟨hr, hl⟩ := h row hr₁
    ⟨hr, fun g => (hl' g).trans (hl g)⟩

theorem drops_deleteMessage {message : Rowid} : s.Drops (s.deleteMessage message) := by
  intro row hr
  have ⟨hr, hne⟩ := Table.mem_delete.mp hr
  refine ⟨hr, fun g => ?_⟩
  rw [hasLabel_deleteMessage, and_iff_right (of_decide_eq_false hne)]

end Store

namespace MailWriter

variable {w w' : MailWriter} {m : IncomingMessage} {id : MessageId} {labels : Set LabelId}

theorem drops_deleteMessage : w.tx.Drops (w.deleteMessage id).1.tx := by
  rw [deleteMessage]
  split
  · exact .refl _
  · rw [tx_markThreadRowid]
    exact Store.drops_deleteMessage

theorem drops_replaceLocalCopies : w.tx.Drops (w.replaceLocalCopies m).tx := by
  rw [replaceLocalCopies]
  split
  · exact .refl _
  · split
    · exact .refl _
    · exact List.foldl_preserves (P := fun w' : MailWriter => w.tx.Drops w'.tx)
        (fun _ _ h => h.trans drops_deleteMessage) (.refl _)

-- The message's row is the one row with its id, and no other row is new.
theorem storeMessage_rows {thread : Rowid} {ids : List LabelId} (wf : w.tx.WellFormed)
    (hs : w.storeMessage thread m ids = (w', message)) :
    ∀ row ∈ w'.tx.messages, (row.id = message ∧ row.gmailId = m.id ∧ ∃ old : MessageRow, row = old.withFlags ids) ∨
      (row.id ≠ message ∧ row.gmailId ≠ m.id ∧ row ∈ w.tx.messages ∧
        ∀ g, w'.tx.hasLabel row.id g ↔ w.tx.hasLabel row.id g) := by
  intro row hr
  rw [storeMessage] at hs
  split at hs
  case h_1 old hold =>
    obtain ⟨rfl, rfl⟩ := Prod.mk.inj hs
    obtain ⟨hold, hg⟩ := wf.message?_eq_some.mp hold
    have tx : ∀ w₁ : MailWriter, w₁.tx = w.tx → row ∈ (w₁.tx.updateMessage old.id thread m ids).messages →
        (row.id = old.id ∧ row.gmailId = m.id ∧ ∃ old : MessageRow, row = old.withFlags ids) ∨ (row.id ≠ old.id ∧ row.gmailId ≠ m.id ∧ row ∈ w.tx.messages ∧
          ∀ g, (w₁.tx.updateMessage old.id thread m ids).hasLabel row.id g ↔ w.tx.hasLabel row.id g) := by
      intro w₁ htx hr
      rw [htx] at hr ⊢
      simp only [Store.updateMessage, Table.mem_update] at hr
      obtain ⟨hr, hne⟩ | ⟨row', hr', he, rfl⟩ := hr
      · have hne : row.id ≠ old.id := of_decide_eq_false hne
        refine .inr ⟨hne, fun he => hne ?_, hr, fun g => Iff.rfl⟩
        rw [wf.messageIds row hr old hold (he.trans hg.symm)]
      · have he : row'.id = old.id := of_decide_eq_true he
        refine .inl ⟨he, ?_, _, rfl⟩
        rw [← hg, ← Table.eq_of_key_eq hr' hold he]
        rfl
    refine tx _ ?_ hr
    split
    · rfl
    · exact tx_markThreadRowid
  case h_2 hn =>
    obtain ⟨rfl, rfl⟩ := Prod.mk.inj hs
    obtain ⟨hr, hl⟩ := drops_replaceLocalCopies row hr
    obtain hr | rfl := Table.mem_insertRow.mp hr
    · refine .inr ⟨(Table.lt_nextRowid hr).ne, Store.message?_eq_none.mp hn row hr, hr, hl⟩
    · exact .inl ⟨rfl, rfl, _, rfl⟩

end MailWriter
end Kaluta
