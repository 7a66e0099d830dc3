import Kaluta.Store.WellFormed

namespace Kaluta

open SystemLabels

namespace Store

variable {s s' : Store} {id g : LabelId} {ids : List LabelId} {label message thread m : Rowid}
variable {kind : LabelKind} {l : LabelRow}

-- The labels of a message by their provider ids: the part of a label row that the rest of the
-- program ever sees.
def hasLabel (s : Store) (message : Rowid) (id : LabelId) : Prop :=
  ∃ l ∈ s.labels, l.gmailId = id ∧ ⟨message, l.id⟩ ∈ s.messageLabels

theorem mem_messageLabelIds : g ∈ s.messageLabelIds m ↔ s.hasLabel m g := by
  simp only [messageLabelIds, hasLabel, List.mem_map, List.mem_filter, carries_iff, Table.mem_rows]
  constructor
  · rintro ⟨l, ⟨hl, hc⟩, hg⟩; exact ⟨l, hl, hg, hc⟩
  · rintro ⟨l, hl, hg, hc⟩; exact ⟨l, ⟨hl, hc⟩, hg⟩

instance : Decidable (s.hasLabel m g) :=
  decidable_of_iff _ mem_messageLabelIds

theorem isSpamOrTrash_iff : s.isSpamOrTrash m ↔ s.hasLabel m SPAM ∨ s.hasLabel m TRASH := by
  simp only [isSpamOrTrash, hasLabel, List.any_eq_true, Bool.and_eq_true, Bool.or_eq_true,
    carries_iff, decide_eq_true_eq, Table.mem_rows]
  constructor
  · rintro ⟨l, hl, hc, hg | hg⟩
    · exact .inl ⟨l, hl, hg, hc⟩
    · exact .inr ⟨l, hl, hg, hc⟩
  · rintro (⟨l, hl, hg, hc⟩ | ⟨l, hl, hg, hc⟩)
    · exact ⟨l, hl, hc, .inl hg⟩
    · exact ⟨l, hl, hc, .inr hg⟩

namespace WellFormed

variable (h : s.WellFormed)
include h

theorem hasLabel_iff (hl : l ∈ s.labels) :
    s.hasLabel m l.gmailId ↔ ⟨m, l.id⟩ ∈ s.messageLabels := by
  constructor
  · rintro ⟨l', hl', hg, hm⟩
    exact h.labelIds l' hl' l hl hg ▸ hm
  · exact fun hm => ⟨l, hl, rfl, hm⟩

theorem not_hasLabel_archive : ¬s.hasLabel m ARCHIVE_LABEL := by
  rintro ⟨l, hl, hg, hm⟩
  exact h.archiveUncarried _ hm l hl rfl hg

theorem hasLabel_insertLabel : (s.insertLabel id kind).hasLabel m g ↔ s.hasLabel m g := by
  simp only [hasLabel, Store.insertLabel, Table.mem_insertRow]
  constructor
  · rintro ⟨l, hl | rfl, hg, hm⟩
    · exact ⟨l, hl, hg, hm⟩
    · obtain ⟨l, hl, hid⟩ := h.labelLabel _ hm
      exact absurd hid (Table.lt_nextRowid hl).ne
  · rintro ⟨l, hl, hg, hm⟩
    exact ⟨l, .inl hl, hg, hm⟩

omit h in
theorem hasLabel_retypeLabel : (s.retypeLabel label kind).hasLabel m g ↔ s.hasLabel m g := by
  constructor
  · rintro ⟨l, hl, hg, hm⟩
    simp only [Store.retypeLabel, Table.mem_update] at hl
    obtain ⟨hl, _⟩ | ⟨l', hl', _, rfl⟩ := hl
    · exact ⟨l, hl, hg, hm⟩
    · exact ⟨l', hl', hg, hm⟩
  · rintro ⟨l, hl, hg, hm⟩
    exact Table.exists_mem_update (by intro; rfl) hl (by split <;> exact ⟨hg, hm⟩)

theorem hasLabel_upsertLabel (l : Label) : (s.upsertLabel l).hasLabel m g ↔ s.hasLabel m g := by
  rw [Store.upsertLabel]
  cases s.label? l.id
  case none     => exact h.hasLabel_insertLabel
  case some row => exact hasLabel_retypeLabel

theorem hasLabel_deleteLabel (hl : l ∈ s.labels) :
    (s.deleteLabel l.id).hasLabel m g ↔ s.hasLabel m g ∧ g ≠ l.gmailId := by
  simp only [hasLabel, Store.deleteLabel, Table.mem_delete, decide_eq_false_iff_not]
  constructor
  · rintro ⟨l', ⟨hl', hne⟩, rfl, hm, _⟩
    exact ⟨⟨l', hl', rfl, hm⟩, fun hg => hne (h.labelIds l' hl' l hl hg ▸ rfl)⟩
  · rintro ⟨⟨l', hl', rfl, hm⟩, hne⟩
    have hne : l'.id ≠ l.id := fun hid => hne (Table.eq_of_key_eq hl' hl hid ▸ rfl)
    exact ⟨l', ⟨hl', hne⟩, rfl, hm, hne⟩

end WellFormed

theorem hasLabel_clearMessageLabels :
    (s.clearMessageLabels message).hasLabel m g ↔ m ≠ message ∧ s.hasLabel m g := by
  simp only [hasLabel, clearMessageLabels, Table.mem_delete, decide_eq_false_iff_not]
  constructor
  · rintro ⟨l, hl, hg, hm, hne⟩; exact ⟨hne, l, hl, hg, hm⟩
  · rintro ⟨hne, l, hl, hg, hm⟩; exact ⟨l, hl, hg, hm, hne⟩

theorem hasLabel_deleteMessage :
    (s.deleteMessage message).hasLabel m g ↔ m ≠ message ∧ s.hasLabel m g :=
  hasLabel_clearMessageLabels

-- A write that only adds labels and message labels, whose other tables are as before.
theorem insertMessageLabel_eq (hs : s.insertMessageLabel message label = .ok s') :
    (∃ m ∈ s.messages, m.id = message) ∧
    s' = { s with messageLabels := s.messageLabels.insertOrIgnore ⟨message, label⟩ } := by
  rw [insertMessageLabel] at hs
  split at hs <;> cases hs
  exact ⟨find?_messages_isSome.mp ‹_›, rfl⟩

theorem hasLabel_insertMessageLabel (hl : l ∈ s.labels)
    (hs : s.insertMessageLabel message l.id = .ok s') :
    s'.hasLabel m g ↔ s.hasLabel m g ∨ (m = message ∧ g = l.gmailId) := by
  have ⟨_, hs⟩ := insertMessageLabel_eq hs
  subst hs
  simp only [hasLabel, Table.mem_insertOrIgnore_id, MessageLabel.mk.injEq]
  constructor
  · rintro ⟨l', hl', rfl, hm | ⟨rfl, hid⟩⟩
    · exact .inl ⟨l', hl', rfl, hm⟩
    · exact .inr ⟨rfl, congrArg _ (Table.eq_of_key_eq hl' hl hid)⟩
  · rintro (⟨l', hl', rfl, hm⟩ | ⟨rfl, rfl⟩)
    · exact ⟨l', hl', rfl, .inl hm⟩
    · exact ⟨l, hl, rfl, .inr ⟨rfl, rfl⟩⟩

namespace WellFormed

-- What a label put on a message does: the label gets a row if it has none, and the message carries
-- it from then on.
theorem applyLabel_cases (h : s.WellFormed) (hs : s.applyLabel message id = .ok s') :
    id ≠ ARCHIVE_LABEL ∧ ∃ s₁ l, l ∈ s₁.labels ∧ l.gmailId = id ∧
      (s₁ = s ∨ (s.label? id = none ∧ ∃ kind, s₁ = s.insertLabel id kind)) ∧
      s₁.insertMessageLabel message l.id = .ok s' := by
  rw [Store.applyLabel] at hs
  split at hs
  case isTrue  => cases hs
  case isFalse ha =>
    obtain ⟨row, hr, he⟩ | ⟨hn, kind, he⟩ := s.labelRowid_cases id <;> simp only [he] at hs
    · obtain ⟨hr, hg⟩ := h.label?_eq_some.mp hr
      exact ⟨ha, s, row, hr, hg, .inl rfl, hs⟩
    · exact ⟨ha, _, ⟨s.labels.nextRowid, id, kind.row⟩, by simp [Store.insertLabel], rfl,
        .inr ⟨hn, kind, rfl⟩, hs⟩

theorem hasLabel_applyLabel (h : s.WellFormed) (hs : s.applyLabel message id = .ok s') :
    s'.hasLabel m g ↔ s.hasLabel m g ∨ (m = message ∧ g = id) := by
  obtain ⟨_, s₁, l, hl, rfl, rfl | ⟨hn, kind, rfl⟩, hs₁⟩ := h.applyLabel_cases hs
  · exact hasLabel_insertMessageLabel hl hs₁
  · rw [hasLabel_insertMessageLabel hl hs₁, h.hasLabel_insertLabel]

theorem hasLabel_applyLabels (h : s.WellFormed)
    (hs : ids.foldlM (·.applyLabel message) s = .ok s') :
    s'.hasLabel m g ↔ s.hasLabel m g ∨ (m = message ∧ g ∈ ids) := by
  induction ids generalizing s
  case nil => cases List.foldlM_nil_eq_ok.mp hs; simp
  case cons id ids ih =>
    have ⟨s₁, h₁, hs⟩ := List.foldlM_cons_eq_ok.mp hs
    rw [ih (h.applyLabel h₁) hs, h.hasLabel_applyLabel h₁, List.mem_cons]
    tauto

theorem hasLabel_replaceMessageLabels (h : s.WellFormed)
    (hs : s.replaceMessageLabels message ids = .ok s') :
    s'.hasLabel m g ↔ if m = message then g ∈ ids else s.hasLabel m g := by
  rw [h.clearMessageLabels.hasLabel_applyLabels hs, hasLabel_clearMessageLabels]
  split <;> simp_all

end WellFormed

-- Putting labels on a message leaves every other table as it is.
theorem applyLabel_frame (hs : s.applyLabel message id = .ok s') :
    ∃ labels messageLabels, s' = { s with labels, messageLabels } := by
  rw [applyLabel] at hs
  split at hs
  case isTrue  => cases hs
  case isFalse =>
    obtain ⟨row, _, he⟩ | ⟨_, kind, he⟩ := s.labelRowid_cases id <;>
    · simp only [he] at hs
      exact ⟨_, _, (insertMessageLabel_eq hs).right⟩

theorem replaceMessageLabels_frame (hs : s.replaceMessageLabels message ids = .ok s') :
    ∃ labels messageLabels, s' = { s with labels, messageLabels } := by
  refine List.foldlM_preserves (P := fun s' => ∃ labels messageLabels,
    s' = { s with labels, messageLabels }) hs ?step ⟨_, _, rfl⟩
  rintro _ _ _ _ ⟨_, _, rfl⟩ hs
  have ⟨labels, messageLabels, he⟩ := applyLabel_frame hs
  exact ⟨labels, messageLabels, he⟩

end Store
end Kaluta
