import Kaluta.Store.Recompute
import Kaluta.Store.Labels

namespace Kaluta

open SystemLabels

namespace Store

variable {s s' : Store} {t : ThreadRow} {id g : LabelId} {ids : List LabelId}
variable {label message thread : Rowid} {kind : LabelKind} {l : LabelRow}

-- A label is on some message of the thread.
def hasLabelOn (s : Store) (thread : Rowid) (id : LabelId) : Prop :=
  ∃ m ∈ s.messagesOf thread, s.hasLabel m.id id

theorem belongsInArchive_iff : s.belongsInArchive thread ↔
    ¬s.hasLabelOn thread INBOX ∧
    ∃ m ∈ s.messagesOf thread, ¬s.hasLabel m.id SPAM ∧ ¬s.hasLabel m.id TRASH := by
  have spam : ∀ m : MessageRow, s.isSpamOrTrash m.id = false ↔
      ¬s.hasLabel m.id SPAM ∧ ¬s.hasLabel m.id TRASH := by
    intro m
    rw [← not_or, ← isSpamOrTrash_iff, Bool.not_eq_true]
  simp [belongsInArchive, hasLabelOn, hasLabel, Table.mem_rows, spam]

theorem hasLabelOn_congr (hm : s'.messagesOf thread = s.messagesOf thread)
    (hl : ∀ m ∈ s.messagesOf thread, ∀ g, s'.hasLabel m.id g ↔ s.hasLabel m.id g) :
    s'.hasLabelOn thread g ↔ s.hasLabelOn thread g := by
  simp only [hasLabelOn, hm]
  constructor
  · rintro ⟨m, hm, hg⟩; exact ⟨m, hm, (hl m hm g).mp hg⟩
  · rintro ⟨m, hm, hg⟩; exact ⟨m, hm, (hl m hm g).mpr hg⟩

theorem belongsInArchive_congr (hm : s'.messagesOf thread = s.messagesOf thread)
    (hl : ∀ m ∈ s.messagesOf thread, ∀ g, s'.hasLabel m.id g ↔ s.hasLabel m.id g) :
    s'.belongsInArchive thread = s.belongsInArchive thread := by
  rw [Bool.eq_iff_iff, belongsInArchive_iff, belongsInArchive_iff, hasLabelOn_congr hm hl, hm]
  refine and_congr_right fun _ => exists_congr fun m => and_congr_right fun hm => ?_
  rw [hl m hm, hl m hm]

theorem threadMessages_congr (hm : s'.messagesOf thread = s.messagesOf thread) :
    s'.threadMessages thread = s.threadMessages thread := by
  rw [threadMessages, threadMessages, hm]

namespace WellFormed

theorem mem_labelIdsOn (h : s.WellFormed) : g ∈ s.labelIdsOn thread ↔ s.hasLabelOn thread g := by
  simp only [labelIdsOn, labelsOn, List.mem_map, List.mem_insertionSort, List.mem_filter,
    Bool.and_eq_true, decide_eq_true_eq, List.any_eq_true, carries_iff, Table.mem_rows, hasLabelOn]
  constructor
  · rintro ⟨l, ⟨hl, _, m, hm, hc⟩, rfl⟩
    exact ⟨m, hm, l, hl, rfl, hc⟩
  · rintro ⟨m, hm, l, hl, rfl, hc⟩
    refine ⟨l, ⟨hl, fun hv => ?_, m, hm, hc⟩, rfl⟩
    exact h.archiveUncarried _ hc l hl rfl (h.virtualArchive l hl hv)

theorem mem_labelsOn (h : s.WellFormed) :
    l ∈ s.labelsOn thread ↔ l ∈ s.labels ∧ s.hasLabelOn thread l.gmailId := by
  constructor
  · intro hl
    refine ⟨?_, h.mem_labelIdsOn.mp (List.mem_map_of_mem hl)⟩
    simp only [labelsOn, List.mem_insertionSort, List.mem_filter] at hl
    exact hl.left
  · rintro ⟨hl, hg⟩
    obtain ⟨l', hl', hg⟩ := List.mem_map.mp (h.mem_labelIdsOn.mpr hg)
    have hm : l' ∈ s.labels := by
      simp only [labelsOn, List.mem_insertionSort, List.mem_filter] at hl'
      exact hl'.left
    exact h.labelIds l' hm l hl hg ▸ hl'

theorem labelIdsOn_sorted : (s.labelIdsOn thread).SortedLE := by
  have sorted : ∀ ls : List LabelRow,
      ((ls.insertionSort (·.gmailId ≤ ·.gmailId)).map (·.gmailId)).SortedLE := by
    intro ls
    rw [List.map_insertionSort _ (· ≤ ·) _ _ fun _ _ _ _ => Iff.rfl]
    exact List.sortedLE_insertionSort
  exact sorted _

theorem labelIdsOn_nodup (h : s.WellFormed) : (s.labelIdsOn thread).Nodup := by
  have nodup : (s.labels.rows.map (·.gmailId)).Nodup :=
    (List.nodup_map_iff_inj_on s.labels.nodup.of_map).mpr h.labelIds
  rw [labelIdsOn, labelsOn, ((List.perm_insertionSort _ _).map _).nodup_iff]
  exact (List.filter_sublist.map _).nodup nodup

-- The ids a thread's row lists are determined by which labels its messages have.
theorem labelIdsOn_congr (h : s.WellFormed) (h' : s'.WellFormed)
    (hl : ∀ g, s'.hasLabelOn thread g ↔ s.hasLabelOn thread g) :
    s'.labelIdsOn thread = s.labelIdsOn thread := by
  refine List.Perm.eq_of_sortedLE labelIdsOn_sorted labelIdsOn_sorted ?_
  rw [List.perm_ext_iff_of_nodup h'.labelIdsOn_nodup h.labelIdsOn_nodup]
  intro g
  rw [h.mem_labelIdsOn, h'.mem_labelIdsOn, hl g]

end WellFormed

-- A label's mailbox is one that a thread belongs in.
def belongsIn (s : Store) (thread : Rowid) (id : LabelId) : Prop :=
  s.hasLabelOn thread id ∨ (id = ARCHIVE_LABEL ∧ s.belongsInArchive thread)

def isInMailbox (s : Store) (thread label : Rowid) : Prop :=
  ∃ tl ∈ s.threadLabels, tl.threadId = thread ∧ tl.labelId = label

-- A thread whose row and mailboxes are what its messages make them.
structure Settled (s : Store) (t : ThreadRow) : Prop where
  nonempty  : s.threadMessages t.id ≠ []
  row       : t = t.aggregate (s.threadMessages t.id) nonempty (s.labelIdsOn t.id)
  mailboxes : ∀ l ∈ s.labels, s.isInMailbox t.id l.id ↔ s.belongsIn t.id l.gmailId
  sortKey   : ∀ tl ∈ s.threadLabels, tl.threadId = t.id → tl.lastMessageAt = t.lastMessageAt
  archive   : s.belongsInArchive t.id → ∃ l ∈ s.labels, l.gmailId = ARCHIVE_LABEL

namespace Settled

variable (h : s.Settled t) (wf : s.WellFormed)
include h wf

-- A write that leaves a thread's messages, their labels and the thread's mailboxes as they were
-- leaves it settled.
theorem transfer (wf' : s'.WellFormed) (hm : s'.messagesOf t.id = s.messagesOf t.id)
    (hl : ∀ m ∈ s.messagesOf t.id, ∀ g, s'.hasLabel m.id g ↔ s.hasLabel m.id g)
    (htl : ∀ tl ∈ s'.threadLabels, tl.threadId = t.id → tl ∈ s.threadLabels)
    (mailboxes : ∀ l ∈ s'.labels, s'.isInMailbox t.id l.id ↔ s.belongsIn t.id l.gmailId)
    (archive : s.belongsInArchive t.id → ∃ l ∈ s'.labels, l.gmailId = ARCHIVE_LABEL) :
    s'.Settled t :=
  have messages := threadMessages_congr hm
  have ha := belongsInArchive_congr hm hl
  { nonempty  := messages ▸ h.nonempty
    row       := by
      have := wf.labelIdsOn_congr wf' fun g => hasLabelOn_congr hm hl
      simp only [messages, this]
      exact h.row
    mailboxes := fun l hl' => by
      rw [mailboxes l hl', belongsIn, belongsIn, hasLabelOn_congr hm hl, ha]
    sortKey   := fun tl htl' ht => h.sortKey tl (htl tl htl' ht) ht
    archive   := ha ▸ archive }

theorem frame (wf' : s'.WellFormed) (hlabels : s'.labels = s.labels)
    (hm : s'.messagesOf t.id = s.messagesOf t.id)
    (hl : ∀ m ∈ s.messagesOf t.id, ∀ g, s'.hasLabel m.id g ↔ s.hasLabel m.id g)
    (htl : ∀ tl, tl.threadId = t.id → (tl ∈ s'.threadLabels ↔ tl ∈ s.threadLabels)) :
    s'.Settled t := by
  refine h.transfer wf wf' hm hl (fun tl h ht => (htl tl ht).mp h) ?mailboxes (hlabels ▸ h.archive)
  intro l hl'
  rw [← h.mailboxes l (hlabels ▸ hl')]
  constructor
  · rintro ⟨tl, htl', ht, hid⟩; exact ⟨tl, (htl tl ht).mp htl', ht, hid⟩
  · rintro ⟨tl, htl', ht, hid⟩; exact ⟨tl, (htl tl ht).mpr htl', ht, hid⟩

theorem insertLabel (hn : s.label? id = none) : (s.insertLabel id kind).Settled t := by
  refine h.transfer wf (wf.insertLabel hn) rfl (fun _ _ _ => wf.hasLabel_insertLabel)
    (fun _ htl _ => htl) ?mailboxes ?archive
  case mailboxes =>
    intro l hl
    obtain hl | rfl := Table.mem_insertRow.mp hl
    · exact h.mailboxes l hl
    · -- no mailbox and no message can name a row that was not there
      refine iff_of_false ?_ ?_
      · rintro ⟨tl, htl, _, hid⟩
        have ⟨l, hl, hid'⟩ := wf.mailboxLabel tl htl
        exact absurd (hid'.trans hid) (Table.lt_nextRowid hl).ne
      · have hn := label?_eq_none.mp hn
        rintro (⟨m, _, l, hl, hg, _⟩ | ⟨ha, hb⟩)
        · exact hn l hl hg
        · have ⟨l, hl, hg⟩ := h.archive hb
          exact hn l hl (hg.trans ha.symm)
  case archive =>
    intro hb
    have ⟨l, hl, hg⟩ := h.archive hb
    exact ⟨l, Table.mem_insertRow.mpr (.inl hl), hg⟩

theorem retypeLabel : (s.retypeLabel label kind).Settled t := by
  refine h.transfer wf wf.retypeLabel rfl (fun _ _ _ => WellFormed.hasLabel_retypeLabel)
    (fun _ htl _ => htl) ?mailboxes ?archive
  case mailboxes =>
    intro l hl
    simp only [Store.retypeLabel, Table.mem_update] at hl
    obtain ⟨hl, _⟩ | ⟨l', hl', _, rfl⟩ := hl
    · exact h.mailboxes l hl
    · exact h.mailboxes l' hl'
  case archive =>
    intro hb
    obtain ⟨l, hl, hg⟩ := h.archive hb
    exact Table.exists_mem_update (by intro; rfl) hl (by split <;> exact hg)

-- A label can go while a thread that is not in its mailbox stays settled.
theorem deleteLabel (hl : l ∈ s.labels) (hout : ¬s.isInMailbox t.id l.id) :
    (s.deleteLabel l.id).Settled t := by
  have out : ¬s.belongsIn t.id l.gmailId := fun hb => hout ((h.mailboxes l hl).mpr hb)
  refine h.transfer wf wf.deleteLabel rfl ?labels ?htl ?mailboxes ?archive
  case labels =>
    intro m hm g
    rw [wf.hasLabel_deleteLabel hl]
    exact ⟨And.left, fun hg => ⟨hg, fun he => out (.inl ⟨m, hm, he ▸ hg⟩)⟩⟩
  case htl => exact fun tl htl _ => (Table.mem_delete.mp htl).left
  case mailboxes =>
    intro l' hl'
    have ⟨hl', hne⟩ := Table.mem_delete.mp hl'
    rw [← h.mailboxes l' hl']
    constructor
    · rintro ⟨tl, htl, ht, hid⟩
      exact ⟨tl, (Table.mem_delete.mp htl).left, ht, hid⟩
    · rintro ⟨tl, htl, ht, hid⟩
      exact ⟨tl, Table.mem_delete.mpr ⟨htl, by simpa [hid] using hne⟩, ht, hid⟩
  case archive =>
    intro hb
    have ⟨l', hl', hg⟩ := h.archive hb
    refine ⟨l', Table.mem_delete.mpr ⟨hl', ?_⟩, hg⟩
    by_cases hid : l'.id = l.id
    case pos => exact absurd (.inr ⟨Table.eq_of_key_eq hl' hl hid ▸ hg, hb⟩) out
    case neg => simp [hid]

end Settled
end Store
end Kaluta
